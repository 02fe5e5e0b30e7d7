import TaintScan.Proofs.Extract.Scopes
import TaintScan.Proofs.Token.Name

/-! # Spans stay within the unit

All tokens of a view, also those of an expression embedded in a string, lie within the content, and so
do the spans that are put together from them. So everything that is extracted from a unit lies within
it; and a parameter is named by an identifier, which holds no dot.
-/
namespace TaintScan

/-- The token lies within a unit, and if it is an identifier, it holds no dot. -/
structure SourceUnit.Fits (u : SourceUnit) (t : Token) : Prop where
  within : u.contains t.span = true
  name : t.kind = .identifier → '.' ∉ t.text.toList

theorem SourceUnit.contains_iff {u : SourceUnit} {span : Span} :
    u.contains span = true ↔ span.start ≤ span.stop ∧ span.stop ≤ u.size := by
  simp [contains]

namespace Token

theorem fits_lexFrom (u : SourceUnit) (s : LexState) {bytes : Text.Utf8.Bytes}
    (h : s.offset + bytes.length ≤ u.size) (language : Language) :
    ∀ t ∈ lexFrom (.of language) s 0 bytes, u.Fits t := by
  intro t ht
  obtain ⟨s', hreads⟩ := lexFrom_reads (.of language) s bytes
  have hwithin := hreads.layout.within t ht
  refine ⟨?_, hreads.undotted t ht⟩
  rw [SourceUnit.contains_iff]
  omega

theorem fits_lex (u : SourceUnit) : ∀ t ∈ lex u.language u.content.toList, u.Fits t := by
  refine fits_lexFrom u _ ?_ _
  simp [SourceUnit.size]

theorem fits_lexSpan (u : SourceUnit) (language : Language) (span : Span) (line : Nat) :
    ∀ t ∈ lexSpan language u.content span line, u.Fits t := by
  refine fits_lexFrom u _ ?_ _
  simp only [Array.length_toList, Array.size_extract, SourceUnit.size]
  omega

end Token

namespace View

variable {u : SourceUnit} {v : View} (h : ∀ t ∈ v.tokens, u.Fits t)
include h

theorem contains_of_getElem? {i : Nat} {t : Token} (ht : v.tokens[i]? = some t) :
    t.span.start ≤ t.span.stop ∧ t.span.stop ≤ u.size :=
  SourceUnit.contains_iff.mp (h t (Array.mem_of_getElem? ht)).within

theorem contains_spanBetween {first : Nat} (last : Nat) (hfirst : first < v.tokens.size) :
    u.contains (v.spanBetween first last) = true := by
  obtain ⟨t, ht⟩ : ∃ t, v.tokens[first]? = some t := ⟨_, Array.getElem?_eq_getElem hfirst⟩
  have hstart := contains_of_getElem? h ht
  rw [SourceUnit.contains_iff]
  simp only [spanBetween, ht, Option.map_some, Option.getD_some, Span.clamped]
  cases hlast : v.tokens[last]? with
  | none =>
    simp only [Option.map_none, Option.getD_none]
    omega
  | some t' =>
    have hstop := contains_of_getElem? h hlast
    simp only [Option.map_some, Option.getD_some]
    omega

theorem contains_closingSpan (i : Nat) : u.contains (Builder.closingSpan v i) = true := by
  rw [SourceUnit.contains_iff]
  unfold Builder.closingSpan
  cases ht : v.tokens[i - 1]? with
  | none =>
    simp only [Option.map_none, Option.getD_none]
    omega
  | some t =>
    have hstop := contains_of_getElem? h ht
    simp only [Option.map_some, Option.getD_some]
    omega

theorem undotted_textAt {i : Nat} (hi : v.isIdentAt i = true) : '.' ∉ (v.textAt i).toList := by
  unfold isIdentAt at hi
  unfold textAt
  cases ht : v.tok? i with
  | none =>
    rw [ht] at hi
    cases hi
  | some t =>
    rw [ht] at hi
    exact (h t (Array.mem_of_getElem? (tokens_of_tok? ht))).name (eq_of_beq hi)

end View

def Likeness.within (u : SourceUnit) (bound : Nat) : Likeness where
  view v w := v = w ∧ v.bound = bound ∧ v.unit = u ∧ ∀ t ∈ v.tokens, u.Fits t
  span s t := s = t ∧ u.contains s = true
  alike h := h.1 ▸ .refl _
  focus h _ _ _ _ _ := by
    obtain ⟨rfl, h⟩ := h
    exact ⟨rfl, h⟩
  token h _ _ _ ht hu := by
    obtain ⟨rfl, _, _, hfits⟩ := h
    cases ht.symm.trans hu
    exact ⟨rfl, (hfits _ (Array.mem_of_getElem? ht)).within⟩
  spanBetween h _ last hfirst := by
    obtain ⟨rfl, _, _, hfits⟩ := h
    exact ⟨rfl, View.contains_spanBetween hfits last hfirst⟩
  segments h _ _ _ ht hu := by
    obtain ⟨rfl, hbound, hunit, hfits⟩ := h
    cases ht.symm.trans hu
    refine List.forall₂_same.mpr fun segment _ => ⟨rfl, hbound, hunit, fun t' ht' => ?_⟩
    have ht' := (List.mem_filter.mp (List.mem_toArray.mp ht')).1
    rw [hunit] at ht'
    exact Token.fits_lexSpan u _ _ _ t' ht'
  mark s t := s = t ∧ u.contains s = true
  name text := '.' ∉ text.toList
  bound h := by rw [h.1]
  mark_of_span h := h
  outside := ⟨rfl, SourceUnit.contains_iff.mpr ⟨Nat.le_refl _, Nat.zero_le _⟩⟩
  closing h i := by
    obtain ⟨rfl, _, _, hfits⟩ := h
    exact ⟨rfl, View.contains_closingSpan hfits i⟩
  identifier h _ hi := View.undotted_textAt h.2.2.2 hi

theorem SourceUnit.extract_within {u : SourceUnit} {bound : Nat} {countdown c : Countdown}
    {x : ExtractedUnit} (h : u.extract bound countdown = (.ok x, c)) : x.Alike (.within u bound) x := by
  have hview : (Likeness.within u bound).view (u.tokenView (Token.lex u.language u.content.toList) bound)
      (u.tokenView (Token.lex u.language u.content.toList) bound) := by
    refine ⟨rfl, rfl, rfl, fun t ht => ?_⟩
    exact Token.fits_lex u t (List.mem_filter.mp (List.mem_toArray.mp ht)).1
  obtain ⟨y, hy, halike⟩ := extract_alike _ hview h
  cases h.symm.trans hy
  exact halike

end TaintScan
