import TaintScan.Proofs.Extract.Alike
import TaintScan.Proofs.Shift.Token

/-! # Extraction behind empty lines

A view of moved tokens answers every query as before: whether two tokens touch, whether a line ends
between them, and how far a line is indented depend on differences of offsets and lines alone. So a unit
behind empty lines is extracted alike, with all its spans moved.
-/
namespace TaintScan

theorem Token.toArray_filter_moved (k : Nat) {p : Token → Bool} (hp : ∀ t, p (t.moved k) = p t)
    (ts : List Token) : ((ts.map (moved k)).filter p).toArray = (ts.filter p).toArray.map (moved k) := by
  have hcomp : p ∘ moved k = p := funext hp
  rw [List.filter_map, hcomp, List.map_toArray]

namespace View

variable (k : Nat) (v : View)

def moved : View := { v with unit := v.unit.moved k, tokens := v.tokens.map (Token.moved k) }

theorem getElem?_moved (i : Nat) : (v.moved k).tokens[i]? = v.tokens[i]?.map (Token.moved k) :=
  Array.getElem?_map

theorem offsetOf_moved {i : Nat} (h : i < v.tokens.size) : (v.moved k).offsetOf i = v.offsetOf i + k := by
  obtain ⟨t, ht⟩ : ∃ t, v.tokens[i]? = some t := ⟨_, Array.getElem?_eq_getElem h⟩
  unfold offsetOf
  rw [getElem?_moved, ht]
  rfl

theorem indentOf_moved (i : Nat) : (v.moved k).indentOf i = v.indentOf i := by
  unfold indentOf
  by_cases h : i < v.tokens.size
  · rw [offsetOf_moved k v h]
    exact congrArg (·.2 - 1) (v.unit.position_moved k (v.offsetOf i))
  · -- A token that is missing counts as one at the very start, in either view.
    have hmissing : v.tokens[i]? = none := Array.getElem?_eq_none (Nat.le_of_not_lt h)
    have hstart (u : SourceUnit) : (u.lines.position 0).2 = 1 := by
      rw [u.lines_eq, LineIndex.column_zero]
    simp only [offsetOf, getElem?_moved, hmissing, Option.map_none, Option.getD_none, hstart]

theorem lineIndent_moved {i : Nat} (h : i < v.tokens.size) : (v.moved k).lineIndent i = v.lineIndent i := by
  have hunit : (v.moved k).unit = v.unit.moved k := rfl
  have hstop (line : Nat) : ((v.unit.moved k).lines.lineStart? (line + k + 1)).getD (v.unit.moved k).size =
      (v.unit.lines.lineStart? (line + 1)).getD v.unit.size + k := by
    rw [Nat.add_right_comm, v.unit.lineStart?_moved k (Nat.succ_pos line), v.unit.size_moved]
    cases v.unit.lines.lineStart? (line + 1) <;> rfl
  simp only [lineIndent, offsetOf_moved k v h, hunit, SourceUnit.position_moved, SourceUnit.start_moved, hstop]
  exact congrArg (fun bytes => (bytes.takeWhile fun b => b == 32 || b == 9).length)
    (v.unit.slice_moved k ⟨_, _⟩)

theorem breaksAt_moved (i : Nat) : (v.moved k).breaksAt i = v.breaksAt i := by
  unfold breaksAt
  rw [getElem?_moved, getElem?_moved]
  cases v.tokens[i - 1]? with
  | none => rfl
  | some previous =>
    cases v.tokens[i]? with
    | none => rfl
    | some next => simp [Token.moved]

theorem touches_moved (i j : Nat) : (v.moved k).touches i j = v.touches i j := by
  unfold touches
  rw [getElem?_moved, getElem?_moved]
  cases v.tokens[i]? with
  | none => rfl
  | some previous =>
    cases v.tokens[j]? with
    | none => rfl
    | some next =>
      rw [Bool.eq_iff_iff]
      simp [Token.moved, Span.moved]

theorem alike_moved : v.Alike (v.moved k) where
  dialect := rfl
  limit := rfl
  nesting := rfl
  stmtStart := rfl
  receiver := rfl
  stopAtAppend := rfl
  tokens := by
    rw [moved, Array.toList_map, List.forall₂_map_right_iff, List.forall₂_same]
    exact fun _ _ => ⟨rfl, rfl⟩
  breaksAt := breaksAt_moved k v
  touches := touches_moved k v
  indentOf := indentOf_moved k v
  lineIndent _ := lineIndent_moved k v

theorem spanBetween_moved {first : Nat} (last : Nat) (h : first < v.tokens.size) :
    (v.moved k).spanBetween first last = (v.spanBetween first last).moved k := by
  have hspan (w : View) : w.spanBetween first last =
      .clamped (w.offsetOf first) ((w.tokens[last]?.map (·.span.stop)).getD (w.offsetOf first)) := rfl
  have hstop (start : Nat) : ((v.moved k).tokens[last]?.map (·.span.stop)).getD (start + k) =
      (v.tokens[last]?.map (·.span.stop)).getD start + k := by
    rw [getElem?_moved]
    cases v.tokens[last]? <;> rfl
  rw [hspan, hspan, offsetOf_moved k v h, hstop, Span.clamped_moved]

theorem inside_moved (t : Token) (segment : Span) :
    (v.moved k).inside (t.moved k) (segment.moved k) = (v.inside t segment).moved k := by
  have htokens : ((Token.lexSpan v.language (v.unit.moved k).content (segment.moved k)
      (t.line + k)).filter (·.isParsed)).toArray =
      ((Token.lexSpan v.language v.unit.content segment t.line).filter (·.isParsed)).toArray.map
        (Token.moved k) := by
    rw [Token.lexSpan_moved, Token.toArray_filter_moved k fun _ => rfl]
  have hlanguage : (v.moved k).language = v.language := rfl
  have hunit : (v.moved k).unit = v.unit.moved k := rfl
  have hline : (t.moved k).line = t.line + k := rfl
  simp only [inside, hlanguage, hunit, hline, htokens, Array.size_map]
  rfl

end View

def Likeness.moved (k : Nat) : Likeness where
  view v w := w = v.moved k
  span s t := t = s.moved k
  alike h := h ▸ View.alike_moved k _
  focus h _ _ _ _ _ := by
    cases h
    rfl
  token h _ _ _ ht hu := by
    cases h
    rw [View.getElem?_moved, ht] at hu
    cases hu
    rfl
  spanBetween h _ last hfirst := by
    cases h
    exact View.spanBetween_moved k _ last hfirst
  segments {v} _ h _ t _ ht hu := by
    cases h
    rw [View.getElem?_moved, ht] at hu
    cases hu
    have hsegments : (t.moved k).segments v.dialect ((v.unit.moved k).slice (t.span.moved k)) =
        (t.segments v.dialect (v.unit.slice t.span)).map (Span.moved k) := by
      rw [SourceUnit.slice_moved, Token.segments_moved]
    refine hsegments ▸ List.forall₂_map_right_iff.mpr (List.forall₂_same.mpr fun segment _ => ?_)
    exact View.inside_moved k v t segment
  mark _ _ := True
  name _ := True
  bound h := by
    cases h
    rfl
  mark_of_span _ := trivial
  outside := trivial
  closing _ _ := trivial
  identifier _ _ _ := trivial

theorem SourceUnit.extract_moved {u : SourceUnit} (k : Nat) {bound : Nat} {countdown c : Countdown}
    {x : ExtractedUnit} (h : u.extract bound countdown = (.ok x, c)) :
    ∃ y, (u.moved k).extract bound countdown = (.ok y, c) ∧ x.Alike (.moved k) y := by
  have htokens : ((Token.lex (u.moved k).language (u.moved k).content.toList).filter
      (·.kind != .comment)).toArray =
      ((Token.lex u.language u.content.toList).filter (·.kind != .comment)).toArray.map (Token.moved k) := by
    rw [Token.lex_moved, Token.toArray_filter_moved k fun _ => rfl]
  have hview : (Likeness.moved k).view (u.tokenView (Token.lex u.language u.content.toList) bound)
      ((u.moved k).tokenView (Token.lex (u.moved k).language (u.moved k).content.toList) bound) := by
    simp only [Likeness.moved, tokenView, htokens, Array.size_map]
    rfl
  exact extract_alike (.moved k) hview h

end TaintScan
