import TaintScan.Proofs.Token.Embedding

/-! # The places of embedded expressions

The expressions that are embedded in a token follow one another within it. Each is a name behind a dollar sign, or
stands between a brace and the first one that closes it.
-/
namespace TaintScan

open Text.Utf8 (Bytes)

namespace Interpolation

variable {style : Interpolation} {base skip depth offset start stop width close : Nat} {b : UInt8}
  {bytes before expr after : Bytes}

/-- No part at the front closes more braces than it opens, and all that are opened are closed. -/
def Balanced (x : Bytes) : Prop :=
  (∀ y, y <+: x → y.count closeBrace ≤ y.count openBrace) ∧ x.count openBrace = x.count closeBrace

/-- A dollar sign and a name, up to the end of the name. -/
def IsName (expr after : Bytes) : Prop :=
  (∃ b name, expr = dollar :: b :: name ∧ Byte.isIdentStart b = true ∧ ∀ c ∈ name, Byte.isIdentContinue c = true) ∧
    ∀ c ∈ after.head?, Byte.isIdentContinue c = false

/-- What stands between a brace and the one that closes it. -/
def IsBraced (before expr after : Bytes) : Prop :=
  before.getLast? = some openBrace ∧ after.head? = some closeBrace ∧ Balanced expr

/-- An expression between the bytes before it and those behind it. -/
def IsEmbedded (style : Interpolation) (before expr after : Bytes) : Prop :=
  (style = .dollarName ∧ IsName expr after) ∨ IsBraced before expr after

theorem braced_embedded {brace : Nat} (hb : bytes[brace]? = some openBrace)
    (h : braced brace bytes = .embedded start stop width) :
    width = stop + 1 ∧ ∃ before expr after, bytes = before ++ (expr ++ after) ∧ start = before.length ∧
      stop = start + expr.length ∧ IsBraced before expr after := by
  obtain ⟨hlt, hget⟩ := List.getElem?_eq_some_iff.mp hb
  have hdrop : bytes.drop brace = openBrace :: bytes.drop (brace + 1) := by
    rw [List.drop_eq_getElem_cons hlt, hget]
  have hclosing : closingBrace? 0 brace (bytes.drop brace) = closingBrace? 1 (brace + 1) (bytes.drop (brace + 1)) := by
    rw [hdrop]
    rfl
  rw [braced, hclosing] at h
  rcases closingBrace?_cases Nat.one_pos (brace + 1) (bytes.drop (brace + 1)) with
    ⟨hnone, -⟩ | ⟨expr, after, hparts, hsome, hopen, heven⟩
  · rw [hnone] at h
    cases h
  · rw [hsome] at h
    cases h
    refine ⟨rfl, bytes.take (brace + 1), expr, closeBrace :: after, ?_, ?_, rfl, ?_, rfl, fun y hy => ?_, ?_⟩
    · rw [← hparts, List.take_append_drop]
    · rw [List.length_take]
      omega
    · rw [List.take_succ_eq_append_getElem hlt, hget, List.getLast?_concat]
    · have := hopen y hy
      omega
    · omega

theorem isName_takeWhile {rest : Bytes} (h : rest[0]?.any Byte.isIdentStart = true) :
    IsName (dollar :: rest.takeWhile Byte.isIdentContinue) (rest.dropWhile Byte.isIdentContinue) := by
  cases rest with
  | nil => cases h
  | cons b rest =>
    have h : Byte.isIdentStart b = true := h
    have hb : Byte.isIdentContinue b = true := by
      simp only [Byte.isIdentStart, Byte.isIdentContinue, Bool.or_eq_true] at h ⊢
      exact h.imp_left Or.inl
    refine ⟨⟨b, rest.takeWhile Byte.isIdentContinue, ?_, h, List.all_eq_true.mp List.all_takeWhile⟩, fun c hc => ?_⟩
    · rw [List.takeWhile_cons_of_pos hb]
    · have hend := List.head?_dropWhile_not Byte.isIdentContinue (b :: rest)
      rwa [hc] at hend

theorem piece_embedded (h : piece style bytes = .embedded start stop width) :
    start < width ∧ stop ≤ width ∧ ∃ before expr after, bytes = before ++ (expr ++ after) ∧ start = before.length ∧
      stop = start + expr.length ∧ IsEmbedded style before expr after := by
  have hbraced {brace : Nat} (hb : bytes[brace]? = some openBrace) (h : braced brace bytes = .embedded start stop width) :
      start < width ∧ stop ≤ width ∧ ∃ before expr after, bytes = before ++ (expr ++ after) ∧ start = before.length ∧
        stop = start + expr.length ∧ IsEmbedded style before expr after := by
    obtain ⟨rfl, before, expr, after, hparts, hstart, hstop, hexpr⟩ := braced_embedded hb h
    exact ⟨by omega, by omega, before, expr, after, hparts, hstart, hstop, Or.inr hexpr⟩
  cases style with
  | none => cases h
  | dollarBrace | hashBrace =>
    obtain ⟨-, hb, h⟩ := signs_of_embedded h
    exact hbraced hb h
  | brace =>
    dsimp only [piece] at h
    split at h
    · next hfirst =>
      split at h
      · cases h
      · exact hbraced (List.head?_eq_getElem? ▸ eq_of_beq hfirst) h
    · cases h
  | dollarName =>
    dsimp only [piece] at h
    split at h
    · cases h
    split at h
    · next hsigns =>
      simp only [Bool.and_eq_true, beq_iff_eq] at hsigns
      exact hbraced (List.head?_eq_getElem? ▸ hsigns.1) h
    split at h
    · next hsigns =>
      cases h
      simp only [Bool.and_eq_true, beq_iff_eq] at hsigns
      obtain ⟨rest, rfl⟩ := List.head?_eq_some_iff.mp hsigns.1
      refine ⟨by omega, Nat.le_refl _, [], dollar :: rest.takeWhile Byte.isIdentContinue,
        rest.dropWhile Byte.isIdentContinue, ?_, rfl, ?_, Or.inl ⟨rfl, isName_takeWhile hsigns.2⟩⟩
      · rw [List.cons_append, List.takeWhile_append_dropWhile]
        rfl
      · simp [Nat.add_comm]
    · cases h

theorem segmentsFrom_start_ge : ∀ s ∈ segmentsFrom style base skip bytes, base + skip ≤ s.start := by
  induction bytes generalizing base skip with
  | nil => exact List.forall_mem_nil _
  | cons b rest ih =>
    have hlater {skip' : Nat} (hle : skip ≤ skip' + 1) :
        ∀ s ∈ segmentsFrom style (base + 1) skip' rest, base + skip ≤ s.start := by
      intro s hs
      have := ih s hs
      omega
    cases skip with
    | succ k => exact hlater (Nat.le_refl _)
    | zero =>
      rw [segmentsFrom]
      split
      · exact hlater (Nat.zero_le _)
      · exact List.forall_mem_cons.mpr ⟨Nat.le_add_right base _, hlater (Nat.zero_le _)⟩

theorem segmentsFrom_pairwise :
    (segmentsFrom style base skip bytes).Pairwise fun a b => a.start < b.start ∧ a.stop ≤ b.start := by
  induction bytes generalizing base skip with
  | nil => exact .nil
  | cons b rest ih =>
    cases skip with
    | succ k => exact ih
    | zero =>
      rw [segmentsFrom]
      split
      · exact ih
      · next start stop width hpiece =>
        obtain ⟨hstart, hstop, _, expr, _, -, -, hend, -⟩ := piece_embedded hpiece
        refine List.pairwise_cons.mpr ⟨fun s hs => ?_, ih⟩
        have := segmentsFrom_start_ge s hs
        simp only [Span.clamped]
        omega

theorem segmentsFrom_embedded :
    ∀ s ∈ segmentsFrom style base skip bytes, ∃ before expr after, bytes = before ++ (expr ++ after) ∧
      s = ⟨base + before.length, base + before.length + expr.length⟩ ∧ IsEmbedded style before expr after := by
  induction bytes generalizing base skip with
  | nil => exact List.forall_mem_nil _
  | cons b rest ih =>
    have hlater {skip' : Nat} : ∀ s ∈ segmentsFrom style (base + 1) skip' rest,
        ∃ before expr after, b :: rest = before ++ (expr ++ after) ∧
          s = ⟨base + before.length, base + before.length + expr.length⟩ ∧ IsEmbedded style before expr after := by
      intro s hs
      obtain ⟨before, expr, after, rfl, rfl, hexpr⟩ := ih s hs
      refine ⟨b :: before, expr, after, rfl, ?_, hexpr.imp_right fun h => ⟨?_, h.2⟩⟩
      · simp
        omega
      · rw [List.getLast?_cons, h.1]
        rfl
    cases skip with
    | succ k => exact hlater
    | zero =>
      rw [segmentsFrom]
      split
      · exact hlater
      · next start stop width hpiece =>
        refine List.forall_mem_cons.mpr ⟨?_, hlater⟩
        obtain ⟨-, -, before, expr, after, hparts, rfl, rfl, hexpr⟩ := piece_embedded hpiece
        refine ⟨before, expr, after, hparts, ?_, hexpr⟩
        simp only [Span.clamped, Span.mk.injEq, true_and]
        omega

end Interpolation

namespace Token

variable {language : Language} {content : Bytes} {t : Token}

theorem segments_cases (d : Dialect) (t : Token) (bytes : Bytes) :
    segments d t bytes = [] ∨
      segments d t bytes = Interpolation.segmentsFrom d.interpolation t.span.start 0 bytes := by
  unfold segments
  split
  · next hstyle => exact Or.inr (by rw [hstyle])
  · next hstyle => exact Or.inr (by rw [hstyle])
  · exact Or.inl rfl
  · exact Or.inr rfl

/-- The expressions embedded in a token lie within it and follow one another without overlap. Each is a name behind a
dollar sign, in the one language that has those, or stands between a brace and the first one that closes it. -/
theorem segments_placed (ht : t ∈ lex language content) :
    (segments (.of language) t (t.bytesIn content)).Pairwise (fun a b => a.start < b.start ∧ a.stop ≤ b.start) ∧
    ∀ s ∈ segments (.of language) t (t.bytesIn content),
      t.span.start ≤ s.start ∧ s.start ≤ s.stop ∧ s.stop ≤ t.span.stop ∧
      ∃ before expr after, t.bytesIn content = before ++ (expr ++ after) ∧
        s = ⟨t.span.start + before.length, t.span.start + before.length + expr.length⟩ ∧
        ((language = .php ∧ Interpolation.IsName expr after) ∨ Interpolation.IsBraced before expr after) := by
  rcases segments_cases (.of language) t (t.bytesIn content) with h | h
  · rw [h]
    exact ⟨.nil, List.forall_mem_nil _⟩
  rw [h]
  refine ⟨Interpolation.segmentsFrom_pairwise, fun s hs => ?_⟩
  obtain ⟨before, expr, after, hparts, rfl, hexpr⟩ := Interpolation.segmentsFrom_embedded s hs
  have hwithin := (lex_layout language content).within t ht
  have hlength : (t.bytesIn content).length = t.span.stop - t.span.start := by
    rw [bytesIn, List.length_take, List.length_drop]
    omega
  rw [hparts, List.length_append, List.length_append] at hlength
  refine ⟨Nat.le_add_right _ _, Nat.le_add_right _ _, by dsimp only; omega, before, expr, after, hparts, rfl, ?_⟩
  exact hexpr.imp_left fun h => ⟨interpolation_eq_dollarName_iff.mp h.1, h.2⟩

/-- A name, a dollar sign behind a backslash, an expression with braces in it, and a brace that nothing closes. -/
def nestedText : Bytes := Text.Utf8.encode "\"$a\\$b \x7b$c[\x7bd\x7d]\x7d \x7b\""

def nestedToken : Token where
  kind := .literal .interpolatedString
  span := ⟨0, 19⟩
  text := "\"$a\\$b \x7b$c[\x7bd\x7d]\x7d \x7b\""
  line := 1
  endLine := 1

theorem segments_placed_nested :
    segments (.of .php) nestedToken (nestedToken.bytesIn nestedText) = [⟨1, 3⟩, ⟨8, 15⟩] ∧
      ∃ before expr after, nestedToken.bytesIn nestedText = before ++ (expr ++ after) ∧
        ⟨8, 15⟩ = (⟨before.length, before.length + expr.length⟩ : Span) ∧
        (Interpolation.IsName expr after ∨ Interpolation.IsBraced before expr after) := by
  have hlex : nestedToken ∈ lex .php nestedText := by decide +kernel
  have hsegments : segments (.of .php) nestedToken (nestedToken.bytesIn nestedText) = [⟨1, 3⟩, ⟨8, 15⟩] := by
    decide +kernel
  refine ⟨hsegments, ?_⟩
  obtain ⟨-, -, -, before, expr, after, hparts, hspan, hexpr⟩ :=
    (segments_placed hlex).2 ⟨8, 15⟩ (by rw [hsegments]; decide)
  rw [show nestedToken.span.start = 0 from rfl, Nat.zero_add] at hspan
  exact ⟨before, expr, after, hparts, hspan, hexpr.imp_left And.right⟩

end Token
end TaintScan
