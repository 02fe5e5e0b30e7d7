import TaintScan.Proofs.Token.Delimiter

/-! # The quick test for embedded expressions

The lexer calls a string interpolated if a quick test finds a sign that may start an expression; the
expressions are found by a scan that steps over what is escaped. Those that the test hides are braced,
in strings where no dollar sign stands before a name.
-/
namespace TaintScan

open Text.Utf8 (Bytes)

namespace Byte

theorem find?_isSome_append {text : String} {rest : Bytes} (hne : rest ≠ []) (h : startsWith text rest = true)
    (before : Bytes) : (find? text (before ++ rest)).isSome = true := by
  induction before with
  | nil =>
    cases rest with
    | nil => exact absurd rfl hne
    | cons b rest => simp [find?, h]
  | cons b before ih =>
    rw [List.cons_append, find?]
    split
    · rfl
    · rwa [Option.isSome_map]

end Byte

namespace Interpolation

variable {style : Interpolation} {base skip depth offset start stop width : Nat} {b : UInt8} {bytes rest : Bytes}

def openBrace : UInt8 := Byte.of '{'
def closeBrace : UInt8 := Byte.of '}'
def dollar : UInt8 := Byte.of '$'

/-! ## Steps of the scan -/

theorem exists_piece_of_segmentsFrom (h : segmentsFrom style base skip bytes ≠ []) :
    ∃ before rest start stop width, bytes = before ++ rest ∧ piece style rest = .embedded start stop width := by
  induction bytes generalizing base skip with
  | nil => exact absurd rfl h
  | cons b bytes ih =>
    have hlater {base skip : Nat} (h : segmentsFrom style base skip bytes ≠ []) :
        ∃ before rest start stop width, b :: bytes = before ++ rest ∧
          piece style rest = .embedded start stop width := by
      obtain ⟨before, rest, start, stop, width, rfl, hpiece⟩ := ih h
      exact ⟨b :: before, rest, start, stop, width, rfl, hpiece⟩
    cases skip with
    | succ skip => exact hlater h
    | zero =>
      cases hpiece : piece style (b :: bytes) with
      | text width =>
        simp only [segmentsFrom, hpiece] at h
        exact hlater h
      | embedded start stop width => exact ⟨[], b :: bytes, start, stop, width, rfl, hpiece⟩

theorem signs_of_embedded {lead : UInt8}
    (h : (if bytes.head? == some Opening.backslash then .text 2
      else if bytes.head? == some lead && bytes[1]? == some openBrace then braced 1 bytes
      else .text 1) = Piece.embedded start stop width) :
    bytes.head? = some lead ∧ bytes[1]? = some openBrace ∧ braced 1 bytes = .embedded start stop width := by
  split at h
  · cases h
  split at h
  · next hsigns =>
    simp only [Bool.and_eq_true, beq_iff_eq] at hsigns
    exact ⟨hsigns.1, hsigns.2, h⟩
  · cases h

theorem find?_isSome_of_signs {text : String} {lead : UInt8} (htext : Byte.ofAscii text = [lead, openBrace])
    (hlead : rest.head? = some lead) (hbrace : rest[1]? = some openBrace) (before : Bytes) :
    (Byte.find? text (before ++ rest)).isSome = true := by
  obtain ⟨tail, rfl⟩ := List.head?_eq_some_iff.mp hlead
  obtain ⟨tail, rfl⟩ := List.head?_eq_some_iff.mp (List.head?_eq_getElem?.trans hbrace)
  apply Byte.find?_isSome_append (by simp)
  simp [Byte.startsWith, htext]

theorem mayEmbed_of_piece (hstyle : style ≠ .dollarName) (h : piece style rest = .embedded start stop width)
    (before : Bytes) : mayEmbed style (before ++ rest) = true := by
  cases style with
  | none => cases h
  | dollarName => exact absurd rfl hstyle
  | dollarBrace | hashBrace =>
    obtain ⟨hlead, hbrace, -⟩ := signs_of_embedded h
    exact find?_isSome_of_signs rfl hlead hbrace before
  | brace =>
    dsimp only [piece] at h
    split at h
    · next hfirst =>
      have hmem := List.mem_of_head? (eq_of_beq hfirst)
      simp [mayEmbed, hmem]
    · cases h

theorem mayEmbed_of_segmentsFrom (hstyle : style ≠ .dollarName) (h : segmentsFrom style base skip bytes ≠ []) :
    mayEmbed style bytes = true := by
  obtain ⟨before, rest, start, stop, width, rfl, hpiece⟩ := exists_piece_of_segmentsFrom h
  exact mayEmbed_of_piece hstyle hpiece before

/-! ## Braced expressions -/

/-- The bytes up to some place close `depth` braces more than they open. -/
def EvensOut (depth : Nat) (bytes : Bytes) : Prop :=
  ∃ inner after, bytes = inner ++ after ∧ depth + inner.count openBrace = inner.count closeBrace

/-- No part at the front closes `depth` braces more than it opens. -/
def StaysOpen (depth : Nat) (bytes : Bytes) : Prop :=
  ∀ y, y <+: bytes → y.count closeBrace < depth + y.count openBrace

theorem StaysOpen.cons {depth' : Nat} (h : StaysOpen depth' rest) (hdepth : 0 < depth)
    (hcount : ∀ y : Bytes, depth' + y.count openBrace + (b :: y).count closeBrace =
      depth + (b :: y).count openBrace + y.count closeBrace) : StaysOpen depth (b :: rest) := by
  intro y hy
  rcases List.prefix_cons_iff.mp hy with rfl | ⟨z, rfl, hz⟩
  · exact hdepth
  · have := h z hz
    have := hcount z
    omega

theorem closingBrace?_cases (hdepth : 0 < depth) (offset : Nat) (bytes : Bytes) :
    (closingBrace? depth offset bytes = Option.none ∧ StaysOpen depth bytes) ∨
    ∃ inner after, bytes = inner ++ closeBrace :: after ∧
      closingBrace? depth offset bytes = some (offset + inner.length) ∧ StaysOpen depth inner ∧
      depth + inner.count openBrace = inner.count closeBrace + 1 := by
  induction bytes generalizing depth offset with
  | nil =>
    refine Or.inl ⟨rfl, fun y hy => ?_⟩
    rw [List.prefix_nil.mp hy]
    exact hdepth
  | cons b rest ih =>
    -- The first byte goes to those within the braces.
    have hcons {depth' : Nat} (hdepth' : 0 < depth')
        (hcount : ∀ y : Bytes, depth' + y.count openBrace + (b :: y).count closeBrace =
          depth + (b :: y).count openBrace + y.count closeBrace) :
        (closingBrace? depth' (offset + 1) rest = Option.none ∧ StaysOpen depth (b :: rest)) ∨
        ∃ inner after, b :: rest = inner ++ closeBrace :: after ∧
          closingBrace? depth' (offset + 1) rest = some (offset + inner.length) ∧ StaysOpen depth inner ∧
          depth + inner.count openBrace = inner.count closeBrace + 1 := by
      rcases ih hdepth' (offset + 1) with ⟨hnone, hopen⟩ | ⟨inner, after, rfl, hsome, hopen, heven⟩
      · exact Or.inl ⟨hnone, hopen.cons hdepth hcount⟩
      · have := hcount inner
        refine Or.inr ⟨b :: inner, after, rfl, ?_, hopen.cons hdepth hcount, by omega⟩
        rw [hsome, List.length_cons, Nat.add_assoc, Nat.add_comm 1]
    rw [closingBrace?]
    split
    · next hb =>
      refine hcons (Nat.succ_pos depth) fun y => ?_
      rw [eq_of_beq hb, openBrace, List.count_cons_self, List.count_cons_of_ne (by decide)]
      omega
    split
    · next hb =>
      split
      · refine Or.inr ⟨[], rest, by rw [eq_of_beq hb]; rfl, rfl, fun y hy => ?_, ?_⟩
        · rw [List.prefix_nil.mp hy]
          exact hdepth
        · rw [List.count_nil, List.count_nil]
          omega
      · refine hcons (by omega) fun y => ?_
        rw [eq_of_beq hb, closeBrace, List.count_cons_self, List.count_cons_of_ne (by decide)]
        omega
    · next hopen hclose =>
      have hopen : b ≠ openBrace := fun h => hopen (beq_of_eq h)
      have hclose : b ≠ closeBrace := fun h => hclose (beq_of_eq h)
      exact hcons hdepth fun y => by rw [List.count_cons_of_ne hopen, List.count_cons_of_ne hclose]

theorem closingBrace?_isSome_iff (hdepth : 0 < depth) :
    (closingBrace? depth offset bytes).isSome = true ↔ EvensOut depth bytes := by
  rcases closingBrace?_cases hdepth offset bytes with ⟨hnone, hopen⟩ | ⟨inner, after, rfl, hsome, -, heven⟩
  · refine iff_of_false (by simp [hnone]) ?_
    rintro ⟨inner, after, rfl, heven⟩
    have := hopen inner (List.prefix_append inner after)
    omega
  · refine iff_of_true (by simp [hsome]) ⟨inner ++ [closeBrace], after, by simp, ?_⟩
    simp [List.count_cons_of_ne (show closeBrace ≠ openBrace by decide)]
    omega

/-! ## Names and braced expressions behind a dollar sign -/

/-- A dollar sign and a name stand at the front. -/
def StartsName (bytes : Bytes) : Prop := ∃ b after, bytes = dollar :: b :: after ∧ Byte.isIdentStart b = true

/-- An expression stands at the front that starts with a brace and a dollar sign, and closes as many braces as it
opens. -/
def StartsBraced (bytes : Bytes) : Prop :=
  ∃ expr after, bytes = openBrace :: dollar :: expr ++ after ∧
    1 + expr.count openBrace = expr.count closeBrace

theorem braced_zero_cases (rest : Bytes) :
    (StartsBraced (openBrace :: dollar :: rest) ∧ ∃ start stop width,
      braced 0 (openBrace :: dollar :: rest) = .embedded start stop width) ∨
    (¬StartsBraced (openBrace :: dollar :: rest) ∧ braced 0 (openBrace :: dollar :: rest) = .text 1) := by
  have hclosing : closingBrace? 0 0 (openBrace :: dollar :: rest) = closingBrace? 1 2 rest := rfl
  have heven : StartsBraced (openBrace :: dollar :: rest) ↔ EvensOut 1 rest := by
    simp [StartsBraced, EvensOut]
  have hsome : (closingBrace? 1 2 rest).isSome = true ↔ EvensOut 1 rest := closingBrace?_isSome_iff Nat.one_pos
  rw [heven, ← hsome, braced, List.drop_zero, hclosing]
  cases closingBrace? 1 2 rest with
  | some close => exact Or.inl ⟨rfl, _, _, _, rfl⟩
  | none => exact Or.inr ⟨by simp, rfl⟩

theorem startsName_iff {d : UInt8} : StartsName (b :: d :: rest) ↔ b = dollar ∧ Byte.isIdentStart d = true := by
  constructor
  · rintro ⟨_, _, heq, hd⟩
    cases heq
    exact ⟨rfl, hd⟩
  · rintro ⟨rfl, hd⟩
    exact ⟨d, rest, rfl, hd⟩

theorem StartsBraced.signs {d : UInt8} (h : StartsBraced (b :: d :: rest)) : b = openBrace ∧ d = dollar := by
  obtain ⟨expr, after, heq, -⟩ := h
  cases heq
  exact ⟨rfl, rfl⟩

section

variable (hb : b ≠ Opening.backslash)
include hb

theorem piece_dollarName {d : UInt8} :
    piece .dollarName (b :: d :: rest) =
      if b == openBrace && d == dollar then braced 0 (b :: d :: rest)
      else if b == dollar && Byte.isIdentStart d then
        .embedded 0 (1 + ((d :: rest).takeWhile Byte.isIdentContinue).length)
          (1 + ((d :: rest).takeWhile Byte.isIdentContinue).length)
      else .text 1 := by
  have hfirst : (some b == some Opening.backslash) = false := by simp [hb]
  simp only [piece, List.head?_cons, hfirst]
  rfl

/-- What stands at the front of a string's bytes, for the expressions that start with a dollar sign or with a brace
before one. -/
theorem piece_dollarName_cases (d : UInt8) (rest : Bytes) :
    ((StartsName (b :: d :: rest) ∨ StartsBraced (b :: d :: rest)) ∧
      ∃ start stop width, piece .dollarName (b :: d :: rest) = .embedded start stop width) ∨
    (¬(StartsName (b :: d :: rest) ∨ StartsBraced (b :: d :: rest)) ∧
      piece .dollarName (b :: d :: rest) = .text 1) := by
  rw [piece_dollarName hb, startsName_iff]
  split
  · next hsigns =>
    simp only [Bool.and_eq_true, beq_iff_eq] at hsigns
    obtain ⟨rfl, rfl⟩ := hsigns
    have hname : ¬(openBrace = dollar ∧ Byte.isIdentStart dollar = true) := by decide
    rcases braced_zero_cases rest with h | ⟨hbraced, htext⟩
    · exact Or.inl (h.imp_left Or.inr)
    · exact Or.inr ⟨not_or.mpr ⟨hname, hbraced⟩, htext⟩
  · next hsigns =>
    have hbraced : ¬StartsBraced (b :: d :: rest) := by
      intro h
      exact hsigns (by simp [h.signs])
    split
    · next hname =>
      simp only [Bool.and_eq_true, beq_iff_eq] at hname
      exact Or.inl ⟨Or.inl hname, _, _, _, rfl⟩
    · next hname =>
      simp only [Bool.and_eq_true, beq_iff_eq] at hname
      exact Or.inr ⟨not_or.mpr ⟨hname, hbraced⟩, rfl⟩

/-! ## What is not escaped -/

/-- Every backslash of the bytes takes one of them with it. -/
def pairedEscapes : Bytes → Bool
  | [] => true
  | [b] => b != Opening.backslash
  | b :: d :: rest => if b == Opening.backslash then pairedEscapes rest else pairedEscapes (d :: rest)

theorem pairedEscapes_cons : pairedEscapes (b :: rest) = pairedEscapes rest := by
  cases rest with
  | nil => simp [pairedEscapes, hb]
  | cons d rest => simp [pairedEscapes, hb]

/-- What `P` says holds of the bytes from some place on, and no backslash takes the first of them with it. -/
def Unescaped (P : Bytes → Prop) (bytes : Bytes) : Prop :=
  ∃ before rest, bytes = before ++ rest ∧ pairedEscapes before = true ∧ P rest

theorem unescaped_cons_iff {P : Bytes → Prop} :
    Unescaped P (b :: rest) ↔ P (b :: rest) ∨ Unescaped P rest := by
  constructor
  · rintro ⟨before, after, hparts, hpaired, h⟩
    cases before with
    | nil =>
      left
      rw [hparts]
      exact h
    | cons c before =>
      right
      rw [List.cons_append, List.cons.injEq] at hparts
      obtain ⟨rfl, rfl⟩ := hparts
      rw [pairedEscapes_cons hb] at hpaired
      exact ⟨before, after, rfl, hpaired, h⟩
  · rintro (h | ⟨before, after, rfl, hpaired, h⟩)
    · exact ⟨[], b :: rest, rfl, rfl, h⟩
    · exact ⟨b :: before, after, rfl, by rwa [pairedEscapes_cons hb], h⟩

end

theorem unescaped_pair_iff {P : Bytes → Prop} {d : UInt8} (hP : ∀ y, ¬P (Opening.backslash :: y)) :
    Unescaped P (Opening.backslash :: d :: rest) ↔ Unescaped P rest := by
  constructor
  · rintro ⟨before, after, hparts, hpaired, h⟩
    cases before with
    | nil =>
      rw [List.nil_append] at hparts
      rw [← hparts] at h
      exact absurd h (hP _)
    | cons b before =>
      rw [List.cons_append, List.cons.injEq] at hparts
      obtain ⟨rfl, hparts⟩ := hparts
      cases before with
      | nil => exact absurd hpaired (by decide)
      | cons c before =>
        rw [List.cons_append, List.cons.injEq] at hparts
        obtain ⟨rfl, rfl⟩ := hparts
        exact ⟨before, after, rfl, hpaired, h⟩
  · rintro ⟨before, after, rfl, hpaired, h⟩
    exact ⟨Opening.backslash :: d :: before, after, rfl, hpaired, h⟩

/-- An expression is found exactly if a name behind a dollar sign, or a braced expression that starts with one,
stands somewhere and is not escaped. -/
theorem segmentsFrom_dollarName_ne_nil_iff :
    segmentsFrom .dollarName base 0 bytes ≠ [] ↔ Unescaped (fun x => StartsName x ∨ StartsBraced x) bytes := by
  have hbackslash (x : Bytes) : ¬(StartsName (Opening.backslash :: x) ∨ StartsBraced (Opening.backslash :: x)) := by
    rintro (⟨_, _, h, -⟩ | ⟨_, _, h, -⟩)
    all_goals exact absurd (List.cons.inj h).1 (by decide)
  -- Either kind of expression takes two bytes at least.
  have hshort (x : Bytes) (hx : x.length < 2) : ¬Unescaped (fun x => StartsName x ∨ StartsBraced x) x := by
    rintro ⟨before, rest, rfl, -, ⟨_, _, rfl, -⟩ | ⟨_, _, rfl, -⟩⟩
    all_goals simp at hx
    all_goals omega
  fun_induction pairedEscapes bytes generalizing base with
  | case1 => simpa [segmentsFrom] using hshort [] (by simp)
  | case2 b =>
    have hnil : segmentsFrom .dollarName base 0 [b] = [] := by
      by_cases hb : b = Opening.backslash
      · simp [segmentsFrom, piece, hb]
      · simp [segmentsFrom, piece, hb]
    simpa [hnil] using hshort [b] (by simp)
  | case3 b d rest hb ih =>
    rw [eq_of_beq hb, unescaped_pair_iff hbackslash]
    exact ih
  | case4 b d rest hb ih =>
    have hb : b ≠ Opening.backslash := fun h => hb (beq_of_eq h)
    have hrest : segmentsFrom .dollarName (base + 1) 0 (d :: rest) ≠ [] ↔ _ := ih
    rw [unescaped_cons_iff hb, ← hrest, segmentsFrom]
    rcases piece_dollarName_cases hb d rest with ⟨hstarts, start, stop, width, hpiece⟩ | ⟨hnone, hpiece⟩
    · simp [hpiece, hstarts]
    · simp [hpiece, hnone]

theorem mayEmbed_dollarName_iff :
    mayEmbed .dollarName bytes = true ↔ ∃ before rest, bytes = before ++ rest ∧ StartsName rest := by
  induction bytes with
  | nil =>
    refine iff_of_false (by decide) ?_
    rintro ⟨before, rest, hparts, b, after, rfl, -⟩
    simp at hparts
  | cons b bytes ih =>
    have hcons : (∃ before rest, b :: bytes = before ++ rest ∧ StartsName rest) ↔
        StartsName (b :: bytes) ∨ ∃ before rest, bytes = before ++ rest ∧ StartsName rest := by
      constructor
      · rintro ⟨before, rest, hparts, h⟩
        cases before with
        | nil => exact Or.inl (hparts ▸ h)
        | cons c before => exact Or.inr ⟨before, rest, (List.cons.inj hparts).2, h⟩
      · rintro (h | ⟨before, rest, rfl, h⟩)
        · exact ⟨[], _, rfl, h⟩
        · exact ⟨b :: before, rest, rfl, h⟩
    rw [hcons, ← ih]
    cases bytes with
    | nil => simp [mayEmbed, StartsName]
    | cons d rest =>
      rw [startsName_iff]
      simp [mayEmbed, dollar]

/-- What the quick test hides: braced expressions behind a dollar sign, where no name stands behind one. -/
theorem segmentsFrom_hidden_iff :
    segmentsFrom style base 0 bytes ≠ [] ∧ mayEmbed style bytes = false ↔
      style = .dollarName ∧ (∀ before rest, bytes = before ++ rest → ¬StartsName rest) ∧
        Unescaped StartsBraced bytes := by
  by_cases hstyle : style = .dollarName
  · subst hstyle
    have hnames : mayEmbed .dollarName bytes = false ↔ ∀ before rest, bytes = before ++ rest → ¬StartsName rest := by
      rw [← Bool.not_eq_true, mayEmbed_dollarName_iff]
      simp only [not_exists, not_and]
    rw [segmentsFrom_dollarName_ne_nil_iff, hnames]
    constructor
    · rintro ⟨⟨before, rest, hparts, hpaired, hstarts⟩, hnone⟩
      exact ⟨rfl, hnone, before, rest, hparts, hpaired, hstarts.resolve_left (hnone before rest hparts)⟩
    · rintro ⟨-, hnone, before, rest, hparts, hpaired, hbraced⟩
      exact ⟨⟨before, rest, hparts, hpaired, Or.inr hbraced⟩, hnone⟩
  · constructor
    · rintro ⟨hsegments, hquick⟩
      rw [mayEmbed_of_segmentsFrom hstyle hsegments] at hquick
      cases hquick
    · rintro ⟨h, -⟩
      exact absurd h hstyle

end Interpolation

namespace Token

variable {language : Language} {content : Bytes} {t : Token} {o : Opening}

def textKinds : List TokenKind := [.literal .string, .literal .interpolatedString]

theorem ClosedBy.interpolated_iff {m : Nat} (h : ClosedBy language content t o m) (hkind : t.kind ∈ textKinds)
    (ho : o.interpolating = true) :
    t.kind = .literal .interpolatedString ↔
      (Dialect.of language).interpolation.mayEmbed (t.bytesIn content) = true := by
  have heq := h.kind
  simp only [stringKind, ho, Bool.true_and] at heq
  rcases scan?_literal h.opening with hliteral | hliteral
  · rw [heq, hliteral]
    cases (Dialect.of language).interpolation.mayEmbed (t.bytesIn content) <;> decide
  · rw [hliteral, if_pos (by decide)] at heq
    rw [heq] at hkind
    exact absurd hkind (by decide)

theorem segments_eq (hkind : t.kind ∈ textKinds) (d : Dialect) (bytes : Bytes) :
    segments d t bytes = Interpolation.segmentsFrom d.interpolation t.span.start 0 bytes := by
  unfold segments
  split
  · next hstyle => rw [hstyle]
  · next hstyle => rw [hstyle]
  · next hcommand _ _ =>
    rw [hcommand] at hkind
    exact absurd hkind (by decide)
  · rfl

theorem interpolation_eq_dollarName_iff : (Dialect.of language).interpolation = .dollarName ↔ language = .php := by
  cases language <;> decide

/-- A string that embeds expressions is not called interpolated exactly if its expressions are braced, in the one
language where the quick test asks for a name, and no name stands behind a dollar sign. -/
theorem segments_of_uninterpolated_iff (ht : t ∈ lex language content) (hkind : t.kind ∈ textKinds)
    (ho : Opening.scan? language (content.drop t.span.start) = some o) (hembeds : o.interpolating = true) :
    (segments (.of language) t (t.bytesIn content) ≠ [] ∧ t.kind ≠ .literal .interpolatedString) ↔
      language = .php ∧
      (∀ before rest, t.bytesIn content = before ++ rest → ¬Interpolation.StartsName rest) ∧
      Interpolation.Unescaped Interpolation.StartsBraced (t.bytesIn content) := by
  have hsub : ∀ kind ∈ textKinds, kind ∈ stringKinds := forall_mem_of_all (by decide)
  obtain ⟨o', m, hclosed⟩ := exists_closedBy ht (hsub _ hkind)
  obtain rfl : o' = o := Option.some.inj (hclosed.opening.symm.trans ho)
  rw [segments_eq hkind, ne_eq (t.kind), hclosed.interpolated_iff hkind hembeds, Bool.not_eq_true,
    Interpolation.segmentsFrom_hidden_iff, interpolation_eq_dollarName_iff]

/-- An escaped brace, and one that starts an expression. -/
def bracedText : Bytes := Text.Utf8.encode "\"\\\x7b$\x7d \x7b$\x7bx\x7d\x7d\""

def bracedToken : Token := ⟨.literal .string, ⟨0, 13⟩, "\"\\\x7b$\x7d \x7b$\x7bx\x7d\x7d\"", 1, 1⟩

theorem segments_of_uninterpolated_iff_braced :
    bracedToken ∈ lex .php bracedText ∧ bracedToken.kind ∈ textKinds ∧
    (Opening.scan? .php (bracedText.drop bracedToken.span.start)).map (·.interpolating) = some true ∧
    segments (.of .php) bracedToken (bracedToken.bytesIn bracedText) = [⟨7, 11⟩] ∧
    (∀ before rest, bracedToken.bytesIn bracedText = before ++ rest → ¬Interpolation.StartsName rest) ∧
    Interpolation.Unescaped Interpolation.StartsBraced (bracedToken.bytesIn bracedText) := by
  have hmem : bracedToken ∈ lex .php bracedText := by decide +kernel
  have hopening : Opening.scan? .php (bracedText.drop bracedToken.span.start) =
      some (.quoted .php {} Opening.doubleQuote false) := by decide +kernel
  have hsegments : segments (.of .php) bracedToken (bracedToken.bytesIn bracedText) = [⟨7, 11⟩] := by decide +kernel
  have hhidden := (segments_of_uninterpolated_iff hmem (by decide) hopening rfl).mp ⟨by simp [hsegments], by decide⟩
  refine ⟨hmem, by decide, ?_, hsegments, hhidden.2⟩
  rw [hopening]
  rfl

/-- A string that embeds an expression and is not called interpolated. -/
theorem segments_of_plain_string :
    lex .php (Text.Utf8.encode "\"\x7b$\x7bx\x7d\x7d\"") =
      [⟨.literal .string, ⟨0, 8⟩, "\"\x7b$\x7bx\x7d\x7d\"", 1, 1⟩] ∧
    (Opening.scan? .php (Text.Utf8.encode "\"\x7b$\x7bx\x7d\x7d\"")).map (·.interpolating) = some true ∧
    segments (.of .php) ⟨.literal .string, ⟨0, 8⟩, "\"\x7b$\x7bx\x7d\x7d\"", 1, 1⟩
      (Text.Utf8.encode "\"\x7b$\x7bx\x7d\x7d\"") = [⟨2, 6⟩] := by
  decide +kernel

end Token
end TaintScan
