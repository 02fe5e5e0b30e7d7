import TaintScan.Proofs.Text.Utf8
import TaintScan.Proofs.Token.Delimiter

/-! # The value of a string literal

The value of a literal is read off its text alone. It is what the lexer finds between the
delimiters, but for strings in which a quote that is doubled to stand for itself follows the opening
one.
-/
namespace TaintScan

open Text.Utf8 (Bytes isValid encode encodeChar)

namespace Text.Utf8

theorem flatMap_encodeChar_inj {cs ds : List Char} (h : cs.flatMap encodeChar = ds.flatMap encodeChar) : cs = ds := by
  have hdecode := decodeFrom_flatMap cs
  rw [h, decodeFrom_flatMap] at hdecode
  exact (Option.some.inj hdecode).symm

def charOf (b : UInt8) : Char := Char.ofNat b.toNat

theorem flatMap_map_charOf {x : Bytes} (h : ∀ b ∈ x, encodeChar (charOf b) = [b]) :
    (x.map charOf).flatMap encodeChar = x := by
  induction x with
  | nil => rfl
  | cons b x ih =>
    obtain ⟨hb, hx⟩ := List.forall_mem_cons.mp h
    rw [List.map_cons, List.flatMap_cons, hb, ih hx]
    rfl

end Text.Utf8

open Text.Utf8

namespace Literal

variable {q : Char} {before cs : List Char}

theorem dropClosing_append (q : Char) (n : Nat) (cs : List Char) :
    dropClosing q n (cs ++ List.replicate n q) = cs := by
  have hsuffix : (List.replicate n q).isSuffixOf (cs ++ List.replicate n q) = true :=
    List.isSuffixOf_iff_suffix.mpr (List.suffix_append _ _)
  rw [dropClosing, if_pos hsuffix]
  simp

theorem length_dropClosing_le (q : Char) (n : Nat) (cs : List Char) : (dropClosing q n cs).length ≤ cs.length := by
  unfold dropClosing
  split
  · rw [List.length_take]
    omega
  · exact Nat.le_refl _

theorem dropWhile_before (hq : isQuote q = true) (hbefore : ∀ c ∈ before, isQuote c = false) (rest : List Char) :
    (before ++ q :: rest).dropWhile (!isQuote ·) = q :: rest := by
  induction before with
  | nil => simp [hq]
  | cons c before ih =>
    obtain ⟨hc, hbefore⟩ := List.forall_mem_cons.mp hbefore
    simpa [hc] using ih hbefore

theorem valueChars_triple (hq : isQuote q = true) (hbefore : ∀ c ∈ before, isQuote c = false) (cs : List Char) :
    valueChars (before ++ [q, q, q] ++ cs ++ [q, q, q]) = cs := by
  have hrest : before ++ [q, q, q] ++ cs ++ [q, q, q] = before ++ q :: (q :: q :: cs ++ [q, q, q]) := by simp
  have hroom : 5 ≤ (encode (String.ofList (q :: q :: cs ++ [q, q, q]))).length := by
    have hpos : 1 ≤ (encodeChar q).length := List.length_pos_iff.mpr (encodeChar_ne_nil q)
    simp only [encode, String.toList_ofList, List.cons_append, List.flatMap_cons, List.flatMap_append,
      List.length_append, List.flatMap_nil, List.length_nil]
    omega
  have htriple : ([q, q].isPrefixOf (q :: q :: cs ++ [q, q, q]) &&
      decide (5 ≤ (encode (String.ofList (q :: q :: cs ++ [q, q, q]))).length)) = true := by
    rw [decide_eq_true hroom]
    simp
  rw [hrest, valueChars, dropWhile_before hq hbefore]
  dsimp only
  rw [if_pos htriple]
  exact dropClosing_append q 3 cs

/-- The value of a text with one quote at each end is what stands between them, unless that starts with two quotes
and is four bytes long at least. -/
theorem valueChars_single_iff (hq : isQuote q = true) (hone : (encodeChar q).length = 1)
    (hbefore : ∀ c ∈ before, isQuote c = false) (cs : List Char) :
    valueChars (before ++ [q] ++ cs ++ [q]) = cs ↔ ¬([q, q] <+: cs ∧ 4 ≤ (cs.flatMap encodeChar).length) := by
  have hrest : before ++ [q] ++ cs ++ [q] = before ++ q :: (cs ++ [q]) := by simp
  have hwidth : (encode (String.ofList (cs ++ [q]))).length = (cs.flatMap encodeChar).length + 1 := by
    simp [encode, hone]
  rw [hrest, valueChars, dropWhile_before hq hbefore]
  dsimp only
  rw [hwidth]
  split
  · next htriple =>
    simp only [Bool.and_eq_true, decide_eq_true_eq, List.isPrefixOf_iff_prefix] at htriple
    obtain ⟨hpre, hroom⟩ := htriple
    -- One character alone would be a quote, which is one byte.
    rcases cs with _ | ⟨a, _ | ⟨b, cs⟩⟩
    · simp at hroom
    · simp only [List.cons_append, List.nil_append, List.cons_prefix_cons] at hpre
      rw [← hpre.1] at hroom
      simp [hone] at hroom
    · simp only [List.cons_append, List.cons_prefix_cons, List.nil_prefix, and_true] at hpre
      obtain ⟨rfl, rfl⟩ := hpre
      have hshort := length_dropClosing_le q 3 (cs ++ [q])
      rw [List.length_append, List.length_singleton] at hshort
      have hne : dropClosing q 3 (cs ++ [q]) ≠ q :: q :: cs := by
        intro heq
        rw [heq, List.length_cons, List.length_cons] at hshort
        omega
      simp only [List.cons_append, List.drop_succ_cons, List.drop_zero]
      constructor
      · intro heq
        exact absurd heq hne
      · intro hnot
        exact absurd ⟨by simp, by omega⟩ hnot
  · next htriple =>
    simp only [Bool.and_eq_true, decide_eq_true_eq, List.isPrefixOf_iff_prefix] at htriple
    have hvalue : dropClosing q 1 (cs ++ [q]) = cs := dropClosing_append q 1 cs
    simp only [hvalue, true_iff]
    rintro ⟨hpre, hroom⟩
    exact htriple ⟨hpre.trans (List.prefix_append _ _), by omega⟩

end Literal

namespace Opening

theorem charOf_quote : ∀ b ∈ quoteBytes, encodeChar (charOf b) = [b] ∧ Literal.isQuote (charOf b) = true :=
  forall_mem_of_all (by decide)

theorem charOf_lead : ∀ b ∈ leadBytes, encodeChar (charOf b) = [b] ∧ Literal.isQuote (charOf b) = false :=
  forall_mem_of_all (by decide)

variable {o : Opening} {bytes before body : Bytes}

theorem Delimits.isValid_body (h : o.Delimits bytes before body) (hvalid : isValid bytes = true) :
    isValid body = true := by
  have hquote := (quoteBytes_ascii _ h.quote).1
  have hopening : isValid (before ++ o.delimiter) = true := by
    apply isValid_of_ascii
    intro b hb
    rcases List.mem_append.mp hb with hb | hb
    · exact (leadBytes_ascii b (h.before_lead b hb)).1
    · rw [mem_delimiter hb]
      exact hquote
  rw [h.parts, List.append_assoc] at hvalid
  obtain ⟨rest, hrest⟩ : ∃ rest, o.delimiter = o.quote :: rest := by
    cases htriple : o.triple with
    | true => exact ⟨_, delimiter_of_triple htriple⟩
    | false => exact ⟨_, delimiter_of_single htriple⟩
  have hbody := isValid_of_append hopening hvalid
  rw [hrest] at hbody
  exact (isValid_append_cons hquote hbody).1

theorem quotes_prefix_iff {q : UInt8} (hq : encodeChar (charOf q) = [q]) {cs : List Char} (hascii : q < 0x80) :
    [charOf q, charOf q] <+: cs ↔ [q, q] <+: cs.flatMap encodeChar := by
  constructor
  · rintro ⟨rest, rfl⟩
    simp [hq]
  · rintro ⟨rest, hrest⟩
    have hvalid : isValid ([q] ++ q :: rest) = true := isValid_iff.mpr ⟨cs, hrest.symm⟩
    obtain ⟨ds, rfl⟩ := isValid_iff.mp (isValid_append_cons hascii hvalid).2
    refine ⟨ds, flatMap_encodeChar_inj ?_⟩
    rw [← hrest]
    simp [hq]

theorem Delimits.value_iff (h : o.Delimits bytes before body) {s : String} (hs : encode s = bytes) :
    encode (Literal.value s) = body ↔ ¬(o.verbatim = true ∧ [o.quote, o.quote] <+: body ∧ 4 ≤ body.length) := by
  have hvalid : isValid bytes = true := isValid_iff.mpr ⟨s.toList, hs⟩
  obtain ⟨cs, rfl⟩ := isValid_iff.mp (h.isValid_body hvalid)
  obtain ⟨hquote, hisQuote⟩ := charOf_quote _ h.quote
  have hone : (encodeChar (charOf o.quote)).length = 1 := by rw [hquote]; rfl
  have hlead : ∀ c ∈ before.map charOf, Literal.isQuote c = false := by
    intro c hc
    obtain ⟨b, hb, rfl⟩ := List.mem_map.mp hc
    exact (charOf_lead b (h.before_lead b hb)).2
  have hbefore : (before.map charOf).flatMap encodeChar = before :=
    flatMap_map_charOf fun b hb => (charOf_lead b (h.before_lead b hb)).1
  have hdelimiter : (o.delimiter.map charOf).flatMap encodeChar = o.delimiter :=
    flatMap_map_charOf fun b hb => by rw [mem_delimiter hb]; exact hquote
  have htext : s.toList = before.map charOf ++ o.delimiter.map charOf ++ cs ++ o.delimiter.map charOf := by
    apply flatMap_encodeChar_inj
    simp only [List.flatMap_append, hbefore, hdelimiter]
    exact hs.trans h.parts
  have hvalue : encode (Literal.value s) = cs.flatMap encodeChar ↔ Literal.valueChars s.toList = cs := by
    unfold encode Literal.value
    rw [String.toList_ofList]
    exact ⟨flatMap_encodeChar_inj, congrArg _⟩
  rw [hvalue, htext]
  cases htriple : o.triple with
  | true =>
    rw [delimiter_of_triple htriple]
    have hplain : o.verbatim ≠ true := by
      intro hverbatim
      rw [h.verbatim hverbatim] at htriple
      cases htriple
    simp only [List.map_cons, List.map_nil]
    rw [Literal.valueChars_triple hisQuote hlead]
    simp [hplain]
  | false =>
    rw [delimiter_of_single htriple]
    simp only [List.map_cons, List.map_nil]
    rw [Literal.valueChars_single_iff hisQuote hone hlead, quotes_prefix_iff hquote (quoteBytes_ascii _ h.quote).1]
    cases hverbatim : o.verbatim with
    | true => simp
    | false =>
      -- A quote at the front would have closed the string.
      have hhead := h.head htriple hverbatim
      have hnot : ¬[o.quote, o.quote] <+: cs.flatMap encodeChar := by
        rintro ⟨rest, hrest⟩
        rw [← hrest] at hhead
        exact hhead rfl
      simp [hnot]

end Opening

namespace Token

/-- The value of a string literal is the text between the delimiter that the lexer has recognised and the one at
which it has stopped, unless a doubled quote stands for itself right behind the opening quote and the text has four
bytes at least; then it is not. -/
theorem value_between_delimiters {language : Language} {content : Bytes} {t : Token} (ht : t ∈ lex language content)
    (hkind : t.kind ∈ stringKinds) (hvalid : isValid (t.bytesIn content) = true) :
    ∃ o before body, Opening.scan? language (content.drop t.span.start) = some o ∧
      o.Delimits (t.bytesIn content) before body ∧
      o.readBody 0 (content.drop (t.span.start + o.width)) = .closed (body.length + o.delimiter.length) ∧
      (encode (Literal.value t.text) = body ↔
        ¬(o.verbatim = true ∧ [o.quote, o.quote] <+: body ∧ 4 ≤ body.length)) := by
  obtain ⟨o, m, hclosed⟩ := exists_closedBy ht hkind
  obtain ⟨before, body, hparts, rfl⟩ := hclosed.delimits
  refine ⟨o, before, body, hclosed.opening, hparts, hclosed.closed, hparts.value_iff ?_⟩
  obtain ⟨cs, hcs⟩ := isValid_iff.mp hvalid
  have hdecode : decode? (t.bytesIn content) = some (String.ofList cs) := by
    rw [decode?_eq_some_iff, encode, String.toList_ofList]
    exact hcs
  rw [hclosed.text, hdecode, Option.getD_some]
  exact decode?_eq_some_iff.mp hdecode

/-- A text with quotes in it, between three quotes. -/
def tripleQuoted : Bytes := encode "x = f\"\"\"a\"\"b\"\"\""

def tripleQuotedToken : Token := ⟨.literal .string, ⟨4, 15⟩, "f\"\"\"a\"\"b\"\"\"", 1, 1⟩

theorem value_between_delimiters_triple :
    tripleQuotedToken ∈ lex .python tripleQuoted ∧ tripleQuotedToken.kind ∈ stringKinds ∧
    isValid (tripleQuotedToken.bytesIn tripleQuoted) = true ∧ Literal.value tripleQuotedToken.text = "a\"\"b" ∧
    ∃ o before body, Opening.scan? .python (tripleQuoted.drop tripleQuotedToken.span.start) = some o ∧
      o.Delimits (tripleQuotedToken.bytesIn tripleQuoted) before body ∧
      o.readBody 0 (tripleQuoted.drop (tripleQuotedToken.span.start + o.width)) =
        .closed (body.length + o.delimiter.length) ∧
      (encode (Literal.value tripleQuotedToken.text) = body ↔
        ¬(o.verbatim = true ∧ [o.quote, o.quote] <+: body ∧ 4 ≤ body.length)) := by
  have hmem : tripleQuotedToken ∈ lex .python tripleQuoted := by decide +kernel
  have hkind : tripleQuotedToken.kind ∈ stringKinds := by decide
  have hvalid : isValid (tripleQuotedToken.bytesIn tripleQuoted) = true := by decide +kernel
  exact ⟨hmem, hkind, hvalid, by decide +kernel, value_between_delimiters hmem hkind hvalid⟩

/-- A doubled quote behind the opening quote makes the value of a text in which it stands for itself lose both its
ends. -/
theorem value_of_doubled_quote :
    lex .csharp (encode "@\"\"\"hi\"\"\"") = [⟨.literal .string, ⟨0, 9⟩, "@\"\"\"hi\"\"\"", 1, 1⟩] ∧
    (Opening.scan? .csharp (encode "@\"\"\"hi\"\"\"")).map
      (fun o => (o.width, o.readBody 0 ((encode "@\"\"\"hi\"\"\"").drop o.width))) = some (2, .closed 7) ∧
    decode? (((encode "@\"\"\"hi\"\"\"").drop 2).take 6) = some "\"\"hi\"\"" ∧
    Literal.value "@\"\"\"hi\"\"\"" = "hi" := by
  decide +kernel

end Token
end TaintScan
