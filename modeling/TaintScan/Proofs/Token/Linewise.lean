import TaintScan.Proofs.Shift.Token
import TaintScan.Proofs.Token.Cut

/-! # Lexing line by line

Where a line feed stands in no string and no block comment, the tokens before it are those of the
bytes before it, and the tokens behind it are those of the bytes behind it, further on.
-/
namespace TaintScan

open Text.Utf8 (Bytes)

namespace Token

variable {d : Dialect} {s s' : LexState} {c : UInt8} {x rest : Bytes} {ts : List Token} {offset : Nat} {t : Token}

/-! ## Logical lines -/

/-- The byte at the offset is in no token. -/
def outside (ts : List Token) (offset : Nat) : Bool :=
  ts.all fun t => offset < t.span.start || t.span.stop ≤ offset

/-- The number of line continuations: of backslashes outside of all tokens. The first byte has the given
offset. -/
def continuations (ts : List Token) (offset : Nat) : Bytes → Nat
  | [] => 0
  | c :: rest =>
    (if c == Opening.backslash && outside ts offset then 1 else 0) + continuations ts (offset + 1) rest

theorem continuations_append (ts : List Token) (offset : Nat) (x y : Bytes) :
    continuations ts offset (x ++ y) = continuations ts offset x + continuations ts (offset + x.length) y := by
  induction x generalizing offset with
  | nil => rw [List.nil_append, continuations, Nat.zero_add, List.length_nil, Nat.add_zero]
  | cons c x ih =>
    rw [List.cons_append, continuations, continuations, ih, List.length_cons, Nat.add_assoc, Nat.add_assoc,
      Nat.add_comm 1]

theorem continuations_of_ne (hc : c ≠ Opening.backslash) :
    continuations ts offset (c :: rest) = continuations ts (offset + 1) rest := by
  rw [continuations, beq_false_of_ne hc, Bool.false_and]
  exact Nat.zero_add _

theorem continuations_of_not_mem {x : Bytes} (hx : Opening.backslash ∉ x) : continuations ts offset x = 0 := by
  induction x generalizing offset with
  | nil => rfl
  | cons c x ih =>
    obtain ⟨hc, hx⟩ := List.ne_and_not_mem_of_not_mem_cons hx
    rw [continuations_of_ne hc.symm, ih hx]

theorem continuations_of_mem (ht : t ∈ ts) {x : Bytes} (hstart : t.span.start ≤ offset)
    (hstop : offset + x.length ≤ t.span.stop) : continuations ts offset x = 0 := by
  induction x generalizing offset with
  | nil => rfl
  | cons c x ih =>
    rw [List.length_cons] at hstop
    have hin : outside ts offset = false := by
      rw [outside, List.all_eq_false]
      refine ⟨t, ht, ?_⟩
      simp only [Bool.or_eq_true, decide_eq_true_eq]
      omega
    rw [continuations, hin, Bool.and_false, ih (by omega) (by omega)]
    rfl

theorem continuations_cons_of_le (h : t.span.stop ≤ offset) (x : Bytes) :
    continuations (t :: ts) offset x = continuations ts offset x := by
  induction x generalizing offset with
  | nil => rfl
  | cons c x ih =>
    have hout : outside (t :: ts) offset = outside ts offset := by
      rw [outside, List.all_cons, decide_eq_true h, Bool.or_true, Bool.true_and]
      rfl
    rw [continuations, continuations, hout, ih (Nat.le_succ_of_le h)]

theorem continuations_token {x : Bytes} (hspan : t.span = ⟨offset, offset + x.length⟩) (y : Bytes) :
    continuations (t :: ts) offset (x ++ y) = continuations ts (offset + x.length) y := by
  have hstart : t.span.start = offset := congrArg Span.start hspan
  have hstop : t.span.stop = offset + x.length := congrArg Span.stop hspan
  rw [continuations_append, continuations_of_mem List.mem_cons_self (Nat.le_of_eq hstart)
      (Nat.le_of_eq hstop.symm),
    continuations_cons_of_le (Nat.le_of_eq hstop), Nat.zero_add]

theorem continuations_join {gap : Bytes} (hgap : gap = [newline] ∨ gap = [13, newline])
    (hts : ∀ t ∈ ts, offset < t.span.start) (y : Bytes) :
    continuations ts offset (Opening.backslash :: (gap ++ y)) =
      newlines (Opening.backslash :: gap) + continuations ts (offset + (gap.length + 1)) y := by
  have hout : outside ts offset = true := by
    rw [outside, List.all_eq_true]
    intro t ht
    rw [decide_eq_true (hts t ht), Bool.true_or]
  have hplain : Opening.backslash ∉ gap := by
    rcases hgap with rfl | rfl
    · decide
    · decide
  have hfeed : newlines (Opening.backslash :: gap) = 1 := by
    rcases hgap with rfl | rfl
    · rfl
    · rfl
  rw [continuations, hout, continuations_append, continuations_of_not_mem hplain, hfeed, Nat.zero_add,
    Nat.add_right_comm, Nat.add_assoc]
  rfl

/-- The number of line feeds that no continuation takes out of the count of lines. -/
def lineBreaks (language : Language) (content : Bytes) : Nat :=
  newlines content - continuations (lex language content) 0 content

/-! ## The tokens around a line feed -/

/-- The bytes end in what would make a line feed behind them a continuation. -/
def JoinsNext (x : Bytes) : Prop := [Opening.backslash] <:+ x ∨ [Opening.backslash, 13] <:+ x

theorem JoinsNext.of_suffix {y : Bytes} (h : JoinsNext y) (hy : y <:+ x) : JoinsNext x :=
  h.imp (·.trans hy) (·.trans hy)

theorem continuation?_of_ne (hc : c ≠ Opening.backslash) (rest : Bytes) : continuation? (c :: rest) = none := by
  have hne : (c == Opening.backslash) = false := beq_false_of_ne hc
  unfold continuation?
  split
  · next heq =>
    cases heq
    rw [hne]
    rfl
  · next heq =>
    cases heq
    rw [hne]
    rfl
  · rfl

theorem continuation?_backslash (rest : Bytes) :
    continuation? (Opening.backslash :: rest) =
      if rest.head? = some newline then some 2
      else if rest.head? = some 13 ∧ rest[1]? = some newline then some 3 else none := by
  unfold continuation?
  split
  · next heq =>
    cases heq
    rfl
  · next heq =>
    cases heq
    rfl
  · next hfeed hreturn =>
    rcases rest with _ | ⟨c1, _ | ⟨c2, rest⟩⟩
    · rfl
    · rw [if_neg, if_neg]
      · rintro ⟨-, h⟩
        cases h
      · rintro h
        cases h
        exact hfeed _ _ rfl
    · rw [if_neg, if_neg]
      · rintro ⟨h, h'⟩
        cases h
        cases h'
        exact hreturn _ _ rfl
      · rintro h
        cases h
        exact hfeed _ _ rfl

theorem continuation?_cut (hjoin : ¬JoinsNext (c :: rest)) (b : Bytes) :
    continuation? (c :: (rest ++ newline :: b)) = continuation? (c :: rest) := by
  by_cases hc : c = Opening.backslash
  · subst hc
    rw [continuation?_backslash, continuation?_backslash]
    rcases rest with _ | ⟨c1, _ | ⟨c2, rest⟩⟩
    · exact absurd (Or.inl (List.suffix_refl _)) hjoin
    · have hreturn : c1 ≠ 13 := by
        rintro rfl
        exact hjoin (Or.inr (List.suffix_refl _))
      simp [hreturn]
    · rfl
  · rw [continuation?_of_ne hc, continuation?_of_ne hc]

theorem Reads.offset_eq (h : Reads d s x ts s') : s'.offset = s.offset + x.length := by
  induction h with
  | done s => rfl
  | line h ih | blank hb hline h ih | join hgap h ih =>
    rw [ih]
    simp
    omega
  | @token s s' c rest ts kind n hb hn hscan h ih =>
    have hparts := congrArg List.length (List.take_append_drop (n + 1) (c :: rest))
    rw [List.length_append, List.drop_succ_cons] at hparts
    rw [ih, ← hparts, ← Nat.add_assoc]
    rfl

/-- The offsets at which the lexer starts a token and at which it ends, with their lines. -/
def stops (ts : List Token) (s : LexState) : List (Nat × Nat) :=
  ts.map (fun t => (t.span.start, t.line)) ++ [(s.offset, s.line)]

theorem Reads.line_at_stop (h : Reads d s x ts s') : ∀ p ∈ stops ts s', s.offset ≤ p.1 ∧ s.line ≤ p.2 ∧
    p.2 + continuations ts s.offset (x.take (p.1 - s.offset)) = s.line + newlines (x.take (p.1 - s.offset)) := by
  -- The bytes that a move passes over stand before every later stop.
  have htake {offset stop : Nat} {gap : Bytes} (hle : offset + gap.length ≤ stop) (rest : Bytes) :
      (gap ++ rest).take (stop - offset) = gap ++ rest.take (stop - (offset + gap.length)) := by
    obtain ⟨k, rfl⟩ := Nat.exists_eq_add_of_le hle
    rw [Nat.add_sub_cancel_left, Nat.add_assoc, Nat.add_sub_cancel_left, List.take_length_add_append]
  induction h with
  | done s => simp [stops, newlines, continuations]
  | @line s s' rest ts h ih =>
    intro p hp
    obtain ⟨hle, hline, hcount⟩ := ih p hp
    refine ⟨Nat.le_of_succ_le hle, Nat.le_of_succ_le hline, ?_⟩
    rw [show newline :: rest = [newline] ++ rest from rfl, htake hle, List.singleton_append,
      continuations_of_ne (by decide), newlines, List.count_cons_self]
    exact hcount.trans (Nat.add_right_comm s.line 1 _)
  | @blank s s' b rest ts hb hline h ih =>
    intro p hp
    obtain ⟨hle, hlines, hcount⟩ := ih p hp
    have hback : b ≠ Opening.backslash := by
      rintro rfl
      exact absurd hb (by decide)
    refine ⟨Nat.le_of_succ_le hle, hlines, ?_⟩
    rw [show b :: rest = [b] ++ rest from rfl, htake hle, List.singleton_append, continuations_of_ne hback, newlines,
      List.count_cons_of_ne hline]
    exact hcount
  | @join s s' gap rest ts hgap h ih =>
    intro p hp
    obtain ⟨hle, hlines, hcount⟩ := ih p hp
    have hts (t : Token) (ht : t ∈ ts) : s.offset < t.span.start :=
      Nat.lt_of_lt_of_le (Nat.lt_add_of_pos_right (Nat.succ_pos _)) (h.layout.within t ht).1
    refine ⟨Nat.le_of_add_right_le hle, hlines, ?_⟩
    rw [← List.cons_append, htake hle, List.cons_append, continuations_join hgap hts, ← List.cons_append, newlines,
      newlines, List.count_append]
    simp only [newlines, List.length_cons] at hcount ⊢
    omega
  | @token s s' c rest ts kind n hb hn hscan h ih =>
    refine List.forall_mem_cons.mpr ⟨by simp [ofBytes, newlines, continuations], fun p hp => ?_⟩
    obtain ⟨hle, hlines, hcount⟩ := ih p hp
    have hparts : (c :: rest).take (n + 1) ++ rest.drop n = c :: rest := List.take_append_drop (n + 1) (c :: rest)
    refine ⟨Nat.le_of_add_right_le hle, Nat.le_of_add_right_le hlines, ?_⟩
    have hstop := htake hle (rest.drop n)
    rw [hparts] at hstop
    rw [hstop, continuations_token rfl, newlines, List.count_append, ← Nat.add_assoc]
    exact hcount

theorem Reads.line_eq (h : Reads d s x ts s') :
    s.line ≤ s'.line ∧ s'.line + continuations ts s.offset x = s.line + newlines x := by
  have hend := (h.line_at_stop _ (List.mem_append_right _ List.mem_cons_self)).2
  rwa [h.offset_eq, Nat.add_sub_cancel_left, List.take_length] at hend

/-- What stands before a line feed is read as if the line feed and what follows it were not there, unless they are in
a string or a comment or make a continuation. -/
theorem Reads.append_line (hd : d.Linewise) (b : Bytes) {whole : Nat} (h : Reads d s x ts s')
    (hwhole : s.offset + x.length = whole) (hjoin : ¬JoinsNext x)
    (hopen : ∀ t ∈ ts, Closes t.kind t.span.stop whole) :
    lexFrom d s 0 (x ++ newline :: b) = ts ++ lexFrom d s' 0 (newline :: b) := by
  have hleft {c : UInt8} {y rest : Bytes} (hy : y <:+ rest) (hjoin : ¬JoinsNext (c :: rest)) : ¬JoinsNext y :=
    fun h => hjoin (h.of_suffix (hy.trans (List.suffix_cons c rest)))
  induction h with
  | done s => rfl
  | line h ih => exact ih (by simp at hwhole ⊢; omega) (hleft List.suffix_rfl hjoin) hopen
  | blank hb hline h ih =>
    rw [List.cons_append, lexFrom_blank hb hline]
    exact ih (by simp at hwhole ⊢; omega) (hleft List.suffix_rfl hjoin) hopen
  | @join s s' gap rest ts hgap h ih =>
    rw [List.cons_append, List.append_assoc, lexFrom_continuation hgap]
    exact ih (by simp at hwhole ⊢; omega) (hleft (List.suffix_append gap rest) hjoin) hopen
  | @token s s' c rest ts kind n hb hn hscan h ih =>
    obtain ⟨hfirst, hrest⟩ := List.forall_mem_cons.mp hopen
    have hle : n + 1 ≤ (c :: rest).length := by
      have hle := scan_le (c := ⟨d, s.lineStart, s.previous, s.offset⟩) hd (List.cons_ne_nil c rest)
      rwa [hscan] at hle
    have hlength : ((c :: rest).take (n + 1)).length = n + 1 := List.length_take_of_le hle
    have hcut : scan ⟨d, s.lineStart, s.previous, s.offset⟩ (c :: (rest ++ newline :: b)) = (kind, n + 1) := by
      rw [← hscan]
      refine scan_cut (c := ⟨d, s.lineStart, s.previous, s.offset⟩) hd (List.cons_ne_nil c rest) b ?_
      rw [hscan]
      intro h
      have hlt : s.offset + ((c :: rest).take (n + 1)).length < whole := hfirst h
      omega
    have hn' : n ≤ rest.length := Nat.le_of_succ_le_succ hle
    have htake : (c :: (rest ++ newline :: b)).take (n + 1) = (c :: rest).take (n + 1) := by
      rw [List.take_succ_cons, List.take_succ_cons, List.take_append_of_le_length hn']
    rw [List.cons_append, lexFrom_token hb ((continuation?_cut hjoin b).trans hn) hcut, htake,
      List.drop_append_of_le_length hn', ih ?_ (hleft (List.drop_suffix n rest) hjoin) hrest]
    · rfl
    · change s.offset + ((c :: rest).take (n + 1)).length + (rest.drop n).length = whole
      rw [hlength, List.length_drop]
      rw [List.length_cons] at hwhole hle
      omega

/-- In these languages, a line feed that neither stands in an open string or comment nor makes a continuation
separates what is lexed: the tokens are those of the bytes before it, and those of the bytes behind it further
on by the bytes and by the logical lines before them. -/
theorem lex_append_line {language : Language} (hlanguage : language ∈ [.java, .csharp, .python, .go, .php])
    {a : Bytes} (hjoin : ¬JoinsNext a)
    (hopen : ∀ t ∈ lex language a,
      t.kind = .error .unterminatedString ∨ t.kind = .error .unterminatedComment → t.span.stop < a.length)
    (b : Bytes) :
    lex language (a ++ newline :: b) =
      lex language a ++ (lex language b).map (placed (a.length + 1) (lineBreaks language a + 1)) := by
  obtain ⟨s', h⟩ := lexFrom_reads (.of language) ⟨true, none, 0, 1⟩ a
  have hd := Dialect.linewise_of hlanguage
  have hoffset : s'.offset + 1 = 0 + (a.length + 1) := by
    rw [h.offset_eq]
    exact Nat.add_assoc 0 _ _
  have hline : s'.line + 1 = 1 + (lineBreaks language a + 1) := by
    have hcount : 1 ≤ s'.line ∧ s'.line + continuations (lex language a) 0 a = 1 + newlines a := h.line_eq
    rw [lineBreaks]
    omega
  refine (h.append_line hd b (Nat.zero_add _) hjoin hopen).trans (congrArg (lex language a ++ ·) ?_)
  rw [lexFrom_newline]
  refine lexFrom_placed (s := ⟨true, none, 0, 1⟩) ?_ b
  exact ⟨hoffset, hline, Or.inr rfl, Or.inl hd⟩

/-- An open string on the first line, a continuation, and half a character before the line feed. -/
def malformed : Bytes := Text.Utf8.encode "s = 'a\nt = \\\n1 " ++ [0xE2, 0x82]

theorem lex_append_line_malformed :
    (lex .python malformed).map Token.kind =
        [.identifier, .operator, .error .unterminatedString, .identifier, .operator, .literal .number,
          .error .invalidUtf8] ∧
      lineBreaks .python malformed = 1 ∧
      ∀ b, lex .python (malformed ++ newline :: b) = lex .python malformed ++ (lex .python b).map (placed 18 2) := by
  have hopen : ∀ t ∈ lex .python malformed,
      t.kind = .error .unterminatedString ∨ t.kind = .error .unterminatedComment → t.span.stop < malformed.length := by
    decide +kernel
  have hjoin : ¬JoinsNext malformed := by
    unfold JoinsNext
    decide +kernel
  have hbreaks : lineBreaks .python malformed = 1 := by decide +kernel
  have hlength : malformed.length + 1 = 18 := by decide +kernel
  refine ⟨by decide +kernel, hbreaks, fun b => ?_⟩
  have happend := lex_append_line (by decide) hjoin hopen b
  rwa [hbreaks, hlength] at happend

end Token
end TaintScan
