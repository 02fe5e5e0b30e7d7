import TaintScan.Proofs.Lines
import TaintScan.Token.Lexer

/-! # The layout of tokens

The lexer accounts for every byte: its tokens are not empty, they follow one another without
overlap, and between them stand only blanks and the backslashes of line continuations.
`Token.Layout` says so of a list of tokens over bytes.
-/
namespace TaintScan

open Text.Utf8 (Bytes)

/-! ## The width of a token -/

theorem Text.Utf8.decodeChar_width_pos {a : UInt8} {rest : Bytes} {c : Char} {n : Nat}
    (h : decodeChar (a :: rest) = some (c, n)) : 0 < n := by
  rcases decodeChar_cases h with ⟨-, hn, -⟩ | ⟨_, _, -, -, -, hn, -⟩ | ⟨_, _, _, -, -, -, -, hn, -⟩ |
    ⟨_, _, _, _, -, -, -, -, -, hn, -⟩
  all_goals omega

theorem Opening.width_pos {language : Language} {bytes : Bytes} {o : Opening}
    (h : scan? language bytes = some o) : 0 < o.width := by
  unfold scan? at h
  dsimp only at h
  split at h
  · cases h
  · split at h
    · cases h
      unfold quoted
      dsimp only
      split <;> omega
    · split at h
      · unfold backQuoted? at h
        split at h <;> cases h <;> exact Nat.zero_lt_one
      · cases h

namespace Token

variable {c : LexContext} {bytes : Bytes} {kind : TokenKind} {n : Nat}

theorem phpTag?_pos (h : phpTag? c bytes = some (kind, n)) : 0 < n := by
  unfold phpTag? at h
  split at h
  · obtain ⟨tag, htag, heq⟩ := Option.map_eq_some_iff.mp h
    have hmem := List.mem_of_find?_eq_some htag
    have hpos : ∀ tag ∈ ["<?php", "<?=", "?>"], 0 < tag.length := by decide
    cases heq
    exact hpos tag hmem
  · cases h

theorem comment?_pos {b : UInt8} {rest : Bytes} (hb : b ≠ newline)
    (h : comment? c (b :: rest) = some (kind, n)) : 0 < n := by
  unfold comment? at h
  split at h
  · unfold blockComment at h
    split at h <;> cases h
    · omega
    · exact Nat.succ_pos _
  split at h
  · unfold sectionComment at h
    split at h <;> cases h
    · omega
    · exact Nat.succ_pos _
  split at h
  · cases h
    unfold Byte.lineLength
    rw [List.takeWhile_cons_of_pos (by simpa using hb)]
    exact Nat.succ_pos _
  · cases h

theorem string?_pos (h : string? c bytes = some (kind, n)) : 0 < n := by
  unfold string? at h
  obtain ⟨o, ho, heq⟩ := Option.map_eq_some_iff.mp h
  have hwidth := Opening.width_pos ho
  split at heq <;> cases heq <;> omega

theorem number?_pos (h : number? bytes = some (kind, n)) : 0 < n := by
  unfold number? at h
  split at h
  · split at h <;> cases h
    exact Nat.succ_pos _
  · cases h

theorem symbol?_pos (h : symbol? c bytes = some (kind, n)) : 0 < n := by
  unfold symbol? at h
  split at h
  · split at h <;> cases h
    omega
  · cases h

theorem sigilName?_pos (h : sigilName? c bytes = some (kind, n)) : 0 < n := by
  unfold sigilName? at h
  dsimp only at h
  split at h
  · next hlead =>
    have := of_decide_eq_true (Bool.and_eq_true _ _ ▸ hlead).1
    cases h
    omega
  · cases h

theorem word?_pos (h : word? c bytes = some (kind, n)) : 0 < n := by
  unfold word? at h
  split at h
  · split at h <;> cases h
    omega
  · cases h

theorem nonAscii?_pos (h : nonAscii? c bytes = some (kind, n)) : 0 < n := by
  unfold nonAscii? at h
  split at h
  · split at h
    · split at h
      · next hchar =>
        have hwidth := Text.Utf8.decodeChar_width_pos hchar
        split at h <;> cases h <;> omega
      · cases h
        exact Nat.succ_pos _
    · cases h
  · cases h

theorem regex?_pos (h : regex? c bytes = some (kind, n)) : 0 < n := by
  unfold regex? at h
  split at h
  · split at h
    · obtain ⟨k, _, heq⟩ := Option.map_eq_some_iff.mp h
      cases heq
      omega
    · cases h
  · cases h

theorem longOperator?_pos (h : longOperator? c bytes = some (kind, n)) : 0 < n := by
  unfold longOperator? at h
  split at h
  · next op hop =>
    have hmem := List.mem_of_find?_eq_some hop
    have hpos : ∀ op ∈ longOperators, 0 < op.length := by decide
    cases h
    exact hpos op hmem
  · split at h <;> cases h
    exact Nat.zero_lt_two

theorem single_pos (bytes : Bytes) : 0 < (single bytes).2 := by
  unfold single
  repeat' split
  all_goals exact Nat.zero_lt_one

/-- A token is read by one of the readers, or it is a single byte where no reader finds one. -/
theorem scan_cases (c : LexContext) (bytes : Bytes) :
    phpTag? c bytes = some (scan c bytes) ∨ comment? c bytes = some (scan c bytes) ∨
    string? c bytes = some (scan c bytes) ∨ number? bytes = some (scan c bytes) ∨
    symbol? c bytes = some (scan c bytes) ∨ sigilName? c bytes = some (scan c bytes) ∨
    word? c bytes = some (scan c bytes) ∨ nonAscii? c bytes = some (scan c bytes) ∨
    regex? c bytes = some (scan c bytes) ∨ longOperator? c bytes = some (scan c bytes) ∨
    (nonAscii? c bytes = none ∧ scan c bytes = single bytes) := by
  have orElse {x y : Option Scanned} {p : Scanned} (h : (x <|> y) = some p) : x = some p ∨ y = some p := by
    cases x with
    | none => exact Or.inr h
    | some q => exact Or.inl h
  unfold scan
  generalize hx : (phpTag? c bytes <|> _) = x
  cases x with
  | none =>
    simp only [Option.orElse_eq_orElse, Option.orElse_eq_or, Option.or_eq_none_iff] at hx
    simp [hx]
  | some p =>
    rw [Option.getD_some]
    refine (orElse hx).imp_right fun hx => (orElse hx).imp_right fun hx => (orElse hx).imp_right fun hx =>
      (orElse hx).imp_right fun hx => (orElse hx).imp_right fun hx => (orElse hx).imp_right fun hx =>
      (orElse hx).imp_right fun hx => (orElse hx).imp_right fun hx => ?_
    exact (orElse hx).imp_right Or.inl

theorem scan_pos (c : LexContext) {b : UInt8} (rest : Bytes) (hb : b ≠ newline) :
    0 < (scan c (b :: rest)).2 := by
  rcases scan_cases c (b :: rest) with h | h | h | h | h | h | h | h | h | h | h
  · exact phpTag?_pos h
  · exact comment?_pos hb h
  · exact string?_pos h
  · exact number?_pos h
  · exact symbol?_pos h
  · exact sigilName?_pos h
  · exact word?_pos h
  · exact nonAscii?_pos h
  · exact regex?_pos h
  · exact longOperator?_pos h
  · rw [h.2]
    exact single_pos _

/-! ## The moves of the lexer -/

def LexState.behind (s : LexState) (kind : TokenKind) (bytes : Bytes) : LexState where
  lineStart := bytes.getLast? == some newline
  previous := if kind == .comment then s.previous else some (ofBytes kind s.offset s.line bytes)
  offset := s.offset + bytes.length
  line := s.line + newlines bytes

/-- The tokens that the lexer reads off the bytes from one state to another, with one case for each way in which it
moves on. -/
inductive Reads (d : Dialect) : LexState → Bytes → List Token → LexState → Prop
  | done (s : LexState) : Reads d s [] [] s
  | line {s s' : LexState} {rest : Bytes} {ts : List Token}
    (h : Reads d { s with lineStart := true, offset := s.offset + 1, line := s.line + 1 } rest ts s') :
    Reads d s (newline :: rest) ts s'
  | blank {s s' : LexState} {b : UInt8} {rest : Bytes} {ts : List Token} (hb : Byte.isBlank b = true)
    (hline : b ≠ newline) (h : Reads d { s with lineStart := false, offset := s.offset + 1 } rest ts s') :
    Reads d s (b :: rest) ts s'
  | join {s s' : LexState} {gap rest : Bytes} {ts : List Token} (hgap : gap = [newline] ∨ gap = [13, newline])
    (h : Reads d { s with lineStart := true, offset := s.offset + (gap.length + 1) } rest ts s') :
    Reads d s (Opening.backslash :: (gap ++ rest)) ts s'
  | token {s s' : LexState} {b : UInt8} {rest : Bytes} {ts : List Token} {kind : TokenKind} {n : Nat}
    (hb : Byte.isBlank b = false) (hn : continuation? (b :: rest) = none)
    (hscan : scan ⟨d, s.lineStart, s.previous, s.offset⟩ (b :: rest) = (kind, n + 1))
    (h : Reads d (s.behind kind ((b :: rest).take (n + 1))) (rest.drop n) ts s') :
    Reads d s (b :: rest) (ofBytes kind s.offset s.line ((b :: rest).take (n + 1)) :: ts) s'

theorem lexFrom_skip (d : Dialect) (s : LexState) (skip : Nat) (bytes : Bytes) :
    lexFrom d s skip bytes = lexFrom d s 0 (bytes.drop skip) := by
  induction bytes generalizing skip with
  | nil => rw [List.drop_nil, lexFrom, lexFrom]
  | cons b rest ih =>
    cases skip with
    | zero => rfl
    | succ k => rw [lexFrom, ih, List.drop_succ_cons]

theorem continuation?_cases {bytes : Bytes} {n : Nat} (h : continuation? bytes = some n) :
    ∃ gap rest, (gap = [newline] ∨ gap = [13, newline]) ∧ bytes = Opening.backslash :: (gap ++ rest) := by
  unfold continuation? at h
  split at h
  · split at h
    · next b rest hb => exact ⟨[newline], rest, Or.inl rfl, by rw [eq_of_beq hb]; rfl⟩
    · cases h
  · split at h
    · next b rest hb => exact ⟨[13, newline], rest, Or.inr rfl, by rw [eq_of_beq hb]; rfl⟩
    · cases h
  · cases h

theorem scan_eq_succ (c : LexContext) {b : UInt8} (rest : Bytes) (hb : b ≠ newline) :
    ∃ kind n, scan c (b :: rest) = (kind, n + 1) := by
  obtain ⟨n, hn⟩ := Nat.exists_eq_succ_of_ne_zero (Nat.ne_of_gt (scan_pos c rest hb))
  exact ⟨(scan c (b :: rest)).1, n, Prod.ext rfl hn⟩

section Steps

variable {d : Dialect} {s : LexState} {c : UInt8} {rest : Bytes} {ts : List Token}

theorem lexFrom_newline (d : Dialect) (s : LexState) (rest : Bytes) :
    lexFrom d s 0 (newline :: rest) =
      lexFrom d { s with lineStart := true, offset := s.offset + 1, line := s.line + 1 } 0 rest := rfl

theorem lexFrom_blank (hblank : Byte.isBlank c = true) (hline : c ≠ newline) :
    lexFrom d s 0 (c :: rest) = lexFrom d { s with lineStart := false, offset := s.offset + 1 } 0 rest := by
  rw [lexFrom, if_neg (by simpa using hline), if_pos hblank]

theorem lexFrom_continuation {gap : Bytes} (hgap : gap = [newline] ∨ gap = [13, newline]) (rest : Bytes) :
    lexFrom d s 0 (Opening.backslash :: (gap ++ rest)) =
      lexFrom d { s with lineStart := true, offset := s.offset + (gap.length + 1) } 0 rest := by
  rcases hgap with rfl | rfl
  · rfl
  · rfl

theorem lexFrom_token (hblank : Byte.isBlank c = false) (hn : continuation? (c :: rest) = none)
    {kind : TokenKind} {n : Nat}
    (hscan : scan ⟨d, s.lineStart, s.previous, s.offset⟩ (c :: rest) = (kind, n + 1)) :
    lexFrom d s 0 (c :: rest) = ofBytes kind s.offset s.line ((c :: rest).take (n + 1)) ::
      lexFrom d (s.behind kind ((c :: rest).take (n + 1))) 0 (rest.drop n) := by
  have hline : (c == newline) = false := by
    rw [beq_eq_false_iff_ne]
    rintro rfl
    exact absurd hblank (by decide)
  rw [← lexFrom_skip d _ n rest, lexFrom, hline, hblank, hn]
  simp only [hscan]
  rfl

theorem lexFrom_reads (d : Dialect) (s : LexState) (bytes : Bytes) :
    ∃ s', Reads d s bytes (lexFrom d s 0 bytes) s' := by
  induction hlen : bytes.length using Nat.strongRecOn generalizing s bytes with
  | _ len ih =>
  cases bytes with
  | nil => exact ⟨s, .done s⟩
  | cons b rest =>
    have hleft (s : LexState) {y : Bytes} (hy : y <:+ rest) : ∃ s', Reads d s y (lexFrom d s 0 y) s' :=
      ih y.length (by rw [← hlen]; exact Nat.lt_succ_of_le hy.length_le) s y rfl
    by_cases hline : b = newline
    · subst hline
      exact (hleft _ List.suffix_rfl).imp fun _ h => .line h
    cases hblank : Byte.isBlank b with
    | true =>
      rw [lexFrom_blank hblank hline]
      exact (hleft _ List.suffix_rfl).imp fun _ h => .blank hblank hline h
    | false =>
      cases hn : continuation? (b :: rest) with
      | some n =>
        obtain ⟨gap, tail, hgap, heq⟩ := continuation?_cases hn
        cases heq
        rw [lexFrom_continuation hgap]
        exact (hleft _ (List.suffix_append gap tail)).imp fun _ h => .join hgap h
      | none =>
        obtain ⟨kind, n, hscan⟩ := scan_eq_succ ⟨d, s.lineStart, s.previous, s.offset⟩ rest hline
        rw [lexFrom_token hblank hn hscan]
        exact (hleft _ (List.drop_suffix n rest)).imp fun _ h => .token hblank hn hscan h

end Steps

def LineEnd (bytes : Bytes) : Prop :=
  bytes.head? = some newline ∨ (bytes.head? = some 13 ∧ bytes[1]? = some newline)

/-- The tokens lie over the bytes, the first of which has the given offset. -/
inductive Layout : Nat → Bytes → List Token → Prop
  | done (offset : Nat) : Layout offset [] []
  | blank {offset : Nat} {b : UInt8} {rest : Bytes} {ts : List Token} (hb : Byte.isBlank b = true)
    (h : Layout (offset + 1) rest ts) : Layout offset (b :: rest) ts
  | join {offset : Nat} {rest : Bytes} {ts : List Token} (hr : LineEnd rest)
    (h : Layout (offset + 1) rest ts) : Layout offset (Opening.backslash :: rest) ts
  | token {offset : Nat} {t : Token} {bytes rest : Bytes} {ts : List Token} (hne : bytes ≠ [])
    (hspan : t.span = ⟨offset, offset + bytes.length⟩)
    (htext : t.text = (Text.Utf8.decode? bytes).getD "")
    (h : Layout (offset + bytes.length) rest ts) : Layout offset (bytes ++ rest) (t :: ts)

theorem Reads.layout {d : Dialect} {s s' : LexState} {bytes : Bytes} {ts : List Token} (h : Reads d s bytes ts s') :
    Layout s.offset bytes ts := by
  induction h with
  | done s => exact .done _
  | line h ih => exact .blank rfl ih
  | blank hb hline h ih => exact .blank hb ih
  | join hgap h ih =>
    rcases hgap with rfl | rfl
    · exact .join (.inl rfl) (.blank rfl ih)
    · exact .join (.inr ⟨rfl, rfl⟩) (.blank rfl (.blank rfl ih))
  | @token s s' b rest ts kind n hb hn hscan h ih =>
    have hbytes : (b :: rest).take (n + 1) ++ rest.drop n = b :: rest := List.take_append_drop (n + 1) (b :: rest)
    conv => arg 2; rw [← hbytes]
    exact .token (List.cons_ne_nil _ _) rfl rfl ih

theorem lexFrom_layout (d : Dialect) (s : LexState) (bytes : Bytes) : Layout s.offset bytes (lexFrom d s 0 bytes) :=
  (lexFrom_reads d s bytes).elim fun _ h => h.layout

theorem lex_layout (language : Language) (content : Bytes) : Layout 0 content (lex language content) :=
  lexFrom_layout (.of language) ⟨true, none, 0, 1⟩ content

/-! ## What a layout says -/

namespace Layout

variable {offset : Nat} {bytes : Bytes} {ts : List Token}

section

variable (h : Layout offset bytes ts)
include h

theorem within :
    ∀ t ∈ ts, offset ≤ t.span.start ∧ t.span.start < t.span.stop ∧
      t.span.stop ≤ offset + bytes.length := by
  induction h with
  | done => exact List.forall_mem_nil _
  | blank hb h ih =>
    intro t ht
    have := ih t ht
    rw [List.length_cons]
    omega
  | join hr h ih =>
    intro t ht
    have := ih t ht
    rw [List.length_cons]
    omega
  | @token offset t bytes rest ts hne hspan htext h ih =>
    have hpos : 0 < bytes.length := List.length_pos_iff.mpr hne
    rw [List.length_append]
    refine List.forall_mem_cons.mpr ⟨?_, fun u hu => ?_⟩
    · rw [hspan]
      dsimp only
      omega
    · have := ih u hu
      omega

theorem ordered : ts.Pairwise fun t u => t.span.start < u.span.start ∧ t.span.stop ≤ u.span.start := by
  induction h with
  | done => exact .nil
  | blank hb h ih => exact ih
  | join hr h ih => exact ih
  | @token offset t bytes rest ts hne hspan htext h ih =>
    have hpos : 0 < bytes.length := List.length_pos_iff.mpr hne
    refine .cons (fun u hu => ?_) ih
    have := (h.within u hu).1
    rw [hspan]
    dsimp only
    omega

theorem text_eq :
    ∀ t ∈ ts, t.text = (Text.Utf8.decode?
      ((bytes.drop (t.span.start - offset)).take (t.span.stop - t.span.start))).getD "" := by
  induction h with
  | done => exact List.forall_mem_nil _
  | @blank offset b rest ts hb h ih =>
    intro t ht
    have := (h.within t ht).1
    rw [ih t ht, show t.span.start - offset = t.span.start - (offset + 1) + 1 by omega,
      List.drop_succ_cons]
  | @join offset rest ts hr h ih =>
    intro t ht
    have := (h.within t ht).1
    rw [ih t ht, show t.span.start - offset = t.span.start - (offset + 1) + 1 by omega,
      List.drop_succ_cons]
  | @token offset t bytes rest ts hne hspan htext h ih =>
    refine List.forall_mem_cons.mpr ⟨?_, fun u hu => ?_⟩
    · rw [htext, hspan]
      simp
    · have := (h.within u hu).1
      rw [ih u hu, show u.span.start - offset = bytes.length + (u.span.start - (offset + bytes.length)) by omega,
        List.drop_length_add_append]

/-- A byte outside of all tokens is a blank, or a backslash that joins two lines. -/
theorem skipped :
    ∀ i b, bytes[i]? = some b → (∀ t ∈ ts, offset + i < t.span.start ∨ t.span.stop ≤ offset + i) →
      Byte.isBlank b = true ∨ (b = Opening.backslash ∧ LineEnd (bytes.drop (i + 1))) := by
  induction h with
  | done => exact fun i b hi => nomatch hi
  | blank hb h ih =>
    intro i b hi hout
    cases i with
    | zero => exact Or.inl (Option.some.inj hi ▸ hb)
    | succ i => exact ih i b hi fun t ht => by have := hout t ht; omega
  | join hr h ih =>
    intro i b hi hout
    cases i with
    | zero => exact Or.inr ⟨(Option.some.inj hi).symm, hr⟩
    | succ i => exact ih i b hi fun t ht => by have := hout t ht; omega
  | @token offset t bytes rest ts hne hspan htext h ih =>
    intro i b hi hout
    have hlen : bytes.length ≤ i := by
      have := hout t List.mem_cons_self
      rw [hspan] at this
      dsimp only at this
      omega
    obtain ⟨k, rfl⟩ := Nat.exists_eq_add_of_le hlen
    rw [List.getElem?_append_right hlen, Nat.add_sub_cancel_left] at hi
    rw [Nat.add_assoc, List.drop_length_add_append]
    refine ih k b hi fun u hu => ?_
    have := hout u (List.mem_cons_of_mem _ hu)
    omega

end

end Layout

/-- A lexer leaves nothing out: every token has bytes of its own within the content and its text is
read off them, the tokens follow one another without overlap, and a byte outside of all of them is a
blank or the backslash of a line continuation. -/
theorem lex_accounts_for_all_bytes (language : Language) (content : Bytes) :
    (∀ t ∈ lex language content, t.span.start < t.span.stop ∧ t.span.stop ≤ content.length ∧
      t.text = (Text.Utf8.decode?
        ((content.drop t.span.start).take (t.span.stop - t.span.start))).getD "") ∧
    (lex language content).Pairwise
      (fun t u => t.span.start < u.span.start ∧ t.span.stop ≤ u.span.start) ∧
    ∀ i b, content[i]? = some b →
      (∀ t ∈ lex language content, i < t.span.start ∨ t.span.stop ≤ i) →
      Byte.isBlank b = true ∨ (b = Opening.backslash ∧ LineEnd (content.drop (i + 1))) := by
  have hlayout := lex_layout language content
  refine ⟨fun t ht => ?_, hlayout.ordered, fun i b hi hout => ?_⟩
  · have hwithin := hlayout.within t ht
    exact ⟨hwithin.2.1, by omega, hlayout.text_eq t ht⟩
  · refine hlayout.skipped i b hi fun t ht => ?_
    have := hout t ht
    omega

end Token
end TaintScan
