import TaintScan.Proofs.Token.Layout

/-! # Tokens before a line feed

No reader of a token sees past a line feed, unless it is in the middle of a string or a block comment:
in front of a line feed it finds what it finds where the bytes end there.
-/
namespace TaintScan

open Text.Utf8 (Bytes)

/-- What a token is depends on its own bytes alone, and no sign of the dialect holds a line feed. -/
structure Dialect.Linewise (d : Dialect) : Prop where
  notRuby : (d.language == .ruby) = false
  notEcmascript : d.language.isEcmascript = false
  lineComments : ∀ sign ∈ d.lineComments, newline ∉ Byte.ofAscii sign
  sigils : newline ∉ d.sigils.map Byte.of

theorem Dialect.linewise_of {language : Language} (h : language ∈ [.java, .csharp, .python, .go, .php]) :
    (Dialect.of language).Linewise := by
  simp only [List.mem_cons, List.not_mem_nil, or_false] at h
  rcases h with rfl | rfl | rfl | rfl | rfl
  all_goals exact ⟨by decide, by decide, by decide, by decide⟩

/-! ## Bytes before a line feed -/

section Cut

variable {x : Bytes} (b : Bytes) {p : UInt8 → Bool}

theorem isPrefixOf_cut {p : Bytes} (hp : newline ∉ p) : p.isPrefixOf (x ++ newline :: b) = p.isPrefixOf x := by
  induction p generalizing x with
  | nil => rfl
  | cons q p ih =>
    obtain ⟨hq, hp⟩ := List.ne_and_not_mem_of_not_mem_cons hp
    cases x with
    | nil => simp [List.isPrefixOf, hq.symm]
    | cons c x => simp only [List.cons_append, List.isPrefixOf, ih hp]

theorem takeWhile_cut (hp : p newline = false) : (x ++ newline :: b).takeWhile p = x.takeWhile p := by
  induction x with
  | nil => simp [hp]
  | cons c x ih =>
    rw [List.cons_append, List.takeWhile_cons, List.takeWhile_cons, ih]

theorem takeWhile_take_cut (hp : p newline = false) (k : Nat) :
    ((x ++ newline :: b).take k).takeWhile p = (x.take k).takeWhile p := by
  induction x generalizing k with
  | nil => cases k <;> simp [hp]
  | cons c x ih =>
    cases k with
    | zero => rfl
    | succ k => rw [List.cons_append, List.take_succ_cons, List.take_succ_cons, List.takeWhile_cons,
        List.takeWhile_cons, ih]

theorem length_takeWhile_take_le (x : Bytes) (k : Nat) (p : UInt8 → Bool) :
    ((x.take k).takeWhile p).length ≤ x.length :=
  ((List.takeWhile_sublist _).trans (List.take_sublist k x)).length_le

theorem head?_any_cut (hp : p newline = false) : (x ++ newline :: b).head?.any p = x.head?.any p := by
  cases x with
  | nil => exact hp
  | cons c x => rfl

theorem getElem?_cut {i : Nat} (hi : i ≤ x.length) :
    (x ++ newline :: b)[i]? = x[i]? ∨ (x ++ newline :: b)[i]? = some newline ∧ x[i]? = none := by
  rcases Nat.lt_or_eq_of_le hi with hlt | rfl
  · exact Or.inl (List.getElem?_append_left hlt)
  · refine Or.inr ⟨?_, List.getElem?_eq_none (Nat.le_refl _)⟩
    rw [List.getElem?_append_right (Nat.le_refl _), Nat.sub_self]
    rfl

end Cut

namespace Byte

variable {text : String}

theorem startsWith_cut (h : newline ∉ ofAscii text) (x b : Bytes) :
    startsWith text (x ++ newline :: b) = startsWith text x := isPrefixOf_cut b h

theorem find?_startsWith_cut {texts : List String} (h : ∀ text ∈ texts, newline ∉ ofAscii text) (x b : Bytes) :
    texts.find? (startsWith · (x ++ newline :: b)) = texts.find? (startsWith · x) := by
  induction texts with
  | nil => rfl
  | cons text texts ih =>
    obtain ⟨htext, htexts⟩ := List.forall_mem_cons.mp h
    rw [List.find?_cons, List.find?_cons, startsWith_cut htext, ih htexts]

theorem length_le_of_startsWith {x : Bytes} (h : startsWith text x = true) : text.length ≤ x.length := by
  have hle := (List.isPrefixOf_iff_prefix.mp h).length_le
  rwa [ofAscii, List.length_map, String.length_toList] at hle

theorem find?_cut (h : newline ∉ ofAscii text) {x : Bytes} {n : Nat} (hn : find? text x = some n) (b : Bytes) :
    find? text (x ++ newline :: b) = some n := by
  induction x generalizing n with
  | nil =>
    unfold find? at hn
    split at hn
    · next hempty =>
      cases hn
      rw [String.isEmpty_iff.mp hempty]
      rfl
    · cases hn
  | cons c x ih =>
    have hstarts := startsWith_cut h (c :: x) b
    rw [List.cons_append] at hstarts ⊢
    rw [find?] at hn ⊢
    rw [hstarts]
    split at hn
    · next hfirst => rw [if_pos hfirst, hn]
    · next hfirst =>
      obtain ⟨m, hm, rfl⟩ := Option.map_eq_some_iff.mp hn
      rw [if_neg hfirst, ih hm]
      rfl

theorem find?_add_length_le {x : Bytes} {n : Nat} (h : find? text x = some n) : n + text.length ≤ x.length := by
  induction x generalizing n with
  | nil =>
    unfold find? at h
    split at h
    · next hempty =>
      cases h
      rw [String.isEmpty_iff.mp hempty]
      exact Nat.le_refl 0
    · cases h
  | cons c x ih =>
    rw [find?] at h
    split at h
    · next hfirst =>
      cases h
      rw [Nat.zero_add]
      exact length_le_of_startsWith hfirst
    · obtain ⟨m, hm, rfl⟩ := Option.map_eq_some_iff.mp h
      have := ih hm
      rw [List.length_cons]
      omega

theorem lineLength_cut (x b : Bytes) : lineLength (x ++ newline :: b) = lineLength x := by
  rw [lineLength, takeWhile_cut b (by decide), lineLength]

theorem lineLength_le (x : Bytes) : lineLength x ≤ x.length := (List.takeWhile_sublist _).length_le

end Byte

namespace Text.Utf8

theorem secondAllowed_newline (a : UInt8) : secondAllowed a newline = false := by
  unfold secondAllowed
  repeat' split
  all_goals decide

theorem decodeChar_cut {x : Bytes} (hx : x ≠ []) (b : Bytes) : decodeChar (x ++ newline :: b) = decodeChar x := by
  have hcont : isContinuation newline = false := by decide
  rcases x with _ | ⟨a, _ | ⟨a1, _ | ⟨a2, _ | ⟨a3, x⟩⟩⟩⟩
  · exact absurd rfl hx
  · rcases b with _ | ⟨b1, _ | ⟨b2, b⟩⟩ <;> simp [decodeChar, hcont, secondAllowed_newline]
  · rcases b with _ | ⟨b1, b⟩ <;> simp [decodeChar, hcont]
  · simp [decodeChar, hcont]
  · simp [decodeChar]

theorem decodeChar_width_le {a : UInt8} {rest : Bytes} {c : Char} {n : Nat}
    (h : decodeChar (a :: rest) = some (c, n)) : n ≤ rest.length + 1 := by
  rcases decodeChar_cases h with ⟨-, rfl, -⟩ | ⟨_, _, rfl, -, -, rfl, -⟩ | ⟨_, _, _, rfl, -, -, -, rfl, -⟩ |
    ⟨_, _, _, _, rfl, -, -, -, -, rfl, -⟩
  · exact Nat.le_add_left _ _
  all_goals
    simp only [List.length_cons]
    omega

end Text.Utf8

/-! ## Strings -/

namespace Opening

theorem pythonLead_cut (x b : Bytes) : pythonLead (x ++ newline :: b) = pythonLead x := by
  unfold pythonLead
  rw [takeWhile_take_cut b (by decide)]
  dsimp only
  rcases getElem?_cut b (length_takeWhile_take_le x 3 _) with heq | ⟨hcut, hnone⟩
  · rw [heq]
  · rw [hcut, hnone]
    rfl

theorem csharpLead_cut (x b : Bytes) : csharpLead (x ++ newline :: b) = csharpLead x := by
  unfold csharpLead
  rw [takeWhile_take_cut b (by decide)]
  dsimp only
  rcases getElem?_cut b (length_takeWhile_take_le x 2 _) with heq | ⟨hcut, hnone⟩
  · rw [heq]
  · rw [hcut, hnone]
    rfl

theorem lead_cut (language : Language) (x b : Bytes) : lead language (x ++ newline :: b) = lead language x := by
  unfold lead
  split
  · exact pythonLead_cut x b
  · exact csharpLead_cut x b
  · rfl

theorem lead_width_le (language : Language) (x : Bytes) : (lead language x).width ≤ x.length := by
  unfold lead
  split
  · unfold pythonLead
    dsimp only
    split
    · split
      · exact length_takeWhile_take_le ..
      · exact Nat.zero_le _
    · exact Nat.zero_le _
  · unfold csharpLead
    dsimp only
    split
    · exact length_takeWhile_take_le ..
    · exact Nat.zero_le _
  · exact Nat.zero_le _

theorem scan?_cut (language : Language) (x b : Bytes) : scan? language (x ++ newline :: b) = scan? language x := by
  unfold scan?
  rw [lead_cut]
  dsimp only
  rw [List.drop_append_of_le_length (lead_width_le language x)]
  cases x.drop (lead language x).width with
  | nil => rfl
  | cons q rest =>
    simp only [List.cons_append]
    split
    · next hq =>
      have hquote : newline ∉ [q, q] := by
        rintro hmem
        simp only [List.mem_cons, List.not_mem_nil, or_false, or_self] at hmem
        subst hmem
        exact absurd hq (by decide)
      rw [isPrefixOf_cut b hquote]
    · rfl

variable {o : Opening}

theorem scan?_fits {language : Language} {x : Bytes} (h : scan? language x = some o) :
    o.quote ≠ newline ∧ o.width ≤ x.length := by
  unfold scan? at h
  dsimp only at h
  have hlead := lead_width_le language x
  split at h
  · cases h
  · next q rest hdrop =>
    have hlength := congrArg List.length hdrop
    rw [List.length_drop, List.length_cons] at hlength
    split at h
    · next hq =>
      cases h
      refine ⟨?_, ?_⟩
      · rintro rfl
        exact absurd hq (by decide)
      · unfold quoted
        dsimp only
        split
        · next htriple =>
          have htwo := (List.isPrefixOf_iff_prefix.mp (Bool.and_eq_true_iff.mp htriple).2).length_le
          simp only [List.length_cons, List.length_nil] at htwo
          omega
        · omega
    · split at h
      · unfold backQuoted? at h
        split at h <;> cases h <;> exact ⟨by decide, by dsimp only; omega⟩
      · cases h

def BodyEnd.width : BodyEnd → Nat
  | closed n => n
  | cut n => n

theorem readBody_width_le (o : Opening) (n : Nat) (x : Bytes) : (o.readBody n x).width ≤ n + x.length := by
  fun_induction readBody o n x with
  | case1 n => exact Nat.le_refl n
  | case2 n | case3 n | case5 n => exact Nat.le_refl (n + 1)
  | case4 n => exact Nat.le_succ n
  | case6 n c d rest _ ih | case8 n c d rest _ _ _ _ ih | case11 n c d rest _ _ _ _ ih =>
    simp only [List.length_cons] at ih ⊢
    omega
  | case7 n c d rest _ htriple =>
    -- Three quotes close the body, and the third is the first byte of the rest.
    have hrest : rest ≠ [] := by
      rintro rfl
      simp at htriple
    have hpos := List.length_pos_iff.mpr hrest
    simp only [BodyEnd.width, List.length_cons]
    omega
  | case9 n c d rest | case10 n c d rest =>
    simp only [BodyEnd.width, List.length_cons]
    omega

theorem tripleEnd_cut (hquote : o.quote ≠ newline) (c d : UInt8) (rest b : Bytes) :
    (o.triple && c == o.quote && d == c && (rest ++ newline :: b).head? == some c) =
      (o.triple && c == o.quote && d == c && rest.head? == some c) := by
  cases rest with
  | cons e rest => rfl
  | nil =>
    cases hc : c == o.quote with
    | false => simp
    | true =>
      have hne : newline ≠ c := fun heq => hquote (heq.trans (eq_of_beq hc)).symm
      simp [hne]

theorem readBody_cut (hquote : o.quote ≠ newline) (n : Nat) (x b : Bytes)
    (hopen : ∀ m, o.readBody n x = .cut m → m < n + x.length) :
    o.readBody n (x ++ newline :: b) = o.readBody n x := by
  fun_induction readBody o n x with
  | case1 n => exact absurd (hopen n rfl) (Nat.lt_irrefl n)
  | case2 n c h | case5 n c h _ _ => exact absurd (hopen (n + 1) rfl) (Nat.lt_irrefl (n + 1))
  | case3 n c hescape hclose =>
    obtain ⟨htriple, hc⟩ := Bool.and_eq_true_iff.mp hclose
    have hne : (newline == c) = false := by
      rw [eq_of_beq hc]
      exact beq_false_of_ne hquote.symm
    rw [Bool.not_eq_true'] at htriple
    simp [readBody, hescape, htriple, hc, hne]
  | case4 n c hescape hclose hline =>
    obtain ⟨hc, hmulti⟩ := Bool.and_eq_true_iff.mp hline
    have hne : (c == o.quote) = false := by
      rw [eq_of_beq hc]
      exact beq_false_of_ne hquote.symm
    simp [readBody, hescape, hline, hne]
  | case6 n c d rest hescape ih =>
    rw [List.cons_append, List.cons_append, readBody, if_pos hescape]
    refine ih fun m hm => ?_
    have := hopen m hm
    simp only [List.length_cons] at this
    omega
  | case7 n c d rest hescape htriple =>
    rw [List.cons_append, List.cons_append, readBody, tripleEnd_cut hquote, if_neg hescape, if_pos htriple]
  | case8 n c d rest hescape htriple hclose hdouble ih =>
    rw [List.cons_append, List.cons_append, readBody, tripleEnd_cut hquote, if_neg hescape, if_neg htriple,
      if_pos hclose, if_pos hdouble]
    refine ih fun m hm => ?_
    have := hopen m hm
    simp only [List.length_cons] at this
    omega
  | case9 n c d rest hescape htriple hclose hdouble =>
    rw [List.cons_append, List.cons_append, readBody, tripleEnd_cut hquote, if_neg hescape, if_neg htriple,
      if_pos hclose, if_neg hdouble]
  | case10 n c d rest hescape htriple hclose hline =>
    rw [List.cons_append, List.cons_append, readBody, tripleEnd_cut hquote, if_neg hescape, if_neg htriple,
      if_neg hclose, if_pos hline]
  | case11 n c d rest hescape htriple hclose hline ih =>
    rw [List.cons_append, List.cons_append, readBody, tripleEnd_cut hquote, if_neg hescape, if_neg htriple,
      if_neg hclose, if_neg hline]
    refine ih fun m hm => ?_
    have := hopen m hm
    simp only [List.length_cons] at this ⊢
    omega

end Opening

namespace Token

variable {c : LexContext} {x : Bytes} {kind : TokenKind} {n : Nat}

/-! ## The readers of tokens -/

theorem string?_cut (b : Bytes) (hopen : ∀ n, string? c x = some (.error .unterminatedString, n) → n < x.length) :
    string? c (x ++ newline :: b) = string? c x := by
  unfold string? at hopen ⊢
  rw [Opening.scan?_cut]
  cases ho : Opening.scan? c.dialect.language x with
  | none => rfl
  | some o =>
    obtain ⟨hquote, hwidth⟩ := Opening.scan?_fits ho
    rw [ho] at hopen
    have hbody : o.readBody 0 ((x ++ newline :: b).drop o.width) = o.readBody 0 (x.drop o.width) := by
      rw [List.drop_append_of_le_length hwidth]
      refine Opening.readBody_cut hquote 0 _ b fun m hm => ?_
      have hlt := hopen (o.width + m) (by rw [Option.map_some, hm])
      rw [List.length_drop]
      omega
    have hle := o.readBody_width_le 0 (x.drop o.width)
    rw [Option.map_some, Option.map_some, hbody]
    cases hend : o.readBody 0 (x.drop o.width) with
    | cut n => rfl
    | closed n =>
      rw [hend, Opening.BodyEnd.width, List.length_drop] at hle
      dsimp only
      rw [List.take_append_of_le_length (by omega)]

theorem string?_le (h : string? c x = some (kind, n)) : n ≤ x.length := by
  unfold string? at h
  obtain ⟨o, ho, heq⟩ := Option.map_eq_some_iff.mp h
  obtain ⟨-, hwidth⟩ := Opening.scan?_fits ho
  have hle := o.readBody_width_le 0 (x.drop o.width)
  rw [List.length_drop] at hle
  split at heq
  all_goals
    next hend =>
    cases heq
    rw [hend, Opening.BodyEnd.width] at hle
    omega

theorem phpTag?_cut (b : Bytes) : phpTag? c (x ++ newline :: b) = phpTag? c x := by
  unfold phpTag?
  rw [Byte.find?_startsWith_cut (by decide)]

theorem phpTag?_le (h : phpTag? c x = some (kind, n)) : n ≤ x.length := by
  unfold phpTag? at h
  split at h
  · obtain ⟨tag, htag, heq⟩ := Option.map_eq_some_iff.mp h
    have hstarts := List.find?_some htag
    cases heq
    exact Byte.length_le_of_startsWith hstarts
  · cases h

theorem blockComment_cut (b : Bytes) (hx : 2 ≤ x.length)
    (hopen : ∀ n, blockComment x = (.error .unterminatedComment, n) → n < x.length) :
    blockComment (x ++ newline :: b) = blockComment x := by
  unfold blockComment at hopen ⊢
  rw [List.drop_append_of_le_length hx]
  cases hfound : Byte.find? "*/" (x.drop 2) with
  | some n => rw [Byte.find?_cut (by decide) hfound]
  | none =>
    rw [hfound] at hopen
    exact absurd (hopen _ rfl) (Nat.lt_irrefl _)

theorem numberTail_cut (b : Bytes) : numberTail (x ++ newline :: b) = numberTail x := by
  induction x with
  | nil => rfl
  | cons d x ih => rw [List.cons_append, numberTail, numberTail, head?_any_cut b (by decide), ih]

theorem numberTail_le (x : Bytes) : numberTail x ≤ x.length := by
  induction x with
  | nil => exact Nat.le_refl 0
  | cons d x ih =>
    rw [numberTail]
    split
    · exact Nat.succ_le_succ ih
    · exact Nat.zero_le _

theorem number?_cut (hx : x ≠ []) (b : Bytes) : number? (x ++ newline :: b) = number? x := by
  cases x with
  | nil => exact absurd rfl hx
  | cons d x =>
    rw [List.cons_append]
    simp only [number?, head?_any_cut b (show Byte.isDigit newline = false by decide), numberTail_cut]

theorem number?_le (h : number? x = some (kind, n)) : n ≤ x.length := by
  unfold number? at h
  split at h
  · split at h
    · cases h
      exact Nat.succ_le_succ (numberTail_le _)
    · cases h
  · cases h

theorem identBody_cut (language : Language) {skip : Nat} (hskip : skip ≤ x.length) (b : Bytes) :
    identBody language skip (x ++ newline :: b) = identBody language skip x := by
  induction x generalizing skip with
  | nil =>
    rw [Nat.le_zero.mp hskip]
    cases language <;> rfl
  | cons d x ih =>
    cases skip with
    | succ k => rw [List.cons_append, identBody, identBody, ih (Nat.le_of_succ_le_succ hskip)]
    | zero =>
      have hdecode := Text.Utf8.decodeChar_cut (List.cons_ne_nil d x) b
      rw [List.cons_append] at hdecode ⊢
      rw [identBody, identBody, hdecode, ih (Nat.zero_le _)]
      split
      · rfl
      · split
        · cases hchar : Text.Utf8.decodeChar (d :: x) with
          | none => rfl
          | some found =>
            have hwidth := Text.Utf8.decodeChar_width_le hchar
            dsimp only
            rw [ih (by omega)]
        · rfl

theorem identBody_le (language : Language) {skip : Nat} (hskip : skip ≤ x.length) :
    identBody language skip x ≤ x.length := by
  induction x generalizing skip with
  | nil => exact Nat.le_refl 0
  | cons d x ih =>
    cases skip with
    | succ k =>
      rw [identBody]
      exact Nat.succ_le_succ (ih (Nat.le_of_succ_le_succ hskip))
    | zero =>
      rw [identBody]
      split
      · exact Nat.succ_le_succ (ih (Nat.zero_le _))
      · split
        · split
          · next hchar =>
            have hwidth := Text.Utf8.decodeChar_width_le hchar
            split
            · exact Nat.succ_le_succ (ih (by omega))
            · exact Nat.zero_le _
          · exact Nat.zero_le _
        · exact Nat.zero_le _

theorem malformedRun_cut (b : Bytes) : malformedRun (x ++ newline :: b) = malformedRun x := by
  induction x with
  | nil => rfl
  | cons d x ih =>
    have hdecode := Text.Utf8.decodeChar_cut (List.cons_ne_nil d x) b
    rw [List.cons_append] at hdecode ⊢
    rw [malformedRun, malformedRun, hdecode, ih]

theorem malformedRun_le (x : Bytes) : malformedRun x ≤ x.length := by
  induction x with
  | nil => exact Nat.le_refl 0
  | cons d x ih =>
    rw [malformedRun]
    split
    · exact Nat.succ_le_succ ih
    · exact Nat.zero_le _

theorem longOperator?_cut (b : Bytes) : longOperator? c (x ++ newline :: b) = longOperator? c x := by
  unfold longOperator?
  rw [Byte.find?_startsWith_cut (by decide), Byte.startsWith_cut (by decide)]

theorem longOperator?_le (h : longOperator? c x = some (kind, n)) : n ≤ x.length := by
  unfold longOperator? at h
  split at h
  · next op hop =>
    have hstarts := List.find?_some hop
    cases h
    exact Byte.length_le_of_startsWith hstarts
  · split at h
    · next hgo =>
      have htwo := Byte.length_le_of_startsWith (Bool.and_eq_true_iff.mp hgo).2
      cases h
      exact htwo
    · cases h

theorem single_cut (hx : x ≠ []) (b : Bytes) : single (x ++ newline :: b) = single x := by
  cases x with
  | nil => exact absurd rfl hx
  | cons d x => rfl

theorem single_width (x : Bytes) : (single x).2 = 1 := by
  unfold single
  repeat' split
  all_goals rfl

variable (hd : c.dialect.Linewise)
include hd

theorem startsLineComment_cut (b : Bytes) :
    startsLineComment c.dialect (x ++ newline :: b) = startsLineComment c.dialect x := by
  unfold startsLineComment
  rw [Byte.startsWith_cut (by decide), Bool.eq_iff_iff, List.any_eq_true, List.any_eq_true]
  refine exists_congr fun sign => and_congr_right fun hsign => ?_
  rw [Byte.startsWith_cut (hd.lineComments sign hsign)]

theorem comment?_cut (b : Bytes)
    (hopen : ∀ n, comment? c x = some (.error .unterminatedComment, n) → n < x.length) :
    comment? c (x ++ newline :: b) = comment? c x := by
  unfold comment? at hopen ⊢
  rw [hd.notRuby] at hopen ⊢
  rw [Byte.startsWith_cut (by decide), startsLineComment_cut hd, Byte.lineLength_cut]
  split
  · next hblock =>
    rw [if_pos hblock] at hopen
    have htwo := Byte.length_le_of_startsWith (Bool.and_eq_true_iff.mp hblock).2
    rw [blockComment_cut b htwo fun n hn => hopen n (congrArg some hn)]
  · rfl

theorem comment?_le (h : comment? c x = some (kind, n)) : n ≤ x.length := by
  unfold comment? at h
  rw [hd.notRuby] at h
  split at h
  · unfold blockComment at h
    split at h
    · next hfound =>
      have hle := Byte.find?_add_length_le hfound
      have htwo : "*/".length = 2 := by decide
      rw [List.length_drop, htwo] at hle
      cases h
      omega
    · cases h
      exact Nat.le_refl _
  · split at h
    · next hruby => cases hruby
    · split at h
      · cases h
        exact Byte.lineLength_le x
      · cases h

theorem identTail_eq (x : Bytes) : identTail c.dialect.language x = identBody c.dialect.language 0 x := by
  rw [identTail, hd.notRuby]
  rfl

theorem identTail_cut (b : Bytes) :
    identTail c.dialect.language (x ++ newline :: b) = identTail c.dialect.language x := by
  rw [identTail_eq hd, identTail_eq hd, identBody_cut _ (Nat.zero_le _)]

theorem identTail_le (x : Bytes) : identTail c.dialect.language x ≤ x.length := by
  rw [identTail_eq hd]
  exact identBody_le _ (Nat.zero_le _)

theorem sigilName?_cut (b : Bytes) : sigilName? c (x ++ newline :: b) = sigilName? c x := by
  have hsigil : (c.dialect.sigils.map Byte.of).contains newline = false := by
    simpa using hd.sigils
  unfold sigilName?
  rw [takeWhile_cut b hsigil]
  dsimp only
  have hle : (x.takeWhile fun b => (c.dialect.sigils.map Byte.of).contains b).length ≤ x.length :=
    (List.takeWhile_sublist _).length_le
  rw [List.drop_append_of_le_length hle, identTail_cut hd]
  rcases getElem?_cut b hle with heq | ⟨hcut, hnone⟩
  · rw [heq]
  · rw [hcut, hnone]
    rfl

theorem sigilName?_le (h : sigilName? c x = some (kind, n)) : n ≤ x.length := by
  unfold sigilName? at h
  dsimp only at h
  have hle : (x.takeWhile fun b => (c.dialect.sigils.map Byte.of).contains b).length ≤ x.length :=
    (List.takeWhile_sublist _).length_le
  split at h
  · have htail := identTail_le hd (x.drop (x.takeWhile fun b => (c.dialect.sigils.map Byte.of).contains b).length)
    rw [List.length_drop] at htail
    cases h
    omega
  · cases h

theorem word?_cut (hx : x ≠ []) (b : Bytes) : word? c (x ++ newline :: b) = word? c x := by
  cases x with
  | nil => exact absurd rfl hx
  | cons d x =>
    have htail := identTail_le hd x
    have htake : (d :: x ++ newline :: b).take (1 + identTail c.dialect.language x) =
        (d :: x).take (1 + identTail c.dialect.language x) :=
      List.take_append_of_le_length (by rw [List.length_cons]; omega)
    rw [List.cons_append] at htake ⊢
    simp only [word?, identTail_cut hd, htake]

theorem word?_le (h : word? c x = some (kind, n)) : n ≤ x.length := by
  unfold word? at h
  split at h
  · next d rest =>
    have htail := identTail_le hd rest
    split at h
    · cases h
      rw [List.length_cons]
      omega
    · cases h
  · cases h

theorem nonAscii?_cut (hx : x ≠ []) (b : Bytes) : nonAscii? c (x ++ newline :: b) = nonAscii? c x := by
  cases x with
  | nil => exact absurd rfl hx
  | cons d x =>
    have hdecode := Text.Utf8.decodeChar_cut (List.cons_ne_nil d x) b
    rw [List.cons_append] at hdecode ⊢
    simp only [nonAscii?, hdecode, malformedRun_cut]
    split
    · cases hchar : Text.Utf8.decodeChar (d :: x) with
      | none => rfl
      | some found =>
        have hwidth := Text.Utf8.decodeChar_width_le hchar
        have hdrop : (d :: x ++ newline :: b).drop found.2 = (d :: x).drop found.2 ++ newline :: b :=
          List.drop_append_of_le_length hwidth
        rw [List.cons_append] at hdrop
        dsimp only
        rw [hdrop, identTail_cut hd]
    · rfl

theorem nonAscii?_le (h : nonAscii? c x = some (kind, n)) : n ≤ x.length := by
  unfold nonAscii? at h
  split at h
  · next d rest =>
    split at h
    · split at h
      · next ch m hchar =>
        have hwidth := Text.Utf8.decodeChar_width_le hchar
        have htail := identTail_le hd ((d :: rest).drop m)
        rw [List.length_drop, List.length_cons] at htail
        rw [List.length_cons]
        split at h <;> cases h <;> omega
      · cases h
        exact Nat.succ_le_succ (malformedRun_le rest)
    · cases h
  · cases h

/-! ## The scan of a token -/

theorem symbol?_eq_none (x : Bytes) : symbol? c x = none := by
  unfold symbol?
  cases x with
  | nil => rfl
  | cons d x => simp only [hd.notRuby, Bool.false_and, Bool.false_eq_true, if_false]

theorem regex?_eq_none (x : Bytes) : regex? c x = none := by
  unfold regex?
  cases x with
  | nil => rfl
  | cons d x => simp only [hd.notEcmascript, Bool.and_false, Bool.false_and, Bool.false_eq_true, if_false]

theorem scan_eq (x : Bytes) :
    scan c x = (phpTag? c x <|> comment? c x <|> string? c x <|> number? x <|> sigilName? c x <|> word? c x <|>
      nonAscii? c x <|> longOperator? c x).getD (single x) := by
  unfold scan
  rw [symbol?_eq_none hd, regex?_eq_none hd]
  rfl

/-- The token does not run into the end of the bytes unclosed. -/
def Closes (kind : TokenKind) (stop length : Nat) : Prop :=
  kind = .error .unterminatedString ∨ kind = .error .unterminatedComment → stop < length

/-- The scan of a token stops before a line feed, unless it is in a string or a comment. -/
theorem scan_cut (hx : x ≠ []) (b : Bytes)
    (hopen : Closes (scan c x).1 (scan c x).2 x.length) : scan c (x ++ newline :: b) = scan c x := by
  rw [scan_eq hd] at hopen ⊢
  rw [scan_eq hd, phpTag?_cut, number?_cut hx, sigilName?_cut hd, word?_cut hd hx, nonAscii?_cut hd hx,
    longOperator?_cut, single_cut hx]
  have hnone (y : Option Scanned) : (none <|> y) = y := rfl
  cases hphp : phpTag? c x with
  | some p => rfl
  | none =>
    rw [hphp, hnone] at hopen
    rw [comment?_cut hd b fun n hn => by rw [hn] at hopen; exact hopen (Or.inr rfl)]
    cases hcomment : comment? c x with
    | some p => rfl
    | none =>
      rw [hcomment, hnone] at hopen
      rw [string?_cut b fun n hn => by rw [hn] at hopen; exact hopen (Or.inl rfl)]

theorem scan_le (hx : x ≠ []) : (scan c x).2 ≤ x.length := by
  rcases scan_cases c x with h | h | h | h | h | h | h | h | h | h | h
  · exact phpTag?_le h
  · exact comment?_le hd h
  · exact string?_le h
  · exact number?_le h
  · rw [symbol?_eq_none hd] at h
    cases h
  · exact sigilName?_le hd h
  · exact word?_le hd h
  · exact nonAscii?_le hd h
  · rw [regex?_eq_none hd] at h
    cases h
  · exact longOperator?_le h
  · rw [h.2, single_width]
    exact List.length_pos_iff.mpr hx

end Token
end TaintScan
