import TaintScan.Proofs.Text.Utf8
import TaintScan.Proofs.Token.Delimiter
import TaintScan.Proofs.Token.Name

/-! # Tokens that are not well formed

The readers of names, numbers and operators take whole characters, so the tokens they find are well formed
whatever the content is. The readers of strings, comments and regular expressions look for a closing delimiter and
not at what stands before it.
-/
namespace TaintScan

open Text.Utf8 (Bytes isValid)

/-! ## Bytes of the ASCII range -/

namespace Byte

theorem isLetter_lt {b : UInt8} (h : isLetter b = true) : b < 0x80 := by
  simp only [isLetter, Bool.or_eq_true, Bool.and_eq_true, decide_eq_true_eq, UInt8.le_iff_toNat_le] at h
  simp only [UInt8.lt_iff_toNat_lt, UInt8.reduceToNat] at h ⊢
  omega

theorem isDigit_lt {b : UInt8} (h : isDigit b = true) : b < 0x80 := by
  simp only [isDigit, Bool.and_eq_true, decide_eq_true_eq, UInt8.le_iff_toNat_le] at h
  simp only [UInt8.lt_iff_toNat_lt, UInt8.reduceToNat] at h ⊢
  omega

theorem isIdentStart_lt {b : UInt8} (h : isIdentStart b = true) : b < 0x80 := by
  rcases Bool.or_eq_true_iff.mp h with h | h
  · exact isLetter_lt h
  · rw [eq_of_beq h]
    decide

theorem isIdentContinue_lt {b : UInt8} (h : isIdentContinue b = true) : b < 0x80 := by
  rcases Bool.or_eq_true_iff.mp h with h | h
  · rcases Bool.or_eq_true_iff.mp h with h | h
    · exact isLetter_lt h
    · exact isDigit_lt h
  · rw [eq_of_beq h]
    decide

theorem lt_of_or {p q : Bool} {b d : UInt8} (h : (p || b == d && q) = true) (hp : p = true → b < 0x80) (hd : d < 0x80) :
    b < 0x80 := by
  rcases Bool.or_eq_true_iff.mp h with h | h
  · exact hp h
  · rwa [eq_of_beq (Bool.and_eq_true_iff.mp h).1]

theorem take_of_startsWith {text : String} {x : Bytes} (h : startsWith text x = true) :
    x.take text.length = ofAscii text := by
  have hpre := List.prefix_iff_eq_take.mp (List.isPrefixOf_iff_prefix.mp h)
  rw [hpre]
  simp [ofAscii, String.length_toList]

end Byte

namespace Text.Utf8

variable {x y : Bytes} {n : Nat}

theorem decodeChar_append {a : UInt8} {c : Char} (h : decodeChar (a :: x) = some (c, n)) (y : Bytes) :
    decodeChar (a :: x ++ y) = some (c, (encodeChar c).length) := by
  rw [← List.take_append_drop n (a :: x), take_eq_encodeChar h, List.append_assoc]
  exact decodeChar_encodeChar c _

theorem isValid_of_decodeChar_eq_none {a : UInt8} (h : decodeChar (a :: x) = none) (n : Nat) :
    isValid ((a :: x).take (n + 1)) = false := by
  rw [List.take_succ_cons]
  unfold isValid
  rw [decodeFrom]
  split
  · next c m hc =>
    have hwhole := decodeChar_append hc (x.drop n)
    rw [List.cons_append, List.take_append_drop, h] at hwhole
    cases hwhole
  · rfl

end Text.Utf8

open Text.Utf8

namespace Token

variable {c : LexContext} {x : Bytes} {kind : TokenKind} {n : Nat}

/-! ## Readers of whole characters -/

theorem identBody_skip (language : Language) {skip : Nat} (h : skip ≤ x.length) :
    identBody language skip x = skip + identBody language 0 (x.drop skip) := by
  induction x generalizing skip with
  | nil =>
    rw [Nat.le_zero.mp h]
    rfl
  | cons b x ih =>
    cases skip with
    | zero => simp
    | succ k =>
      rw [identBody, ih (Nat.le_of_succ_le_succ h), List.drop_succ_cons]
      omega

theorem isValid_identBody (language : Language) (x : Bytes) : isValid (x.take (identBody language 0 x)) = true := by
  induction hlen : x.length using Nat.strongRecOn generalizing x with
  | _ len ih =>
  cases x with
  | nil => rfl
  | cons b rest =>
    rw [identBody]
    split
    · next hb =>
      have hascii : b < 0x80 := Byte.lt_of_or hb Byte.isIdentContinue_lt (by decide)
      have hrest := ih rest.length (by rw [← hlen]; exact Nat.lt_succ_self _) rest rfl
      exact isValid_append (isValid_singleton hascii) hrest
    · split
      · split
        · next ch m hch =>
          split
          · have hpos := decodeChar_width_pos hch
            have hle := decodeChar_width_le hch
            obtain ⟨k, rfl⟩ : ∃ k, m = k + 1 := ⟨m - 1, by omega⟩
            have hrest := ih (rest.drop k).length (by rw [← hlen, List.length_drop, List.length_cons]; omega) _ rfl
            rw [Nat.add_sub_cancel, identBody_skip language (by omega), Nat.add_right_comm, List.take_add]
            exact isValid_append (isValid_take_decodeChar hch) hrest
          · rfl
        · rfl
      · rfl

theorem isValid_markedEnd (x : Bytes) : isValid (x.take (markedEnd x)) = true := by
  unfold markedEnd
  split
  · next b rest =>
    split
    · next hb =>
      have hb := (Bool.and_eq_true_iff.mp (Bool.and_eq_true_iff.mp hb).1).1
      apply isValid_singleton
      rcases Bool.or_eq_true_iff.mp hb with hb | hb
      · rw [eq_of_beq hb]
        decide
      · rw [eq_of_beq hb]
        decide
    · rfl
  · rfl

theorem isValid_identTail (language : Language) (x : Bytes) : isValid (x.take (identTail language x)) = true := by
  unfold identTail
  dsimp only
  split
  · rw [List.take_add]
    exact isValid_append (isValid_identBody language x) (isValid_markedEnd _)
  · exact isValid_identBody language x

theorem isValid_ident (language : Language) (h : isValid (x.take n) = true) :
    isValid (x.take (n + identTail language (x.drop n))) = true := by
  rw [List.take_add]
  exact isValid_append h (isValid_identTail language _)

theorem isValid_numberTail (x : Bytes) : isValid (x.take (numberTail x)) = true := by
  induction x with
  | nil => rfl
  | cons b x ih =>
    rw [numberTail]
    split
    · next hb =>
      have hascii : b < 0x80 := Byte.lt_of_or hb Byte.isIdentContinue_lt (by decide)
      exact isValid_append (isValid_singleton hascii) ih
    · rfl

theorem isValid_of_startsWith {text : String} (hascii : ∀ b ∈ Byte.ofAscii text, b < 0x80)
    (h : Byte.startsWith text x = true) : isValid (x.take text.length) = true := by
  rw [Byte.take_of_startsWith h]
  exact isValid_of_ascii hascii

theorem number?_isValid (h : number? x = some (kind, n)) : isValid (x.take n) = true := by
  unfold number? at h
  split at h
  · next b rest =>
    split at h
    · next hb =>
      have hascii : b < 0x80 := Byte.lt_of_or hb Byte.isDigit_lt (by decide)
      cases h
      exact isValid_append (isValid_singleton hascii) (isValid_numberTail rest)
    · cases h
  · cases h

theorem symbol?_isValid (h : symbol? c x = some (kind, n)) : isValid (x.take n) = true := by
  unfold symbol? at h
  split at h
  · next b rest =>
    split at h
    · next hb =>
      simp only [Bool.and_eq_true, beq_iff_eq] at hb
      have hfirst : isValid ((b :: rest).take 1) = true := by
        rw [hb.1.2]
        exact isValid_singleton (by decide)
      cases h
      exact isValid_ident c.dialect.language hfirst
    · cases h
  · cases h

theorem sigils_ascii (language : Language) : ∀ b ∈ (Dialect.of language).sigils.map Byte.of, b < 0x80 :=
  forall_mem_of_all (by cases language <;> decide)

theorem sigilName?_isValid {language : Language} (hc : c.dialect = .of language)
    (h : sigilName? c x = some (kind, n)) : isValid (x.take n) = true := by
  unfold sigilName? at h
  dsimp only at h
  split at h
  · cases h
    apply isValid_ident
    apply isValid_of_ascii
    intro b hb
    rw [← List.prefix_iff_eq_take.mp (List.takeWhile_prefix _)] at hb
    have hmem := List.all_eq_true.mp List.all_takeWhile b hb
    rw [hc] at hmem
    exact sigils_ascii language b (List.contains_iff_mem.mp hmem)
  · cases h

theorem word?_isValid (h : word? c x = some (kind, n)) : isValid (x.take n) = true := by
  unfold word? at h
  split at h
  · next b rest =>
    split at h
    · next hb =>
      have hascii : b < 0x80 := Byte.lt_of_or hb Byte.isIdentStart_lt (by decide)
      have hfirst : isValid ((b :: rest).take 1) = true := isValid_singleton hascii
      cases h
      exact isValid_ident c.dialect.language hfirst
    · cases h
  · cases h

theorem nonAscii?_isValid (h : nonAscii? c x = some (kind, n)) (hkind : kind ≠ .error .invalidUtf8) :
    isValid (x.take n) = true := by
  unfold nonAscii? at h
  split at h
  · next b rest =>
    split at h
    · split at h
      · next ch m hch =>
        have hchar := isValid_take_decodeChar hch
        split at h
        · cases h
          exact isValid_ident c.dialect.language hchar
        · cases h
          exact hchar
      · cases h
        exact absurd rfl hkind
    · cases h
  · cases h

theorem nonAscii?_malformed (h : nonAscii? c x = some (.error .invalidUtf8, n)) {m : Nat} (hm : 0 < m) :
    isValid (x.take m) = false := by
  obtain ⟨k, rfl⟩ := Nat.exists_eq_succ_of_ne_zero (Nat.ne_of_gt hm)
  unfold nonAscii? at h
  split at h
  · split at h
    · split at h
      · split at h <;> cases h
      · next hnone => exact isValid_of_decodeChar_eq_none hnone k
    · cases h
  · cases h

theorem lt_of_nonAscii?_eq_none {b : UInt8} {rest : Bytes} (h : nonAscii? c (b :: rest) = none) : b < 0x80 := by
  apply UInt8.not_le.mp
  intro hb
  unfold nonAscii? at h
  dsimp only at h
  rw [if_pos hb] at h
  repeat' split at h
  all_goals cases h

theorem longOperator?_isValid (h : longOperator? c x = some (kind, n)) : isValid (x.take n) = true := by
  unfold longOperator? at h
  split at h
  · next op hop =>
    have hascii : ∀ op ∈ longOperators, (Byte.ofAscii op).all (fun b => decide (b < 0x80)) = true :=
      forall_mem_of_all (by decide)
    have hstarts := List.find?_some hop
    cases h
    exact isValid_of_startsWith (forall_mem_of_all (hascii op (List.mem_of_find?_eq_some hop))) hstarts
  · split at h
    · next hgo =>
      have hascii : ∀ b ∈ Byte.ofAscii "<-", b < 0x80 := forall_mem_of_all (by decide)
      cases h
      exact isValid_of_startsWith hascii (Bool.and_eq_true_iff.mp hgo).2
    · cases h

theorem single_isValid (hnone : nonAscii? c x = none) (hx : x ≠ []) (h : single x = (kind, n)) :
    isValid (x.take n) = true := by
  cases x with
  | nil => exact absurd rfl hx
  | cons b rest =>
    have hwidth := single_width (b :: rest)
    rw [h] at hwidth
    rw [show n = 1 from hwidth]
    exact isValid_singleton (lt_of_nonAscii?_eq_none hnone)

end Token

/-! ## Tokens -/

/-- A comment, or a literal that is read up to a closing delimiter. -/
def TokenKind.isDelimited : TokenKind → Bool
  | .comment | .literal .string | .literal .interpolatedString | .literal .command | .literal .other => true
  | _ => false

namespace Token

variable {c : LexContext} {x : Bytes} {kind : TokenKind} {n : Nat}

theorem scan_isValid_of_kind {language : Language} (hc : c.dialect = .of language) (hx : x ≠ [])
    (h : scan c x = (kind, n)) (hkind : kind.isDelimited = false)
    (herror : ¬∃ e, kind = .error e ∧ e ≠ .unexpectedCharacter) : isValid (x.take n) = true := by
  rcases scan_kinds h with ⟨h, rfl⟩ | ⟨h, hmem⟩ | ⟨h, hmem⟩ | ⟨h, -⟩ | ⟨h, -⟩ | ⟨h, -⟩ | ⟨h, -⟩ | ⟨h, -⟩ |
    ⟨h, rfl⟩ | ⟨h, -⟩ | ⟨hnone, h, -⟩
  · cases hkind
  · simp only [List.mem_cons, List.not_mem_nil, or_false] at hmem
    rcases hmem with rfl | rfl
    · cases hkind
    · exact absurd ⟨_, rfl, by decide⟩ herror
  · simp only [stringKinds, List.mem_cons, List.not_mem_nil, or_false] at hmem
    rcases hmem with rfl | rfl | rfl | rfl
    · exact absurd ⟨_, rfl, by decide⟩ herror
    all_goals cases hkind
  · exact number?_isValid h
  · exact symbol?_isValid h
  · exact sigilName?_isValid hc h
  · exact word?_isValid h
  · apply nonAscii?_isValid h
    rintro rfl
    exact absurd ⟨_, rfl, by decide⟩ herror
  · cases hkind
  · exact longOperator?_isValid h
  · exact single_isValid hnone hx h

theorem scan_invalidUtf8 (h : scan c x = (.error .invalidUtf8, n)) : isValid (x.take n) = false := by
  rcases scan_kinds h with h | h | h | h | h | h | h | h | h | h | h
  case inr.inr.inr.inr.inr.inr.inr.inl => exact nonAscii?_malformed h.1 (nonAscii?_pos h.1)
  all_goals simp [stringKinds] at h

variable {language : Language} {content : Bytes} {t : Token}

theorem ReadBy.isValid_of_kind (h : ReadBy c content t) (hc : c.dialect = .of language)
    (hkind : t.kind.isDelimited = false) (herror : ¬∃ e, t.kind = .error e ∧ e ≠ .unexpectedCharacter) :
    isValid (t.bytesIn content) = true := by
  obtain ⟨b, rest, hx, -⟩ := h.first
  rw [h.bytes]
  apply scan_isValid_of_kind hc _ (Prod.ext h.kind.symm rfl) hkind herror
  simp [hx]

theorem ReadBy.encode_text_iff (h : ReadBy c content t) (hne : t.bytesIn content ≠ []) :
    encode t.text = t.bytesIn content ↔ isValid (t.bytesIn content) = true := by
  rw [h.text]
  cases hdecode : decode? (t.bytesIn content) with
  | none =>
    have hinvalid : isValid (t.bytesIn content) = false := by simpa [decode?, isValid] using hdecode
    simpa [encode, hinvalid] using hne.symm
  | some s =>
    have hencode := decode?_eq_some_iff.mp hdecode
    have hvalid : isValid (t.bytesIn content) = true := isValid_iff.mpr ⟨s.toList, hencode⟩
    simp [hencode, hvalid]

theorem bytesIn_ne_nil (ht : t ∈ lex language content) : t.bytesIn content ≠ [] := by
  have hwithin := (lex_layout language content).within t ht
  rw [← List.length_pos_iff, bytesIn, List.length_take, List.length_drop]
  omega

/-- The text of a token is its bytes exactly if these are well formed. They are, unless the token is read up to a
closing delimiter, or is an error: never where the error is about the bytes, always where it is about a character. -/
theorem lex_malformed_delimited (language : Language) (content : Bytes) :
    ∀ t ∈ lex language content,
      (encode t.text = t.bytesIn content ↔ isValid (t.bytesIn content) = true) ∧
      (isValid (t.bytesIn content) = false →
        t.kind.isDelimited = true ∨ ∃ e, t.kind = .error e ∧ e ≠ .unexpectedCharacter) ∧
      (t.kind = .error .invalidUtf8 → isValid (t.bytesIn content) = false) := by
  intro t ht
  obtain ⟨c, hc, hread⟩ := exists_readBy ht
  refine ⟨hread.encode_text_iff (bytesIn_ne_nil ht), ?_, ?_⟩
  · intro hinvalid
    by_cases hkind : t.kind.isDelimited = true
    · exact Or.inl hkind
    · by_cases herror : ∃ e, t.kind = .error e ∧ e ≠ .unexpectedCharacter
      · exact Or.inr herror
      · have hvalid := hread.isValid_of_kind hc (by simpa using hkind) herror
        rw [hinvalid] at hvalid
        cases hvalid
  · intro hkind
    rw [hread.bytes]
    exact scan_invalidUtf8 (c := c) (Prod.ext (hread.kind.symm.trans hkind) rfl)

/-- A letter outside of the ASCII range, a string around a malformed byte, and a malformed byte alone. -/
def brokenBytes : Bytes := [0xC3, 0xA9, 0x20, 0x27, 0xFF, 0x27, 0x20, 0xFE]

theorem lex_malformed_delimited_broken :
    lex .python brokenBytes = [⟨.identifier, ⟨0, 2⟩, "é", 1, 1⟩, ⟨.literal .string, ⟨3, 6⟩, "", 1, 1⟩,
      ⟨.error .invalidUtf8, ⟨7, 8⟩, "", 1, 1⟩] ∧
    isValid [0x27, 0xFF, 0x27] = false ∧ TokenKind.isDelimited (.literal .string) = true ∧
    isValid [0xFE] = false := by
  have hlex : lex .python brokenBytes = [⟨.identifier, ⟨0, 2⟩, "é", 1, 1⟩, ⟨.literal .string, ⟨3, 6⟩, "", 1, 1⟩,
      ⟨.error .invalidUtf8, ⟨7, 8⟩, "", 1, 1⟩] := by decide +kernel
  have hall := lex_malformed_delimited .python brokenBytes
  rw [hlex] at hall
  have hstring : isValid [0x27, 0xFF, 0x27] = false := by decide
  refine ⟨hlex, hstring, ?_, (hall ⟨.error .invalidUtf8, ⟨7, 8⟩, "", 1, 1⟩ (by simp)).2.2 rfl⟩
  obtain hdelimited | ⟨e, he, -⟩ := (hall ⟨.literal .string, ⟨3, 6⟩, "", 1, 1⟩ (by simp)).2.1 hstring
  · exact hdelimited
  · cases he

/-- What is read up to a closing delimiter may be malformed, whichever of these kinds it has, and is no error. -/
theorem lex_malformed_kinds :
    lex .go [0x22, 0xFF, 0x22] = [⟨.literal .string, ⟨0, 3⟩, "", 1, 1⟩] ∧
    lex .ruby [0x22, 0xFF, 0x23, 0x7B, 0x78, 0x7D, 0x22] = [⟨.literal .interpolatedString, ⟨0, 7⟩, "", 1, 1⟩] ∧
    lex .ruby [0x60, 0xFF, 0x60] = [⟨.literal .command, ⟨0, 3⟩, "", 1, 1⟩] ∧
    lex .javascript [0x2F, 0xFF, 0x2F] = [⟨.literal .other, ⟨0, 3⟩, "", 1, 1⟩] ∧
    lex .go [0x2F, 0x2F, 0xFF] = [⟨.comment, ⟨0, 3⟩, "", 1, 1⟩] ∧
    ∀ bytes ∈ ([[0x22, 0xFF, 0x22], [0x22, 0xFF, 0x23, 0x7B, 0x78, 0x7D, 0x22], [0x60, 0xFF, 0x60],
      [0x2F, 0xFF, 0x2F], [0x2F, 0x2F, 0xFF]] : List Bytes), isValid bytes = false := by
  decide +kernel

end Token
end TaintScan
