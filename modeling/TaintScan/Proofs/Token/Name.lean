import TaintScan.Proofs.Lines
import TaintScan.Proofs.Token.Kind

/-! # Names hold no dot

An identifier is made of letters, digits, sigils and marks. So its text holds no dot, and a fact that is
kept under a name is not mistaken for that of a member.
-/
namespace TaintScan

open Text.Utf8 (Bytes)

namespace Text.Utf8

theorem le_of_isContinuation {b : UInt8} (h : isContinuation b = true) : 0x80 ≤ b :=
  of_decide_eq_true (Bool.and_eq_true_iff.mp h).1

theorem le_of_secondAllowed {a b : UInt8} (h : secondAllowed a b = true) : 0x80 ≤ b := by
  have hrange {low high : UInt8} (hlow : 0x80 ≤ low)
      (hb : (decide (low ≤ b) && decide (b ≤ high)) = true) : 0x80 ≤ b :=
    UInt8.le_trans hlow (of_decide_eq_true (Bool.and_eq_true_iff.mp hb).1)
  unfold secondAllowed at h
  split at h
  · exact hrange (by decide) h
  · split at h
    · exact hrange (by decide) h
    · split at h
      · exact hrange (by decide) h
      · split at h
        · exact hrange (by decide) h
        · exact le_of_isContinuation h

theorem le_of_mem_decodeChar {a : UInt8} {rest : Bytes} {c : Char} {n : Nat} (ha : 0x80 ≤ a)
    (h : decodeChar (a :: rest) = some (c, n)) : ∀ b ∈ (a :: rest).take n, 0x80 ≤ b := by
  rcases decodeChar_cases h with ⟨hlow, -, -⟩ | ⟨b, tail, rfl, -, hb, rfl, -, -⟩ |
    ⟨b, b', tail, rfl, -, hb, hb', rfl, -, -⟩ | ⟨b, b', b'', tail, rfl, -, hb, hb', hb'', rfl, -, -⟩
  · rw [UInt8.le_iff_toNat_le] at ha hlow
    simp at ha hlow
    omega
  · simp [ha, le_of_isContinuation hb]
  · simp [ha, le_of_secondAllowed hb, le_of_isContinuation hb']
  · simp [ha, le_of_secondAllowed hb, le_of_isContinuation hb', le_of_isContinuation hb'']

theorem not_mem_decodeFrom {skip : Nat} {bytes : Bytes} {cs : List Char}
    (h : decodeFrom skip bytes = some cs) (hb : Byte.of '.' ∉ bytes) : '.' ∉ cs := by
  induction bytes generalizing skip cs with
  | nil =>
    cases h
    exact List.not_mem_nil
  | cons a rest ih =>
    obtain ⟨ha, hrest⟩ := not_or.mp (mt List.mem_cons.mpr hb)
    cases skip with
    | succ k => exact ih h hrest
    | zero =>
      rw [decodeFrom] at h
      split at h
      · next c n hc =>
        obtain ⟨tail, htail, rfl⟩ := Option.map_eq_some_iff.mp h
        rw [List.mem_cons, not_or]
        refine ⟨fun hdot => ha ?_, ih htail hrest⟩
        rw [← hdot] at hc
        exact (UInt8.toNat_inj.mp (decodeChar_ascii (by decide) (by decide) hc)).symm
      · cases h

end Text.Utf8

namespace Token

def Undotted (bytes : Bytes) : Prop := ∀ b ∈ bytes, b ≠ Byte.of '.'

theorem not_mem_text {bytes : Bytes} (h : Undotted bytes) :
    '.' ∉ ((Text.Utf8.decode? bytes).getD "").toList := by
  have hbytes : Byte.of '.' ∉ bytes := fun hmem => h _ hmem rfl
  unfold Text.Utf8.decode?
  cases hdecode : Text.Utf8.decodeFrom 0 bytes with
  | none => exact List.not_mem_nil
  | some cs =>
    rw [Option.map_some, Option.getD_some, String.toList_ofList]
    exact Text.Utf8.not_mem_decodeFrom hdecode hbytes

theorem ne_dot_of_le {b : UInt8} (h : 0x80 ≤ b) : b ≠ Byte.of '.' := by
  rintro rfl
  exact absurd h (by decide)

theorem ne_dot_of_isIdentContinue {b : UInt8} (h : Byte.isIdentContinue b = true) : b ≠ Byte.of '.' := by
  rintro rfl
  exact absurd h (by decide)

theorem ne_dot_of_isIdentStart {b : UInt8} (h : Byte.isIdentStart b = true) : b ≠ Byte.of '.' := by
  rintro rfl
  exact absurd h (by decide)

theorem undotted_identBody (language : Language) {skip : Nat} {bytes : Bytes}
    (h : Undotted (bytes.take skip)) : Undotted (bytes.take (identBody language skip bytes)) := by
  induction bytes generalizing skip with
  | nil => exact List.forall_mem_nil _
  | cons b rest ih =>
    cases skip with
    | succ k =>
      obtain ⟨hb, hrest⟩ := List.forall_mem_cons.mp h
      exact List.forall_mem_cons.mpr ⟨hb, ih hrest⟩
    | zero =>
      rw [identBody]
      split
      · next hb =>
        refine List.forall_mem_cons.mpr ⟨?_, ih (List.forall_mem_nil _)⟩
        rcases Bool.or_eq_true_iff.mp hb with hb | hb
        · exact ne_dot_of_isIdentContinue hb
        · rw [eq_of_beq (Bool.and_eq_true_iff.mp hb).1]
          decide
      · split
        · next hb =>
          split
          · next c n hc =>
            split
            · have hchar := Text.Utf8.le_of_mem_decodeChar hb hc
              have hpos := Text.Utf8.decodeChar_width_pos hc
              obtain ⟨k, rfl⟩ : ∃ k, n = k + 1 := ⟨n - 1, by omega⟩
              obtain ⟨_, hrest⟩ := List.forall_mem_cons.mp hchar
              refine List.forall_mem_cons.mpr ⟨ne_dot_of_le hb, ih fun x hx => ?_⟩
              exact ne_dot_of_le (hrest x hx)
            · exact List.forall_mem_nil _
          · exact List.forall_mem_nil _
        · exact List.forall_mem_nil _

theorem undotted_markedEnd (bytes : Bytes) : Undotted (bytes.take (markedEnd bytes)) := by
  unfold markedEnd
  split
  · next b rest =>
    split
    · next hb =>
      have hb := (Bool.and_eq_true_iff.mp (Bool.and_eq_true_iff.mp hb).1).1
      refine List.forall_mem_singleton.mpr ?_
      rcases Bool.or_eq_true_iff.mp hb with hb | hb
      · rw [eq_of_beq hb]
        decide
      · rw [eq_of_beq hb]
        decide
    · exact List.forall_mem_nil _
  · exact List.forall_mem_nil _

theorem undotted_identTail (language : Language) (bytes : Bytes) :
    Undotted (bytes.take (identTail language bytes)) := by
  have hbody : Undotted (bytes.take (identBody language 0 bytes)) :=
    undotted_identBody language (List.forall_mem_nil _)
  unfold identTail
  dsimp only
  split
  · rw [List.take_add]
    exact List.forall_mem_append.mpr ⟨hbody, undotted_markedEnd _⟩
  · exact hbody

theorem undotted_ident (language : Language) {bytes : Bytes} {n : Nat} (h : Undotted (bytes.take n)) :
    Undotted (bytes.take (n + identTail language (bytes.drop n))) := by
  rw [List.take_add]
  exact List.forall_mem_append.mpr ⟨h, undotted_identTail language _⟩

variable {language : Language} {c : LexContext} {bytes : Bytes} {n : Nat}

theorem not_dot_mem_sigils (language : Language) : Byte.of '.' ∉ (Dialect.of language).sigils.map Byte.of := by
  cases language <;> decide

theorem sigilName?_undotted (hc : c.dialect = .of language)
    (h : sigilName? c bytes = some (.identifier, n)) : Undotted (bytes.take n) := by
  unfold sigilName? at h
  dsimp only at h
  split at h
  · cases h
    refine undotted_ident _ fun b hb => ?_
    rw [← List.prefix_iff_eq_take.mp (List.takeWhile_prefix _)] at hb
    have hmem := List.all_eq_true.mp List.all_takeWhile b hb
    rintro rfl
    rw [hc] at hmem
    exact not_dot_mem_sigils language (List.contains_iff_mem.mp hmem)
  · cases h

theorem word?_undotted {kind : TokenKind} (h : word? c bytes = some (kind, n)) : Undotted (bytes.take n) := by
  unfold word? at h
  split at h
  · next b rest =>
    split at h
    · next hb =>
      cases h
      have hfirst : Undotted ((b :: rest).take 1) := by
        refine List.forall_mem_singleton.mpr ?_
        rcases Bool.or_eq_true_iff.mp hb with hb | hb
        · exact ne_dot_of_isIdentStart hb
        · rw [eq_of_beq (Bool.and_eq_true_iff.mp hb).1]
          decide
      exact undotted_ident c.dialect.language hfirst
    · cases h
  · cases h

theorem nonAscii?_undotted (h : nonAscii? c bytes = some (.identifier, n)) : Undotted (bytes.take n) := by
  unfold nonAscii? at h
  split at h
  · next b rest =>
    split at h
    · next hb =>
      split at h
      · next ch k hch =>
        split at h
        · cases h
          refine undotted_ident c.dialect.language fun x hx => ?_
          exact ne_dot_of_le (Text.Utf8.le_of_mem_decodeChar hb hch x hx)
        · cases h
      · cases h
    · cases h
  · cases h

theorem scan_undotted (hc : c.dialect = .of language) (h : scan c bytes = (.identifier, n)) :
    Undotted (bytes.take n) := by
  rcases scan_kinds h with h | h | h | h | h | h | h | h | h | h | h
  case inr.inr.inr.inr.inr.inl => exact sigilName?_undotted hc h.1
  case inr.inr.inr.inr.inr.inr.inl => exact word?_undotted h.1
  case inr.inr.inr.inr.inr.inr.inr.inl => exact nonAscii?_undotted h.1
  all_goals simp [stringKinds] at h

theorem Reads.undotted {s s' : LexState} {ts : List Token} (h : Reads (.of language) s bytes ts s') :
    ∀ t ∈ ts, t.kind = .identifier → '.' ∉ t.text.toList := by
  induction h with
  | done => exact List.forall_mem_nil _
  | line h ih | blank hb hline h ih | join hgap h ih => exact ih
  | token hb hn hscan h ih =>
    refine List.forall_mem_cons.mpr ⟨fun hkind => ?_, ih⟩
    exact not_mem_text (scan_undotted rfl (hscan.trans (congrArg (·, _) hkind)))

end Token
end TaintScan
