import TaintScan.Proofs.Lines

/-! # Well-formed bytes

Decoding inverts encoding: bytes are decoded to a text exactly if they are its encoding. Well-formed
bytes can be taken apart at every byte of the ASCII range, since no longer encoding holds one.
-/
namespace TaintScan.Text.Utf8

/-! ## One character -/

variable {n : Nat} {c : Char} {bytes x y : Bytes}

theorem toNat_toUInt8 (h : n < 256) : n.toUInt8.toNat = n := Nat.mod_eq_of_lt h

theorem isContinuation_iff {b : UInt8} : isContinuation b = true ↔ 0x80 ≤ b.toNat ∧ b.toNat ≤ 0xBF := by
  simp [isContinuation, UInt8.le_iff_toNat_le]

theorem secondAllowed_iff {a b : UInt8} :
    secondAllowed a b = true ↔ 0x80 ≤ b.toNat ∧ b.toNat ≤ 0xBF ∧ (a.toNat = 0xE0 → 0xA0 ≤ b.toNat) ∧
      (a.toNat = 0xED → b.toNat ≤ 0x9F) ∧ (a.toNat = 0xF0 → 0x90 ≤ b.toNat) ∧
      (a.toNat = 0xF4 → b.toNat ≤ 0x8F) := by
  have hbyte (k : UInt8) : (a == k) = true ↔ a.toNat = k.toNat := by
    rw [beq_iff_eq, UInt8.toNat_inj]
  unfold secondAllowed
  simp only [hbyte, isContinuation, UInt8.le_iff_toNat_le, UInt8.reduceToNat]
  repeat' split
  all_goals
    simp only [Bool.and_eq_true, decide_eq_true_eq]
    omega

section Widths

variable {a b b' b'' : UInt8} (rest : Bytes)

theorem decodeChar_one (ha : a.toNat ≤ 0x7F) : decodeChar (a :: rest) = some (Char.ofNat a.toNat, 1) := by
  have hone : a ≤ 0x7F := by rwa [UInt8.le_iff_toNat_le]
  simp [decodeChar, hone]

theorem decodeChar_two (ha : 0xC2 ≤ a.toNat ∧ a.toNat ≤ 0xDF) (hb : isContinuation b = true) :
    decodeChar (a :: b :: rest) = some (Char.ofNat (a.toNat % 32 * 64 + payload b), 2) := by
  have hone : ¬a ≤ 0x7F := by simp [UInt8.le_iff_toNat_le]; omega
  have htwo : 0xC2 ≤ a ∧ a ≤ 0xDF := by simpa [UInt8.le_iff_toNat_le] using ha
  simp [decodeChar, hone, htwo, hb]

theorem decodeChar_three (ha : 0xE0 ≤ a.toNat ∧ a.toNat ≤ 0xEF) (hb : secondAllowed a b = true)
    (hb' : isContinuation b' = true) :
    decodeChar (a :: b :: b' :: rest) =
      some (Char.ofNat ((a.toNat % 16 * 64 + payload b) * 64 + payload b'), 3) := by
  have hone : ¬a ≤ 0x7F := by simp [UInt8.le_iff_toNat_le]; omega
  have htwo : ¬(0xC2 ≤ a ∧ a ≤ 0xDF) := by simp [UInt8.le_iff_toNat_le]; omega
  have hthree : 0xE0 ≤ a ∧ a ≤ 0xEF := by simpa [UInt8.le_iff_toNat_le] using ha
  simp [decodeChar, hone, htwo, hthree, hb, hb']

theorem decodeChar_four (ha : 0xF0 ≤ a.toNat ∧ a.toNat ≤ 0xF4) (hb : secondAllowed a b = true)
    (hb' : isContinuation b' = true) (hb'' : isContinuation b'' = true) :
    decodeChar (a :: b :: b' :: b'' :: rest) =
      some (Char.ofNat (((a.toNat % 8 * 64 + payload b) * 64 + payload b') * 64 + payload b''), 4) := by
  have hone : ¬a ≤ 0x7F := by simp [UInt8.le_iff_toNat_le]; omega
  have htwo : ¬(0xC2 ≤ a ∧ a ≤ 0xDF) := by simp [UInt8.le_iff_toNat_le]; omega
  have hthree : ¬(0xE0 ≤ a ∧ a ≤ 0xEF) := by simp [UInt8.le_iff_toNat_le]; omega
  have hfour : 0xF0 ≤ a ∧ a ≤ 0xF4 := by simpa [UInt8.le_iff_toNat_le] using ha
  simp [decodeChar, hone, htwo, hthree, hfour, hb, hb', hb'']

end Widths

theorem decodeChar_encodeChar (c : Char) (rest : Bytes) :
    decodeChar (encodeChar c ++ rest) = some (c, (encodeChar c).length) := by
  have hc : c.toNat < 0xD800 ∨ 0xDFFF < c.toNat ∧ c.toNat < 0x110000 := c.valid
  have hof : Char.ofNat c.toNat = c := Char.ofNat_toNat c
  unfold encodeChar
  generalize c.toNat = n at hc hof
  subst hof
  have hlast : (0x80 + n % 64).toUInt8.toNat = 0x80 + n % 64 := toNat_toUInt8 (by omega)
  have hmiddle : (0x80 + n / 64 % 64).toUInt8.toNat = 0x80 + n / 64 % 64 := toNat_toUInt8 (by omega)
  dsimp only
  split
  · have hlead : n.toUInt8.toNat = n := toNat_toUInt8 (by omega)
    apply (decodeChar_one rest (by omega)).trans
    rw [hlead]
    rfl
  split
  · have hlead : (0xC0 + n / 64).toUInt8.toNat = 0xC0 + n / 64 := toNat_toUInt8 (by omega)
    apply (decodeChar_two rest (by omega) (by rw [isContinuation_iff]; omega)).trans
    rw [payload, hlead, hlast]
    congr 3
    omega
  split
  · have hlead : (0xE0 + n / 4096).toUInt8.toNat = 0xE0 + n / 4096 := toNat_toUInt8 (by omega)
    apply (decodeChar_three rest (by omega) (by rw [secondAllowed_iff]; omega)
      (by rw [isContinuation_iff]; omega)).trans
    rw [payload, payload, hlead, hmiddle, hlast]
    congr 3
    omega
  · have hlead : (0xF0 + n / 262144).toUInt8.toNat = 0xF0 + n / 262144 := toNat_toUInt8 (by omega)
    have hsecond : (0x80 + n / 4096 % 64).toUInt8.toNat = 0x80 + n / 4096 % 64 := toNat_toUInt8 (by omega)
    apply (decodeChar_four rest (by omega) (by rw [secondAllowed_iff]; omega)
      (by rw [isContinuation_iff]; omega) (by rw [isContinuation_iff]; omega)).trans
    rw [payload, payload, payload, hlead, hsecond, hmiddle, hlast]
    congr 3
    omega

theorem take_eq_encodeChar {a : UInt8} {rest : Bytes} (h : decodeChar (a :: rest) = some (c, n)) :
    (a :: rest).take n = encodeChar c := by
  have hval {v : Nat} (hv : v < 0xD800 ∨ 0xDFFF < v ∧ v < 0x110000) : (Char.ofNat v).toNat = v := by
    unfold Char.ofNat
    rw [dif_pos hv]
    rfl
  have hbyte {x : UInt8} {v : Nat} (hv : v = x.toNat) : v.toUInt8 = x := by
    apply UInt8.toNat_inj.mp
    rw [hv]
    exact Nat.mod_eq_of_lt x.toNat_lt
  unfold encodeChar
  rcases decodeChar_cases h with ⟨ha, rfl, rfl⟩ | ⟨b, tail, rfl, ha, hb, rfl, ha', rfl⟩ |
    ⟨b, b', tail, rfl, ha, hb, hb', rfl, ha', rfl⟩ | ⟨b, b', b'', tail, rfl, ha, hb, hb', hb'', rfl, ha', rfl⟩
  · simp [UInt8.le_iff_toNat_le] at ha
    rw [hval (by omega), if_pos (by omega), hbyte rfl]
    rfl
  · simp [UInt8.le_iff_toNat_le] at ha ha'
    rw [isContinuation_iff] at hb
    unfold payload
    rw [hval (by omega), if_neg (by omega), if_pos (by omega), hbyte (x := a) (by omega),
      hbyte (x := b) (by omega)]
    rfl
  · simp [UInt8.le_iff_toNat_le] at ha ha'
    rw [secondAllowed_iff] at hb
    rw [isContinuation_iff] at hb'
    unfold payload
    rw [hval (by omega), if_neg (by omega), if_neg (by omega), if_pos (by omega), hbyte (x := a) (by omega),
      hbyte (x := b) (by omega), hbyte (x := b') (by omega)]
    rfl
  · simp [UInt8.le_iff_toNat_le] at ha ha'
    rw [secondAllowed_iff] at hb
    rw [isContinuation_iff] at hb' hb''
    unfold payload
    rw [hval (by omega), if_neg (by omega), if_neg (by omega), if_neg (by omega), hbyte (x := a) (by omega),
      hbyte (x := b) (by omega), hbyte (x := b') (by omega), hbyte (x := b'') (by omega)]
    rfl

theorem encodeChar_ne_nil (c : Char) : encodeChar c ≠ [] := by
  unfold encodeChar
  dsimp only
  repeat' split
  all_goals exact List.cons_ne_nil _ _

theorem encodeChar_of_ascii {b : UInt8} (hb : b < 0x80) (hmem : b ∈ encodeChar c) : encodeChar c = [b] := by
  have hc : c.toNat < 0xD800 ∨ 0xDFFF < c.toNat ∧ c.toNat < 0x110000 := c.valid
  have hwide {v : Nat} (hv : 0x80 ≤ v) (hv' : v < 256) : b ≠ v.toUInt8 := by
    rintro rfl
    rw [UInt8.lt_iff_toNat_lt, toNat_toUInt8 hv'] at hb
    exact absurd hb (Nat.not_lt.mpr hv)
  unfold encodeChar at hmem ⊢
  dsimp only at hmem ⊢
  split at hmem
  · next hone =>
    rw [if_pos hone, List.mem_singleton.mp hmem]
  split at hmem
  · simp only [List.mem_cons, List.not_mem_nil, or_false] at hmem
    rcases hmem with h | h
    all_goals exact absurd h (hwide (by omega) (by omega))
  split at hmem
  · simp only [List.mem_cons, List.not_mem_nil, or_false] at hmem
    rcases hmem with h | h | h
    all_goals exact absurd h (hwide (by omega) (by omega))
  · simp only [List.mem_cons, List.not_mem_nil, or_false] at hmem
    rcases hmem with h | h | h | h
    all_goals exact absurd h (hwide (by omega) (by omega))

/-! ## Texts -/

theorem decodeFrom_skip (skip : Nat) (bytes : Bytes) : decodeFrom skip bytes = decodeFrom 0 (bytes.drop skip) := by
  induction bytes generalizing skip with
  | nil => simp [decodeFrom]
  | cons a rest ih =>
    cases skip with
    | zero => rfl
    | succ k => rw [decodeFrom, ih, List.drop_succ_cons]

theorem decodeFrom_of_decodeChar (hn : 0 < n) (h : decodeChar bytes = some (c, n)) :
    decodeFrom 0 bytes = (decodeFrom 0 (bytes.drop n)).map (c :: ·) := by
  cases bytes with
  | nil => cases h
  | cons a rest =>
    obtain ⟨k, rfl⟩ := Nat.exists_eq_succ_of_ne_zero (Nat.ne_of_gt hn)
    rw [decodeFrom, h, List.drop_succ_cons]
    simp only [Nat.succ_eq_add_one, Nat.add_sub_cancel]
    rw [decodeFrom_skip]

theorem decodeFrom_flatMap (cs : List Char) : decodeFrom 0 (cs.flatMap encodeChar) = some cs := by
  induction cs with
  | nil => rfl
  | cons c cs ih =>
    have hpos : 0 < (encodeChar c).length := List.length_pos_iff.mpr (encodeChar_ne_nil c)
    rw [List.flatMap_cons, decodeFrom_of_decodeChar hpos (decodeChar_encodeChar c _), List.drop_left, ih]
    rfl

theorem flatMap_of_decodeFrom {cs : List Char} (h : decodeFrom 0 bytes = some cs) :
    cs.flatMap encodeChar = bytes := by
  induction hlen : bytes.length using Nat.strongRecOn generalizing bytes cs with
  | _ len ih =>
  cases bytes with
  | nil =>
    cases h
    rfl
  | cons a rest =>
    rw [decodeFrom] at h
    split at h
    · next c n hc =>
      obtain ⟨tail, htail, rfl⟩ := Option.map_eq_some_iff.mp h
      have htake := take_eq_encodeChar hc
      have hpos : n ≠ 0 := by
        rintro rfl
        exact encodeChar_ne_nil c htake.symm
      obtain ⟨k, rfl⟩ := Nat.exists_eq_succ_of_ne_zero hpos
      rw [Nat.succ_eq_add_one, Nat.add_sub_cancel, decodeFrom_skip] at htail
      have hlt : (rest.drop k).length < len := by
        rw [← hlen, List.length_drop, List.length_cons]
        omega
      rw [List.flatMap_cons, ih _ hlt htail rfl, ← htake, List.take_succ_cons, List.cons_append,
        List.take_append_drop]
    · cases h

theorem decode?_eq_some_iff {s : String} : decode? bytes = some s ↔ encode s = bytes := by
  unfold decode? encode
  constructor
  · intro h
    obtain ⟨cs, hcs, rfl⟩ := Option.map_eq_some_iff.mp h
    rw [String.toList_ofList]
    exact flatMap_of_decodeFrom hcs
  · rintro rfl
    rw [decodeFrom_flatMap, Option.map_some, String.ofList_toList]

/-! ## Well-formed bytes -/

theorem isValid_iff : isValid bytes = true ↔ ∃ cs : List Char, cs.flatMap encodeChar = bytes := by
  unfold isValid
  rw [Option.isSome_iff_exists]
  constructor
  · rintro ⟨cs, hcs⟩
    exact ⟨cs, flatMap_of_decodeFrom hcs⟩
  · rintro ⟨cs, rfl⟩
    exact ⟨cs, decodeFrom_flatMap cs⟩

theorem isValid_append (hx : isValid x = true) (hy : isValid y = true) : isValid (x ++ y) = true := by
  obtain ⟨cs, rfl⟩ := isValid_iff.mp hx
  obtain ⟨ds, rfl⟩ := isValid_iff.mp hy
  rw [isValid_iff]
  exact ⟨cs ++ ds, List.flatMap_append⟩

theorem isValid_take_decodeChar {a : UInt8} {rest : Bytes} (h : decodeChar (a :: rest) = some (c, n)) :
    isValid ((a :: rest).take n) = true := by
  rw [take_eq_encodeChar h, isValid_iff]
  exact ⟨[c], by simp⟩

theorem isValid_singleton {b : UInt8} (hb : b < 0x80) : isValid [b] = true := by
  have hle : b.toNat ≤ 0x7F := Nat.le_of_lt_succ (UInt8.lt_iff_toNat_lt.mp hb)
  exact isValid_take_decodeChar (decodeChar_one [] hle)

theorem isValid_of_ascii (h : ∀ b ∈ x, b < 0x80) : isValid x = true := by
  induction x with
  | nil => rfl
  | cons b x ih =>
    obtain ⟨hb, hx⟩ := List.forall_mem_cons.mp h
    exact isValid_append (isValid_singleton hb) (ih hx)

theorem isValid_of_append (hx : isValid x = true) (h : isValid (x ++ y) = true) : isValid y = true := by
  obtain ⟨cs, rfl⟩ := isValid_iff.mp hx
  clear hx
  induction cs with
  | nil => exact h
  | cons c cs ih =>
    apply ih
    rw [List.flatMap_cons, List.append_assoc] at h
    have hpos : 0 < (encodeChar c).length := List.length_pos_iff.mpr (encodeChar_ne_nil c)
    unfold isValid at h ⊢
    rwa [decodeFrom_of_decodeChar hpos (decodeChar_encodeChar c _), Option.isSome_map, List.drop_left] at h

theorem isValid_append_cons {b : UInt8} (hb : b < 0x80) (h : isValid (x ++ b :: y) = true) :
    isValid x = true ∧ isValid y = true := by
  obtain ⟨cs, hcs⟩ := isValid_iff.mp h
  clear h
  induction cs generalizing x with
  | nil => simp at hcs
  | cons c cs ih =>
    rw [List.flatMap_cons] at hcs
    rcases List.append_eq_append_iff.mp hcs with ⟨z, rfl, htail⟩ | ⟨z, hchar, htail⟩
    · obtain ⟨hz, hy⟩ := ih htail
      refine ⟨isValid_append ?_ hz, hy⟩
      rw [isValid_iff]
      exact ⟨[c], by simp⟩
    · cases z with
      | nil =>
        obtain ⟨-, hy⟩ := ih (x := []) htail.symm
        rw [List.append_nil] at hchar
        rw [← hchar, isValid_iff]
        exact ⟨⟨[c], by simp⟩, hy⟩
      | cons b' z =>
        -- The byte is in the encoding, so it is all of it.
        rw [List.cons_append] at htail
        obtain ⟨rfl, rfl⟩ := List.cons.inj htail
        have hone := encodeChar_of_ascii hb (hchar ▸ List.mem_append_right x List.mem_cons_self)
        rw [hone, List.singleton_eq_append_iff] at hchar
        rcases hchar with ⟨rfl, heq⟩ | ⟨-, heq⟩
        · obtain ⟨-, rfl⟩ := List.cons.inj heq
          refine ⟨rfl, ?_⟩
          rw [List.nil_append, isValid_iff]
          exact ⟨cs, rfl⟩
        · cases heq

end TaintScan.Text.Utf8
