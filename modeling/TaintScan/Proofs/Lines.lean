import TaintScan.Source
import TaintScan.Text.Blank

/-! # Lines of a unit

The line index counts the line feeds before an offset and knows where each line starts. The text around a span is
therefore made of whole lines, and has no more of them than were asked for, also where its bytes are not well formed
and are replaced.
-/
namespace TaintScan

section Parts

variable {α : Type} {p : α → Bool} {l part : List α}

theorem length_splitOnP (p : α → Bool) (l : List α) : (l.splitOnP p).length = l.countP p + 1 := by
  induction l with
  | nil => rfl
  | cons a l ih =>
    rw [List.splitOnP_cons_eq_if_modifyHead, List.countP_cons]
    split <;> simp [ih]

theorem not_of_mem_splitOnP (h : part ∈ l.splitOnP p) : ∀ a ∈ part, p a = false := by
  induction l generalizing part with
  | nil => simp_all
  | cons a l ih =>
    obtain ⟨first, rest, hl⟩ := List.exists_cons_of_ne_nil (List.splitOnP_ne_nil p l)
    rw [List.splitOnP_cons_eq_if_modifyHead] at h
    rw [hl] at h ih
    split at h
    · rcases List.mem_cons.mp h with rfl | h
      · exact List.forall_mem_nil _
      · exact ih h
    · next ha =>
      rcases List.mem_cons.mp h with rfl | h
      · exact List.forall_mem_cons.mpr ⟨by simpa using ha, ih List.mem_cons_self⟩
      · exact ih (List.mem_cons_of_mem _ h)

end Parts

namespace Text

theorem splitChars_eq_splitOnP (p : Char → Bool) (cs : List Char) : splitChars p cs = cs.splitOnP p := by
  induction cs with
  | nil => rfl
  | cons c cs ih =>
    rw [splitChars, ih, List.splitOnP_cons_eq_if_modifyHead]
    obtain ⟨first, rest, h⟩ := List.exists_cons_of_ne_nil (List.splitOnP_ne_nil p cs)
    rw [h]
    rfl

theorem length_closeLines_le (parts : List (List Char)) : (closeLines parts).length ≤ parts.length := by
  fun_induction closeLines parts with
  | case1 => exact Nat.le_refl 0
  | case2 last _ => exact Nat.zero_le _
  | case3 last _ => exact Nat.le_refl 1
  | case4 line rest _ ih => exact Nat.succ_le_succ ih

theorem length_lines_le (s : String) : (lines s).length ≤ s.toList.count '\n' + 1 := by
  rw [lines, List.length_map]
  refine Nat.le_trans (length_closeLines_le _) ?_
  rw [splitChars_eq_splitOnP, length_splitOnP]
  exact Nat.le_refl _

theorem count_trimEnd_le (s : String) (c : Char) : (trimEnd s).toList.count c ≤ s.toList.count c := by
  have h : List.Sublist (trimEnd s).toList s.toList := by
    rw [trimEnd, trimEndChars, String.toList_ofList]
    have := (s.toList.reverse.dropWhile_sublist isBlank).reverse
    rwa [List.reverse_reverse] at this
  exact h.count_le c

namespace Utf8

variable {n : Nat} {c : Char} {a : UInt8} {rest : Bytes}

theorem eq_toNat_of_ofNat_eq (hc : 0 < c.toNat) (h : Char.ofNat n = c) : n = c.toNat := by
  have hval := congrArg Char.toNat h
  unfold Char.ofNat at hval
  by_cases hn : n.isValidChar
  · rw [dif_pos hn] at hval
    exact hval
  · rw [dif_neg hn] at hval
    exact absurd hval.symm (Nat.ne_of_gt hc)

theorem payload_of_secondAllowed {b : UInt8} (h : secondAllowed a b = true) :
    (a.toNat = 0xE0 → 32 ≤ payload b) ∧ (a.toNat = 0xF0 → 16 ≤ payload b) := by
  unfold payload
  constructor
  · intro ha
    have ha : a = 0xE0 := UInt8.toNat_inj.mp ha
    simp [secondAllowed, ha, UInt8.le_iff_toNat_le] at h
    omega
  · intro ha
    have ha : a = 0xF0 := UInt8.toNat_inj.mp ha
    simp [secondAllowed, ha, UInt8.le_iff_toNat_le] at h
    omega

theorem decodeChar_cases (h : decodeChar (a :: rest) = some (c, n)) :
    (a ≤ 0x7F ∧ n = 1 ∧ Char.ofNat a.toNat = c) ∨
    (∃ b tail, rest = b :: tail ∧ 0xC2 ≤ a ∧ isContinuation b = true ∧ n = 2 ∧
      a ≤ 0xDF ∧ Char.ofNat (a.toNat % 32 * 64 + payload b) = c) ∨
    (∃ b b' tail, rest = b :: b' :: tail ∧ 0xE0 ≤ a ∧ secondAllowed a b = true ∧
      isContinuation b' = true ∧ n = 3 ∧
      a ≤ 0xEF ∧ Char.ofNat ((a.toNat % 16 * 64 + payload b) * 64 + payload b') = c) ∨
    ∃ b b' b'' tail, rest = b :: b' :: b'' :: tail ∧ 0xF0 ≤ a ∧ secondAllowed a b = true ∧
      isContinuation b' = true ∧ isContinuation b'' = true ∧ n = 4 ∧
      a ≤ 0xF4 ∧ Char.ofNat (((a.toNat % 8 * 64 + payload b) * 64 + payload b') * 64 + payload b'') = c := by
  simp only [decodeChar, Bool.and_eq_true, decide_eq_true_eq] at h
  split at h
  · next ha =>
    cases h
    exact Or.inl ⟨ha, rfl, rfl⟩
  split at h
  · next ha =>
    split at h
    · next b tail =>
      split at h
      · next hb =>
        cases h
        exact Or.inr (Or.inl ⟨b, tail, rfl, ha.1, hb, rfl, ha.2, rfl⟩)
      · cases h
    · cases h
  split at h
  · next ha =>
    split at h
    · next b b' tail =>
      split at h
      · next hb =>
        cases h
        exact Or.inr (Or.inr (Or.inl ⟨b, b', tail, rfl, ha.1, hb.1, hb.2, rfl, ha.2, rfl⟩))
      · cases h
    · cases h
  split at h
  · next ha =>
    split at h
    · next b b' b'' tail =>
      split at h
      · next hb =>
        cases h
        exact Or.inr (Or.inr (Or.inr ⟨b, b', b'', tail, rfl, ha.1, hb.1.1, hb.1.2, hb.2, rfl, ha.2, rfl⟩))
      · cases h
    · cases h
  · cases h

theorem decodeChar_ascii (hpos : 0 < c.toNat) (hc : c.toNat < 128) (h : decodeChar (a :: rest) = some (c, n)) :
    a.toNat = c.toNat := by
  -- A longer sequence stands for a character of at least 128.
  rcases decodeChar_cases h with ⟨-, -, heq⟩ | ⟨b, tail, -, hlow, -, -, hhigh, heq⟩ |
    ⟨b, b', tail, -, hlow, hb, -, -, hhigh, heq⟩ | ⟨b, b', b'', tail, -, hlow, hb, -, -, -, hhigh, heq⟩
  · exact eq_toNat_of_ofNat_eq hpos heq
  · have hval := eq_toNat_of_ofNat_eq hpos heq
    simp [UInt8.le_iff_toNat_le] at hlow hhigh
    omega
  · have hval := eq_toNat_of_ofNat_eq hpos heq
    have hsecond := payload_of_secondAllowed hb
    simp [UInt8.le_iff_toNat_le] at hlow hhigh
    omega
  · have hval := eq_toNat_of_ofNat_eq hpos heq
    have hsecond := payload_of_secondAllowed hb
    simp [UInt8.le_iff_toNat_le] at hlow hhigh
    omega

theorem decodeChar_newline (h : decodeChar (a :: rest) = some ('\n', n)) : a = newline :=
  UInt8.toNat_inj.mp (decodeChar_ascii (by decide) (by decide) h)

theorem count_lossyFrom_le (skip : Nat) (bytes : Bytes) :
    (lossyFrom skip bytes).count '\n' ≤ bytes.count newline := by
  induction bytes generalizing skip with
  | nil => simp [lossyFrom]
  | cons a rest ih =>
    have hrest : rest.count newline ≤ (a :: rest).count newline := List.count_le_count_cons
    cases skip with
    | succ k => exact Nat.le_trans (ih k) hrest
    | zero =>
      rw [lossyFrom]
      split
      · next c n hc =>
        by_cases hn : c = '\n'
        · subst hn
          rw [decodeChar_newline hc, List.count_cons_self, List.count_cons_self]
          exact Nat.succ_le_succ (ih _)
        · rw [List.count_cons_of_ne hn]
          exact Nat.le_trans (ih _) hrest
      · rw [List.count_cons_of_ne (by decide)]
        exact Nat.le_trans (ih _) hrest

end Utf8
end Text

namespace LineIndex

open Text.Utf8 (Bytes)

variable {bytes : Bytes} {line start : Nat}

/-- Every line with the line feed that ends it. -/
def closed (lines : List Bytes) : Bytes := lines.flatMap (· ++ [newline])

theorem closed_eq_intercalate {lines : List Bytes} (h : lines ≠ []) :
    closed lines = [newline].intercalate lines ++ [newline] := by
  induction lines with
  | nil => exact absurd rfl h
  | cons l rest ih =>
    cases rest with
    | nil => simp [closed]
    | cons l' rest =>
      have hrest := ih (List.cons_ne_nil l' rest)
      rw [closed, List.flatMap_cons, ← closed, hrest, List.intercalate_cons_cons]
      simp

theorem closed_splitOn (bytes : Bytes) : closed (bytes.splitOn newline) = bytes ++ [newline] := by
  rw [closed_eq_intercalate (List.splitOn_ne_nil _ _), List.intercalate_splitOn]

theorem starts_getElem? (offset i : Nat) (bytes : Bytes) :
    (offset :: startsAfter offset bytes)[i]? =
      if i < (bytes.splitOn newline).length then
        some (offset + (closed ((bytes.splitOn newline).take i)).length)
      else none := by
  induction bytes generalizing offset i with
  | nil => cases i <;> simp [startsAfter, closed]
  | cons b rest ih =>
    have hrest := ih (offset + 1)
    obtain ⟨l, ls, hl⟩ := List.exists_cons_of_ne_nil (List.splitOn_ne_nil newline rest)
    rw [hl] at hrest
    rw [startsAfter, List.splitOn_cons_eq_if_modifyHead, hl]
    cases i with
    | zero => split <;> simp [closed]
    | succ i =>
      split
      · rw [List.getElem?_cons_succ, hrest]
        simp [closed]
        grind
      · rw [List.getElem?_cons_succ, ← List.getElem?_cons_succ (a := offset + 1), hrest]
        simp [closed]
        grind

theorem length_takeWhile_startsAfter (offset reach : Nat) (bytes : Bytes) :
    ((startsAfter offset bytes).takeWhile (· ≤ reach)).length = (bytes.take (reach - offset)).count newline := by
  induction bytes generalizing offset with
  | nil => simp [startsAfter]
  | cons b rest ih =>
    rw [startsAfter]
    by_cases hreach : offset < reach
    · obtain ⟨k, rfl⟩ := Nat.exists_eq_add_of_lt hreach
      have hrest := ih (offset + 1)
      rw [show offset + k + 1 - (offset + 1) = k by omega] at hrest
      rw [show offset + k + 1 - offset = k + 1 by omega, List.take_succ_cons, List.count_cons, ← hrest]
      split
      · rw [List.takeWhile_cons_of_pos (by simp), List.length_cons]
      · simp
    · have hrest := ih (offset + 1)
      rw [show reach - (offset + 1) = 0 by omega] at hrest
      rw [show reach - offset = 0 by omega]
      split
      · rw [List.takeWhile_cons_of_neg (by simpa using Nat.lt_succ_of_le (Nat.le_of_not_lt hreach))]
        rfl
      · exact hrest

theorem exists_reached (bytes : Bytes) (offset : Nat) :
    ∃ init start after, (ofBytes bytes).starts = init ++ start :: after ∧ start ≤ min offset bytes.length ∧
      (ofBytes bytes).position offset = (init.length + 1, min offset bytes.length - start + 1) := by
  have hne : (ofBytes bytes).starts.takeWhile (· ≤ min offset bytes.length) ≠ [] := by simp [ofBytes]
  obtain ⟨init, start, hreached⟩ := (List.eq_nil_or_concat _).resolve_left hne
  rw [List.concat_eq_append] at hreached
  have hparts := List.takeWhile_append_dropWhile (p := (· ≤ min offset bytes.length)) (l := (ofBytes bytes).starts)
  have hle := List.all_takeWhile (p := (· ≤ min offset bytes.length)) (l := (ofBytes bytes).starts)
  rw [hreached] at hparts hle
  refine ⟨init, start, _, by simpa using hparts.symm, ?_, ?_⟩
  · simp only [List.all_append, List.all_cons, Bool.and_eq_true, decide_eq_true_eq] at hle
    exact hle.2.1
  · have hlength : (ofBytes bytes).length = bytes.length := rfl
    simp only [position, hlength, hreached, List.length_append, List.length_singleton, List.getLastD_concat]

theorem position_line (bytes : Bytes) (offset : Nat) :
    ((ofBytes bytes).position offset).1 = (bytes.take offset).count newline + 1 := by
  have hcount := length_takeWhile_startsAfter 0 (min offset bytes.length) bytes
  rw [Nat.sub_zero, ← List.take_eq_take_min] at hcount
  rw [← hcount]
  exact congrArg List.length (List.takeWhile_cons_of_pos (by simp))

theorem position_column (bytes : Bytes) (offset : Nat) :
    ∃ start, (ofBytes bytes).lineStart? ((ofBytes bytes).position offset).1 = some start ∧
      0 < ((ofBytes bytes).position offset).2 ∧
      start + ((ofBytes bytes).position offset).2 - 1 = min offset bytes.length := by
  obtain ⟨init, start, after, hstarts, hle, hposition⟩ := exists_reached bytes offset
  rw [hposition]
  refine ⟨start, ?_, Nat.succ_pos _, by dsimp only; omega⟩
  rw [lineStart?, hstarts, List.getElem?_append_right (Nat.le_refl _), Nat.sub_self, List.getElem?_cons_zero]

theorem lineStart?_eq (bytes : Bytes) (line : Nat) :
    (ofBytes bytes).lineStart? (line + 1) =
      if line < (bytes.splitOn newline).length then some (closed ((bytes.splitOn newline).take line)).length
      else none := by
  rw [lineStart?, ofBytes, starts_getElem?, Nat.zero_add]

theorem lineEnd_eq (hline : line ≤ (bytes.splitOn newline).length) :
    (((ofBytes bytes).lineStart? (line + 1)).map (· - 1)).getD bytes.length =
      (closed ((bytes.splitOn newline).take line)).length - 1 := by
  rw [lineStart?_eq]
  split
  · rfl
  · rw [List.take_of_length_le (by omega), closed_splitOn]
    simp

theorem closed_take_append (bytes : Bytes) (i : Nat) :
    closed ((bytes.splitOn newline).take i) ++ closed ((bytes.splitOn newline).drop i) = bytes ++ [newline] := by
  rw [← closed_splitOn, closed, closed, closed, ← List.flatMap_append, List.take_append_drop]

theorem length_closed_take_le (bytes : Bytes) (i : Nat) :
    (closed ((bytes.splitOn newline).take i)).length - 1 ≤ bytes.length := by
  have hlength := congrArg List.length (closed_take_append bytes i)
  simp only [List.length_append, List.length_singleton] at hlength
  omega

theorem drop_take_closed {i j : Nat} (hlt : i < j) (hj : j ≤ (bytes.splitOn newline).length) :
    (bytes.take ((closed ((bytes.splitOn newline).take j)).length - 1)).drop
        (closed ((bytes.splitOn newline).take i)).length =
      [newline].intercalate (((bytes.splitOn newline).drop i).take (j - i)) := by
  have hall := closed_take_append bytes j
  have hlen := length_closed_take_le bytes j
  generalize bytes.splitOn newline = lines at *
  have hne : (lines.drop i).take (j - i) ≠ [] := by
    apply List.ne_nil_of_length_pos
    rw [List.length_take, List.length_drop]
    omega
  have htake : lines.take j = lines.take i ++ (lines.drop i).take (j - i) := by
    rw [← List.take_add, Nat.add_sub_cancel' (Nat.le_of_lt hlt)]
  have hto : closed (lines.take j) =
      closed (lines.take i) ++ [newline].intercalate ((lines.drop i).take (j - i)) ++ [newline] := by
    rw [htake, closed, List.flatMap_append, ← closed, ← closed, closed_eq_intercalate hne, List.append_assoc]
  have hclosed : (bytes ++ [newline]).take ((closed (lines.take j)).length - 1) = _ :=
    List.take_append_of_le_length hlen
  rw [← hclosed, ← hall, hto]
  simp [List.take_length_add_append]

theorem position_pos (bytes : Bytes) (offset : Nat) : 0 < ((ofBytes bytes).position offset).1 := by
  rw [position_line]
  exact Nat.succ_pos _

theorem position_le (bytes : Bytes) (offset : Nat) :
    ((ofBytes bytes).position offset).1 ≤ (bytes.splitOn newline).length := by
  obtain ⟨start, hstart, -⟩ := position_column bytes offset
  rw [position_line] at hstart ⊢
  rw [lineStart?_eq] at hstart
  split at hstart
  · assumption
  · cases hstart

theorem position_mono (bytes : Bytes) {a b : Nat} (h : a ≤ b) :
    ((ofBytes bytes).position a).1 ≤ ((ofBytes bytes).position b).1 := by
  rw [position_line, position_line]
  exact Nat.succ_le_succ ((List.take_prefix_take_left h).sublist.count_le _)

theorem position_lt {a b : Nat} (hlt : a < b) (hb : b ≤ bytes.length) :
    Prod.Lex (· < ·) (· < ·) ((ofBytes bytes).position a) ((ofBytes bytes).position b) := by
  rw [Prod.lex_def]
  obtain ⟨start, hstart, hpos, hcol⟩ := position_column bytes a
  obtain ⟨start', hstart', hpos', hcol'⟩ := position_column bytes b
  refine (Nat.lt_or_eq_of_le (position_mono bytes (Nat.le_of_lt hlt))).imp_right fun heq => ⟨heq, ?_⟩
  rw [heq, hstart'] at hstart
  cases hstart
  omega

end LineIndex

namespace SourceUnit

open Text.Utf8 (Bytes)

/-- `count` lines from line `first` on, as far as there are so many. -/
def wholeLines (u : SourceUnit) (first count : Nat) : List Bytes :=
  ((u.content.toList.splitOn newline).drop (first - 1)).take count

def firstLine (u : SourceUnit) (span : Span) : Nat := (u.lines.position span.start).1

def lastLine (u : SourceUnit) (span : Span) : Nat := (u.lines.position (max (span.stop - 1) span.start)).1

theorem slice_clamped (u : SourceUnit) (start : Nat) {stop : Nat} (hstop : stop ≤ u.size) :
    u.slice (.clamped start stop) = (u.content.toList.take stop).drop start := by
  by_cases hle : start ≤ stop
  · simp [slice, contains, Span.clamped, hle, hstop, List.drop_take]
  · have hlen : (u.content.toList.take stop).length ≤ start := by
      rw [List.length_take]
      omega
    rw [List.drop_of_length_le hlen]
    simp [slice, Span.clamped, Nat.max_eq_left (Nat.le_of_not_le hle)]

theorem linesAround_eq (u : SourceUnit) (span : Span) {maxLines : Nat} (hmax : 0 < maxLines) :
    u.linesAround span maxLines = Text.trimEnd (Text.Utf8.decodeLossy ([newline].intercalate
      (u.wholeLines (u.firstLine span) (min (u.lastLine span + 1 - u.firstLine span) maxLines)))) := by
  have hsize : u.size = u.content.toList.length := Array.length_toList.symm
  have hmono := LineIndex.position_mono u.content.toList (Nat.le_max_right (span.stop - 1) span.start)
  have hlast := LineIndex.position_le u.content.toList (max (span.stop - 1) span.start)
  have hfirst := LineIndex.position_pos u.content.toList span.start
  simp only [linesAround, wholeLines, firstLine, lastLine, u.lines_eq, hsize]
  generalize ((LineIndex.ofBytes u.content.toList).position span.start).1 = first at *
  generalize ((LineIndex.ofBytes u.content.toList).position (max (span.stop - 1) span.start)).1 = last at *
  obtain ⟨i, rfl⟩ : ∃ i, first = i + 1 := ⟨first - 1, by omega⟩
  have hstop : min last (i + 1 + (maxLines - 1)) = min last (i + maxLines) := by omega
  have hcount : min (last + 1 - (i + 1)) maxLines = min last (i + maxLines) - i := by omega
  rw [LineIndex.lineStart?_eq, if_pos (by omega), Option.getD_some, hstop, LineIndex.lineEnd_eq (by omega), text,
    slice_clamped u _ (hsize ▸ LineIndex.length_closed_take_le _ _), LineIndex.drop_take_closed (by omega) (by omega),
    hcount, Nat.add_sub_cancel]

theorem count_wholeLines_le (u : SourceUnit) (first count : Nat) :
    ([newline].intercalate (u.wholeLines first count)).count newline ≤ count - 1 := by
  by_cases hne : u.wholeLines first count = []
  · simp [hne]
  have hnone (l : Bytes) (hl : l ∈ u.wholeLines first count) : newline ∉ l := by
    intro hmem
    have hpart := not_of_mem_splitOnP (p := (· == newline)) (List.mem_of_mem_drop (List.mem_of_mem_take hl))
    exact absurd (hpart newline hmem) (by decide)
  have hlength := length_splitOnP (· == newline) ([newline].intercalate (u.wholeLines first count))
  rw [← List.splitOn_eq_splitOnP, List.splitOn_intercalate newline hnone hne] at hlength
  have hle : (u.wholeLines first count).length ≤ count := List.length_take_le _ _
  rw [List.count]
  omega

theorem length_lines_linesAround_le (u : SourceUnit) (span : Span) {maxLines : Nat}
    (hmax : 0 < maxLines) : (Text.lines (u.linesAround span maxLines)).length ≤ maxLines := by
  rw [u.linesAround_eq span hmax]
  refine Nat.le_trans (Text.length_lines_le _) (Nat.le_trans (Nat.succ_le_succ (Text.count_trimEnd_le _ _)) ?_)
  rw [Text.Utf8.decodeLossy, String.toList_ofList]
  refine Nat.le_trans (Nat.succ_le_succ (Text.Utf8.count_lossyFrom_le _ _)) ?_
  have hlines := u.count_wholeLines_le (u.firstLine span) (min (u.lastLine span + 1 - u.firstLine span) maxLines)
  omega

/-- Positions and the text around a span: the line of an offset counts the line feeds before it, and its column the
bytes from the start of the line; a later offset has a later position; and the text around a span is that of whole
lines, from the first line of the span to its last, but of no more than were asked for. -/
theorem positions_and_lines (u : SourceUnit) :
    (∀ offset, (u.lines.position offset).1 = (u.content.toList.take (min offset u.size)).count newline + 1 ∧
      0 < (u.lines.position offset).2 ∧ ∃ start, u.lines.lineStart? (u.lines.position offset).1 = some start ∧
        start + (u.lines.position offset).2 - 1 = min offset u.size) ∧
    (∀ a b, a < b → b ≤ u.size → Prod.Lex (· < ·) (· < ·) (u.lines.position a) (u.lines.position b)) ∧
    ∀ span maxLines, 0 < maxLines →
      u.linesAround span maxLines = Text.trimEnd (Text.Utf8.decodeLossy ([newline].intercalate
        (u.wholeLines (u.firstLine span) (min (u.lastLine span + 1 - u.firstLine span) maxLines)))) ∧
      (Text.lines (u.linesAround span maxLines)).length ≤ maxLines := by
  have hsize : u.size = u.content.toList.length := Array.length_toList.symm
  rw [u.lines_eq, hsize]
  refine ⟨fun offset => ?_, fun a b hlt hb => LineIndex.position_lt hlt hb, fun span maxLines hmax =>
    ⟨u.linesAround_eq span hmax, u.length_lines_linesAround_le span hmax⟩⟩
  obtain ⟨start, hstart, hpos, hcolumn⟩ := LineIndex.position_column u.content.toList offset
  rw [← List.take_eq_take_min]
  exact ⟨LineIndex.position_line _ _, hpos, start, hstart, hcolumn⟩

/-- Three lines, of which the second one is a byte outside of the encoding and a blank. -/
def malformed : SourceUnit where
  id := "a.py"
  content := #[97, 10, 255, 32, 10, 98]
  language := .python

theorem malformed_positions_and_lines :
    malformed.linesAround ⟨0, 6⟩ 2 = "a\n\uFFFD" ∧ (Text.lines (malformed.linesAround ⟨0, 6⟩ 2)).length ≤ 2 ∧
      malformed.lines.position 3 = (2, 2) ∧
      Prod.Lex (· < ·) (· < ·) (malformed.lines.position 1) (malformed.lines.position 3) := by
  obtain ⟨_, hlt, hlines⟩ := positions_and_lines malformed
  obtain ⟨htext, hcount⟩ := hlines ⟨0, 6⟩ 2 (by decide)
  exact ⟨htext.trans (by decide +kernel), hcount, by decide +kernel, hlt 1 3 (by decide) (by decide)⟩

end SourceUnit
end TaintScan
