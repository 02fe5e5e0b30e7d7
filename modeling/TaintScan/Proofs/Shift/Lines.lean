import TaintScan.Proofs.Lines

/-! # Empty lines in front of a unit

With `k` empty lines in front of its content all offsets and lines of a unit grow by `k`. Columns, the
bytes and the text of a span, and the lines around it stay what they were.
-/
namespace TaintScan

open Text.Utf8 (Bytes)

def Span.moved (k : Nat) (s : Span) : Span := ⟨s.start + k, s.stop + k⟩

def SourceUnit.moved (u : SourceUnit) (k : Nat) : SourceUnit where
  id := u.id
  content := Array.replicate k newline ++ u.content
  language := u.language

def Location.moved (k : Nat) (l : Location) : Location :=
  { l with
    startOffset := l.startOffset + k
    stopOffset := l.stopOffset + k
    startLine := l.startLine + k
    stopLine := l.stopLine + k }

theorem Span.clamped_moved (k start stop : Nat) :
    clamped (start + k) (stop + k) = (clamped start stop).moved k := by
  simp only [clamped, moved, Span.mk.injEq, true_and]
  omega

namespace LineIndex

theorem startsAfter_add (k offset : Nat) (bytes : Bytes) :
    startsAfter (offset + k) bytes = (startsAfter offset bytes).map (· + k) := by
  induction bytes generalizing offset with
  | nil => rfl
  | cons b rest ih =>
    have hrest : startsAfter (offset + k + 1) rest = (startsAfter (offset + 1) rest).map (· + k) := by
      rw [Nat.add_right_comm, ih]
    simp only [startsAfter]
    split
    · rw [hrest, List.map_cons, Nat.add_right_comm]
    · exact hrest

theorem starts_replicate (k offset : Nat) (bytes : Bytes) :
    offset :: startsAfter offset (List.replicate k newline ++ bytes) =
      List.range' offset k ++ (offset + k) :: startsAfter (offset + k) bytes := by
  induction k generalizing offset with
  | zero => rfl
  | succ k ih =>
    have hstep : startsAfter offset (List.replicate (k + 1) newline ++ bytes) =
        (offset + 1) :: startsAfter (offset + 1) (List.replicate k newline ++ bytes) := rfl
    rw [hstep, ih (offset + 1), List.range'_succ, List.cons_append, Nat.add_right_comm offset 1 k]
    rfl

variable (bytes : Bytes) (k : Nat)

theorem starts_moved :
    (ofBytes (List.replicate k newline ++ bytes)).starts =
      List.range' 0 k ++ (ofBytes bytes).starts.map (· + k) := by
  have h := starts_replicate k 0 bytes
  rw [startsAfter_add] at h
  exact h

theorem length_moved : (ofBytes (List.replicate k newline ++ bytes)).length = (ofBytes bytes).length + k := by
  simp [ofBytes, Nat.add_comm]

theorem takeWhile_starts_moved (offset : Nat) :
    (ofBytes (List.replicate k newline ++ bytes)).starts.takeWhile (· ≤ offset + k) =
      List.range' 0 k ++ ((ofBytes bytes).starts.takeWhile (· ≤ offset)).map (· + k) := by
  have hreached : ∀ start ∈ List.range' 0 k, decide (start ≤ offset + k) = true := by
    intro start hstart
    have := List.mem_range'_1.mp hstart
    exact decide_eq_true (by omega)
  have hshift : ((· ≤ offset + k) ∘ (· + k) : Nat → Bool) = (· ≤ offset) := by
    funext start
    simp
  rw [starts_moved, List.takeWhile_append_of_pos hreached, List.takeWhile_map, hshift]

theorem position_moved (offset : Nat) :
    (ofBytes (List.replicate k newline ++ bytes)).position (offset + k) =
      (((ofBytes bytes).position offset).1 + k, ((ofBytes bytes).position offset).2) := by
  have hmin : min (offset + k) ((ofBytes bytes).length + k) = min offset (ofBytes bytes).length + k := by
    omega
  simp only [position, length_moved, hmin, takeWhile_starts_moved]
  -- The first line starts at offset zero, so some line is reached.
  have hfirst : ((ofBytes bytes).starts.takeWhile (· ≤ min offset (ofBytes bytes).length)) ≠ [] := by
    simp [ofBytes]
  obtain ⟨reached, last, hreached⟩ := (List.eq_nil_or_concat _).resolve_left hfirst
  rw [hreached]
  simp only [List.concat_eq_append, List.map_append, List.map_cons, List.map_nil, List.length_append,
    List.length_range', List.length_map, List.length_cons, List.length_nil, ← List.append_assoc,
    List.getLastD_concat, Prod.mk.injEq]
  omega

theorem column_zero : ((ofBytes bytes).position 0).2 = 1 := by
  simp [position]

theorem lineStart?_moved {line : Nat} (h : 0 < line) :
    (ofBytes (List.replicate k newline ++ bytes)).lineStart? (line + k) =
      ((ofBytes bytes).lineStart? line).map (· + k) := by
  obtain ⟨line, rfl⟩ := Nat.exists_eq_succ_of_ne_zero (Nat.ne_of_gt h)
  have hback : line + k - (List.range' 0 k).length = line := by simp
  have hle : (List.range' 0 k).length ≤ line + k := by simp
  rw [Nat.succ_add, Nat.succ_eq_add_one]
  simp only [lineStart?]
  rw [starts_moved, List.getElem?_append_right hle, hback, List.getElem?_map]

theorem splitOn_moved :
    (List.replicate k newline ++ bytes).splitOn newline = List.replicate k [] ++ bytes.splitOn newline := by
  induction k with
  | zero => rfl
  | succ k ih => simp [List.replicate_succ, List.splitOn_cons_eq_if_modifyHead, ih]

end LineIndex

namespace SourceUnit

variable (u : SourceUnit) (k : Nat)

theorem toList_content_moved : (u.moved k).content.toList = List.replicate k newline ++ u.content.toList := by
  simp [moved]

theorem lines_moved : (u.moved k).lines = .ofBytes (List.replicate k newline ++ u.content.toList) := by
  rw [(u.moved k).lines_eq, toList_content_moved]

theorem size_moved : (u.moved k).size = u.size + k := by
  simp [moved, size, Nat.add_comm]

theorem position_moved (offset : Nat) :
    (u.moved k).lines.position (offset + k) =
      ((u.lines.position offset).1 + k, (u.lines.position offset).2) := by
  rw [lines_moved, u.lines_eq, LineIndex.position_moved]

theorem lineStart?_moved {line : Nat} (h : 0 < line) :
    (u.moved k).lines.lineStart? (line + k) = (u.lines.lineStart? line).map (· + k) := by
  rw [lines_moved, u.lines_eq, LineIndex.lineStart?_moved _ _ h]

theorem line_pos (offset : Nat) : 0 < (u.lines.position offset).1 := by
  rw [u.lines_eq]
  exact LineIndex.position_pos _ offset

theorem extract_content_moved (start stop : Nat) :
    (u.moved k).content.extract (start + k) (stop + k) = u.content.extract start stop := by
  simp [moved, Array.extract_append]

theorem slice_moved (span : Span) : (u.moved k).slice (span.moved k) = u.slice span := by
  have hcontains : (u.moved k).contains (span.moved k) = u.contains span := by
    simp [contains, size_moved, Span.moved]
  unfold slice
  rw [hcontains]
  simp only [Span.moved, extract_content_moved]

theorem text_moved (span : Span) : (u.moved k).text (span.moved k) = u.text span := by
  rw [text, slice_moved, text]

theorem resolve_moved (span : Span) :
    Location.resolve (u.moved k) (span.moved k) = (Location.resolve u span).moved k := by
  simp only [Location.resolve, Location.moved, Span.moved, position_moved]

theorem start_moved (offset : Nat) :
    ((u.moved k).lines.lineStart? ((u.lines.position offset).1 + k)).getD 0 =
      (u.lines.lineStart? (u.lines.position offset).1).getD 0 + k := by
  obtain ⟨start, hstart, -⟩ := LineIndex.position_column u.content.toList offset
  rw [← u.lines_eq] at hstart
  rw [lineStart?_moved u k (u.line_pos offset), hstart]
  rfl

theorem linesAround_moved (span : Span) {maxLines : Nat} (hmax : 0 < maxLines) :
    (u.moved k).linesAround (span.moved k) maxLines = u.linesAround span maxLines := by
  have hfirst : (u.moved k).firstLine (span.moved k) = u.firstLine span + k :=
    congrArg Prod.fst (u.position_moved k span.start)
  have hlast : (u.moved k).lastLine (span.moved k) = u.lastLine span + k := by
    have hstop : max (span.stop + k - 1) (span.start + k) = max (span.stop - 1) span.start + k := by omega
    simp only [lastLine, Span.moved, hstop, position_moved]
  have hlines (count : Nat) :
      (u.moved k).wholeLines (u.firstLine span + k) count = u.wholeLines (u.firstLine span) count := by
    have hpos : 0 < u.firstLine span := u.line_pos span.start
    rw [wholeLines, wholeLines, toList_content_moved, LineIndex.splitOn_moved,
      show u.firstLine span + k - 1 = (List.replicate k ([] : Bytes)).length + (u.firstLine span - 1) by simp; omega,
      List.drop_length_add_append]
  rw [linesAround_eq _ _ hmax, linesAround_eq _ _ hmax, hfirst, hlast, hlines, Nat.add_right_comm,
    Nat.add_sub_add_right]

end SourceUnit
end TaintScan
