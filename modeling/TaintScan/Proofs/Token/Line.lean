import TaintScan.Proofs.Token.Linewise
import TaintScan.Proofs.Token.Read

/-! # The lines of tokens

The line of a token is that of its first byte in the content less the continuations before it, and its last line is
further on by the line feeds in it. So the lines of tokens never decrease.
-/
namespace TaintScan

open Text.Utf8 (Bytes)

namespace Token

theorem Reads.stop_of_mem {d : Dialect} {s s' : LexState} {bytes : Bytes} {ts : List Token} {t : Token}
    (h : Reads d s bytes ts s') (ht : t ∈ ts) :
    s.line ≤ t.line ∧ t.line + continuations ts s.offset (bytes.take (t.span.start - s.offset)) =
      s.line + newlines (bytes.take (t.span.start - s.offset)) :=
  (h.line_at_stop _ (List.mem_append_left _ (List.mem_map_of_mem ht))).2

theorem Reads.endLine_le {d : Dialect} {s s' : LexState} {bytes : Bytes} {ts : List Token}
    (h : Reads d s bytes ts s') : ts.Pairwise fun t u => t.endLine ≤ u.line := by
  induction h with
  | done s => exact .nil
  | line h ih | blank hb hline h ih | join hgap h ih => exact ih
  | token hb hn hscan h ih =>
    exact .cons (fun u hu => Nat.le_trans (Nat.sub_le _ _) (h.stop_of_mem hu).1) ih

theorem ReadBy.line_le_endLine {c : LexContext} {content : Bytes} {t : Token} (h : ReadBy c content t) :
    t.line ≤ t.endLine := by
  rw [h.endLine]
  split
  · next hlast =>
    have hpos : 0 < newlines (t.bytesIn content) :=
      List.count_pos_iff.mpr (List.mem_of_getLast? (eq_of_beq hlast))
    omega
  · exact Nat.le_add_right _ _

/-- The line of a token is the line of its start in the content, less the continuations before it; each of those is a
backslash before a line end. The token ends as many lines further on as there are line feeds in it, but for one that it
ends with. Lines never decrease from one token to the next. -/
theorem lex_lines (language : Language) (content : Bytes) :
    (∀ t ∈ lex language content,
      t.line + continuations (lex language content) 0 (content.take t.span.start) =
        ((LineIndex.ofBytes content).position t.span.start).1 ∧
      t.endLine = t.line + newlines (t.bytesIn content) -
        (if (t.bytesIn content).getLast? == some newline then 1 else 0) ∧
      t.line ≤ t.endLine) ∧
    (lex language content).Pairwise (fun t u => t.endLine ≤ u.line) ∧
    ∀ i, content[i]? = some Opening.backslash → outside (lex language content) i = true →
      LineEnd (content.drop (i + 1)) := by
  obtain ⟨s', h⟩ := lexFrom_reads (.of language) ⟨true, none, 0, 1⟩ content
  refine ⟨fun t ht => ?_, h.endLine_le, fun i hi hout => ?_⟩
  · obtain ⟨c, -, hread⟩ := exists_readBy ht
    have hline : _ = 1 + newlines (content.take t.span.start) := (h.stop_of_mem ht).2
    rw [Nat.add_comm 1] at hline
    rw [LineIndex.position_line]
    exact ⟨hline, hread.endLine, hread.line_le_endLine⟩
  · have hskip := h.layout.skipped i _ hi fun t ht => by
      simpa [outside] using List.all_eq_true.mp hout t ht
    exact (hskip.resolve_left (by decide)).2

/-- A continuation, and a string that is cut off behind an escaped line feed. -/
def joinedText : Bytes := Text.Utf8.encode "a \\\nb\n'c\\\n"

theorem lex_lines_joined :
    (lex .python joinedText).map (fun t => (t.span.start, t.line, t.endLine)) = [(0, 1, 1), (4, 1, 1), (6, 2, 2)] ∧
      ∀ t ∈ lex .python joinedText, t.line + continuations (lex .python joinedText) 0 (joinedText.take t.span.start) =
        ((LineIndex.ofBytes joinedText).position t.span.start).1 :=
  ⟨by decide +kernel, fun t ht => ((lex_lines .python joinedText).1 t ht).1⟩

end Token
end TaintScan
