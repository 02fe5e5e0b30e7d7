import TaintScan.Proofs.Flow.Lookup
import TaintScan.Rule.Name

/-! # Names are matched by whole segments

A callee pattern matches at the end of a callee, a path pattern anywhere in a path, and both only between
dots. Written between two dots, a path pattern that matches stands in the path written so.
-/
namespace TaintScan

theorem hasRun_iff {want segments : List String} : hasRun want segments = true ↔ want <:+: segments := by
  induction segments with
  | nil => simp [hasRun]
  | cons s rest ih => rw [hasRun, Bool.or_eq_true, List.isPrefixOf_iff_prefix, ih, List.infix_cons_iff]

namespace Text

theorem intercalate_splitOn (s : String) : String.intercalate "." (splitOn '.' s) = s := by
  have hsplit : ((splitOn '.' s).map String.toList) = s.toList.splitOn '.' := by
    simp [splitOn, splitChars_eq_splitOnP, List.splitOn, List.map_map, Function.comp_def]
  rw [← String.toList_inj, String.toList_intercalate, hsplit]
  exact List.intercalate_splitOn '.'

theorem splitOn_framed (s : String) : splitOn '.' ("." ++ s ++ ".") = "" :: splitOn '.' s ++ [""] := by
  have hempty : splitOn '.' "" = [""] := by decide
  have happend : "." ++ s ++ "." = "" ++ "." ++ s ++ "." ++ "" := by simp
  rw [happend, splitOn_append, splitOn_append, hempty]
  rfl

theorem splitOn_infix_iff (part s : String) :
    splitOn '.' part <:+: splitOn '.' s ↔
      ∃ before behind, "." ++ s ++ "." = before ++ ("." ++ part ++ ".") ++ behind := by
  constructor
  · rintro ⟨left, right, hs⟩
    refine ⟨String.intercalate "." ("" :: left), String.intercalate "." (right ++ [""]), ?_⟩
    rw [← intercalate_splitOn ("." ++ s ++ "."), splitOn_framed, ← hs]
    have hsegments : "" :: (left ++ splitOn '.' part ++ right) ++ [""] =
        ("" :: left) ++ (splitOn '.' part ++ (right ++ [""])) := by simp
    rw [hsegments, String.intercalate_append_of_ne_nil (by simp) (by simp),
      String.intercalate_append_of_ne_nil (splitOn_ne_nil part) (by simp), intercalate_splitOn]
    simp only [String.append_assoc]
  · rintro ⟨before, behind, hs⟩
    have hsplit : "" :: splitOn '.' s ++ [""] = splitOn '.' before ++ splitOn '.' part ++ splitOn '.' behind := by
      rw [← splitOn_framed, hs, ← splitOn_append, ← splitOn_append]
      simp only [String.append_assoc]
    -- The first and the last segment belong to what stands around the part.
    obtain ⟨first, left, hleft⟩ := List.exists_cons_of_ne_nil (splitOn_ne_nil before)
    have hright := List.dropLast_concat_getLast (splitOn_ne_nil behind)
    rw [hleft, ← hright, List.cons_append, List.cons_append, List.cons_append, ← List.append_assoc] at hsplit
    exact ⟨left, _, (List.append_inj' (List.cons.inj hsplit).2 rfl).1.symm⟩

end Text

theorem pathMatches_iff {pattern path : String} :
    pathMatches pattern path = true ↔ pattern ≠ "" ∧ Text.splitOn '.' pattern <:+: Text.splitOn '.' path := by
  rw [pathMatches, Bool.and_eq_true, bne_iff_ne, hasRun_iff]

/-- A callee matches a pattern that it equals or ends with behind a dot; a path matches a pattern that is not
empty and stands between dots in it, and so do the paths that it is a part of. -/
theorem matches_segments (pattern name : String) :
    (calleeMatches pattern name = true ↔ name = pattern ∨ ∃ before, name = before ++ "." ++ pattern) ∧
    (pathMatches pattern name = true ↔
      pattern ≠ "" ∧ ∃ before behind, "." ++ name ++ "." = before ++ ("." ++ pattern ++ ".") ++ behind) ∧
    (pathMatches pattern name = true → ∀ more,
      pathMatches pattern (name ++ "." ++ more) = true ∧ pathMatches pattern (more ++ "." ++ name) = true) := by
  refine ⟨?_, ?_, fun h more => ?_⟩
  · rw [calleeMatches, Bool.or_eq_true, beq_iff_eq, Text.endsWith, List.isSuffixOf_iff_suffix]
    refine or_congr_right ⟨?_, ?_⟩
    · rintro ⟨before, hname⟩
      refine ⟨String.ofList before, ?_⟩
      rw [← String.toList_inj, String.append_assoc, String.toList_append, String.toList_ofList, hname]
    · rintro ⟨before, rfl⟩
      exact ⟨before.toList, by simp⟩
  · rw [pathMatches_iff, Text.splitOn_infix_iff]
  · obtain ⟨hne, hinfix⟩ := pathMatches_iff.mp h
    rw [pathMatches_iff, pathMatches_iff, Text.splitOn_append, Text.splitOn_append]
    exact ⟨⟨hne, hinfix.trans (List.prefix_append _ _).isInfix⟩, hne, hinfix.trans (List.suffix_append _ _).isInfix⟩

/-- Segments may be empty, and a longer path around one that matches does too. -/
theorem matches_segments_empty :
    pathMatches "." "é..b" = false ∧ pathMatches "é." "é..b" = true ∧
      pathMatches "é." ("é..b" ++ "." ++ "c") = true ∧ pathMatches "é." ("c" ++ "." ++ "é..b") = true := by
  have hmatch : pathMatches "é." "é..b" = true := by decide
  exact ⟨by decide, hmatch, (matches_segments "é." "é..b").2.2 hmatch "c"⟩

end TaintScan
