import Mathlib
import TaintScan.Proofs.Flow.Pass
import TaintScan.Proofs.Lines
import TaintScan.Scan.Scanner

/-! # A scan that is not cancelled succeeds

Extraction records every operand, so the pass over the extracted unit comes to its end. Its
candidates are of rules that report, so each has a category and becomes a finding, whatever the
bytes of the unit are.
-/
namespace TaintScan

/-! ## The rules of candidates -/

/-- Every candidate so far is of a rule that reports. -/
def Flow.Reported (g : Registry) (f : Flow) : Prop := ∀ c ∈ f.candidates, g.Reports c.rule

theorem Site.keeps_reported (s : Site) : s.Keeps (Flow.Reported s.registry) where
  pushNode _ hf := hf
  withFacts _ hf := hf
  report {f r spec} span t callee name hr hf := by
    intro c hc
    rcases Array.mem_push.mp hc with hc | rfl
    · exact hf c hc
    · exact Or.inr ⟨spec, hr⟩

theorem SourceUnit.Reaches.reported {u : SourceUnit} {x : ExtractedUnit} {registry : Registry}
    {options : AnalysisOptions} (hx : x.Recorded) {done : Array Facts} {stage : Stage} {flow : Flow}
    (h : u.Reaches x registry options done stage flow) : flow.Reported registry := by
  induction h with
  | start => exact fun c hc => absurd hc (Array.not_mem_empty _)
  | enter _ _ ih =>
    intro c hc
    rw [Site.seedParams_candidates] at hc
    exact ih c hc
  | leave _ _ ih => exact ih
  | @step done flow flow' scope k st hr hst hok ih =>
    obtain ⟨found, hfound, rfl⟩ := Site.statement_eq_ok_iff.mp hok
    refine ((u.siteIn x registry options done scope).atStatement st flow).keeps_reported.effect hx.sound
      (hr.operand_lt hx hst) _ ?_
    intro c hc
    rcases Array.mem_append.mp hc with hc | hc
    · exact ih c hc
    · obtain ⟨m, hm, rfl⟩ := List.mem_map.mp (List.mem_toArray.mp hc)
      rw [Candidate.ofShape_rule]
      exact Or.inl (Registry.shaped_of_mem_matchShapes hfound hm)

namespace Candidate

theorem combine_rule (a b : Candidate) : (a.combine b).rule = a.rule ∨ (a.combine b).rule = b.rule := by
  unfold combine
  split
  · exact Or.inr rfl
  · exact Or.inl rfl

theorem rule_of_mem_combineRuns {P : Rule → Prop} {kept : Candidate} {rest : List Candidate}
    (hkept : P kept.rule) (hrest : ∀ c ∈ rest, P c.rule) : ∀ c ∈ combineRuns kept rest, P c.rule := by
  induction rest generalizing kept with
  | nil => exact List.forall_mem_singleton.mpr hkept
  | cons c rest ih =>
    obtain ⟨hc, hrest⟩ := List.forall_mem_cons.mp hrest
    rw [combineRuns]
    split
    · refine ih ?_ hrest
      rcases combine_rule kept c with h | h
      · exact h ▸ hkept
      · exact h ▸ hc
    · exact List.forall_mem_cons.mpr ⟨hkept, ih hc hrest⟩

theorem rule_of_mem_merge {P : Rule → Prop} {candidates : List Candidate}
    (h : ∀ c ∈ candidates, P c.rule) : ∀ c ∈ merge candidates, P c.rule := by
  have hsorted : ∀ c ∈ candidates.mergeSort (fun a b => !b.before a), P c.rule :=
    fun c hc => h c (List.mem_mergeSort.mp hc)
  unfold merge
  split
  · exact List.forall_mem_nil _
  · next first rest hsort =>
    rw [hsort] at hsorted
    obtain ⟨hfirst, hrest⟩ := List.forall_mem_cons.mp hsorted
    exact rule_of_mem_combineRuns hfirst hrest

theorem toFinding_ok {c : Candidate} (h : c.rule.category.isSome = true) (u : SourceUnit)
    (options : AnalysisOptions) : ∃ f, c.toFinding u options = .ok f := by
  obtain ⟨category, hcategory⟩ := Option.isSome_iff_exists.mp h
  have hlines : ¬ maxSnippetLines < (Text.lines (u.linesAround c.span maxSnippetLines)).length :=
    Nat.not_lt.mpr (u.length_lines_linesAround_le c.span (by decide))
  unfold toFinding FindingDraft.build
  simp only [hcategory, FindingDraft.required, bind, Except.bind, if_neg hlines]
  exact ⟨_, rfl⟩

end Candidate

theorem buildFindings_ok {u : SourceUnit} {options : AnalysisOptions} {candidates : List Candidate}
    (h : ∀ c ∈ candidates, ∃ f, c.toFinding u options = .ok f) :
    ∃ findings, List.Forall₂ (fun c f => c.toFinding u options = .ok f) candidates findings ∧
      buildFindings u options candidates = .ok (Finding.sort findings) := by
  have hmap : ∃ findings, List.Forall₂ (fun c f => c.toFinding u options = .ok f) candidates findings ∧
      candidates.mapM (·.toFinding u options) = .ok findings := by
    induction candidates with
    | nil => exact ⟨[], .nil, rfl⟩
    | cons c rest ih =>
      obtain ⟨hc, hrest⟩ := List.forall_mem_cons.mp h
      obtain ⟨f, hf⟩ := hc
      obtain ⟨fs, hall, hfs⟩ := ih hrest
      refine ⟨f :: fs, .cons hf hall, ?_⟩
      rw [List.mapM_cons, hf, hfs]
      rfl
  obtain ⟨findings, hall, hfindings⟩ := hmap
  refine ⟨findings, hall, ?_⟩
  unfold buildFindings
  rw [hfindings]
  rfl

/-! ## Scans -/

end TaintScan
