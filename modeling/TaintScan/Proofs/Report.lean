import Mathlib
import TaintScan.Proofs.Cancellation
import TaintScan.Proofs.Shift.Finding

/-! # Reports on many units

Findings of one unit are in strict order, and those of different units differ in the unit, so sorting
all of them gives one strictly ordered list whatever the order of the units is.
-/
namespace TaintScan

/-! ## The order of findings -/

namespace Finding

def key (f : Finding) : String ×ₗ ℕ ×ₗ ℕ ×ₗ String :=
  toLex (f.unitId, toLex (f.location.startOffset, toLex (f.location.stopOffset, f.ruleId)))

def sortKey (f : Finding) : String ×ₗ ℕ ×ₗ ℕ ×ₗ String ×ₗ String :=
  toLex (f.unitId, toLex (f.location.startOffset, toLex (f.location.stopOffset, toLex (f.ruleId, f.pathHash))))

theorem isLE_compare_iff (f g : Finding) : (f.compare g).isLE = true ↔ f.sortKey ≤ g.sortKey := by
  have heq (a b : String) : compareOfLessAndEq a b = .eq ↔ a = b := compareOfLessAndEq_eq_eq le_refl not_le
  have hle (a b : String) : (compareOfLessAndEq a b).isLE = true ↔ a ≤ b :=
    isLE_compareOfLessAndEq le_antisymm not_le le_total
  simp only [compare, sortKey, Ordering.isLE_then_iff_or, compareOfLessAndEq_eq_lt, heq, hle, Nat.compare_eq_lt,
    Nat.compare_eq_eq, Prod.Lex.toLex_le_toLex]

theorem key_le_of_sortKey_le {f g : Finding} (h : f.sortKey ≤ g.sortKey) : f.key ≤ g.key := by
  simp only [sortKey, key, Prod.Lex.toLex_le_toLex] at h ⊢
  rcases h with hunit | ⟨hunit, hstart | ⟨hstart, hstop | ⟨hstop, hrule | ⟨hrule, _⟩⟩⟩⟩
  · exact Or.inl hunit
  · exact Or.inr ⟨hunit, Or.inl hstart⟩
  · exact Or.inr ⟨hunit, Or.inr ⟨hstart, Or.inl hstop⟩⟩
  · exact Or.inr ⟨hunit, Or.inr ⟨hstart, Or.inr ⟨hstop, le_of_lt hrule⟩⟩⟩
  · exact Or.inr ⟨hunit, Or.inr ⟨hstart, Or.inr ⟨hstop, le_of_eq hrule⟩⟩⟩

theorem sort_perm (findings : List Finding) : (sort findings).Perm findings := List.mergeSort_perm _ _

theorem pairwise_sort {findings : List Finding} (hdiff : (findings.map key).Nodup) :
    (sort findings).Pairwise fun f g => f.key < g.key := by
  have hsorted : (sort findings).Pairwise fun f g => (f.compare g).isLE = true := by
    apply List.pairwise_mergeSort
    · intro f g h hfg hgh
      rw [isLE_compare_iff] at hfg hgh ⊢
      exact hfg.trans hgh
    · intro f g
      rw [Bool.or_eq_true, isLE_compare_iff, isLE_compare_iff]
      exact le_total f.sortKey g.sortKey
  have hne : (sort findings).Pairwise fun f g => f.key ≠ g.key :=
    List.pairwise_map.mp (((sort_perm findings).map key).nodup_iff.mpr hdiff)
  apply (hsorted.and hne).imp
  rintro f g ⟨hle, hne⟩
  exact lt_of_le_of_ne (key_le_of_sortKey_le ((isLE_compare_iff f g).mp hle)) hne

theorem sort_eq_of_perm {findings findings' : List Finding} (hperm : findings'.Perm findings)
    (hdiff : (findings.map key).Nodup) : sort findings' = sort findings := by
  have hdiff' : (findings'.map key).Nodup := (hperm.map key).nodup_iff.mpr hdiff
  have hall : (sort findings').Perm (sort findings) :=
    (sort_perm findings').trans (hperm.trans (sort_perm findings).symm)
  apply hall.eq_of_pairwise _ (pairwise_sort hdiff') (pairwise_sort hdiff)
  intro f g _ _ hfg hgf
  exact absurd hgf (lt_asymm hfg)

end Finding

/-! ## What a report is made of -/

namespace ScanStats

def plus (s t : ScanStats) : ScanStats :=
  ⟨s.unitsScanned + t.unitsScanned, s.unitsSkipped + t.unitsSkipped, s.unitsFailed + t.unitsFailed,
    s.statements + t.statements, s.unparsed + t.unparsed, s.errorTokens + t.errorTokens,
    s.findings + t.findings⟩

theorem plus_assoc (s t v : ScanStats) : (s.plus t).plus v = s.plus (t.plus v) := by
  simp [plus, Nat.add_assoc]

instance : LeftCommutative plus where
  left_comm s t v := by simp [plus, Nat.add_left_comm]

def total (parts : List ScanStats) : ScanStats := parts.foldr plus {}

theorem total_cons (s : ScanStats) (parts : List ScanStats) : total (s :: parts) = s.plus (total parts) := rfl

theorem total_eq_of_perm {parts parts' : List ScanStats} (h : parts'.Perm parts) : total parts' = total parts := by
  unfold total
  exact h.foldr_eq _

end ScanStats

/-- The result of scanning one unit, or why it failed. -/
abbrev Outcome := Except UnitError UnitScan

namespace Outcome

def findings : Outcome → List Finding
  | .ok scan => scan.findings
  | .error _ => []

def diagnostics : Outcome → List Diagnostic
  | .ok scan => scan.diagnostics
  | .error _ => []

def failure? (unitId : String) : Outcome → Option UnitFailure
  | .ok _ => none
  | .error e => some ⟨unitId, e.kind, e.message⟩

def stats : Outcome → ScanStats
  | .ok scan =>
    { unitsScanned := if scan.skipped then 0 else 1
      unitsSkipped := if scan.skipped then 1 else 0
      statements := scan.statements
      unparsed := scan.unparsed
      errorTokens := scan.errorTokens
      findings := scan.findings.length }
  | .error _ => { unitsFailed := 1 }

theorem stats_units (o : Outcome) : o.stats.unitsScanned + o.stats.unitsSkipped + o.stats.unitsFailed = 1 := by
  cases o with
  | ok scan => cases hskipped : scan.skipped <;> simp [stats, hskipped]
  | error e => simp [stats]

theorem length_failure? (o : Outcome) (unitId : String) :
    (o.failure? unitId).toList.length = o.stats.unitsFailed := by
  cases o <;> simp [failure?, stats]

theorem stats_findings (o : Outcome) : o.stats.findings = o.findings.length := by
  cases o <;> simp [findings, stats]

/-- Every note is on a malformed token or on the unit as a whole. -/
def Noted (o : Outcome) : Prop := o.diagnostics.length = o.stats.errorTokens + o.stats.unitsSkipped

end Outcome

namespace ScanReport

def counted (r : ScanReport) : ScanStats := { r.stats with findings := r.findings.length }

/-- The second report is the first one with the results of units added. -/
structure Gathers (r : ScanReport) (scans : List (String × Outcome)) (r' : ScanReport) : Prop where
  findings : r'.findings = r.findings ++ scans.flatMap (·.2.findings)
  errors : r'.errors = r.errors ++ scans.filterMap fun p => p.2.failure? p.1
  diagnostics : r'.diagnostics = r.diagnostics ++ scans.flatMap (·.2.diagnostics)
  counted : r'.counted = r.counted.plus (.total (scans.map (·.2.stats)))

theorem gathers_nil (r : ScanReport) : r.Gathers [] r := by
  constructor <;> simp [ScanStats.total, ScanStats.plus]

theorem gathers_add (r : ScanReport) (unitId : String) (o : Outcome) {scans : List (String × Outcome)}
    {r' : ScanReport} (h : (r.add unitId o).Gathers scans r') : r.Gathers ((unitId, o) :: scans) r' := by
  have hcounted : (r.add unitId o).counted = r.counted.plus o.stats := by
    cases o <;> simp [add, ScanReport.counted, Outcome.stats, ScanStats.plus]
  constructor
  · rw [h.findings]
    cases o <;> simp [add, Outcome.findings]
  · rw [h.errors]
    cases o <;> simp [add, Outcome.failure?]
  · rw [h.diagnostics]
    cases o <;> simp [add, Outcome.diagnostics]
  · rw [h.counted, hcounted, ScanStats.plus_assoc, List.map_cons, ScanStats.total_cons]

theorem gathers_foldl (r : ScanReport) (scans : List (String × Outcome)) :
    r.Gathers scans (scans.foldl (fun r p => r.add p.1 p.2) r) := by
  induction scans generalizing r with
  | nil => exact r.gathers_nil
  | cons p rest ih => exact r.gathers_add p.1 p.2 (ih (r.add p.1 p.2))

section

variable (scans : List (String × Outcome))

theorem ofScans_findings : (ofScans scans).findings = Finding.sort (scans.flatMap (·.2.findings)) := by
  have h := (gathers_foldl {} scans).findings
  rw [ofScans, finish, h]
  rfl

theorem ofScans_errors : (ofScans scans).errors = scans.filterMap fun p => p.2.failure? p.1 := by
  have h := (gathers_foldl {} scans).errors
  rw [ofScans, finish, h]
  rfl

theorem ofScans_diagnostics : (ofScans scans).diagnostics = scans.flatMap (·.2.diagnostics) := by
  have h := (gathers_foldl {} scans).diagnostics
  rw [ofScans, finish, h]
  rfl

theorem ofScans_stats : (ofScans scans).stats = .total (scans.map (·.2.stats)) := by
  have h := (gathers_foldl {} scans).counted
  have hempty (s : ScanStats) : (counted {}).plus s = s := by
    simp [counted, ScanStats.plus]
  rw [hempty] at h
  exact h

end

/-- What is counted is what the report holds. -/
structure Accounts (r : ScanReport) (units : Nat) : Prop where
  units : r.stats.unitsScanned + r.stats.unitsSkipped + r.stats.unitsFailed = units
  errors : r.errors.length = r.stats.unitsFailed
  findings : r.stats.findings = r.findings.length
  diagnostics : r.diagnostics.length = r.stats.errorTokens + r.stats.unitsSkipped

theorem ofScans_accounts {scans : List (String × Outcome)} (hnoted : ∀ p ∈ scans, p.2.Noted) :
    (ofScans scans).Accounts scans.length := by
  constructor
  all_goals
    simp only [ofScans_stats, ofScans_errors, ofScans_findings, ofScans_diagnostics,
      (Finding.sort_perm _).length_eq, List.filterMap_eq_flatMap_toList]
    induction scans with
    | nil => rfl
    | cons p rest ih =>
      obtain ⟨hp, hrest⟩ := List.forall_mem_cons.mp hnoted
      have ih := ih hrest
      have hunits := p.2.stats_units
      have hp : p.2.diagnostics.length = _ := hp
      simp only [List.map_cons, ScanStats.total_cons, ScanStats.plus, List.flatMap_cons, List.length_append,
        List.length_cons, p.2.length_failure?, p.2.stats_findings]
      omega

end ScanReport

/-! ## The results of a scanner -/

theorem SourceUnit.findings_ordered {u : SourceUnit} {x : ExtractedUnit} {registry : Registry}
    {options : AnalysisOptions} {countdown c : Countdown} {findings : List Finding}
    (h : u.analyze x registry options countdown = (.ok findings, c)) :
    (∀ f ∈ findings, f.unitId = u.id) ∧ findings.Pairwise fun f g => f.key < g.key := by
  obtain ⟨candidates, -, hall⟩ := analyze_eq_ok_iff.mp h
  clear h
  have hpairwise := Candidate.pairwise_merge candidates
  generalize Candidate.merge candidates = merged at hall hpairwise
  have hkey {m : Candidate} {f : Finding} (hf : m.toFinding u options = .ok f) : f.key = toLex (u.id, m.key) := by
    obtain ⟨_, _, rfl⟩ := Candidate.toFinding_eq_ok_iff.mp hf
    rfl
  constructor
  · intro f hf
    obtain ⟨m, _, hmf⟩ := Candidate.exists_mem_of_forall₂ hall hf
    obtain ⟨_, _, rfl⟩ := Candidate.toFinding_eq_ok_iff.mp hmf
    rfl
  · induction hall with
    | nil => exact .nil
    | @cons m f merged findings hmf hall ih =>
      obtain ⟨hm, hrest⟩ := List.pairwise_cons.mp hpairwise
      refine List.pairwise_cons.mpr ⟨?_, ih hrest⟩
      intro g hg
      obtain ⟨d, hd, hdg⟩ := Candidate.exists_mem_of_forall₂ hall hg
      rw [hkey hmf, hkey hdg, Prod.Lex.toLex_lt_toLex]
      exact Or.inr ⟨rfl, hm d hd⟩

namespace Scanner

variable (s : Scanner) (u : SourceUnit)

theorem scanUnit_eq_ok {countdown c : Countdown} {scan : UnitScan} (h : s.scanUnit u countdown = (.ok scan, c)) :
    scan = s.skip u ∨ ∃ x left findings, u.extract s.statementBound countdown = (.ok x, left) ∧
      u.analyze x s.registry s.options left = (.ok findings, c) ∧
      scan = ⟨findings, lexNotes u x, false, x.stats.statements, x.stats.unparsed, x.stats.errorTokens⟩ := by
  unfold scanUnit at h
  split at h
  · cases h
    exact Or.inl rfl
  · right
    split at h
    · cases h
    · next x left hx =>
      split at h
      · cases h
      · next findings left' hfound =>
        cases h
        exact ⟨x, left, findings, hx, hfound, rfl⟩

end Scanner

theorem SourceUnit.extract_errorTokens {u : SourceUnit} {bound : Nat} {countdown c : Countdown} {x : ExtractedUnit}
    (h : u.extract bound countdown = (.ok x, c)) : x.stats.errorTokens = x.errors.length := by
  unfold extract at h
  dsimp only at h
  split at h
  · cases h
  · cases h
    rfl

namespace Scanner

variable (s : Scanner) (u : SourceUnit)

theorem noted_scanUnit (countdown : Countdown) : Outcome.Noted (s.scanUnit u countdown).1 := by
  cases hscan : s.scanUnit u countdown with
  | mk result c =>
    cases result with
    | error e => rfl
    | ok scan =>
      rcases s.scanUnit_eq_ok u hscan with rfl | ⟨x, left, findings, hx, -, rfl⟩
      · rfl
      · simp [Outcome.Noted, Outcome.diagnostics, Outcome.stats, lexNotes, SourceUnit.extract_errorTokens hx]

theorem findings_scanUnit_ordered (countdown : Countdown) :
    (∀ f ∈ Outcome.findings (s.scanUnit u countdown).1, f.unitId = u.id) ∧
      (Outcome.findings (s.scanUnit u countdown).1).Pairwise fun f g => f.key < g.key := by
  cases hscan : s.scanUnit u countdown with
  | mk result c =>
    cases result with
    | error e => exact ⟨List.forall_mem_nil _, .nil⟩
    | ok scan =>
      rcases s.scanUnit_eq_ok u hscan with rfl | ⟨x, left, findings, -, hfound, rfl⟩
      · exact ⟨List.forall_mem_nil _, .nil⟩
      · exact SourceUnit.findings_ordered hfound

theorem scanUnit_never_left : (s.scanUnit u .never).2 = .never := by
  obtain ⟨x, hx⟩ := u.extract_never s.statementBound
  obtain ⟨candidates, htrack⟩ := u.track_ok s.registry s.options (SourceUnit.extract_recorded hx)
  by_cases hsize : s.maxUnitSizeKb * 1024 < u.size
  · rw [scanUnit, if_pos hsize]
  · simp only [scanUnit, if_neg hsize, hx, SourceUnit.analyze, htrack]
    cases buildFindings u s.options (Candidate.merge candidates) <;> rfl

theorem scanEach_never (units : List SourceUnit) :
    s.scanEach units .never = units.map fun u => (u.id, (s.scanUnit u .never).1) := by
  induction units with
  | nil => rfl
  | cons u rest ih => rw [scanEach_cons, scanUnit_never_left, ih, List.map_cons]

theorem map_fst_scanEach (units : List SourceUnit) (countdown : Countdown) :
    (s.scanEach units countdown).map (·.1) = units.map (·.id) := by
  induction units generalizing countdown with
  | nil => rfl
  | cons u rest ih => rw [scanEach_cons, List.map_cons, ih, List.map_cons]

theorem noted_scanEach (units : List SourceUnit) (countdown : Countdown) :
    ∀ p ∈ s.scanEach units countdown, Outcome.Noted p.2 := by
  induction units generalizing countdown with
  | nil => exact List.forall_mem_nil _
  | cons u rest ih => exact List.forall_mem_cons.mpr ⟨s.noted_scanUnit u countdown, ih _⟩

def findingsOf (units : List SourceUnit) : List Finding :=
  units.flatMap fun u => Outcome.findings (s.scanUnit u .never).1

theorem nodup_key_findingsOf {units : List SourceUnit} (hdiff : (units.map (·.id)).Nodup) :
    ((s.findingsOf units).map (·.key)).Nodup := by
  have hne : units.Pairwise fun u w => u.id ≠ w.id := List.pairwise_map.mp hdiff
  rw [List.Nodup, List.pairwise_map, findingsOf, List.pairwise_flatMap]
  constructor
  · intro u _
    apply (s.findings_scanUnit_ordered u .never).2.imp
    intro f g hlt
    exact ne_of_lt hlt
  · apply hne.imp
    intro u w hid f hf g hg hkey
    have hunit : f.unitId = g.unitId := congrArg (fun k => (ofLex k).1) hkey
    rw [(s.findings_scanUnit_ordered u .never).1 f hf, (s.findings_scanUnit_ordered w .never).1 g hg] at hunit
    exact hid hunit

theorem findings_scanUnits (units : List SourceUnit) :
    (s.scanUnits units .never).findings = Finding.sort (s.findingsOf units) := by
  rw [scanUnits, scanEach_never, ScanReport.ofScans_findings, List.flatMap_map]
  rfl

theorem stats_scanUnits (units : List SourceUnit) : (s.scanUnits units .never).stats =
    .total (units.map fun u => Outcome.stats (s.scanUnit u .never).1) := by
  rw [scanUnits, scanEach_never, ScanReport.ofScans_stats, List.map_map]
  rfl

end Scanner

namespace LaterCall

def copy : SourceUnit := { unit with id := "b.py" }

def scanner : Scanner := { registry := .ofOrdered [ask, run], statementBound := 1 }

end LaterCall
end TaintScan
