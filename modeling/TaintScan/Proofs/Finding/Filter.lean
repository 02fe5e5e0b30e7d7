import TaintScan.Proofs.Finding.Merge
import TaintScan.Proofs.Flow.Filter
import TaintScan.Proofs.Shift.Finding

/-! # Rules are independent

Candidates of different rules are never combined, so a filter that keeps sources and sanitizers takes
its findings out and leaves the others as they are.
-/
namespace TaintScan

theorem mergeSort_filterMap {α : Type} {le : α → α → Bool} {φ : α → Option α}
    (trans : ∀ a b c, le a b → le b c → le a c) (total : ∀ a b, le a b || le b a)
    (hφ : ∀ {a b a' b'}, φ a = some a' → φ b = some b' → le a' b' = le a b) (l : List α) :
    (l.filterMap φ).mergeSort le = (l.mergeSort le).filterMap φ := by
  induction l with
  | nil => simp
  | cons a l ih =>
    obtain ⟨l₁, l₂, hcons, hl, hfirst⟩ := List.mergeSort_cons trans total a l
    have hsorted := List.pairwise_mergeSort trans total (a :: l)
    rw [hcons] at hsorted ⊢
    rw [hl, List.filterMap_append] at ih
    cases ha : φ a with
    | none => rw [List.filterMap_cons_none ha, ih, List.filterMap_append, List.filterMap_cons_none ha]
    | some a' =>
      obtain ⟨m₁, m₂, hcons', hm, hfirst'⟩ := List.mergeSort_cons trans total a' (l.filterMap φ)
      have hsorted' := List.pairwise_mergeSort trans total (a' :: l.filterMap φ)
      rw [hcons'] at hsorted'
      rw [List.filterMap_cons_some ha, hcons', List.filterMap_append, List.filterMap_cons_some ha]
      rw [hm] at ih
      -- Both lists are cut before the first element that does not stand before `a'`.
      have hcut {k₁ k₂ : List α} (h₁ : ∀ b ∈ k₁, (!le a' b) = true) (h₂ : ∀ b ∈ k₂, le a' b = true) :
          (k₁ ++ k₂).filter (!le a' ·) = k₁ ∧ (k₁ ++ k₂).filter (le a' ·) = k₂ := by
        rw [List.filter_append, List.filter_append]
        constructor
        · rw [List.filter_eq_self.mpr h₁, List.filter_eq_nil_iff.mpr fun b hb => by simp [h₂ b hb],
            List.append_nil]
        · rw [List.filter_eq_nil_iff.mpr fun b hb => by simpa using h₁ b hb, List.filter_eq_self.mpr h₂,
            List.nil_append]
      have hright : ∀ b ∈ m₂, le a' b = true := (List.pairwise_cons.mp (List.pairwise_append.mp hsorted').2.1).1
      have hleft₁ : ∀ b ∈ l₁.filterMap φ, (!le a' b) = true := by
        intro b' hb'
        obtain ⟨b, hb, hbb'⟩ := List.mem_filterMap.mp hb'
        rw [hφ ha hbb']
        exact hfirst b hb
      have hright₁ : ∀ b ∈ l₂.filterMap φ, le a' b = true := by
        intro b' hb'
        obtain ⟨b, hb, hbb'⟩ := List.mem_filterMap.mp hb'
        rw [hφ ha hbb']
        exact (List.pairwise_cons.mp (List.pairwise_append.mp hsorted).2.1).1 b hb
      obtain ⟨hm₁, hm₂⟩ := hcut hfirst' hright
      obtain ⟨hl₁, hl₂⟩ := hcut hleft₁ hright₁
      rw [ih] at hm₁ hm₂
      rw [← hm₁, ← hm₂, hl₁, hl₂]

namespace Candidate

variable {f : RuleFilter} {a b c c' : Candidate}

theorem eq_of_under? (h : c.under? f = some c') :
    ∃ severity floor, c' = { c with rule := { c.rule with severity, severityFloor := floor } } := by
  obtain ⟨r, hr, rfl⟩ := Option.map_eq_some_iff.mp h
  obtain ⟨severity, floor, rfl⟩ := RuleFilter.eq_of_image? hr
  exact ⟨severity, floor, rfl⟩

theorem key_of_under? (h : c.under? f = some c') : c'.key = c.key := by
  obtain ⟨_, _, rfl⟩ := eq_of_under? h
  rfl

/-- Candidates of one identifier have one rule. -/
def Coherent (cs : List Candidate) : Prop := ∀ a ∈ cs, ∀ b ∈ cs, a.rule.id = b.rule.id → a.rule = b.rule

theorem sorted_filterMap (f : RuleFilter) (cs : List Candidate) :
    ((cs.filterMap (under? f)).mergeSort fun a b => !b.before a) =
      (cs.mergeSort fun a b => !b.before a).filterMap (under? f) := by
  refine mergeSort_filterMap not_before_trans not_before_total (fun ha hb => ?_) cs
  rw [Bool.eq_iff_iff, not_before_iff, not_before_iff, key_of_under? ha, key_of_under? hb]

def runs : List Candidate → List Candidate
  | [] => []
  | c :: rest => combineRuns c rest

theorem merge_eq_runs (cs : List Candidate) : merge cs = runs (cs.mergeSort fun a b => !b.before a) := by
  unfold merge
  split
  · next h => rw [h, runs]
  · next h => rw [h, runs]

theorem under?_combine (hrule : a.rule = b.rule) {r : Rule} (hr : f.image? a.rule = some r) :
    (a.combine b).under? f = some ({ a with rule := r }.combine { b with rule := r }) := by
  unfold combine
  split
  · rw [under?]
    change Option.map _ (f.image? b.rule) = _
    rw [← hrule, hr]
    rfl
  · rw [under?]
    change Option.map _ (f.image? a.rule) = _
    rw [hr]
    rfl

theorem filterMap_combineRuns {kept : Candidate} {rest : List Candidate}
    (hsorted : (kept :: rest).Pairwise fun a b => a.key ≤ b.key) (hrules : Coherent (kept :: rest)) :
    (combineRuns kept rest).filterMap (under? f) = runs ((kept :: rest).filterMap (under? f)) := by
  induction rest generalizing kept with
  | nil => cases hkept : kept.under? f <;> simp [combineRuns, hkept, runs]
  | cons c rest ih =>
    obtain ⟨hkept, hrest⟩ := List.pairwise_cons.mp hsorted
    obtain ⟨hc, hrest'⟩ := List.pairwise_cons.mp hrest
    have hle : kept.key ≤ c.key := hkept c List.mem_cons_self
    rw [combineRuns]
    split
    · next hsame =>
      have hkey := sameKey_iff.mp hsame
      have hrule : kept.rule = c.rule :=
        hrules kept List.mem_cons_self c (by simp) (key_eq_iff.mp hkey).2
      have hcombined : (kept.combine c).rule = kept.rule := by
        rcases combine_rule kept c with h | h
        · exact h
        · exact h.trans hrule.symm
      rw [ih]
      · cases hr : f.image? kept.rule with
        | none =>
          have hnone {d : Candidate} (hd : d.rule = kept.rule) : d.under? f = none := by
            rw [under?, hd, hr, Option.map_none]
          rw [List.filterMap_cons_none (hnone hcombined), List.filterMap_cons_none (hnone rfl),
            List.filterMap_cons_none (hnone hrule.symm)]
        | some r =>
          have hsome {d : Candidate} (hd : d.rule = kept.rule) : d.under? f = some { d with rule := r } := by
            rw [under?, hd, hr, Option.map_some]
          have hsame' : sameKey { kept with rule := r } { c with rule := r } = true := by
            rw [sameKey_iff, key_of_under? (hsome rfl), key_of_under? (hsome hrule.symm), hkey]
          rw [List.filterMap_cons_some (under?_combine hrule hr), List.filterMap_cons_some (hsome rfl),
            List.filterMap_cons_some (hsome hrule.symm), runs, runs, combineRuns, if_pos hsame']
      · refine List.pairwise_cons.mpr ⟨fun d hd => ?_, hrest'⟩
        rw [key_combine hkey]
        exact hkept d (List.mem_cons_of_mem _ hd)
      · have hfrom : ∀ d ∈ kept.combine c :: rest, ∃ d' ∈ kept :: c :: rest, d.rule = d'.rule := by
          intro d hd
          rcases List.mem_cons.mp hd with rfl | hd
          · exact ⟨kept, List.mem_cons_self, hcombined⟩
          · exact ⟨d, by simp [hd], rfl⟩
        intro d hd e he hid
        obtain ⟨d', hd', hdrule⟩ := hfrom d hd
        obtain ⟨e', he', herule⟩ := hfrom e he
        rw [hdrule, herule] at hid ⊢
        exact hrules d' hd' e' he' hid
    · next hdiff =>
      have hlt : kept.key < c.key := lt_of_le_of_ne hle fun heq => hdiff (sameKey_iff.mpr heq)
      have hih := ih hrest fun d hd e he => hrules d (List.mem_cons_of_mem _ hd) e (List.mem_cons_of_mem _ he)
      cases hunder : kept.under? f with
      | none => rw [List.filterMap_cons_none hunder, List.filterMap_cons_none hunder, hih]
      | some k =>
        rw [List.filterMap_cons_some hunder, List.filterMap_cons_some hunder, hih]
        cases hothers : (c :: rest).filterMap (under? f) with
        | nil => rfl
        | cons e others =>
          obtain ⟨d, hd, hde⟩ := List.mem_filterMap.mp (hothers ▸ List.mem_cons_self : e ∈ (c :: rest).filterMap _)
          have hlt' : kept.key < d.key := by
            rcases List.mem_cons.mp hd with rfl | hd
            · exact hlt
            · exact lt_of_lt_of_le hlt (hc d hd)
          have hdiff' : ¬ k.sameKey e = true := by
            rw [sameKey_iff, key_of_under? hunder, key_of_under? hde]
            exact ne_of_lt hlt'
          rw [runs, runs, combineRuns, if_neg hdiff']

theorem merge_filterMap (f : RuleFilter) {cs : List Candidate} (hrules : Coherent cs) :
    merge (cs.filterMap (under? f)) = (merge cs).filterMap (under? f) := by
  have hsorted := pairwise_sorted cs
  have hrules' : Coherent (cs.mergeSort fun a b => !b.before a) := fun a ha b hb =>
    hrules a (List.mem_mergeSort.mp ha) b (List.mem_mergeSort.mp hb)
  rw [merge_eq_runs, merge_eq_runs, sorted_filterMap]
  cases hsort : cs.mergeSort fun a b => !b.before a with
  | nil => rfl
  | cons c rest =>
    rw [hsort] at hsorted hrules'
    exact (filterMap_combineRuns hsorted hrules').symm

/-! ## Findings of changed rules -/

theorem metadata_eq (c : Candidate) :
    c.metadata = ("baseSeverity", .text c.rule.severity.code) ::
      ((if c.path.isEmpty then [] else [("pathLength", Value.int c.path.length)]) ++
        ("ruleName", .text c.rule.name) :: if c.adjacent then [("sanitizerAdjacent", .bool true)] else []) := by
  unfold metadata
  by_cases hpath : c.path.isEmpty = true
  · rw [if_pos hpath]
    cases c.adjacent <;> cbv
  · rw [if_neg hpath]
    cases c.adjacent <;> cbv

theorem metadata_adjacent (c : Candidate) : (c.metadata.lookup "sanitizerAdjacent").isSome = c.adjacent := by
  rw [metadata_eq]
  by_cases hpath : c.path.isEmpty = true
  · cases hadjacent : c.adjacent <;> simp [hpath]
  · cases hadjacent : c.adjacent <;> simp [hpath]

theorem metadata_changed (c : Candidate) (severity floor : Severity) :
    { c with rule := { c.rule with severity, severityFloor := floor } }.metadata = c.metadata.map
      fun p => if p.1 = "baseSeverity" then (p.1, .text severity.code) else p := by
  rw [metadata_eq, metadata_eq]
  by_cases hpath : c.path.isEmpty = true
  · cases hadjacent : c.adjacent <;> simp [hpath]
  · cases hadjacent : c.adjacent <;> simp [hpath]

end Candidate

/-- The finding with the severities that a changed rule gives it. -/
def Finding.rerated (f : Finding) (r : Rule) (options : AnalysisOptions) : Finding :=
  { f with
    severity :=
      r.rank f.path.length (f.metadata.lookup "sanitizerAdjacent").isSome options.escalateMultiHop
    metadata := f.metadata.map fun p => if p.1 = "baseSeverity" then (p.1, .text r.severity.code) else p }

theorem Candidate.finding_withSeverity (c : Candidate) (severity : Severity) (u : SourceUnit)
    (options : AnalysisOptions) (category : Category) :
    { c with rule := c.rule.withSeverity severity }.finding u options category =
      (c.finding u options category).rerated (c.rule.withSeverity severity) options := by
  have hmetadata := c.metadata_changed severity (c.rule.severityFloor.min severity)
  unfold Finding.rerated
  rw [show (c.finding u options category).metadata = c.metadata from rfl, c.metadata_adjacent,
    show (c.rule.withSeverity severity).severity = severity from rfl, ← hmetadata,
    show (c.finding u options category).path.length = c.path.length from List.length_map _]
  rfl

section

variable {g : Registry} (hg : g.Valid) (hdistinct : g.Distinct) {f : RuleFilter} (hf : f.Spares g)
include hg hdistinct hf

theorem SourceUnit.analyze_filtered (u : SourceUnit) {x : ExtractedUnit} (hx : x.Recorded)
    (options : AnalysisOptions) {φ : Finding → Option Finding}
    (hφ : ∀ c : Candidate, c.rule ∈ g.rules → ∀ category,
      φ (c.finding u options category) = (c.under? f).map (·.finding u options category))
    (c : Countdown) :
    u.analyze x (g.filtered f) options c =
      ((u.analyze x g options c).1.map (List.filterMap φ), (u.analyze x g options c).2) := by
  have htracked := u.track_filtered x hg hf options c
  cases htrack : u.track x g options c with
  | mk result left =>
    cases result with
    | error e => simp only [analyze, htracked, htrack, Except.map]
    | ok candidates =>
      obtain ⟨done, flow, hr, rfl⟩ := track_reaches htrack
      have hreports : ∀ m ∈ flow.candidates.toList, g.Reports m.rule := fun m hm =>
        hr.reported hx m (Array.mem_toList_iff.mp hm)
      have hcoherent : Candidate.Coherent flow.candidates.toList := fun a ha b hb =>
        hdistinct.eq_of_id_eq ((hreports a ha).mem hg) ((hreports b hb).mem hg)
      have hmerged := Candidate.rule_of_mem_merge (P := g.Reports) hreports
      obtain ⟨findings, hall, _⟩ := buildFindings_ok fun m hm =>
        Candidate.toFinding_ok (hg.category_isSome (hmerged m hm)) u options
      have hrelated : List.Forall₂ (fun m fd => m.toFinding u options = .ok fd)
          ((Candidate.merge flow.candidates.toList).filterMap (Candidate.under? f))
          (findings.filterMap φ) := by
        refine List.rel_filterMap (R := fun m fd => g.Reports m.rule ∧ m.toFinding u options = .ok fd)
          (fun m fd h => ?_) (List.forall₂_and_left _ _ |>.mpr ⟨hmerged, hall⟩)
        obtain ⟨category, hcategory, rfl⟩ := Candidate.toFinding_eq_ok_iff.mp h.2
        rw [hφ m (h.1.mem hg)]
        cases hunder : m.under? f with
        | none => exact .none
        | some m' =>
          obtain ⟨_, _, rfl⟩ := Candidate.eq_of_under? hunder
          exact .some (Candidate.toFinding_eq_ok_iff.mpr ⟨category, hcategory, rfl⟩)
      rw [htrack] at htracked
      rw [analyze_eq_ok_iff.mpr ⟨_, htrack, hall⟩]
      refine analyze_eq_ok_iff.mpr ⟨_, htracked, ?_⟩
      rw [Candidate.merge_filterMap f hcoherent]
      exact hrelated

theorem Scanner.scanUnit_filtered (s : Scanner) (hs : s.registry = g) (u : SourceUnit)
    {φ : Finding → Option Finding}
    (hφ : ∀ c : Candidate, c.rule ∈ g.rules → ∀ category,
      φ (c.finding u s.options category) = (c.under? f).map (·.finding u s.options category))
    (c : Countdown) :
    { s with registry := g.filtered f }.scanUnit u c =
      ((s.scanUnit u c).1.map fun scan => { scan with findings := scan.findings.filterMap φ },
        (s.scanUnit u c).2) := by
  subst hs
  unfold scanUnit
  by_cases hsize : s.maxUnitSizeKb * 1024 < u.size
  · simp only [if_pos hsize]
    rfl
  · simp only [if_neg hsize]
    cases hextract : u.extract s.statementBound c with
    | mk result left =>
      cases result with
      | error e => rfl
      | ok x =>
        have hanalyze := u.analyze_filtered hg hdistinct hf (SourceUnit.extract_recorded hextract) s.options hφ left
        simp only [hanalyze]
        cases u.analyze x s.registry s.options left with
        | mk found left =>
          cases found with
          | error e => rfl
          | ok findings => rfl

end

end TaintScan
