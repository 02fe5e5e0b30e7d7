import TaintScan.Rule.Registry

/-! # Valid registries

A registry that was built from accepted rules, and every registry that filtering makes of it, holds
accepted rules only and indexes them by their matchers. So a rule whose matches are reported has a
category.
-/
namespace TaintScan

namespace Rule

def sink? (r : Rule) : Option SinkSpec :=
  match r.matcher with
  | .sink spec => some spec
  | _ => none

/-- The rule may match a statement whatever the labels are. -/
def isShaped (r : Rule) : Bool :=
  match r.matcher with
  | .syntactic _ => true
  | .sink spec => spec.hasTrigger
  | _ => false

variable {r : Rule}

theorem isReportable_of_sink? {spec : SinkSpec} (h : r.sink? = some spec) : r.isReportable = true := by
  unfold sink? at h
  split at h
  · next hm => simp only [isReportable, hm]
  · cases h

theorem isReportable_of_isShaped (h : r.isShaped = true) : r.isReportable = true := by
  unfold isShaped at h
  unfold isReportable
  split at h
  · next hm => simp only [hm]
  · next hm => simp only [hm]
  · cases h

theorem validate_eq_ok_iff (r : Rule) :
    r.validate = .ok () ↔ Text.isBlankText r.id = false ∧ r.severityFloor.level ≤ r.severity.level ∧
      (r.isReportable = true → r.missingField? = none) := by
  unfold validate
  split
  · next h => simp [h]
  · next h =>
    split
    · next hlevel => simp [Nat.not_le.mpr hlevel]
    · next hlevel =>
      have hlevel := Nat.not_lt.mp hlevel
      split
      · next hr => cases hm : r.missingField? <;> simp_all
      · next hr => simp_all

theorem category_isSome_of_validate (h : r.validate = .ok ()) (hr : r.isReportable = true) :
    r.category.isSome = true := by
  have hmissing := ((validate_eq_ok_iff r).mp h).2.2 hr
  unfold missingField? at hmissing
  split at hmissing
  · cases hmissing
  · next hc => simpa [Option.isNone_iff_eq_none, Option.isSome_iff_ne_none] using hc

theorem validate_withSeverity (h : r.validate = .ok ()) (severity : Severity) :
    (r.withSeverity severity).validate = .ok () := by
  rw [validate_eq_ok_iff] at h ⊢
  refine ⟨h.1, ?_, h.2.2⟩
  change (r.severityFloor.min severity).level ≤ severity.level
  unfold Severity.min
  split <;> omega

end Rule

namespace RuleIndex

/-- One of the lists of an index, to which each rule adds at most one entry. -/
theorem ofRules_list {α : Type} {list : RuleIndex → List α} {item? : Rule → Option α} (hnil : list (ofRules []) = [])
    (hadd : ∀ r index, list (add r index) = (item? r).toList ++ list index) (rules : List Rule) :
    list (ofRules rules) = rules.filterMap item? := by
  induction rules with
  | nil => exact hnil
  | cons r rest ih =>
    have hcons : ofRules (r :: rest) = add r (ofRules rest) := rfl
    rw [hcons, hadd, ih, List.filterMap_cons]
    cases item? r <;> rfl

theorem ofRules_sinks : ∀ rules, (ofRules rules).sinks = rules.filterMap fun r => r.sink?.map (r, ·) := by
  refine ofRules_list rfl fun r index => ?_
  unfold add Rule.sink?
  cases r.matcher <;> rfl

theorem ofRules_shaped (rules : List Rule) : (ofRules rules).shaped = rules.filter (·.isShaped) := by
  induction rules with
  | nil => rfl
  | cons r rest ih =>
    have hcons : ofRules (r :: rest) = add r (ofRules rest) := rfl
    rw [hcons, List.filter_cons, ← ih]
    unfold add Rule.isShaped
    cases r.matcher <;> rfl

end RuleIndex

namespace Registry

/-- The rules are accepted, and the index is theirs. -/
structure Valid (g : Registry) : Prop where
  index_eq : g.index = .ofRules g.rules.toList
  validate : ∀ r ∈ g.rules, r.validate = .ok ()

theorem validateAll_eq_ok {rules : List Rule} (h : validateAll rules = .ok ()) :
    ∀ r ∈ rules, r.validate = .ok () := by
  induction rules with
  | nil => exact List.forall_mem_nil _
  | cons r rest ih =>
    rw [validateAll] at h
    split at h
    · next hr => exact List.forall_mem_cons.mpr ⟨hr, ih h⟩
    · cases h

variable {g : Registry}

theorem ofRules_valid {rules : List Rule} (h : ofRules rules = .ok g) : g.Valid := by
  unfold ofRules at h
  cases hall : validateAll rules with
  | error e => rw [hall] at h; cases h
  | ok _ =>
    cases hdistinct : Rule.checkDistinct (orderById rules) with
    | error e => rw [hall] at h; simp [bind, Except.bind, hdistinct] at h
    | ok _ =>
      rw [hall] at h
      simp only [bind, Except.bind, hdistinct, pure, Except.pure, Except.ok.injEq] at h
      subst h
      refine ⟨by simp [ofOrdered], fun r hr => validateAll_eq_ok hall r ?_⟩
      simpa [ofOrdered, orderById] using hr

theorem Valid.filtered (h : g.Valid) (f : RuleFilter) : (g.filtered f).Valid := by
  refine ⟨by simp [Registry.filtered, ofOrdered], ?_⟩
  intro r hr
  obtain ⟨r', hr', rfl⟩ : ∃ r' ∈ g.rules, f.override r' = r := by
    simp only [Registry.filtered, ofOrdered, List.mem_toArray, List.mem_map, List.mem_filter,
      Array.mem_toList_iff] at hr
    obtain ⟨r', ⟨hmem, _⟩, heq⟩ := hr
    exact ⟨r', hmem, heq⟩
  unfold RuleFilter.override
  split
  · exact Rule.validate_withSeverity (h.validate r' hr') _
  · exact h.validate r' hr'

theorem Valid.filtered_all (h : g.Valid) (filters : List RuleFilter) : (filters.foldl Registry.filtered g).Valid := by
  induction filters generalizing g with
  | nil => exact h
  | cons f rest ih => exact ih (h.filtered f)

/-- A rule that can give candidates: a sink or a shape of the registry. -/
def Reports (g : Registry) (r : Rule) : Prop :=
  r ∈ g.index.shaped ∨ ∃ spec, (r, spec) ∈ g.index.sinks

theorem Reports.mem (hg : g.Valid) {r : Rule} (hr : g.Reports r) : r ∈ g.rules := by
  rcases hr with hr | ⟨spec, hr⟩
  · rw [hg.index_eq, RuleIndex.ofRules_shaped, List.mem_filter] at hr
    exact Array.mem_toList_iff.mp hr.1
  · rw [hg.index_eq, RuleIndex.ofRules_sinks, List.mem_filterMap] at hr
    obtain ⟨r', hmem, hsink⟩ := hr
    obtain ⟨_, _, heq⟩ := Option.map_eq_some_iff.mp hsink
    cases heq
    exact Array.mem_toList_iff.mp hmem

theorem Valid.category_isSome (h : g.Valid) {r : Rule} (hr : g.Reports r) : r.category.isSome = true := by
  rcases hr with hr | ⟨spec, hr⟩
  · rw [h.index_eq, RuleIndex.ofRules_shaped, List.mem_filter] at hr
    exact Rule.category_isSome_of_validate (h.validate r (Array.mem_toList_iff.mp hr.1))
      (Rule.isReportable_of_isShaped hr.2)
  · rw [h.index_eq, RuleIndex.ofRules_sinks, List.mem_filterMap] at hr
    obtain ⟨r', hmem, hsink⟩ := hr
    obtain ⟨spec', hspec, heq⟩ := Option.map_eq_some_iff.mp hsink
    cases heq
    exact Rule.category_isSome_of_validate (h.validate r (Array.mem_toList_iff.mp hmem))
      (Rule.isReportable_of_sink? hspec)

end Registry
end TaintScan
