import Mathlib.Data.List.Nodup
import TaintScan.Proofs.Rule.Evidence

/-! # Filtered registries

A filter drops rules and changes severities, and nothing reads a severity before findings are built. So
a filtered registry answers every question as the full one does, without the rules that were dropped.
-/
namespace TaintScan

/-- A match of the rule changes what is known of the data: it introduces or removes a label. -/
def Rule.informs (r : Rule) : Bool :=
  match r.matcher with
  | .source _ | .sanitizer _ | .syntactic (.hardcodedSecret _) => true
  | _ => false

namespace RuleFilter

def image? (f : RuleFilter) (r : Rule) : Option Rule := if f.keeps r then some (f.override r) else none

variable {f : RuleFilter} {r r' : Rule}

theorem override_eq (f : RuleFilter) (r : Rule) :
    ∃ severity floor, f.override r = { r with severity, severityFloor := floor } := by
  unfold override
  split
  · exact ⟨_, _, rfl⟩
  · exact ⟨r.severity, r.severityFloor, rfl⟩

theorem eq_of_image? (h : f.image? r = some r') :
    ∃ severity floor, r' = { r with severity, severityFloor := floor } := by
  unfold image? at h
  split at h
  · cases h
    exact f.override_eq r
  · cases h

theorem keeps_of_image?_eq_none (h : f.image? r = none) : f.keeps r = false := by
  unfold image? at h
  split at h
  · cases h
  · next hkeeps => simpa using hkeeps

theorem image?_of_keeps (h : f.keeps r = true) : f.image? r = some (f.override r) := if_pos h

theorem keeps_of_categories (h : f.disabledCategories = []) : f.keeps r = !f.disabled.contains r.id := by
  have hany : r.category.any [].contains = false := by cases r.category <;> rfl
  rw [keeps, h, hany, Bool.not_false, Bool.and_true]

/-- The filter keeps all rules that change what is known of the data. -/
def Spares (f : RuleFilter) (g : Registry) : Prop := ∀ r ∈ g.rules, r.informs = true → f.keeps r = true

end RuleFilter

def ShapeMatch.under? (f : RuleFilter) (m : ShapeMatch) : Option ShapeMatch :=
  (f.image? m.rule).map fun r => { m with rule := r }

/-! ## The index of a filtered registry -/

namespace Rule

def source? (r : Rule) : Option SourceSpec :=
  match r.matcher with
  | .source spec => some spec
  | _ => none

def sanitizer? (r : Rule) : Option SanitizerSpec :=
  match r.matcher with
  | .sanitizer spec => some spec
  | _ => none

end Rule

namespace RuleIndex

theorem ofRules_sources : ∀ rules, (ofRules rules).sources = rules.filterMap fun r => r.source?.map (r, ·) := by
  refine ofRules_list rfl fun r index => ?_
  unfold add Rule.source?
  cases r.matcher <;> rfl

theorem ofRules_sanitizers : ∀ rules, (ofRules rules).sanitizers = rules.filterMap fun r => r.sanitizer?.map (r, ·) := by
  refine ofRules_list rfl fun r index => ?_
  unfold add Rule.sanitizer?
  cases r.matcher <;> rfl

end RuleIndex

theorem RuleFilter.filterMap_image? {σ : Type} (f : RuleFilter) {spec? : Rule → Option σ}
    (hspec : ∀ r r', f.image? r = some r' → spec? r' = spec? r) (rules : List Rule) :
    (rules.filterMap f.image?).filterMap (fun r => (spec? r).map (r, ·)) =
      (rules.filterMap fun r => (spec? r).map (r, ·)).filterMap fun p => (f.image? p.1).map (·, p.2) := by
  rw [List.filterMap_filterMap, List.filterMap_filterMap]
  refine List.filterMap_congr fun r _ => ?_
  cases happly : f.image? r with
  | none => cases hs : spec? r <;> simp [happly]
  | some r' => cases hs : spec? r <;> simp [happly, hspec r r' happly, hs]

theorem RuleFilter.filterMap_image?_kept {σ : Type} (f : RuleFilter) {spec? : Rule → Option σ}
    (hspec : ∀ r r', f.image? r = some r' → spec? r' = spec? r) {rules : List Rule}
    (hkept : ∀ r ∈ rules, (spec? r).isSome = true → f.keeps r = true) :
    (rules.filterMap f.image?).filterMap (fun r => (spec? r).map (r, ·)) =
      (rules.filterMap fun r => (spec? r).map (r, ·)).map fun p => (f.override p.1, p.2) := by
  rw [f.filterMap_image? hspec, List.filterMap_eq_map_iff_forall_eq_some]
  intro p hp
  obtain ⟨r, hr, hp⟩ := List.mem_filterMap.mp hp
  obtain ⟨spec, hsome, rfl⟩ := Option.map_eq_some_iff.mp hp
  rw [image?_of_keeps (hkept r hr (hsome ▸ rfl))]
  rfl

namespace Registry

variable {g : Registry}

theorem filtered_rules (g : Registry) (f : RuleFilter) :
    (g.filtered f).rules.toList = g.rules.toList.filterMap f.image? := by
  rw [filtered, ofOrdered]
  induction g.rules.toList with
  | nil => rfl
  | cons r rest ih =>
    cases hkeeps : f.keeps r with
    | true => simpa [hkeeps, RuleFilter.image?] using ih
    | false => simpa [hkeeps, RuleFilter.image?] using ih

variable (hg : g.Valid) {f : RuleFilter}
include hg

theorem filtered_sinks (f : RuleFilter) : (g.filtered f).index.sinks =
    g.index.sinks.filterMap fun p => (f.image? p.1).map (·, p.2) := by
  rw [(hg.filtered f).index_eq, hg.index_eq, RuleIndex.ofRules_sinks, RuleIndex.ofRules_sinks, filtered_rules]
  refine f.filterMap_image? (fun r r' h => ?_) _
  obtain ⟨_, _, rfl⟩ := RuleFilter.eq_of_image? h
  rfl

theorem filtered_shaped (f : RuleFilter) :
    (g.filtered f).index.shaped = g.index.shaped.filterMap f.image? := by
  rw [(hg.filtered f).index_eq, hg.index_eq, RuleIndex.ofRules_shaped, RuleIndex.ofRules_shaped, filtered_rules]
  induction g.rules.toList with
  | nil => rfl
  | cons r rest ih =>
    cases happly : f.image? r with
    | none => cases hs : r.isShaped <;> simp [happly, hs, ih]
    | some r' =>
      have hsame : r'.isShaped = r.isShaped := by
        obtain ⟨_, _, rfl⟩ := RuleFilter.eq_of_image? happly
        rfl
      cases hs : r.isShaped <;> simp [happly, hsame, hs, ih]

theorem filtered_sources (hf : f.Spares g) : (g.filtered f).index.sources =
    g.index.sources.map fun p => (f.override p.1, p.2) := by
  rw [(hg.filtered f).index_eq, hg.index_eq, RuleIndex.ofRules_sources, RuleIndex.ofRules_sources, filtered_rules]
  refine f.filterMap_image?_kept (fun r r' h => ?_) fun r hr hsource => ?_
  · obtain ⟨_, _, rfl⟩ := RuleFilter.eq_of_image? h
    rfl
  · refine hf r (Array.mem_toList_iff.mp hr) ?_
    unfold Rule.source? at hsource
    unfold Rule.informs
    cases hm : r.matcher <;> simp_all

theorem filtered_sanitizers (hf : f.Spares g) : (g.filtered f).index.sanitizers =
    g.index.sanitizers.map fun p => (f.override p.1, p.2) := by
  rw [(hg.filtered f).index_eq, hg.index_eq, RuleIndex.ofRules_sanitizers, RuleIndex.ofRules_sanitizers,
    filtered_rules]
  refine f.filterMap_image?_kept (fun r r' h => ?_) fun r hr hsanitizer => ?_
  · obtain ⟨_, _, rfl⟩ := RuleFilter.eq_of_image? h
    rfl
  · refine hf r (Array.mem_toList_iff.mp hr) ?_
    unfold Rule.sanitizer? at hsanitizer
    unfold Rule.informs
    cases hm : r.matcher <;> simp_all

/-! ## Its answers -/

omit hg in
theorem appliesTo_override (f : RuleFilter) (r : Rule) (language : Language) :
    (f.override r).appliesTo language = r.appliesTo language := by
  obtain ⟨_, _, h⟩ := f.override_eq r
  rw [h]
  rfl

theorem filtered_sourceOfCall? (hf : f.Spares g) (callee : String) (constructs : Bool) (language : Language) :
    ((g.filtered f).sourceOfCall? callee constructs language).map (·.2) =
      (g.sourceOfCall? callee constructs language).map (·.2) := by
  simp only [sourceOfCall?, filtered_sources hg hf, List.find?_map, Option.map_map, Function.comp_def,
    appliesTo_override]

theorem filtered_sourceOfPath? (hf : f.Spares g) (path : String) (language : Language) :
    ((g.filtered f).sourceOfPath? path language).map (·.2) = (g.sourceOfPath? path language).map (·.2) := by
  simp only [sourceOfPath?, filtered_sources hg hf, List.find?_map, Option.map_map, Function.comp_def,
    appliesTo_override]

theorem filtered_sanitizerOfCall? (hf : f.Spares g) (callee : String) (constructs : Bool)
    (language : Language) :
    ((g.filtered f).sanitizerOfCall? callee constructs language).map (fun hit => (hit.removes, hit.isPartial)) =
      (g.sanitizerOfCall? callee constructs language).map fun hit => (hit.removes, hit.isPartial) := by
  simp only [sanitizerOfCall?, filtered_sanitizers hg hf, List.filter_map, Function.comp_def, appliesTo_override]
  generalize g.index.sanitizers.filter (fun p => p.1.appliesTo language && p.2.matchesCall callee constructs) = hits
  cases hfull : hits.filter (fun p => !p.2.isPartial) with
  | nil => cases hits <;> rfl
  | cons p rest => simp only [List.map_cons, Option.map_some, List.foldl_map]

theorem filtered_sinks_filter (f : RuleFilter) (p : SinkSpec → Bool) (language : Language) :
    ((g.filtered f).index.sinks.filter fun q => q.1.appliesTo language && p q.2) =
      (g.index.sinks.filter fun q => q.1.appliesTo language && p q.2).filterMap fun q =>
        (f.image? q.1).map (·, q.2) := by
  rw [filtered_sinks hg f, List.filter_filterMap, List.filterMap_filter]
  refine List.filterMap_congr fun q _ => ?_
  cases happly : f.image? q.1 with
  | none => simp
  | some r' =>
    have happlies : r'.appliesTo language = q.1.appliesTo language := by
      obtain ⟨_, _, rfl⟩ := RuleFilter.eq_of_image? happly
      rfl
    simp [Option.filter, happlies]

theorem filtered_sinksOfCall (f : RuleFilter) (callee : String) (constructs : Bool) (language : Language) :
    (g.filtered f).sinksOfCall callee constructs language =
      (g.sinksOfCall callee constructs language).filterMap fun p => (f.image? p.1).map (·, p.2) :=
  filtered_sinks_filter hg f (·.matchesCall callee constructs) language

theorem filtered_sinksOfTarget (f : RuleFilter) (target : String) (language : Language) :
    (g.filtered f).sinksOfTarget target language =
      (g.sinksOfTarget target language).filterMap fun p => (f.image? p.1).map (·, p.2) :=
  filtered_sinks_filter hg f (·.matchesTarget target) language

end Registry

/-! ## Its matches -/

theorem Shape.matchesIn_withSeverities (shape : Shape) (r : Rule) (severity floor : Severity) (s : Statement)
    (a : ExprArena) (calls : List CallSite) (context : ShapeContext) :
    shape.matchesIn { r with severity, severityFloor := floor } s a calls context =
      (shape.matchesIn r s a calls context).map fun m =>
        { m with rule := { r with severity, severityFloor := floor } } := by
  cases shape with
  | weakAlgorithm callees algorithms =>
    simp only [matchesIn, List.map_filterMap, Option.map_map, Function.comp_def]
  | forbiddenCall callees => simp only [matchesIn, List.map_map, Function.comp_def]
  | insecureRandom callees words =>
    simp only [matchesIn]
    split
    · simp only [List.map_map, Function.comp_def]
    · rfl
  | hardcodedSecret names =>
    simp only [matchesIn]
    split
    · split
      · split <;> rfl
      · rfl
    · rfl

theorem Rule.matchesIn_withSeverities (r : Rule) (severity floor : Severity) (s : Statement) (a : ExprArena)
    (calls : List CallSite) (context : ShapeContext) :
    Rule.matchesIn { r with severity, severityFloor := floor } s a calls context =
      (r.matchesIn s a calls context).map fun m =>
        { m with rule := { r with severity, severityFloor := floor } } := by
  obtain ⟨id, name, category, _, _, matcher, confidence, message, cweId, owasp, remediation, languages⟩ := r
  unfold matchesIn
  cases matcher with
  | syntactic shape => exact shape.matchesIn_withSeverities _ severity floor s a calls context
  | sink spec =>
    dsimp only
    split
    · simp only [SinkSpec.evidenceIn, List.map_filterMap, Option.map_map, Function.comp_def]
    · rfl
  | source spec => rfl
  | sanitizer spec => rfl

theorem RuleFilter.filterMap_matchesIn (f : RuleFilter) (r : Rule) (s : Statement) (a : ExprArena)
    (calls : List CallSite) (context : ShapeContext) :
    (r.matchesIn s a calls context).filterMap (ShapeMatch.under? f) =
      (f.image? r).toList.flatMap fun r' => r'.matchesIn s a calls context := by
  have hrule : ∀ m ∈ r.matchesIn s a calls context, m.under? f = (f.image? r).map fun r' => { m with rule := r' } := by
    intro m hm
    rw [ShapeMatch.under?, Rule.rule_of_mem_matchesIn hm]
  rw [List.filterMap_congr hrule]
  cases happly : f.image? r with
  | none => simp
  | some r' =>
    obtain ⟨severity, floor, rfl⟩ := eq_of_image? happly
    simp [Rule.matchesIn_withSeverities]

theorem Registry.filtered_matchShapes {g : Registry} (hg : g.Valid) (f : RuleFilter) (s : Statement)
    (a : ExprArena) (language : Language) (context : ShapeContext) :
    (g.filtered f).matchShapes s a language context =
      (g.matchShapes s a language context).map (List.filterMap (ShapeMatch.under? f)) := by
  have hshaped : (g.filtered f).index.shaped.filter (·.appliesTo language) =
      (g.index.shaped.filter (·.appliesTo language)).filterMap f.image? := by
    rw [filtered_shaped hg f, List.filter_filterMap, List.filterMap_filter]
    refine List.filterMap_congr fun r _ => ?_
    cases happly : f.image? r with
    | none => simp
    | some r' =>
      have happlies : r'.appliesTo language = r.appliesTo language := by
        obtain ⟨_, _, rfl⟩ := RuleFilter.eq_of_image? happly
        rfl
      simp [Option.filter, happlies]
  unfold matchShapes matchStatement
  rw [hshaped]
  split
  · rfl
  · split
    · rfl
    · next calls _ =>
      refine congrArg Except.ok ?_
      rw [List.filterMap_flatMap, List.filterMap_eq_flatMap_toList, List.flatMap_assoc]
      exact List.flatMap_congr fun r _ => (f.filterMap_matchesIn r s a calls context).symm

/-! ## Identifiers -/

theorem Rule.nodup_of_repeatedId? {rules : List Rule} {seen : List String}
    (h : repeatedId? seen rules = none) : (rules.map (·.id)).Nodup ∧ ∀ r ∈ rules, r.id ∉ seen := by
  induction rules generalizing seen with
  | nil => exact ⟨.nil, List.forall_mem_nil _⟩
  | cons r rest ih =>
    rw [repeatedId?] at h
    split at h
    · cases h
    · next hnew =>
      obtain ⟨hnodup, hrest⟩ := ih h
      refine ⟨List.nodup_cons.mpr ⟨fun hmem => ?_, hnodup⟩, List.forall_mem_cons.mpr ⟨?_, fun r' hr' hseen => ?_⟩⟩
      · obtain ⟨r', hr', hid⟩ := List.mem_map.mp hmem
        exact hrest r' hr' (hid ▸ List.mem_cons_self)
      · simpa using hnew
      · exact hrest r' hr' (List.mem_cons_of_mem _ hseen)

namespace Registry

/-- Different rules have different identifiers. -/
def Distinct (g : Registry) : Prop := (g.rules.toList.map (·.id)).Nodup

theorem ofRules_distinct {rules : List Rule} {g : Registry} (h : ofRules rules = .ok g) : g.Distinct := by
  unfold ofRules at h
  cases hall : validateAll rules with
  | error e => simp [hall, bind, Except.bind] at h
  | ok _ =>
    cases hrepeated : Rule.repeatedId? [] (orderById rules) with
    | some id => simp [hall, bind, Except.bind, Rule.checkDistinct, hrepeated] at h
    | none =>
      simp only [hall, bind, Except.bind, Rule.checkDistinct, hrepeated, pure, Except.pure, Except.ok.injEq] at h
      subst h
      simpa [Distinct, ofOrdered] using (Rule.nodup_of_repeatedId? hrepeated).1

theorem Distinct.filtered {g : Registry} (h : g.Distinct) (f : RuleFilter) : (g.filtered f).Distinct := by
  have hsublist (rules : List Rule) :
      ((rules.filterMap f.image?).map (·.id)).Sublist (rules.map (·.id)) := by
    induction rules with
    | nil => exact .slnil
    | cons r rest ih =>
      cases himage : f.image? r with
      | none =>
        rw [List.filterMap_cons_none himage]
        exact ih.cons _
      | some r' =>
        have hid : r'.id = r.id := by
          obtain ⟨_, _, rfl⟩ := RuleFilter.eq_of_image? himage
          rfl
        rw [List.filterMap_cons_some himage, List.map_cons, List.map_cons, hid]
        exact ih.cons_cons _
  rw [Distinct, filtered_rules]
  exact h.sublist (hsublist _)

theorem Distinct.filtered_all {g : Registry} (h : g.Distinct) (filters : List RuleFilter) :
    (filters.foldl Registry.filtered g).Distinct := by
  induction filters generalizing g with
  | nil => exact h
  | cons f rest ih => exact ih (h.filtered f)

theorem Distinct.eq_of_id_eq {g : Registry} (h : g.Distinct) {r r' : Rule} (hr : r ∈ g.rules)
    (hr' : r' ∈ g.rules) (hid : r.id = r'.id) : r = r' :=
  List.inj_on_of_nodup_map h (Array.mem_toList_iff.mpr hr) (Array.mem_toList_iff.mpr hr') hid

end Registry
end TaintScan
