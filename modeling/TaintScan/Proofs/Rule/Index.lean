import Mathlib.Data.String.Basic
import TaintScan.Proofs.Rule.Filter

/-! # The index and the rules

Every answer of a registry is compared with one pass over all rules: the first rule with the identifier,
the first source of a language that matches, all its sinks, and the labels that its full sanitizers
remove.
-/
namespace TaintScan

/-! ## One pass over the rules -/

namespace Rule

/-- A rule of one kind, given by `spec?`, that is for the language and passes the test. -/
def hit? {σ : Type} (spec? : Rule → Option σ) (language : Language) (test : σ → Bool) (r : Rule) :
    Option (Rule × σ) :=
  if r.appliesTo language then ((spec? r).filter test).map (r, ·) else none

def sanitizes (language : Language) (callee : String) (constructs isPartial : Bool) (r : Rule) : Bool :=
  r.appliesTo language &&
    r.sanitizer?.any fun spec => spec.matchesCall callee constructs && spec.isPartial == isPartial

def removesFrom (language : Language) (callee : String) (constructs : Bool) (label : Label) (r : Rule) : Bool :=
  r.sanitizes language callee constructs false && r.sanitizer?.any (·.removes.contains label)

/-- What the call sanitizes: the labels of all full sanitizers, or else nothing by a partial one. -/
def firstSanitizer? (language : Language) (callee : String) (constructs : Bool) (rules : List Rule) :
    Option SanitizerHit :=
  match rules.find? (sanitizes language callee constructs false) with
  | some r =>
    some ⟨r, ⟨rules.any (removesFrom language callee constructs .untrusted),
      rules.any (removesFrom language callee constructs .secret)⟩, false⟩
  | none => (rules.find? (sanitizes language callee constructs true)).map fun r => ⟨r, .empty, true⟩

end Rule

namespace Registry

/-- The rules are in order and accepted, and every answer is that of one pass over them. -/
structure Plain (g : Registry) : Prop where
  ordered : g.rules.toList.Pairwise fun r r' => r.id < r'.id
  accepted : ∀ r ∈ g.rules, r.validate = .ok () ∧ r.severityFloor.level ≤ r.severity.level
  get : ∀ id, g.get? id = g.rules.toList.find? (·.id == id)
  sourceOfCall : ∀ callee constructs language, g.sourceOfCall? callee constructs language =
    (g.rules.toList.findSome? (Rule.hit? Rule.source? language (·.matchesCall callee constructs))).map
      fun p => (p.1, p.2.label)
  sourceOfPath : ∀ path language, g.sourceOfPath? path language =
    (g.rules.toList.findSome? (Rule.hit? Rule.source? language (·.matchesPath path))).map
      fun p => (p.1, p.2.label)
  sinksOfCall : ∀ callee constructs language, g.sinksOfCall callee constructs language =
    g.rules.toList.filterMap (Rule.hit? Rule.sink? language (·.matchesCall callee constructs))
  sinksOfTarget : ∀ target language, g.sinksOfTarget target language =
    g.rules.toList.filterMap (Rule.hit? Rule.sink? language (·.matchesTarget target))
  sanitizerOfCall : ∀ callee constructs language, g.sanitizerOfCall? callee constructs language =
    Rule.firstSanitizer? language callee constructs g.rules.toList
  shaped : ∀ language, g.index.shaped.filter (·.appliesTo language) =
    g.rules.toList.filter fun r => r.isShaped && r.appliesTo language
  matchShapes : ∀ s a language context, g.matchShapes s a language context =
    matchStatement (g.rules.toList.filter (·.appliesTo language)) s a context

end Registry

/-! ## The lists of the index -/

namespace Rule

/-- A list of the index holds the rules of its kind, so the rest of a question can be asked of each rule. -/
theorem filter_filterMap_spec {σ : Type} (spec? : Rule → Option σ) (language : Language) (test : σ → Bool)
    (rules : List Rule) :
    ((rules.filterMap fun r => (spec? r).map (r, ·)).filter fun p => p.1.appliesTo language && test p.2) =
      rules.filterMap (hit? spec? language test) := by
  rw [List.filter_filterMap]
  apply List.filterMap_congr
  intro r _
  unfold hit?
  cases happlies : r.appliesTo language <;> cases hspec : spec? r <;> simp [happlies, Option.filter]

theorem find?_filterMap_spec {σ : Type} (spec? : Rule → Option σ) (language : Language) (test : σ → Bool)
    (rules : List Rule) :
    ((rules.filterMap fun r => (spec? r).map (r, ·)).find? fun p => p.1.appliesTo language && test p.2) =
      rules.findSome? (hit? spec? language test) := by
  rw [← List.head?_filter, filter_filterMap_spec, List.head?_filterMap]

theorem matchesIn_of_not_isShaped {r : Rule} (h : r.isShaped = false) (s : Statement) (a : ExprArena)
    (calls : List CallSite) (context : ShapeContext) : r.matchesIn s a calls context = [] := by
  unfold isShaped at h
  unfold matchesIn
  cases hm : r.matcher <;> simp_all

end Rule

theorem matchStatement_filter_isShaped (rules : List Rule) (s : Statement) (a : ExprArena)
    (context : ShapeContext) :
    matchStatement (rules.filter (·.isShaped)) s a context = matchStatement rules s a context := by
  have hflat (calls : List CallSite) :
      (rules.filter (·.isShaped)).flatMap (fun r => r.matchesIn s a calls context) =
        rules.flatMap fun r => r.matchesIn s a calls context := by
    induction rules with
    | nil => rfl
    | cons r rest ih =>
      cases hshaped : r.isShaped with
      | true => simp [hshaped, ih]
      | false => simp [hshaped, ih, Rule.matchesIn_of_not_isShaped hshaped]
  simp only [matchStatement, hflat]

/-! ## Sanitizers -/

namespace LabelSet

theorem union_foldl (sets : List LabelSet) (s : LabelSet) :
    sets.foldl union s = ⟨s.untrusted || sets.any (·.untrusted), s.secret || sets.any (·.secret)⟩ := by
  induction sets generalizing s with
  | nil => simp
  | cons t rest ih => simp [ih, union, Bool.or_assoc]

end LabelSet

namespace Rule

variable (language : Language) (callee : String) (constructs : Bool)

theorem map_fst_hits (rules : List Rule) (isPartial : Bool) :
    ((rules.filterMap (hit? sanitizer? language (·.matchesCall callee constructs))).filter
        fun p => p.2.isPartial == isPartial).map (·.1) =
      rules.filter (sanitizes language callee constructs isPartial) := by
  induction rules with
  | nil => rfl
  | cons r rest ih =>
    cases happlies : r.appliesTo language with
    | false => simpa [hit?, sanitizes, happlies] using ih
    | true =>
      cases hspec : r.sanitizer? with
      | none => simpa [hit?, sanitizes, hspec] using ih
      | some spec =>
        cases hcall : spec.matchesCall callee constructs with
        | false => simpa [hit?, sanitizes, hspec, hcall, Option.filter] using ih
        | true =>
          cases hsort : spec.isPartial == isPartial <;>
            simpa [hit?, sanitizes, happlies, hspec, hcall, hsort, Option.filter] using ih

theorem any_hits_removes (rules : List Rule) (label : Label) :
    ((rules.filterMap (hit? sanitizer? language (·.matchesCall callee constructs))).filter
        fun p => p.2.isPartial == false).any (·.2.removes.contains label) =
      rules.any (removesFrom language callee constructs label) := by
  rw [List.filter_filterMap, List.any_filterMap]
  apply congrArg (List.any rules)
  funext r
  unfold removesFrom hit? sanitizes
  cases r.appliesTo language <;> cases r.sanitizer? with
  | none => simp
  | some spec =>
    cases hcall : spec.matchesCall callee constructs <;> cases hsort : spec.isPartial <;>
      simp [Option.filter, hcall, hsort]

end Rule

theorem Registry.Valid.sanitizerOfCall?_eq {g : Registry} (hg : g.Valid) (callee : String) (constructs : Bool)
    (language : Language) : g.sanitizerOfCall? callee constructs language =
      Rule.firstSanitizer? language callee constructs g.rules.toList := by
  have hfirst := Rule.map_fst_hits language callee constructs g.rules.toList
  have hremoves := Rule.any_hits_removes language callee constructs g.rules.toList
  have hhits := Rule.filter_filterMap_spec Rule.sanitizer? language (·.matchesCall callee constructs) g.rules.toList
  rw [← RuleIndex.ofRules_sanitizers, ← hg.index_eq] at hhits
  simp only [sanitizerOfCall?, hhits, Rule.firstSanitizer?, ← List.head?_filter, ← hfirst, ← hremoves]
  generalize g.rules.toList.filterMap (Rule.hit? Rule.sanitizer? language (·.matchesCall callee constructs)) = hits
  have hnot : (fun p : Rule × SanitizerSpec => !p.2.isPartial) = fun p => p.2.isPartial == false := by
    funext p
    cases p.2.isPartial <;> rfl
  rw [hnot]
  cases hfull : hits.filter (fun p => p.2.isPartial == false) with
  | nil =>
    -- Without a full sanitizer all that match are partial.
    have hpartial : hits.filter (fun p => p.2.isPartial == true) = hits := by
      rw [List.filter_eq_self]
      intro p hp
      have hp := List.filter_eq_nil_iff.mp hfull p hp
      simpa using hp
    simp only [hpartial, List.map_nil, List.head?_nil, List.head?_map, Option.map_map, Function.comp_def]
  | cons p rest =>
    have hunion := LabelSet.union_foldl (rest.map (·.2.removes)) p.2.removes
    rw [List.foldl_map] at hunion
    simp only [hunion, List.any_map, List.map_cons, List.head?_cons, List.any_cons, Function.comp_def,
      LabelSet.contains]

/-! ## Search by halving -/

namespace Registry

theorem id_eq_of_search {rules : Array Rule} {id : String} {lo hi : Nat} {r : Rule}
    (h : search rules id lo hi = some r) : r ∈ rules ∧ r.id = id := by
  fun_induction search rules id lo hi with
  | case1 => cases h
  | case2 lo hi hlt mid r' hr' hid =>
    cases h
    exact ⟨Array.mem_of_getElem? hr', by simpa using hid⟩
  | case3 lo hi hlt mid r' hr' hid hless ih => exact ih h
  | case4 lo hi hlt mid r' hr' hid hless ih => exact ih h
  | case5 => cases h

theorem search_isSome {rules : Array Rule} {id : String}
    (hordered : rules.toList.Pairwise fun r r' => r.id < r'.id) {lo hi k : Nat} {r : Rule}
    (hk : rules[k]? = some r) (hid : r.id = id) (hlo : lo ≤ k) (hhi : k < hi) (hsize : hi ≤ rules.size) :
    (search rules id lo hi).isSome = true := by
  have hlt {i j : Nat} {a b : Rule} (hij : i < j) (ha : rules[i]? = some a) (hb : rules[j]? = some b) :
      a.id < b.id := by
    obtain ⟨hi, rfl⟩ := Array.getElem?_eq_some_iff.mp ha
    obtain ⟨hj, rfl⟩ := Array.getElem?_eq_some_iff.mp hb
    exact List.pairwise_iff_getElem.mp hordered i j (by simpa using hi) (by simpa using hj) hij
  have hne {i : Nat} {a : Rule} (ha : rules[i]? = some a) (hother : ¬(a.id == id) = true) : k ≠ i := by
    rintro rfl
    rw [hk] at ha
    cases ha
    simp [hid] at hother
  fun_induction search rules id lo hi with
  | case1 lo hi hbounds mid hnone =>
    have hmid : mid < rules.size := by omega
    rw [Array.getElem?_eq_getElem hmid] at hnone
    cases hnone
  | case2 => rfl
  | case3 lo hi hbounds mid r' hr' hother hless ih =>
    -- The middle is below the identifier, so the rule is in the upper half.
    have hne_mid := hne hr' hother
    have hnot_below : ¬k < mid := by
      intro hkm
      have habove := hlt hkm hk hr'
      rw [hid] at habove
      exact String.lt_irrefl _ (String.lt_trans habove hless)
    exact ih (by omega) hhi hsize
  | case4 lo hi hbounds mid r' hr' hother hnot_less ih =>
    have hne_mid := hne hr' hother
    have hnot_above : ¬mid < k := by
      intro hmk
      have hbelow := hlt hmk hr' hk
      rw [hid] at hbelow
      exact hnot_less hbelow
    exact ih hlo (by omega) (by omega)
  | case5 lo hi hbounds => omega

variable {rules : List Rule} {g : Registry}

theorem nodup_of_ordered (hordered : rules.Pairwise fun r r' => r.id < r'.id) : (rules.map (·.id)).Nodup := by
  rw [List.Nodup, List.pairwise_map]
  apply hordered.imp
  intro r r' hlt heq
  rw [heq] at hlt
  exact String.lt_irrefl _ hlt

theorem get?_eq_find? (hordered : g.rules.toList.Pairwise fun r r' => r.id < r'.id) (id : String) :
    g.get? id = g.rules.toList.find? (·.id == id) := by
  cases hfind : g.rules.toList.find? (·.id == id) with
  | none =>
    cases hget : g.get? id with
    | none => rfl
    | some r =>
      obtain ⟨hmem, hid⟩ := id_eq_of_search hget
      have hno := List.find?_eq_none.mp hfind r (Array.mem_toList_iff.mpr hmem)
      simp [hid] at hno
  | some r =>
    have hmem : r ∈ g.rules.toList := List.mem_of_find?_eq_some hfind
    have hid : r.id = id := by simpa using List.find?_some hfind
    obtain ⟨k, hk, hr⟩ := Array.mem_iff_getElem.mp (Array.mem_toList_iff.mp hmem)
    have hsome := search_isSome hordered (Array.getElem?_eq_some_iff.mpr ⟨hk, hr⟩) hid (Nat.zero_le k) hk
      (Nat.le_refl _)
    obtain ⟨r', hr'⟩ := Option.isSome_iff_exists.mp hsome
    obtain ⟨hmem', hid'⟩ := id_eq_of_search hr'
    have heq : r' = r := List.inj_on_of_nodup_map (nodup_of_ordered hordered) (Array.mem_toList_iff.mpr hmem')
      hmem (hid'.trans hid.symm)
    rw [get?, hr', heq]

/-! ## Construction and filters -/

theorem ofRules_eq_ok_iff :
    ofRules rules = .ok g ↔ validateAll rules = .ok () ∧ Rule.checkDistinct (orderById rules) = .ok () ∧
      ofOrdered (orderById rules) = g := by
  unfold ofRules
  cases hall : validateAll rules with
  | error e => simp [bind, Except.bind]
  | ok _ =>
    cases hdistinct : Rule.checkDistinct (orderById rules) with
    | error e => simp [bind, Except.bind, hdistinct]
    | ok _ => simp [bind, Except.bind, pure, Except.pure, hdistinct]

theorem validateAll_of_forall (h : ∀ r ∈ rules, r.validate = .ok ()) : validateAll rules = .ok () := by
  induction rules with
  | nil => rfl
  | cons r rest ih =>
    obtain ⟨hr, hrest⟩ := List.forall_mem_cons.mp h
    rw [validateAll, hr]
    exact ih hrest

theorem orderById_pairwise (rules : List Rule) : (orderById rules).Pairwise fun r r' => r.id ≤ r'.id := by
  have hsorted : (orderById rules).Pairwise fun r r' => (!decide (r'.id < r.id)) = true := by
    apply List.pairwise_mergeSort
    · intro a b c hab hbc
      simp only [Bool.not_eq_true', decide_eq_false_iff_not, not_lt] at hab hbc ⊢
      exact hab.trans hbc
    · intro a b
      simp only [Bool.or_eq_true, Bool.not_eq_true', decide_eq_false_iff_not, not_lt]
      exact le_total a.id b.id
  simpa only [Bool.not_eq_true', decide_eq_false_iff_not, not_lt] using hsorted

theorem orderById_eq_of_perm {rules' : List Rule} (hperm : rules'.Perm rules) (hnodup : (rules.map (·.id)).Nodup) :
    orderById rules' = orderById rules := by
  have hall : (orderById rules').Perm (orderById rules) :=
    (List.mergeSort_perm _ _).trans (hperm.trans (List.mergeSort_perm _ _).symm)
  apply hall.eq_of_pairwise _ (orderById_pairwise rules') (orderById_pairwise rules)
  intro r r' hr hr' hle hge
  have hmem : r ∈ rules := hperm.mem_iff.mp ((List.mergeSort_perm _ _).mem_iff.mp hr)
  have hmem' : r' ∈ rules := (List.mergeSort_perm _ _).mem_iff.mp hr'
  exact List.inj_on_of_nodup_map hnodup hmem hmem' (le_antisymm hle hge)

theorem nodup_of_checkDistinct (h : Rule.checkDistinct rules = .ok ()) : (rules.map (·.id)).Nodup := by
  unfold Rule.checkDistinct at h
  split at h
  · cases h
  · next hnone => exact (Rule.nodup_of_repeatedId? hnone).1

theorem ofRules_ordered (h : ofRules rules = .ok g) : g.rules.toList.Pairwise fun r r' => r.id < r'.id := by
  obtain ⟨-, hdistinct, rfl⟩ := ofRules_eq_ok_iff.mp h
  have hne : (orderById rules).Pairwise fun r r' => r.id ≠ r'.id :=
    List.pairwise_map.mp (nodup_of_checkDistinct hdistinct)
  have hle := orderById_pairwise rules
  simp only [ofOrdered]
  apply (hle.and hne).imp
  rintro r r' ⟨hle, hne⟩
  exact lt_of_le_of_ne hle hne

theorem ofRules_of_perm {rules' : List Rule} (h : ofRules rules = .ok g) (hperm : rules'.Perm rules) :
    ofRules rules' = .ok g := by
  obtain ⟨hall, hdistinct, rfl⟩ := ofRules_eq_ok_iff.mp h
  have hnodup : (rules.map (·.id)).Nodup :=
    ((List.mergeSort_perm _ _).map _).nodup_iff.mp (nodup_of_checkDistinct hdistinct)
  have horder := orderById_eq_of_perm hperm hnodup
  rw [ofRules_eq_ok_iff, horder]
  refine ⟨validateAll_of_forall ?_, hdistinct, rfl⟩
  intro r hr
  exact validateAll_eq_ok hall r (hperm.mem_iff.mp hr)

theorem filtered_ordered (h : g.rules.toList.Pairwise fun r r' => r.id < r'.id) (f : RuleFilter) :
    (g.filtered f).rules.toList.Pairwise fun r r' => r.id < r'.id := by
  rw [filtered_rules, List.pairwise_filterMap]
  apply h.imp
  intro r r' hlt s hs s' hs'
  obtain ⟨_, _, rfl⟩ := RuleFilter.eq_of_image? hs
  obtain ⟨_, _, rfl⟩ := RuleFilter.eq_of_image? hs'
  exact hlt

theorem filtered_all_ordered (h : g.rules.toList.Pairwise fun r r' => r.id < r'.id) (filters : List RuleFilter) :
    (filters.foldl filtered g).rules.toList.Pairwise fun r r' => r.id < r'.id := by
  induction filters generalizing g with
  | nil => exact h
  | cons f rest ih => exact ih (filtered_ordered h f)

end Registry

namespace Severity

theorem min_min_self (a b : Severity) : (a.min b).min b = a.min b := by
  unfold min
  by_cases h : b.level < a.level <;> simp [h]

end Severity

namespace RuleFilter

theorem keeps_override (f : RuleFilter) (r : Rule) : f.keeps (f.override r) = f.keeps r := by
  obtain ⟨_, _, h⟩ := f.override_eq r
  rw [h]
  rfl

theorem override_override (f : RuleFilter) (r : Rule) : f.override (f.override r) = f.override r := by
  have hid : (f.override r).id = r.id := by
    obtain ⟨_, _, h⟩ := f.override_eq r
    rw [h]
  unfold override at hid ⊢
  cases hlookup : f.severityOverrides.lookup r.id with
  | none => simp [hlookup]
  | some severity => simp [hlookup, Rule.withSeverity, Severity.min_min_self]

end RuleFilter

namespace Registry

theorem filtered_filtered (g : Registry) (f : RuleFilter) : (g.filtered f).filtered f = g.filtered f := by
  have hkeeps : f.keeps ∘ f.override = f.keeps := funext f.keeps_override
  have hoverride : f.override ∘ f.override = f.override := funext f.override_override
  simp [filtered, ofOrdered, List.filter_map, hkeeps, hoverride]

theorem Valid.plain {g : Registry} (hg : g.Valid)
    (hordered : g.rules.toList.Pairwise fun r r' => r.id < r'.id) : g.Plain where
  ordered := hordered
  accepted r hr := ⟨hg.validate r hr, ((Rule.validate_eq_ok_iff r).mp (hg.validate r hr)).2.1⟩
  get := get?_eq_find? hordered
  sourceOfCall callee constructs language := by
    rw [sourceOfCall?, hg.index_eq, RuleIndex.ofRules_sources]
    rw [Rule.find?_filterMap_spec Rule.source? language (·.matchesCall callee constructs)]
  sourceOfPath path language := by
    rw [sourceOfPath?, hg.index_eq, RuleIndex.ofRules_sources]
    rw [Rule.find?_filterMap_spec Rule.source? language (·.matchesPath path)]
  sinksOfCall callee constructs language := by
    rw [Registry.sinksOfCall, hg.index_eq, RuleIndex.ofRules_sinks]
    exact Rule.filter_filterMap_spec Rule.sink? language (·.matchesCall callee constructs) _
  sinksOfTarget target language := by
    rw [Registry.sinksOfTarget, hg.index_eq, RuleIndex.ofRules_sinks]
    exact Rule.filter_filterMap_spec Rule.sink? language (·.matchesTarget target) _
  sanitizerOfCall := hg.sanitizerOfCall?_eq
  shaped language := by
    rw [hg.index_eq, RuleIndex.ofRules_shaped, List.filter_filter]
    apply List.filter_congr
    intro r _
    exact Bool.and_comm _ _
  matchShapes s a language context := by
    have hcomm : (g.rules.toList.filter (·.isShaped)).filter (·.appliesTo language) =
        (g.rules.toList.filter (·.appliesTo language)).filter (·.isShaped) := by
      rw [List.filter_filter, List.filter_filter]
      apply List.filter_congr
      intro r _
      exact Bool.and_comm _ _
    rw [Registry.matchShapes, hg.index_eq, RuleIndex.ofRules_shaped, hcomm, matchStatement_filter_isShaped]

/-- A registry built from accepted rules answers plainly after all filters. It does not depend on the
order of the rules, and a filter that is applied twice changes nothing more. -/
theorem ofRules_filtered_plain {rules : List Rule} {g : Registry} (h : ofRules rules = .ok g)
    (filters : List RuleFilter) :
    (filters.foldl filtered g).Plain ∧
      (∀ rules', rules'.Perm rules → ofRules rules' = .ok g) ∧
      ∀ f, ((filters.foldl filtered g).filtered f).filtered f = (filters.foldl filtered g).filtered f := by
  have hvalid := (ofRules_valid h).filtered_all filters
  have hordered := filtered_all_ordered (ofRules_ordered h) filters
  exact ⟨hvalid.plain hordered, fun _ hperm => ofRules_of_perm h hperm, filtered_filtered _⟩

end Registry

namespace ThreeSanitizers

def sanitizer (id : String) (removes : LabelSet) (isPartial : Bool) : Rule :=
  { id, name := id, matcher := .sanitizer { callees := [⟨"f", false⟩], removes, isPartial } }

def clean : Rule := sanitizer "clean" (.of .untrusted) false
def mask : Rule := sanitizer "mask" (.of .untrusted) true
def wash : Rule := sanitizer "wash" (.of .secret) false

def lowered : RuleFilter := { severityOverrides := [("wash", .low)] }

theorem ofRules_three : Registry.ofRules [clean, mask, wash] = .ok (.ofOrdered [clean, mask, wash]) := by
  have hvalidate : ∀ r ∈ [clean, mask, wash], r.validate = .ok () := by
    decide +kernel
  have horder : Registry.orderById [clean, mask, wash] = [clean, mask, wash] :=
    List.mergeSort_of_pairwise (by decide +kernel)
  rw [Registry.ofRules_eq_ok_iff, horder]
  exact ⟨Registry.validateAll_of_forall hvalidate, rfl, rfl⟩

/-- Given in the opposite order, the rules are ordered. With one of them lowered, it is found as such, and
the two full sanitizers remove both labels. -/
theorem plain_lowered :
    Registry.ofRules [wash, mask, clean] = .ok (.ofOrdered [clean, mask, wash]) ∧
      ((Registry.ofOrdered [clean, mask, wash]).filtered lowered).get? "wash" = some (wash.withSeverity .low) ∧
      (((Registry.ofOrdered [clean, mask, wash]).filtered lowered).sanitizerOfCall? "f" false .python).map
        (fun hit => (hit.rule, hit.removes, hit.isPartial)) = some (clean, ⟨true, true⟩, false) := by
  obtain ⟨hplain, hperm, -⟩ := Registry.ofRules_filtered_plain ofRules_three [lowered]
  refine ⟨hperm _ (by decide +kernel), ?_, ?_⟩
  · refine (hplain.get "wash").trans ?_
    decide +kernel
  · refine (congrArg _ (hplain.sanitizerOfCall "f" false .python)).trans ?_
    decide +kernel

end ThreeSanitizers
end TaintScan
