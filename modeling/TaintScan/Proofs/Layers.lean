import Mathlib.Data.List.Induction
import TaintScan.Scan.Config

/-! # Layers of configuration

A setting is that of the last layer which spells it out, a list holds the first occurrences in what the
layers list one after the other, and a rule has the severity that the last layer which names it gives
it.
-/
namespace TaintScan

/-! ## Lists that grow by what is new -/

section

variable {α : Type} {same : α → α → Bool}

theorem unite_append (same : α → α → Bool) (base xs ys : List α) :
    unite same (unite same base xs) ys = unite same base (xs ++ ys) :=
  List.foldl_append.symm

theorem unite_cons (same : α → α → Bool) (base : List α) (item : α) (rest : List α) :
    unite same base (item :: rest) =
      unite same (if base.any (same · item) then base else base ++ [item]) rest := rfl

theorem loop_eq_unite (hsymm : ∀ a b, same a b = same b a) (items done : List α) :
    List.eraseDupsBy.loop same items done = unite same done.reverse items := by
  induction items generalizing done with
  | nil => rfl
  | cons item rest ih =>
    have hany : done.reverse.any (same · item) = done.any (same item) := by
      rw [List.any_reverse]
      exact congrArg done.any (funext fun a => hsymm a item)
    rw [unite_cons, hany, List.eraseDupsBy.loop, ← List.reverse_cons]
    cases done.any (same item) with
    | true => exact ih done
    | false => exact ih (item :: done)

theorem unite_nil (hsymm : ∀ a b, same a b = same b a) (items : List α) :
    unite same [] items = items.eraseDupsBy same :=
  (loop_eq_unite hsymm items []).symm

theorem subset_unite (same : α → α → Bool) (base items : List α) : base ⊆ unite same base items := by
  induction items generalizing base with
  | nil => exact List.Subset.refl base
  | cons item rest ih =>
    rw [unite_cons]
    refine List.Subset.trans ?_ (ih _)
    split
    · exact List.Subset.refl base
    · exact List.subset_append_left base [item]

theorem any_unite (hrefl : ∀ a, same a a = true) (base : List α) {items : List α} {a : α} (ha : a ∈ items) :
    (unite same base items).any (same · a) = true := by
  induction items generalizing base with
  | nil => cases ha
  | cons item rest ih =>
    rw [unite_cons]
    rcases List.mem_cons.mp ha with rfl | hrest
    · -- The item is among the first members, and no member is lost.
      have hhere : ∃ b ∈ (if base.any (same · a) then base else base ++ [a]), same b a = true := by
        split
        · next hany => exact List.any_eq_true.mp hany
        · exact ⟨a, List.mem_append_right _ List.mem_cons_self, hrefl a⟩
      obtain ⟨b, hb, hsame⟩ := hhere
      exact List.any_eq_true.mpr ⟨b, subset_unite same _ rest hb, hsame⟩
    · exact ih _ hrest

theorem unite_eq_self {base items : List α} (h : ∀ a ∈ items, base.any (same · a) = true) :
    unite same base items = base := by
  induction items with
  | nil => rfl
  | cons item rest ih =>
    obtain ⟨hitem, hrest⟩ := List.forall_mem_cons.mp h
    rw [unite_cons, if_pos hitem]
    exact ih hrest

theorem unite_unite_self (hrefl : ∀ a, same a a = true) (base items : List α) :
    unite same (unite same base items) items = unite same base items :=
  unite_eq_self fun _ ha => any_unite hrefl base ha

end

/-! ## Lists ordered by key -/

namespace Keyed

variable {α : Type} {key key' : String} {value : α} {l l' base pairs : List (String × α)}

/-- The keys are distinct and in increasing order. -/
def Ordered (l : List (String × α)) : Prop := l.Pairwise fun p q => p.1 < q.1

theorem lookup_cons (p : String × α) (l : List (String × α)) (key : String) :
    (p :: l).lookup key = if key = p.1 then some p.2 else l.lookup key := by
  obtain ⟨bound, value⟩ := p
  rw [List.lookup_cons]
  by_cases h : key = bound
  · rw [if_pos h, beq_iff_eq.mpr h]
  · rw [if_neg h, beq_false_of_ne h]

theorem lookup_insert (key : String) (value : α) (l : List (String × α)) (key' : String) :
    (insert key value l).lookup key' = if key' = key then some value else l.lookup key' := by
  induction l with
  | nil => exact lookup_cons (key, value) [] key'
  | cons b rest ih =>
    rw [insert]
    split
    · exact lookup_cons (key, value) (b :: rest) key'
    · split
      · next heq =>
        rw [lookup_cons, lookup_cons, ← heq]
        split <;> rfl
      · next hne =>
        rw [lookup_cons, lookup_cons, ih]
        by_cases h : key' = b.1
        · rw [if_pos h, if_pos h, if_neg fun heq => hne (heq.symm.trans h)]
        · rw [if_neg h, if_neg h]

theorem lookup_extend (base pairs : List (String × α)) (key : String) :
    (extend base pairs).lookup key = (pairs.reverse.lookup key).or (base.lookup key) := by
  induction pairs generalizing base with
  | nil => rfl
  | cons p rest ih =>
    have hlast : (insert p.1 p.2 base).lookup key = (List.lookup key [p]).or (base.lookup key) := by
      rw [lookup_insert, lookup_cons]
      split <;> rfl
    rw [extend, List.foldl_cons, ← extend, ih, List.reverse_cons, List.lookup_append, Option.or_assoc, hlast]

theorem mem_insert {p : String × α} (h : p ∈ insert key value l) : p = (key, value) ∨ p ∈ l := by
  induction l with
  | nil => exact Or.inl (List.mem_singleton.mp h)
  | cons b rest ih =>
    rw [insert] at h
    split at h
    · exact List.mem_cons.mp h
    · split at h
      · exact (List.mem_cons.mp h).imp_right (List.mem_cons_of_mem b)
      · rcases List.mem_cons.mp h with rfl | hrest
        · exact Or.inr List.mem_cons_self
        · exact (ih hrest).imp_right (List.mem_cons_of_mem b)

theorem Ordered.insert (h : Ordered l) (key : String) (value : α) : Ordered (insert key value l) := by
  induction l with
  | nil => exact List.pairwise_singleton _ _
  | cons b rest ih =>
    obtain ⟨hb, hrest⟩ := List.pairwise_cons.mp h
    rw [Keyed.insert]
    split
    · next hlt =>
      refine List.pairwise_cons.mpr ⟨List.forall_mem_cons.mpr ⟨hlt, fun p hp => ?_⟩, h⟩
      exact String.lt_trans hlt (hb p hp)
    · next hnot =>
      split
      · next heq => exact List.pairwise_cons.mpr ⟨fun p hp => heq ▸ hb p hp, hrest⟩
      · next hne =>
        refine List.pairwise_cons.mpr ⟨fun p hp => ?_, ih hrest⟩
        rcases mem_insert hp with rfl | hmem
        · exact Std.lt_of_le_of_ne hnot (Ne.symm hne)
        · exact hb p hmem

theorem Ordered.extend (h : Ordered base) (pairs : List (String × α)) : Ordered (extend base pairs) := by
  induction pairs generalizing base with
  | nil => exact h
  | cons p rest ih => exact ih (h.insert p.1 p.2)

theorem lookup_eq_none (h : ∀ p ∈ l, key < p.1) : l.lookup key = none :=
  List.lookup_eq_none_iff.mpr fun p hp => bne_iff_ne.mpr fun heq => String.lt_irrefl _ (heq ▸ h p hp)

theorem Ordered.lookup_tail {p : String × α} (h : Ordered (p :: l)) (key : String) :
    l.lookup key = if key = p.1 then none else (p :: l).lookup key := by
  rw [lookup_cons]
  split
  · next heq => exact lookup_eq_none (heq ▸ (List.pairwise_cons.mp h).1)
  · rfl

theorem Ordered.not_lt_of_lookup {p : String × α} (h : Ordered (p :: l)) (hlookup : (p :: l).lookup key = some value) :
    ¬key < p.1 := by
  intro hlt
  have hnone : (p :: l).lookup key = none := by
    refine lookup_eq_none (List.forall_mem_cons.mpr ⟨hlt, fun q hq => ?_⟩)
    exact String.lt_trans hlt ((List.pairwise_cons.mp h).1 q hq)
  cases hnone.symm.trans hlookup

theorem lookup_head (p : String × α) (l : List (String × α)) : (p :: l).lookup p.1 = some p.2 := by
  rw [lookup_cons, if_pos rfl]

theorem Ordered.ext (h : Ordered l) (h' : Ordered l') (hlookup : ∀ key, l.lookup key = l'.lookup key) : l = l' := by
  induction l generalizing l' with
  | nil =>
    cases l' with
    | nil => rfl
    | cons p' rest' => cases (hlookup p'.1).trans (lookup_head p' rest')
  | cons p rest ih =>
    cases l' with
    | nil => cases (hlookup p.1).symm.trans (lookup_head p rest)
    | cons p' rest' =>
      have hkey : p.1 = p'.1 := String.le_antisymm
        (h.not_lt_of_lookup ((hlookup p'.1).trans (lookup_head p' rest')))
        (h'.not_lt_of_lookup ((hlookup p.1).symm.trans (lookup_head p rest)))
      have hvalue : some p.2 = some p'.2 := by
        rw [← lookup_head p rest, ← lookup_head p' rest', hlookup, hkey]
      have hrest : rest = rest' := ih (List.pairwise_cons.mp h).2 (List.pairwise_cons.mp h').2 fun key => by
        rw [h.lookup_tail, h'.lookup_tail, hlookup, hkey]
      rw [hrest, Prod.ext hkey (Option.some.inj hvalue)]

theorem extend_extend_self (h : Ordered base) (pairs : List (String × α)) :
    extend (extend base pairs) pairs = extend base pairs := by
  refine ((h.extend pairs).extend pairs).ext (h.extend pairs) fun key => ?_
  rw [lookup_extend, lookup_extend, ← Option.or_assoc, Option.or_self]

end Keyed

/-! ## Layers over the defaults -/

/-- The severity that a layer gives a rule. A rule is named once in a layer; if it were not, the last time would
count. -/
def ConfigLayer.severity? (layer : ConfigLayer) (rule : String) : Option Severity :=
  layer.rules.severityOverrides.reverse.lookup rule

namespace Config

variable {α : Type}

theorem ofLayers_concat (layers : List ConfigLayer) (layer : ConfigLayer) :
    ofLayers (layers ++ [layer]) = layer.apply (ofLayers layers) := by
  rw [ofLayers, List.foldl_append]
  rfl

theorem setting_ofLayers (get : Config → α) {setting : ConfigLayer → Option α}
    (h : ∀ (layer : ConfigLayer) (config : Config), get (layer.apply config) = (setting layer).getD (get config))
    (layers : List ConfigLayer) :
    get (ofLayers layers) = (layers.reverse.findSome? setting).getD (get {}) := by
  induction layers using List.reverseRecOn with
  | nil => rfl
  | append_singleton layers layer ih =>
    rw [ofLayers_concat, h, ih, List.reverse_concat, List.findSome?_cons]
    cases setting layer <;> rfl

theorem list_ofLayers (get : Config → List α) {items : ConfigLayer → List α} {same : α → α → Bool}
    (hsymm : ∀ a b, same a b = same b a) (hempty : get {} = [])
    (h : ∀ (layer : ConfigLayer) (config : Config), get (layer.apply config) = unite same (get config) (items layer))
    (layers : List ConfigLayer) : get (ofLayers layers) = (layers.flatMap items).eraseDupsBy same := by
  rw [← unite_nil hsymm]
  induction layers using List.reverseRecOn with
  | nil => exact hempty
  | append_singleton layers layer ih =>
    rw [ofLayers_concat, h, ih, unite_append, List.flatMap_append, List.flatMap_singleton]

theorem severityOverrides_ofLayers (layers : List ConfigLayer) :
    Keyed.Ordered (ofLayers layers).rules.severityOverrides ∧ ∀ rule,
      (ofLayers layers).rules.severityOverrides.lookup rule = layers.reverse.findSome? (·.severity? rule) := by
  induction layers using List.reverseRecOn with
  | nil => exact ⟨List.Pairwise.nil, fun _ => rfl⟩
  | append_singleton layers layer ih =>
    rw [ofLayers_concat]
    refine ⟨ih.1.extend _, fun rule => ?_⟩
    rw [List.reverse_concat, List.findSome?_cons, ← ih.2 rule, ConfigLayer.severity?]
    refine (Keyed.lookup_extend ..).trans ?_
    cases layer.rules.severityOverrides.reverse.lookup rule <;> rfl

theorem apply_apply {config : Config} (h : Keyed.Ordered config.rules.severityOverrides) (layer : ConfigLayer) :
    layer.apply (layer.apply config) = layer.apply config := by
  have hsetting {β : Type} (setting : Option β) (default : β) : setting.getD (setting.getD default) = setting.getD default := by
    cases setting <;> rfl
  have hbeq {β : Type} [BEq β] [ReflBEq β] (b : β) : (b == b) = true := BEq.rfl
  have hpath (path : String) : samePath path path = true := hbeq (pathParts path)
  simp only [ConfigLayer.apply, RuleSelection.merge, hsetting, unite_unite_self hbeq, unite_unite_self hpath,
    Keyed.extend_extend_self h]

/-- What layers give: each setting as the last layer that spells it out has it, the first occurrences of all
members of the layers' lists, where two paths with the same components are one, and for each rule the severity
of the last layer that names it. To apply the last layer once more changes nothing. -/
theorem ofLayers_fieldwise (layers : List ConfigLayer) :
    let config := ofLayers layers
    (config.analysis.seedEntryPoints = (layers.reverse.findSome? (·.seedEntryPoints)).getD true ∧
      config.analysis.escalateMultiHop = (layers.reverse.findSome? (·.escalateMultiHop)).getD true ∧
      config.analysis.maxStatementsPerScope = (layers.reverse.findSome? (·.maxStatementsPerScope)).getD 20000 ∧
      config.scan.parallel = (layers.reverse.findSome? (·.parallel)).getD true ∧
      config.scan.maxUnitSizeKb = (layers.reverse.findSome? (·.maxUnitSizeKb)).getD 1024) ∧
    (config.rules.disable = (layers.flatMap (·.rules.disable)).eraseDups ∧
      config.rules.disabledCategories = (layers.flatMap (·.rules.disabledCategories)).eraseDups ∧
      config.rules.extraRulePaths = (layers.flatMap (·.rules.extraRulePaths)).eraseDupsBy samePath) ∧
    (∀ rule, config.rules.severityOverrides.lookup rule = layers.reverse.findSome? (·.severity? rule)) ∧
    ∀ layer, layer.apply (ofLayers (layers ++ [layer])) = ofLayers (layers ++ [layer]) := by
  have hbeq {β : Type} [BEq β] [LawfulBEq β] (a b : β) : (a == b) = (b == a) := Bool.beq_comm
  refine ⟨⟨?_, ?_, ?_, ?_, ?_⟩, ⟨?_, ?_, ?_⟩, (severityOverrides_ofLayers layers).2, fun layer => ?_⟩
  · exact setting_ofLayers (·.analysis.seedEntryPoints) (fun _ _ => rfl) layers
  · exact setting_ofLayers (·.analysis.escalateMultiHop) (fun _ _ => rfl) layers
  · exact setting_ofLayers (·.analysis.maxStatementsPerScope) (fun _ _ => rfl) layers
  · exact setting_ofLayers (·.scan.parallel) (fun _ _ => rfl) layers
  · exact setting_ofLayers (·.scan.maxUnitSizeKb) (fun _ _ => rfl) layers
  · exact list_ofLayers (·.rules.disable) hbeq rfl (fun _ _ => rfl) layers
  · exact list_ofLayers (·.rules.disabledCategories) hbeq rfl (fun _ _ => rfl) layers
  · exact list_ofLayers (·.rules.extraRulePaths) (fun _ _ => hbeq _ _) rfl (fun _ _ => rfl) layers
  · rw [ofLayers_concat]
    exact apply_apply (severityOverrides_ofLayers layers).1 layer

end Config
end TaintScan
