import TaintScan.Proofs.Flow.Provenance
import TaintScan.Proofs.Flow.Visit

/-! # The facts that a statement writes

`Site.Writes` collects the keys of the facts that a statement may change: those of its targets, of
the receivers that methods called with tainted arguments store into, and of the variables that it
passes to a full sanitizer on its own.
-/
namespace TaintScan

def Statement.evaluates (st : Statement) : Bool :=
  match st.kind with
  | .unparsed | .controlClose => false
  | _ => true

theorem Taint.remove_remove (t : Taint) (labels : LabelSet) :
    (t.remove labels).remove labels = t.remove labels := by
  have hlabels : (t.labels.without labels).without labels = t.labels.without labels := by
    simp [LabelSet.without]
  unfold Taint.remove
  dsimp only
  rw [hlabels]
  split
  · rfl
  · rfl

namespace Site

variable {s : Site} {st : Statement} {key : String}

/-! ## Targets -/

theorem setFact_getElem?_of_ne {path : String} (h : factKey path ≠ key) (t : Taint) (f : Flow) :
    (Track.setFact path t f).2.facts[key]? = f.facts[key]? := by
  change (f.facts.insert (factKey path) t)[key]? = _
  rw [Std.HashMap.getElem?_insert, if_neg (by simpa using h)]

theorem assign_getElem?_of_ne {target : String} (h : factKey target ≠ key) (secretTargets : List String)
    (t : Taint) (f : Flow) : (s.assign st secretTargets t target f).2.facts[key]? = f.facts[key]? := by
  obtain ⟨node, hfacts⟩ := s.assign_facts st secretTargets t target f
  rw [hfacts, Std.HashMap.getElem?_insert, if_neg (by simpa using h)]

theorem bound_facts (s : Site) (st : Statement) (kind : ControlKind) (t : Taint) (f : Flow) :
    (s.bound st kind t f).2.facts = f.facts := by
  unfold bound
  split
  · rfl
  · split
    · rfl
    · split
      · rfl
      · rfl

theorem each_getElem?_of_not_mem {p : String → Track Unit}
    (hp : ∀ target f, factKey target ≠ key → (p target f).2.facts[key]? = f.facts[key]?)
    {targets : List String} (h : key ∉ targets.map factKey) (f : Flow) :
    (Track.each p targets f).2.facts[key]? = f.facts[key]? := by
  refine Track.each_inv (fun g => g.facts[key]? = f.facts[key]?) (fun target htarget g hg => ?_) rfl
  rw [hp target g fun heq => h (heq ▸ List.mem_map_of_mem htarget), hg]

/-! ## Sanitizers that are called on their own -/

theorem cleanArgument_getElem? (s : Site) (removes : LabelSet) (arg : ExprId) (f : Flow) (key : String) :
    (s.cleanArgument removes arg f).2.facts[key]? =
      if s.arena.hasKey key arg then f.facts[key]?.map (·.remove removes) else f.facts[key]? := by
  unfold cleanArgument ExprArena.hasKey
  cases hkind : s.arena.kind? arg with
  | none => rfl
  | some kind =>
    cases kind with
    | «variable» path =>
      dsimp only
      by_cases hkey : factKey path = key
      · subst hkey
        rw [if_pos (beq_self_eq_true _)]
        cases hfact : f.facts[factKey path]? with
        | none => exact hfact
        | some t => exact Std.HashMap.getElem?_insert_self
      · rw [if_neg (by simpa using hkey)]
        cases hfact : f.facts[factKey path]? with
        | none => rfl
        | some t =>
          dsimp only
          rw [Std.HashMap.getElem?_insert, if_neg (by simpa using hkey)]
    | _ => rfl

/-- Cleaning a variable twice is cleaning it once. -/
theorem cleanArguments_getElem? (s : Site) (removes : LabelSet) (args : List ExprId) (f : Flow)
    (key : String) :
    (Track.each (s.cleanArgument removes) args f).2.facts[key]? =
      if args.any (s.arena.hasKey key) then f.facts[key]?.map (·.remove removes) else f.facts[key]? := by
  induction args generalizing f with
  | nil => rfl
  | cons arg rest ih =>
    change (Track.each (s.cleanArgument removes) rest (s.cleanArgument removes arg f).2).2.facts[key]? = _
    rw [ih, cleanArgument_getElem?, List.any_cons]
    cases s.arena.hasKey key arg with
    | false => rfl
    | true =>
      cases rest.any (s.arena.hasKey key) with
      | false => rfl
      | true =>
        rw [if_pos rfl, if_pos rfl, Bool.true_or, if_pos rfl, Option.map_map]
        exact congrArg (Option.map · f.facts[key]?) (funext fun t => t.remove_remove removes)

/-- The labels that a call on its own removes as a full sanitizer, and its arguments. -/
def inPlace? (s : Site) (st : Statement) : Option (LabelSet × List ExprId) :=
  if st.kind == .call then
    match st.operands.head? >>= s.arena.kind? with
    | some (.call callee _ args constructs) =>
      (s.registry.sanitizerOfCall? callee constructs s.language).bind fun hit =>
        if hit.isPartial then none else some (hit.removes, args)
    | _ => none
  else none

theorem expression_apply (s : Site) (st : Statement) (f : Flow) :
    (s.expression st f).2 =
      ((s.inPlace? st).elim (Track.each s.eval st.operands f).2 fun hit =>
        (Track.each (s.cleanArgument hit.1) hit.2 (Track.each s.eval st.operands f).2).2) := by
  unfold expression inPlace?
  simp only [Track.bind_apply]
  generalize (Track.each s.eval st.operands f).2 = g
  split
  swap
  · rfl
  cases st.operands.head? with
  | none => rfl
  | some call =>
    change (s.sanitizeInPlace call g).2 = _
    unfold sanitizeInPlace
    rw [Option.bind_eq_bind, Option.bind_some]
    cases s.arena.kind? call with
    | none => rfl
    | some kind =>
      cases kind with
      | call callee receiver args constructs =>
        dsimp only
        cases s.registry.sanitizerOfCall? callee constructs s.language with
        | none => rfl
        | some hit =>
          obtain ⟨rule, removes, isPartial⟩ := hit
          cases isPartial with
          | true => rfl
          | false => rfl
      | _ => rfl

/-- A full sanitizer that is called on its own takes labels from the fact of a key. -/
def Sanitizes (s : Site) (st : Statement) (removes : LabelSet) (key : String) : Prop :=
  ∃ args, s.inPlace? st = some (removes, args) ∧ args.any (s.arena.hasKey key) = true

theorem effect_of_sanitizes {removes : LabelSet} (h : s.Sanitizes st removes key)
    (secretTargets : List String) : s.effect st secretTargets = s.expression st := by
  obtain ⟨args, hplace, _⟩ := h
  unfold inPlace? at hplace
  split at hplace
  · next hkind => rw [effect, eq_of_beq hkind]
  · cases hplace

theorem expression_getElem?_of_sanitizes {removes : LabelSet} (h : s.Sanitizes st removes key) (f : Flow) :
    (s.expression st f).2.facts[key]? =
      (Track.each s.eval st.operands f).2.facts[key]?.map (·.remove removes) := by
  obtain ⟨args, hplace, hargs⟩ := h
  rw [expression_apply, hplace, Option.elim_some, cleanArguments_getElem?, if_pos hargs]

theorem expression_getElem?_of_not_sanitizes (h : ∀ removes, ¬s.Sanitizes st removes key) (f : Flow) :
    (s.expression st f).2.facts[key]? = (Track.each s.eval st.operands f).2.facts[key]? := by
  rw [expression_apply]
  cases hplace : s.inPlace? st with
  | none => rfl
  | some hit =>
    obtain ⟨removes, args⟩ := hit
    rw [Option.elim_some, cleanArguments_getElem?, if_neg fun hargs => h removes ⟨args, hplace, hargs⟩]

/-! ## Methods that store -/

/-- While operands are evaluated, a method stores into a receiver with a key. -/
def Stores (s : Site) (ids : List ExprId) (f : Flow) (key : String) : Prop :=
  ∃ id g e path, s.Visits ids f id g ∧ s.arena.exprs[id]? = some e ∧
    s.StoresAt e (Track.each s.eval e.children g).1 path ∧ factKey path = key

theorem evalAll_getElem?_of_not_stores (ha : s.arena.Descends) {ids : List ExprId} {f : Flow}
    (h : ¬s.Stores ids f key) : (Track.each s.eval ids f).2.facts[key]? = f.facts[key]? := by
  refine (evalAll_of_visits (fun g => g.facts[key]? = f.facts[key]?) (fun _ => True) ha trivial
    (fun id g hv e he hg _ => ⟨?_, trivial⟩) rfl).1
  rcases s.finish_facts e (Track.each s.eval e.children g).1 (Track.each s.eval e.children g).2 with
    hsame | ⟨path, node, hstores, hfacts⟩
  · rw [hsame, hg]
  · have hne : factKey path ≠ key := fun heq => h ⟨id, g, e, path, hv, he, hstores, heq⟩
    rw [hfacts, Std.HashMap.getElem?_insert, if_neg (by simpa using hne), hg]

/-! ## Statements -/

/-- The keys of the facts that a statement writes when its effect starts in a flow. -/
inductive Writes (s : Site) (st : Statement) (f : Flow) (key : String) : Prop where
  | target : key ∈ st.binds → Writes s st f key
  | stored : st.evaluates = true → s.Stores st.operands f key → Writes s st f key
  | sanitized {removes : LabelSet} : s.Sanitizes st removes key → Writes s st f key

theorem effect_getElem?_of_not_binds (hevaluates : st.evaluates = true) (hbinds : key ∉ st.binds)
    (hsanitizes : ∀ removes, ¬s.Sanitizes st removes key) (secretTargets : List String) (f : Flow) :
    (s.effect st secretTargets f).2.facts[key]? = (Track.each s.eval st.operands f).2.facts[key]? := by
  have hassign (htargets : st.binds = st.targets.map factKey) (t : Taint) (g : Flow) :
      (Track.each (s.assign st secretTargets t) st.targets g).2.facts[key]? = g.facts[key]? :=
    each_getElem?_of_not_mem (fun _ _ hne => assign_getElem?_of_ne hne secretTargets t _) (htargets ▸ hbinds) g
  unfold effect
  cases hkind : st.kind with
  | unparsed => simp [Statement.evaluates, hkind] at hevaluates
  | controlClose => simp [Statement.evaluates, hkind] at hevaluates
  | assignment => exact hassign (by rw [Statement.binds, hkind]) _ _
  | declaration => exact hassign (by rw [Statement.binds, hkind]) _ _
  | call => exact expression_getElem?_of_not_sanitizes hsanitizes f
  | expression => exact expression_getElem?_of_not_sanitizes hsanitizes f
  | controlOpen kind =>
    have htargets : st.binds = st.targets.map factKey := by rw [Statement.binds, hkind]
    dsimp only
    rw [openBlock_apply]
    dsimp only
    split
    · rfl
    · rw [each_getElem?_of_not_mem (fun _ _ hne => setFact_getElem?_of_ne hne _ _) (htargets ▸ hbinds),
        bound_facts]

theorem effect_of_not_evaluates (hevaluates : st.evaluates = false) (secretTargets : List String) (f : Flow) :
    (s.effect st secretTargets f).2 = f := by
  unfold effect
  cases hkind : st.kind with
  | unparsed => rfl
  | controlClose => rfl
  | _ => simp [Statement.evaluates, hkind] at hevaluates

theorem effect_getElem?_of_not_writes (ha : s.arena.Descends) {f : Flow} (h : ¬s.Writes st f key)
    (secretTargets : List String) : (s.effect st secretTargets f).2.facts[key]? = f.facts[key]? := by
  cases hevaluates : st.evaluates with
  | false => rw [effect_of_not_evaluates hevaluates]
  | true =>
    rw [effect_getElem?_of_not_binds hevaluates (fun hbinds => h (.target hbinds))
      (fun _ hsanitizes => h (.sanitized hsanitizes))]
    exact evalAll_getElem?_of_not_stores ha fun hstores => h (.stored hevaluates hstores)

end Site
end TaintScan
