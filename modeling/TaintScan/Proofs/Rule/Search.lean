import Mathlib.Data.List.Perm.Subperm
import TaintScan.Proofs.Arena
import TaintScan.Rule.Evidence

/-! # What a search for calls meets

What a search for calls has met can be listed in order: each expression once, and each as an operand
or as a child of an earlier one. If the search comes to its end, the children of the listed
expressions are listed too.
-/
namespace TaintScan

namespace ExprArena

def callAt? (a : ExprArena) (id : ExprId) : Option CallSite := a.exprs[id]?.bind (·.callSite?)

def Parent (a : ExprArena) (p c : ExprId) : Prop := ∃ e, a.exprs[p]? = some e ∧ c ∈ e.children

/-- There is a way down from some expressions that does not go through `x`. -/
inductive Avoiding (a : ExprArena) (ids : List ExprId) (x : ExprId) : ExprId → Prop
  | root {id : ExprId} (hid : id ∈ ids) (hx : id ≠ x) : Avoiding a ids x id
  | child {p c : ExprId} (h : Avoiding a ids x p) (hp : a.Parent p c) (hx : c ≠ x) : Avoiding a ids x c

/-- Each listed expression is one of some expressions, or a child of an earlier one. -/
inductive Traced (a : ExprArena) (roots : List ExprId) : List ExprId → Prop
  | nil : Traced a roots []
  | snoc {ids : List ExprId} {id : ExprId} (h : Traced a roots ids) (hid : id ∈ roots ∨ ∃ p ∈ ids, a.Parent p id) :
    Traced a roots (ids ++ [id])

variable {a : ExprArena} {P : ExprId → Prop} {roots operands ids before after : List ExprId} {id x y : ExprId}
  {cause : UnknownExpr} {fuel : Nat}

theorem Traced.of_append (h : a.Traced roots (before ++ after)) : a.Traced roots before := by
  generalize hids : before ++ after = ids at h
  induction h generalizing after with
  | nil =>
    rw [(List.append_eq_nil_iff.mp hids).1]
    exact .nil
  | snoc h hid ih =>
    obtain rfl | ⟨rest, last, rfl⟩ := List.eq_nil_or_concat after
    · rw [List.append_nil] at hids
      rw [hids]
      exact .snoc h hid
    · rw [List.concat_eq_append, ← List.append_assoc] at hids
      exact ih (List.append_inj_left' hids rfl)

theorem Traced.forall (h : a.Traced roots ids) (hroot : ∀ id ∈ ids, id ∈ roots → P id)
    (hchild : ∀ c ∈ ids, ∀ p, P p → a.Parent p c → P c) : ∀ id ∈ ids, P id := by
  induction h with
  | nil => exact List.forall_mem_nil _
  | @snoc ids id h hid ih =>
    have hids : ∀ c ∈ ids, P c := ih (fun c hc => hroot c (List.mem_append_left _ hc))
      fun c hc => hchild c (List.mem_append_left _ hc)
    have hlast : id ∈ ids ++ [id] := List.mem_append_right _ List.mem_cons_self
    refine List.forall_mem_append.mpr ⟨hids, List.forall_mem_singleton.mpr ?_⟩
    rcases hid with hmem | ⟨p, hp, hparent⟩
    · exact hroot id hlast hmem
    · exact hchild id hlast p (hids p hp) hparent

theorem Traced.avoiding (h : a.Traced roots (before ++ y :: after)) (hx : x ∉ before) (hxy : x ≠ y) :
    a.Avoiding roots x y := by
  have htraced : a.Traced roots (before ++ [y]) := by
    rw [← List.singleton_append, ← List.append_assoc] at h
    exact h.of_append
  have hne : ∀ id ∈ before ++ [y], id ≠ x := by
    refine List.forall_mem_append.mpr ⟨fun id hid heq => hx (heq ▸ hid), ?_⟩
    exact List.forall_mem_singleton.mpr hxy.symm
  exact htraced.forall (fun id hid hroot => .root hroot (hne id hid)) (fun c hc p hp hparent => .child hp hparent (hne c hc))
    y (List.mem_append_right _ List.mem_cons_self)

theorem get?_eq_ok {e : Expr} : a.get? id = .ok e ↔ a.exprs[id]? = some e := by
  unfold get?
  cases a.exprs[id]? with
  | none => simp
  | some e' => simp

theorem get?_eq_error (h : a.get? id = .error cause) : a.size ≤ id ∧ cause = ⟨id, a.size⟩ := by
  unfold get? at h
  cases he : a.exprs[id]? with
  | none =>
    rw [he] at h
    exact ⟨Array.getElem?_eq_none_iff.mp he, (Except.error.inj h).symm⟩
  | some e =>
    rw [he] at h
    cases h

end ExprArena

/-- The search has met these expressions, in this order. -/
structure CallSearch.Meets (a : ExprArena) (roots ids : List ExprId) (search : CallSearch) : Prop where
  seen : ∀ id, id ∈ search.seen ↔ id ∈ ids
  calls : search.calls.reverse = ids.filterMap a.callAt?
  nodup : ids.Nodup
  recorded : ∀ id ∈ ids, id < a.size
  traced : a.Traced roots ids

namespace CallSearch.Meets

variable {a : ExprArena} {roots ids : List ExprId} {search : CallSearch}

theorem empty (a : ExprArena) (roots : List ExprId) : Meets a roots [] {} where
  seen _ := iff_of_false Std.HashSet.not_mem_empty List.not_mem_nil
  calls := rfl
  nodup := List.nodup_nil
  recorded _ h := absurd h List.not_mem_nil
  traced := .nil

theorem length_le (h : search.Meets a roots ids) : ids.length ≤ a.size := by
  have hsub : ids ⊆ List.range a.size := fun id hid => List.mem_range.mpr (h.recorded id hid)
  have hle := (List.subperm_of_subset h.nodup hsub).length_le
  rwa [List.length_range] at hle

theorem enter (h : search.Meets a roots ids) {id : ExprId} {e : Expr} (hnew : id ∉ search.seen)
    (he : a.exprs[id]? = some e) (hid : id ∈ roots ∨ ∃ p ∈ ids, a.Parent p id) :
    { seen := search.seen.insert id, calls := e.callSite?.toList ++ search.calls : CallSearch }.Meets a roots
      (ids ++ [id]) where
  seen c := by
    rw [Std.HashSet.mem_insert, beq_iff_eq, h.seen, List.mem_append, List.mem_singleton, eq_comm, or_comm]
  calls := by
    have hsite : a.callAt? id = e.callSite? := by rw [ExprArena.callAt?, he, Option.bind_some]
    rw [List.reverse_append, h.calls, List.filterMap_append, List.filterMap_cons, hsite]
    cases e.callSite? <;> rfl
  nodup := List.nodup_append.mpr ⟨h.nodup, List.nodup_cons.mpr ⟨List.not_mem_nil, List.nodup_nil⟩,
    fun c hc d hd heq => hnew ((h.seen id).mpr (List.mem_singleton.mp hd ▸ heq ▸ hc))⟩
  recorded := List.forall_mem_append.mpr
    ⟨h.recorded, List.forall_mem_singleton.mpr (Array.getElem?_eq_some_iff.mp he).1⟩
  traced := .snoc h.traced hid

end CallSearch.Meets

/-- A search that had met some expressions has met more of them, and their children too. -/
def CallSearch.Completes (a : ExprArena) (roots ids more : List ExprId) (found : CallSearch) : Prop :=
  found.Meets a roots (ids ++ more) ∧ ∀ p ∈ more, ∀ c, a.Parent p c → c ∈ ids ++ more

namespace CallSearch.Completes

variable {a : ExprArena} {roots ids more last : List ExprId} {next found : CallSearch}

theorem refl (h : found.Meets a roots ids) : found.Completes a roots ids [] :=
  ⟨by rwa [List.append_nil], List.forall_mem_nil _⟩

theorem trans (h : next.Completes a roots ids more) (h' : found.Completes a roots (ids ++ more) last) :
    found.Completes a roots ids (more ++ last) := by
  unfold Completes at h' ⊢
  rw [← List.append_assoc]
  refine ⟨h'.1, fun p hp c hparent => ?_⟩
  rcases List.mem_append.mp hp with hmore | hlast
  · exact List.mem_append_left _ (h.2 p hmore c hparent)
  · exact h'.2 p hlast c hparent

theorem of_enter {id : ExprId} {e : Expr} (he : a.exprs[id]? = some e)
    (h : found.Completes a roots (ids ++ [id]) more) (hchildren : ∀ c ∈ e.children, c ∈ ids ++ [id] ++ more) :
    found.Completes a roots ids (id :: more) := by
  unfold Completes at h ⊢
  rw [List.append_assoc, List.singleton_append] at h hchildren
  refine ⟨h.1, List.forall_mem_cons.mpr ⟨?_, h.2⟩⟩
  rintro c ⟨e', he', hc⟩
  cases he.symm.trans he'
  exact hchildren c hc

end CallSearch.Completes

namespace ExprArena

variable {a : ExprArena} {P : ExprId → Prop} {roots operands ids targets : List ExprId} {id x y : ExprId}
  {cause : UnknownExpr} {fuel : Nat} {search found : CallSearch}

/-- The bound is enough, because each visit on the way down has met one expression more, and all of them are
recorded. -/
theorem foldlM_visit_completes (h : search.Meets a roots ids)
    (hids : ∀ id ∈ targets, id ∈ roots ∨ ∃ p ∈ ids, a.Parent p id) (hfuel : a.size < fuel + ids.length)
    (hok : targets.foldlM (a.visit fuel) search = .ok found) :
    ∃ more, found.Completes a roots ids more ∧ ∀ id ∈ targets, id ∈ ids ++ more := by
  induction fuel generalizing targets ids search found with
  | zero => exact absurd h.length_le (by omega)
  | succ n ihdown =>
    induction targets generalizing ids search with
    | nil =>
      cases hok
      exact ⟨[], .refl h, List.forall_mem_nil _⟩
    | cons id rest ih =>
      obtain ⟨hid, hrest⟩ := List.forall_mem_cons.mp hids
      rw [List.foldlM_cons] at hok
      obtain ⟨next, hnext, hok⟩ : ∃ next, a.visit (n + 1) search id = .ok next ∧
          rest.foldlM (a.visit (n + 1)) next = .ok found := by
        cases hnext : a.visit (n + 1) search id with
        | error e =>
          rw [hnext] at hok
          cases hok
        | ok next =>
          rw [hnext] at hok
          exact ⟨next, rfl, hok⟩
      have hvisit : ∃ more, next.Completes a roots ids more ∧ id ∈ ids ++ more := by
        rw [visit] at hnext
        split at hnext
        · next hseen =>
          cases hnext
          have hmem : id ∈ ids := (h.seen id).mp (Std.HashSet.mem_iff_contains.mpr hseen)
          exact ⟨[], .refl h, List.mem_append_left _ hmem⟩
        · next hseen =>
          split at hnext
          · cases hnext
          · next e hget =>
            have he : a.exprs[id]? = some e := get?_eq_ok.mp hget
            have hself : id ∈ ids ++ [id] := List.mem_append_right _ List.mem_cons_self
            obtain ⟨more, hmore, hchildren⟩ := ihdown (h.enter (mt Std.HashSet.mem_iff_contains.mp hseen) he hid)
              (fun c hc => Or.inr ⟨id, hself, e, he, hc⟩) (by simp only [List.length_append, List.length_singleton]; omega) hnext
            exact ⟨id :: more, hmore.of_enter he hchildren, List.mem_append_right _ List.mem_cons_self⟩
      obtain ⟨more, hmore, hmem⟩ := hvisit
      obtain ⟨last, hlast, hmem'⟩ := ih hmore.1
        (fun c hc => (hrest c hc).imp_right fun ⟨p, hp, hparent⟩ => ⟨p, List.mem_append_left _ hp, hparent⟩)
        (by rw [List.length_append]; omega) hok
      refine ⟨more ++ last, hmore.trans hlast, ?_⟩
      rw [← List.append_assoc]
      exact List.forall_mem_cons.mpr ⟨List.mem_append_left _ hmem, hmem'⟩

theorem foldlM_visit_error {Q : Prop} (hvisit : ∀ id ∈ targets, ∀ search, a.visit fuel search id = .error cause → Q)
    (h : targets.foldlM (a.visit fuel) search = .error cause) : Q := by
  induction targets generalizing search with
  | nil => cases h
  | cons id rest ih =>
    obtain ⟨hid, hrest⟩ := List.forall_mem_cons.mp hvisit
    rw [List.foldlM_cons] at h
    cases hnext : a.visit fuel search id with
    | error e =>
      rw [hnext] at h
      cases h
      exact hid search hnext
    | ok next =>
      rw [hnext] at h
      exact ih hrest h

theorem visit_error (hP : a.Hereditary P) (hid : P id) (h : a.visit fuel search id = .error cause) :
    P cause.id ∧ a.size ≤ cause.id ∧ cause.size = a.size := by
  induction fuel generalizing id search with
  | zero => cases h
  | succ n ih =>
    rw [visit] at h
    split at h
    · cases h
    · split at h
      · next hget =>
        cases h
        obtain ⟨hsize, rfl⟩ := get?_eq_error hget
        exact ⟨hid, hsize, rfl⟩
      · next e hget =>
        exact foldlM_visit_error (fun c hc _ hvisit => ih (hP hid (get?_eq_ok.mp hget) c hc) hvisit) h

/-! ## The calls of a statement -/

theorem order_of_callsIn {calls : List CallSite} (h : a.callsIn operands = .ok calls) :
    ∃ order, order.Nodup ∧ a.Traced operands order ∧ (∀ id ∈ order, id < a.size) ∧
      (∀ id, id ∈ order ↔ a.Under operands id) ∧ calls = order.filterMap a.callAt? := by
  unfold callsIn at h
  split at h
  · next found hfound =>
    cases h
    obtain ⟨order, ⟨hmeets, hclosed⟩, hroots⟩ := foldlM_visit_completes (.empty a operands)
      (fun id hid => Or.inl hid) (Nat.lt_succ_self _) hfound
    rw [List.nil_append] at hmeets
    refine ⟨order, hmeets.nodup, hmeets.traced, hmeets.recorded, fun id => ⟨?_, ?_⟩, hmeets.calls⟩
    · refine hmeets.traced.forall (fun id _ hid => a.under_of_mem hid) ?_ id
      rintro c - p hp ⟨e, he, hc⟩
      exact hp.child he hc
    · exact Under.of_hereditary (fun hid he c hc => hclosed _ hid c ⟨_, he, hc⟩) hroots
  · cases h

theorem under_of_mem_callsIn {calls : List CallSite} (h : a.callsIn operands = .ok calls) {c : CallSite}
    (hc : c ∈ calls) : ∃ id e, a.Under operands id ∧ a.exprs[id]? = some e ∧ e.callSite? = some c := by
  obtain ⟨order, -, -, -, hunder, rfl⟩ := order_of_callsIn h
  obtain ⟨id, hid, hcall⟩ := List.mem_filterMap.mp hc
  obtain ⟨e, he, hsite⟩ := Option.bind_eq_some_iff.mp hcall
  exact ⟨id, e, (hunder id).mp hid, he, hsite⟩

theorem callsIn_error (h : a.callsIn operands = .error cause) :
    a.Under operands cause.id ∧ a.size ≤ cause.id ∧ cause.size = a.size := by
  unfold callsIn at h
  split at h
  · cases h
  · next hfold =>
    cases h
    exact foldlM_visit_error (fun id hid _ hvisit => visit_error (a.hereditary_under operands) (a.under_of_mem hid) hvisit) hfold

/-- Calls are collected just if everything under the operands is recorded. -/
theorem callsIn_ok_iff : (∃ calls, a.callsIn operands = .ok calls) ↔ ∀ id, a.Under operands id → id < a.size := by
  constructor
  · rintro ⟨calls, hcalls⟩ id hid
    obtain ⟨order, -, -, hrecorded, hunder, -⟩ := order_of_callsIn hcalls
    exact hrecorded id ((hunder id).mpr hid)
  · intro h
    cases hcalls : a.callsIn operands with
    | ok calls => exact ⟨calls, rfl⟩
    | error cause =>
      obtain ⟨hunder, hsize, _⟩ := callsIn_error hcalls
      exact absurd (h cause.id hunder) (Nat.not_lt.mpr hsize)

theorem map_callAt?_filter (a : ExprArena) (ids : List ExprId) :
    (ids.filter fun id => (a.callAt? id).isSome).map a.callAt? = (ids.filterMap a.callAt?).map some := by
  induction ids with
  | nil => rfl
  | cons id rest ih =>
    cases hcall : a.callAt? id with
    | none => simpa [hcall] using ih
    | some c => simpa [hcall] using ih

/-- Where all that is under the operands is recorded, the search ends, and it answers the calls under the operands:
each of them once, nothing else, and a call before those that can be reached only through it. -/
theorem callsIn_each_once (h : ∀ id, a.Under operands id → id < a.size) :
    ∃ calls ids, a.callsIn operands = .ok calls ∧ calls.map some = ids.map a.callAt? ∧ ids.Nodup ∧
      (∀ id, id ∈ ids ↔ a.Under operands id ∧ (a.callAt? id).isSome) ∧
      ∀ x ∈ ids, ∀ y ∈ ids, x ≠ y → ¬a.Avoiding operands x y → [x, y].Sublist ids := by
  obtain ⟨calls, hcalls⟩ := callsIn_ok_iff.mpr h
  obtain ⟨order, hnodup, htraced, -, hunder, rfl⟩ := order_of_callsIn hcalls
  refine ⟨_, order.filter fun id => (a.callAt? id).isSome, hcalls, (map_callAt?_filter a order).symm,
    hnodup.filter _, fun id => by rw [List.mem_filter, hunder], ?_⟩
  intro x hx y hy hne hthrough
  obtain ⟨before, after, rfl⟩ := List.append_of_mem (List.mem_filter.mp hy).1
  have hbefore : x ∈ before := by
    by_contra hx
    exact hthrough (htraced.avoiding hx hne)
  have hpair : [x, y].Sublist (before ++ y :: after) :=
    (List.singleton_sublist.mpr hbefore).append (List.singleton_sublist.mpr List.mem_cons_self)
  have hcalled : [x, y].filter (fun id => (a.callAt? id).isSome) = [x, y] :=
    List.filter_eq_self.mpr (by simp [(List.mem_filter.mp hx).2, (List.mem_filter.mp hy).2])
  exact hcalled ▸ hpair.filter fun id => (a.callAt? id).isSome

/-- A literal that two calls share, one of which is called on the other and takes it as an argument. -/
def shared : ExprArena where
  exprs := #[⟨.literal .string "k", ⟨2, 5⟩⟩, ⟨.call "f" none [0] false, ⟨0, 6⟩⟩,
    ⟨.call "f.g" (some 1) [0, 1] false, ⟨0, 14⟩⟩]

theorem callsIn_shared :
    (∀ id, shared.Under [2, 1] id → id < shared.size) ∧
      ∃ calls ids, shared.callsIn [2, 1] = .ok calls ∧ calls.map some = ids.map shared.callAt? ∧ ids.Nodup ∧
        (∀ id, id ∈ ids ↔ shared.Under [2, 1] id ∧ (shared.callAt? id).isSome) ∧
        ∀ x ∈ ids, ∀ y ∈ ids, x ≠ y → ¬shared.Avoiding [2, 1] x y → [x, y].Sublist ids := by
  have hchildren : ∀ e ∈ shared.exprs.toList, ∀ c ∈ e.children, c < shared.size := by
    simp [shared, Expr.children, size]
  have hrecorded : ∀ id, shared.Under [2, 1] id → id < shared.size := fun id hid =>
    hid.of_hereditary (fun _ he => hchildren _ (Array.mem_toList_iff.mpr (Array.mem_of_getElem? he))) (by simp [shared, size])
  exact ⟨hrecorded, callsIn_each_once hrecorded⟩

end ExprArena
end TaintScan
