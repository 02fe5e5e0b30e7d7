import TaintScan.Proofs.Flow.Lookup
import TaintScan.Proofs.Flow.Pass

/-! # Labels reach the targets of an assignment

A label of a variable that an expression is built from is a label of the expression, unless a call on
the way strips it. An assignment gives the labels of its value to all of its targets.
-/
namespace TaintScan

/-! ## Labels -/

namespace LabelSet

theorem contains_union (a b : LabelSet) (l : Label) :
    (a.union b).contains l = (a.contains l || b.contains l) := by
  cases l <;> rfl

theorem contains_without (a b : LabelSet) (l : Label) :
    (a.without b).contains l = (a.contains l && !b.contains l) := by
  cases l <;> rfl

theorem isEmpty_eq_false_of_contains {a : LabelSet} {l : Label} (h : a.contains l = true) :
    a.isEmpty = false := by
  cases l <;> simp_all [contains, isEmpty]

end LabelSet

namespace Taint

theorem contains_join (a b : Taint) (l : Label) :
    (a.join b).labels.contains l = (a.labels.contains l || b.labels.contains l) :=
  LabelSet.contains_union _ _ _

theorem contains_foldl_join (taints : List Taint) (start : Taint) (l : Label) :
    (taints.foldl join start).labels.contains l =
      (start.labels.contains l || taints.any fun t => t.labels.contains l) := by
  induction taints generalizing start with
  | nil => simp
  | cons t rest ih => rw [List.foldl_cons, ih, contains_join, List.any_cons, Bool.or_assoc]

theorem contains_joinAll (taints : List Taint) (l : Label) :
    (joinAll taints).labels.contains l = taints.any fun t => t.labels.contains l := by
  have hclean : clean.labels.contains l = false := by cases l <;> rfl
  rw [joinAll, contains_foldl_join, hclean, Bool.false_or]

theorem contains_joinAll_of_mem {R : ExprId → Taint → Prop} {ids : List ExprId} {taints : List Taint}
    (h : List.Forall₂ R ids taints) {id : ExprId} (hid : id ∈ ids) {l : Label}
    (hl : ∀ t, R id t → t.labels.contains l = true) : (joinAll taints).labels.contains l = true := by
  rw [contains_joinAll]
  induction h with
  | nil => cases hid
  | cons hr _ ih =>
    rw [List.any_cons]
    rcases List.mem_cons.mp hid with rfl | hid
    · rw [hl _ hr, Bool.true_or]
    · rw [ih hid, Bool.or_true]

end Taint

/-! ## Ways of a label -/

def Flow.Holds (f : Flow) (l : Label) (key : String) : Prop :=
  ∃ t, f.facts[key]? = some t ∧ t.labels.contains l = true

def Registry.strips (g : Registry) (language : Language) (l : Label) (callee : String)
    (constructs : Bool) : Bool :=
  (g.sourceOfCall? callee constructs language).isNone &&
    (g.sanitizerOfCall? callee constructs language).any fun hit =>
      !hit.isPartial && hit.removes.contains l

namespace Site

def passes (s : Site) (l : Label) (e : Expr) : Bool :=
  match e.kind with
  | .call callee _ _ constructs => !s.registry.strips s.language l callee constructs
  | _ => true

/-- A label of one expression gets to another one. -/
def Feeds (s : Site) (l : Label) : ExprId → ExprId → Prop := s.arena.Below (s.passes l)

def carries (s : Site) (facts : Facts) (l : Label) (path : String) : Bool :=
  (s.lookup? facts path).any fun t => t.labels.contains l

variable {s : Site} {l : Label} {path target : String} {f : Flow} {t : Taint} {st : Statement}

theorem contains_getD_of_carries {facts : Facts} (h : s.carries facts l path = true) :
    ((s.lookup? facts path).getD .clean).labels.contains l = true := by
  unfold carries at h
  cases hlookup : s.lookup? facts path with
  | none => rw [hlookup] at h; cases h
  | some t => rw [hlookup] at h; exact h

theorem contains_callResult {callee : String} {constructs : Bool} {input : Taint}
    (hs : s.registry.strips s.language l callee constructs = false) (hi : input.labels.contains l = true)
    (span : Span) (f : Flow) : (s.callResult span callee constructs input f).1.labels.contains l = true := by
  rw [callResult_apply]
  split
  · rw [Taint.contains_join, hi, Bool.or_true]
  · next hsource =>
    split
    · next hit hhit =>
      rw [Registry.strips, hsource, hhit] at hs
      dsimp only
      split
      · exact hi
      · next hfull =>
        have hkept : hit.removes.contains l = false := by simpa [hfull] using hs
        rw [Taint.remove, LabelSet.contains_without, hi, hkept]
        rfl
    · exact hi

theorem contains_read (h : s.carries f.facts l path = true) (span : Span) :
    (s.read path span f).1.labels.contains l = true := by
  rw [read_apply]
  split
  · rw [Taint.contains_join, contains_getD_of_carries h, Bool.or_true]
  · dsimp only
    exact contains_getD_of_carries h

theorem carries_insert {facts : Facts} (ht : s.carries facts l target = true → t.labels.contains l = true)
    (h : s.carries facts l path = true) : s.carries (facts.insert (factKey target) t) l path = true := by
  rcases s.lookup?_insert facts (factKey target) t path with hsame | ⟨hnew, hold⟩
  · rw [carries, hsame]
    exact h
  · have htarget : s.carries facts l target = true := by
      rw [carries, lookup?_eq, ← hold]
      exact h
    rw [carries, hnew]
    exact ht htarget

theorem carries_storeInto (h : s.carries f.facts l path = true) (receiver : ExprId) (value : Taint) :
    s.carries (s.storeInto receiver value f).2.facts l path = true := by
  rw [storeInto_apply]
  split
  · next target _ =>
    change s.carries (f.facts.insert (factKey target) _) l path = true
    refine carries_insert (fun htarget => ?_) h
    rw [Taint.contains_join, contains_getD_of_carries htarget, Bool.true_or]
  · exact h

theorem Feeds.eq_of_leaf {id leaf : ExprId} (h : s.Feeds l id leaf)
    (hleaf : ∀ e, s.arena.exprs[leaf]? = some e → e.children = []) : id = leaf := by
  cases h with
  | refl => rfl
  | step he _ hchild _ =>
    rw [hleaf _ he] at hchild
    cases hchild

/-- While an expression is evaluated no variable loses a label, and the taint of an expression has the
labels that get to it. -/
def propagation (s : Site) (l : Label) (facts : Facts) : s.Evaluation where
  visits _ := True
  child _ _ _ := trivial
  inv f := ∀ path, s.carries facts l path = true → s.carries f.facts l path = true
  le _ _ := True
  good _ id t := ∀ var path, s.arena.kind? var = some (.variable path) →
    s.carries facts l path = true → s.Feeds l var id → t.labels.contains l = true
  refl _ := trivial
  trans _ _ := trivial
  good_le _ h := h
  absent := by
    intro f id _ he var path hvar _ hfeeds
    cases hfeeds.eq_of_leaf fun e h => absurd (he.symm.trans h) (by simp)
    rw [ExprArena.kind?, he] at hvar
    cases hvar
  literal := by
    intro f id kind value span _ he var path hvar _ hfeeds
    cases hfeeds.eq_of_leaf fun e h => by cases he.symm.trans h; rfl
    rw [ExprArena.kind?, he] at hvar
    cases hvar
  read := by
    intro f id path span hf he
    refine ⟨?_, trivial, ?_⟩
    · rw [read_apply]
      split
      · exact hf
      · exact hf
    · intro var path' hvar hcarries hfeeds
      cases hfeeds.eq_of_leaf fun e h => by cases he.symm.trans h; rfl
      rw [ExprArena.kind?, he] at hvar
      cases hvar
      exact contains_read (hf _ hcarries) span
  parts := by
    intro f id e parts taints _ he hkind hall var path hvar hcarries hfeeds
    cases hfeeds with
    | refl =>
      rw [ExprArena.kind?, he] at hvar
      have hvar : e.kind = .variable path := Option.some.inj hvar
      rw [hvar] at hkind
      rcases hkind with h | h
      · cases h
      · cases h
    | step he' _ hchild hbelow =>
      cases he.symm.trans he'
      have hparts : e.children = parts := by
        rcases hkind with h | h
        · rw [Expr.children, h]
        · rw [Expr.children, h]
      rw [hparts] at hchild
      exact Taint.contains_joinAll_of_mem hall hchild fun t ht => ht var path hvar hcarries hbelow
  sink _ hf _ _ _ _ := ⟨hf, trivial⟩
  store _ hf _ _ _ _ := ⟨fun path hpath => carries_storeInto (hf path hpath) _ _, trivial⟩
  result := by
    intro f id callee receiver args constructs span receivers taints hf he hr ha
    refine ⟨?_, trivial, ?_⟩
    · rw [callResult_apply]
      split
      · exact hf
      · split
        · exact hf
        · exact hf
    · intro var path hvar hcarries hfeeds
      cases hfeeds with
      | refl =>
        rw [ExprArena.kind?, he] at hvar
        cases hvar
      | step he' hpass hchild hbelow =>
        cases he.symm.trans he'
        have hstrips : s.registry.strips s.language l callee constructs = false := by
          simpa [passes] using hpass
        refine contains_callResult hstrips ?_ span f
        rw [Taint.contains_join]
        have hchild : _ ∈ receiver.toList ++ args := hchild
        rcases List.mem_append.mp hchild with hchild | hchild
        · rw [Taint.contains_joinAll_of_mem hr hchild fun t ht => ht var path hvar hcarries hbelow,
            Bool.true_or]
        · rw [Taint.contains_joinAll_of_mem ha hchild fun t ht => ht var path hvar hcarries hbelow,
            Bool.or_true]

/-! ## Assignments -/

theorem reportTargetSinks_facts (s : Site) (target : String) (value : Option ExprId) (t : Taint)
    (f : Flow) : (s.reportTargetSinks target value t f).2.facts = f.facts := by
  unfold reportTargetSinks
  split
  · refine Track.each_inv (fun g => g.facts = f.facts) (fun p _ g hg => ?_) rfl
    split
    · exact hg
    · exact hg
  · rfl

theorem assign_facts (s : Site) (st : Statement) (secretTargets : List String) (t : Taint)
    (target : String) (f : Flow) :
    ∃ node, (s.assign st secretTargets t target f).2.facts =
      f.facts.insert (factKey target) { s.written st secretTargets t target f.facts with node } := by
  rw [assign_apply]
  dsimp only
  rw [reportTargetSinks_facts]
  split
  · refine ⟨some (s.reportTargetSinks target st.operands.head? t f).2.nodes.size, ?_⟩
    rw [define_apply]
    change (s.reportTargetSinks _ _ _ _).2.facts.insert _ _ = _
    rw [reportTargetSinks_facts]
  · refine ⟨none, ?_⟩
    change (s.reportTargetSinks _ _ _ _).2.facts.insert _ _ = _
    rw [reportTargetSinks_facts]

theorem contains_written (h : t.labels.contains l = true) (st : Statement) (secretTargets : List String)
    (target : String) (facts : Facts) :
    (s.written st secretTargets t target facts).labels.contains l = true := by
  have hbase : (if st.compound then ((s.lookup? facts target).getD .clean).join t else t).labels.contains l
      = true := by
    split
    · rw [Taint.contains_join, h, Bool.or_true]
    · exact h
  unfold written
  dsimp only
  split
  · rw [LabelSet.insert, LabelSet.contains_union, hbase, Bool.true_or]
  · exact hbase

theorem holds_assign (h : t.labels.contains l = true) {secretTargets : List String} {key : String}
    (hkey : key = factKey target ∨ f.Holds l key) : (s.assign st secretTargets t target f).2.Holds l key := by
  obtain ⟨node, hfacts⟩ := s.assign_facts st secretTargets t target f
  unfold Flow.Holds
  rw [hfacts]
  by_cases heq : factKey target = key
  · subst heq
    exact ⟨_, Std.HashMap.getElem?_insert_self, contains_written h st secretTargets target f.facts⟩
  · rw [Std.HashMap.getElem?_insert, if_neg (by simpa using heq)]
    exact hkey.resolve_left fun hkey => heq hkey.symm

theorem holds_assignAll (h : t.labels.contains l = true) {secretTargets targets : List String} {key : String}
    (hkey : key ∈ targets.map factKey ∨ f.Holds l key) :
    (Track.each (s.assign st secretTargets t) targets f).2.Holds l key := by
  induction targets generalizing f with
  | nil => exact hkey.resolve_left List.not_mem_nil
  | cons target rest ih =>
    refine ih ?_
    rw [List.map_cons, List.mem_cons, or_assoc] at hkey
    rcases hkey with hkey | hkey | hkey
    · exact Or.inr (holds_assign h (Or.inl hkey))
    · exact Or.inl hkey
    · exact Or.inr (holds_assign h (Or.inr hkey))

theorem holds_assignment (ha : s.arena.Sound) (hst : ∀ id ∈ st.operands, id < s.arena.size) {value var : ExprId}
    (hvalue : st.operands.head? = some value) (hvar : s.arena.kind? var = some (.variable path))
    (hfeeds : s.Feeds l var value) (hcarries : s.carries f.facts l path = true) (secretTargets : List String)
    (htarget : target ∈ st.targets) : (s.assignment st secretTargets f).2.Holds l (factKey target) := by
  obtain ⟨_, _, hgood⟩ := (s.propagation l f.facts).evalAll ha hst (fun _ _ => trivial) (f := f) fun _ h => h
  have hlabel : ((Track.each s.eval st.operands f).1.headD .clean).labels.contains l = true := by
    obtain ⟨rest, hoperands⟩ := List.head?_eq_some_iff.mp hvalue
    generalize (Track.each s.eval st.operands f).1 = taints at hgood
    rw [hoperands] at hgood
    cases hgood with
    | cons hfirst _ => exact hfirst var path hvar hcarries hfeeds
  exact holds_assignAll hlabel (Or.inl (List.mem_map_of_mem htarget))

theorem carries_atStatement (s : Site) (st : Statement) (flow : Flow) :
    (s.atStatement st flow).carries = s.carries := rfl

theorem feeds_atStatement (s : Site) (st : Statement) (flow : Flow) :
    (s.atStatement st flow).Feeds = s.Feeds := rfl

theorem holds_statement (ha : s.arena.Sound) (hkind : st.kind = .assignment ∨ st.kind = .declaration)
    (hst : ∀ id ∈ st.operands, id < s.arena.size) {value var : ExprId} (hvalue : st.operands.head? = some value)
    (hvar : s.arena.kind? var = some (.variable path)) (hfeeds : s.Feeds l var value) {flow flow' : Flow}
    (hcarries : s.carries flow.facts l path = true) (hok : s.statement st flow = .ok flow')
    (htarget : target ∈ st.targets) : flow'.Holds l (factKey target) := by
  obtain ⟨found, hfound, hflow⟩ := statement_eq_ok_iff.mp hok
  have heffect : (s.atStatement st flow).effect st (found.filterMap secretTarget?) =
      (s.atStatement st flow).assignment st (found.filterMap secretTarget?) := by
    rcases hkind with h | h
    · simp only [effect, h]
    · simp only [effect, h]
  rw [heffect] at hflow
  rw [← hflow]
  rw [← carries_atStatement s st flow] at hcarries
  rw [← feeds_atStatement s st flow] at hfeeds
  exact holds_assignment (s := s.atStatement st flow)
    (f := { flow with candidates := flow.candidates ++ (found.map Candidate.ofShape).toArray })
    ha hst hvalue hvar hfeeds hcarries _ htarget

end Site
end TaintScan
