import TaintScan.Proofs.Extract.Unit
import TaintScan.Proofs.Flow.Statement

/-! # The states of a pass

A pass over an extracted unit goes from scope to scope and, in a scope, from statement to statement.
`SourceUnit.Reaches` says which states it comes to; the candidates that it gives are those of its last
state.
-/
namespace TaintScan

theorem Candidate.ofShape_rule (m : ShapeMatch) : (Candidate.ofShape m).rule = m.rule := by
  unfold ofShape
  split
  · rfl
  · rfl

namespace Site

theorem statement_eq_ok_iff {s : Site} {st : Statement} {flow flow' : Flow} :
    s.statement st flow = .ok flow' ↔
      ∃ found, s.registry.matchShapes st s.arena s.language ((s.atStatement st flow).context flow.facts) =
          .ok found ∧
        ((s.atStatement st flow).effect st (found.filterMap secretTarget?)
          { flow with candidates := flow.candidates ++ (found.map Candidate.ofShape).toArray }).2 = flow' := by
  have hsite : (s.atStatement st flow).registry = s.registry ∧ (s.atStatement st flow).arena = s.arena ∧
      (s.atStatement st flow).language = s.language := ⟨rfl, rfl, rfl⟩
  unfold statement
  simp only [hsite]
  cases s.registry.matchShapes st s.arena s.language ((s.atStatement st flow).context flow.facts) with
  | error e =>
    constructor
    · intro h
      cases h
    · rintro ⟨_, h, _⟩
      cases h
  | ok found =>
    constructor
    · intro h
      exact ⟨found, rfl, Except.ok.inj h⟩
    · rintro ⟨_, hfound, h⟩
      cases hfound
      exact congrArg Except.ok h

theorem seedParams_candidates (s : Site) (f : Flow) : (s.seedParams f).2.candidates = f.candidates := by
  unfold seedParams
  split
  · exact Track.each_inv (fun g => g.candidates = f.candidates) (fun _ _ _ hg => hg) rfl
  · rfl

theorem statement_ok {s : Site} {st : Statement} (ha : s.arena.Sound)
    (hst : ∀ id ∈ st.operands, id < s.arena.size) (flow : Flow) :
    ∃ flow', s.statement st flow = .ok flow' := by
  obtain ⟨found, hfound⟩ := s.registry.matchShapes_ok ha hst
  exact ⟨_, statement_eq_ok_iff.mpr ⟨found, hfound, rfl⟩⟩

theorem walk_ok (s : Site) (ha : s.arena.Sound) {statements : List Statement}
    (h : ∀ st ∈ statements, ∀ id ∈ st.operands, id < s.arena.size) (flow : Flow) (n : Nat) :
    ∃ flow' n', s.walk statements flow ⟨.never, n⟩ = (.ok flow', ⟨.never, n'⟩) := by
  induction statements generalizing flow n with
  | nil => exact ⟨flow, n, rfl⟩
  | cons st rest ih =>
    obtain ⟨hst, hrest⟩ := List.forall_mem_cons.mp h
    obtain ⟨flow', hflow⟩ := statement_ok ha hst flow
    obtain ⟨flow'', n', hwalk⟩ := ih hrest flow' (n + 1)
    refine ⟨flow'', n', ?_⟩
    simp only [walk, Countdown.poll, Countdown.never, hflow]
    exact hwalk

end Site

/-- Where a pass stands: between two scopes, or in a scope with some statements walked. -/
inductive Stage where
  | between
  | within (scope : Scope) (walked : Nat)

namespace SourceUnit

variable (u : SourceUnit) (x : ExtractedUnit) (registry : Registry) (options : AnalysisOptions)
variable {scope : Scope} {done : Array Facts} {flow flow' : Flow} {p p' : Progress} {k : Nat}

def siteIn (done : Array Facts) (scope : Scope) : Site :=
  { unit := u, arena := x.arena, registry, seed := options.seedEntryPoints, scope
    inherited := (enclosing x.scopes done.size done.size scope.parent).map fun i => done.getD i {} }

theorem trackFrom_cons_ok {rest : List Scope}
    (h : (u.siteIn x registry options done scope).walk scope.statements.toList
      ((u.siteIn x registry options done scope).seedParams { flow with facts := {} }).2 p = (.ok flow', p')) :
    u.trackFrom x registry options (scope :: rest) done flow p =
      u.trackFrom x registry options rest (done.push flow'.facts) flow' p' := by
  rw [trackFrom]
  split
  · next hwalk => cases h.symm.trans hwalk
  · next hwalk =>
    cases h.symm.trans hwalk
    rfl

theorem trackFrom_cons_error {rest : List Scope} {e : AnalysisError}
    (h : (u.siteIn x registry options done scope).walk scope.statements.toList
      ((u.siteIn x registry options done scope).seedParams { flow with facts := {} }).2 p = (.error e, p')) :
    u.trackFrom x registry options (scope :: rest) done flow p = (.error e, p') := by
  rw [trackFrom]
  split
  · next hwalk =>
    cases h.symm.trans hwalk
    rfl
  · next hwalk => cases h.symm.trans hwalk

/-- The states that a pass comes to; `done` holds the facts that the earlier scopes ended with. -/
inductive Reaches : Array Facts → Stage → Flow → Prop where
  | start : Reaches #[] .between {}
  | enter {done : Array Facts} {flow : Flow} {scope : Scope} : Reaches done .between flow →
    x.scopes[done.size]? = some scope →
    Reaches done (.within scope 0)
      ((u.siteIn x registry options done scope).seedParams { flow with facts := {} }).2
  | step {done : Array Facts} {flow flow' : Flow} {scope : Scope} {k : Nat} {st : Statement} :
    Reaches done (.within scope k) flow → scope.statements[k]? = some st →
    (u.siteIn x registry options done scope).statement st flow = .ok flow' →
    Reaches done (.within scope (k + 1)) flow'
  | leave {done : Array Facts} {flow : Flow} {scope : Scope} {k : Nat} :
    Reaches done (.within scope k) flow → scope.statements[k]? = none →
    Reaches (done.push flow.facts) .between flow

variable {u x registry options}

theorem Reaches.scope_eq (h : u.Reaches x registry options done (.within scope k) flow) :
    x.scopes[done.size]? = some scope := by
  generalize hstage : Stage.within scope k = stage at h
  induction h generalizing k with
  | start => cases hstage
  | enter _ hscope _ =>
    cases hstage
    exact hscope
  | step _ _ _ ih =>
    cases hstage
    exact ih rfl
  | leave _ _ _ => cases hstage

theorem Reaches.operand_lt {st : Statement} (h : u.Reaches x registry options done (.within scope k) flow)
    (hx : x.Recorded) (hst : scope.statements[k]? = some st) : ∀ id ∈ st.operands, id < x.arena.size :=
  hx.operand_lt scope (Array.mem_of_getElem? h.scope_eq) st (Array.mem_of_getElem? hst)

theorem walk_reaches (hr : u.Reaches x registry options done (.within scope k) flow)
    (h : (u.siteIn x registry options done scope).walk (scope.statements.toList.drop k) flow p =
      (.ok flow', p')) :
    ∃ k', u.Reaches x registry options done (.within scope k') flow' ∧ scope.statements[k']? = none := by
  generalize hrest : scope.statements.toList.drop k = rest at h
  induction rest generalizing k flow p with
  | nil =>
    cases h
    refine ⟨k, hr, ?_⟩
    rw [Array.getElem?_eq_none_iff]
    simpa using hrest
  | cons st rest ih =>
    have hst : scope.statements[k]? = some st := by
      rw [← Array.getElem?_toList, ← List.head?_drop, hrest]
      rfl
    have hrest' : scope.statements.toList.drop (k + 1) = rest := by
      rw [← List.tail_drop, hrest]
      rfl
    rw [Site.walk] at h
    split at h
    · cases h
    · split at h
      · cases h
      · next hok => exact ih (hr.step hst hok) hrest' h

theorem trackFrom_reaches (hr : u.Reaches x registry options done .between flow)
    (h : u.trackFrom x registry options (x.scopes.toList.drop done.size) done flow p = (.ok flow', p')) :
    ∃ done', u.Reaches x registry options done' .between flow' := by
  generalize hrest : x.scopes.toList.drop done.size = rest at h
  induction rest generalizing done flow p with
  | nil =>
    cases h
    exact ⟨done, hr⟩
  | cons scope rest ih =>
    have hscope : x.scopes[done.size]? = some scope := by
      rw [← Array.getElem?_toList, ← List.head?_drop, hrest]
      rfl
    have hrest' : x.scopes.toList.drop (done.size + 1) = rest := by
      rw [← List.tail_drop, hrest]
      rfl
    rw [trackFrom] at h
    split at h
    · cases h
    · next hwalk =>
      obtain ⟨k, hr, hend⟩ := walk_reaches (hr.enter hscope) hwalk
      exact ih (hr.leave hend) (by rw [Array.size_push]; exact hrest') h

theorem track_reaches {countdown c : Countdown} {candidates : List Candidate}
    (h : u.track x registry options countdown = (.ok candidates, c)) :
    ∃ done flow, u.Reaches x registry options done .between flow ∧ flow.candidates.toList = candidates := by
  unfold track at h
  split at h
  · cases h
  · next hok =>
    obtain ⟨done, hr⟩ := trackFrom_reaches .start hok
    cases h
    exact ⟨done, _, hr, rfl⟩

/-- How a pass that is not cancelled goes on from a state that it comes to. -/
def rest (u : SourceUnit) (x : ExtractedUnit) (registry : Registry) (options : AnalysisOptions)
    (done : Array Facts) (flow : Flow) (n : Nat) : Stage → Except AnalysisError Flow × Progress
  | .between => u.trackFrom x registry options (x.scopes.toList.drop done.size) done flow ⟨.never, n⟩
  | .within scope k =>
    match (u.siteIn x registry options done scope).walk (scope.statements.toList.drop k) flow ⟨.never, n⟩ with
    | (.error e, p) => (.error e, p)
    | (.ok flow, p) =>
      u.trackFrom x registry options (x.scopes.toList.drop (done.size + 1)) (done.push flow.facts) flow p

theorem Reaches.rest {stage : Stage} (h : u.Reaches x registry options done stage flow) :
    ∃ n, u.trackFrom x registry options x.scopes.toList #[] {} ⟨.never, 0⟩ =
      u.rest x registry options done flow n stage := by
  induction h with
  | start => exact ⟨0, rfl⟩
  | @enter done flow scope _ hscope ih =>
    obtain ⟨n, hn⟩ := ih
    refine ⟨n, hn.trans ?_⟩
    rw [SourceUnit.rest, List.drop_eq_getElem?_toList_append, Array.getElem?_toList, hscope]
    rfl
  | @step done flow flow' scope k st _ hst hok ih =>
    obtain ⟨n, hn⟩ := ih
    refine ⟨n + 1, hn.trans ?_⟩
    have hdrop : scope.statements.toList.drop k = st :: scope.statements.toList.drop (k + 1) := by
      rw [List.drop_eq_getElem?_toList_append, Array.getElem?_toList, hst]
      rfl
    rw [SourceUnit.rest, hdrop, Site.walk, hok]
    rfl
  | @leave done flow scope k _ hend ih =>
    obtain ⟨n, hn⟩ := ih
    refine ⟨n, hn.trans ?_⟩
    have hdrop : scope.statements.toList.drop k = [] := by
      rw [List.drop_eq_nil_iff, Array.length_toList]
      exact Array.getElem?_eq_none_iff.mp hend
    simp only [SourceUnit.rest, hdrop, Array.size_push]
    rfl

theorem Reaches.track_eq (h : u.Reaches x registry options done .between flow) (hend : x.scopes.size ≤ done.size) :
    u.track x registry options .never = (.ok flow.candidates.toList, .never) := by
  obtain ⟨n, hn⟩ := h.rest
  have hdrop : x.scopes.toList.drop done.size = [] := by
    rw [List.drop_eq_nil_iff, Array.length_toList]
    exact hend
  rw [SourceUnit.rest, hdrop, trackFrom] at hn
  rw [track, hn]

variable (u registry options)

theorem trackFrom_ok (hx : x.Recorded) {scopes : List Scope} (hscopes : ∀ scope ∈ scopes, scope ∈ x.scopes)
    (done : Array Facts) (flow : Flow) (n : Nat) :
    ∃ flow' n', u.trackFrom x registry options scopes done flow ⟨.never, n⟩ = (.ok flow', ⟨.never, n'⟩) := by
  induction scopes generalizing done flow n with
  | nil => exact ⟨flow, n, rfl⟩
  | cons scope rest ih =>
    obtain ⟨hscope, hrest⟩ := List.forall_mem_cons.mp hscopes
    have hst : ∀ st ∈ scope.statements.toList, ∀ id ∈ st.operands, id < x.arena.size :=
      fun st hst => hx.operand_lt scope hscope st (Array.mem_toList_iff.mp hst)
    let s := u.siteIn x registry options done scope
    obtain ⟨flow', n', hwalk⟩ := s.walk_ok hx.sound hst (s.seedParams { flow with facts := {} }).2 n
    obtain ⟨flow'', n'', htrack⟩ := ih hrest (done.push flow'.facts) flow' n'
    refine ⟨flow'', n'', ?_⟩
    rw [trackFrom]
    split
    · next hok => cases hwalk.symm.trans hok
    · next hok =>
      cases hwalk.symm.trans hok
      exact htrack

theorem track_ok (hx : x.Recorded) :
    ∃ candidates, u.track x registry options .never = (.ok candidates, .never) := by
  obtain ⟨flow, n, h⟩ :=
    trackFrom_ok u registry options hx (fun scope hscope => Array.mem_toList_iff.mp hscope) #[] {} 0
  unfold track
  rw [h]
  exact ⟨_, rfl⟩

end SourceUnit
end TaintScan
