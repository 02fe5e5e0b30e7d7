import Mathlib.Data.List.Chain
import TaintScan.Proofs.Flow.Order

/-! # When definitions are made

Each node is made between two states of a pass: when the parameters of a scope are seeded or when a
statement is walked. A node points back to one that was made at an earlier moment, so the path to a
node goes through the moments in their order.
-/
namespace TaintScan

/-! ## Paths -/

/-- The path to a node is made of the nodes with some identifiers: it starts at an origin, each of the
others points back to the one before it, and the node itself is the last. -/
structure Route (nodes : Array Node) (id : NodeId) (ids : List NodeId) : Prop where
  path : ids.map (nodes[·]?) = (pathTo nodes (some id)).map some
  origin : ∃ first n, ids.head? = some first ∧ nodes[first]? = some n ∧ n.prev = none
  links : ids.IsChain fun a b => nodes[b]?.bind (·.prev) = some a
  last : ids.getLast? = some id

variable {nodes : Array Node} {n : Node}

theorem Route.lt_size {id : NodeId} {ids : List NodeId} (h : Route nodes id ids) : ∀ a ∈ ids, a < nodes.size := by
  intro a ha
  have hmem : nodes[a]? ∈ (pathTo nodes (some id)).map some := h.path ▸ List.mem_map_of_mem ha
  obtain ⟨n, _, hn⟩ := List.mem_map.mp hmem
  exact (Array.getElem?_eq_some_iff.mp hn.symm).1

theorem pathTo_of_origin {id : NodeId} (hn : nodes[id]? = some n) (hprev : n.prev = none) :
    pathTo nodes (some id) = [n] := by
  rw [pathTo, backFrom, hn]
  dsimp only
  rw [hprev]
  rfl

theorem pathTo_of_link {id p : NodeId} (hn : nodes[id]? = some n) (hprev : n.prev = some p) (hlt : p < id) :
    pathTo nodes (some id) = pathTo nodes (some p) ++ [n] := by
  rw [pathTo, backFrom, hn]
  dsimp only
  rw [hprev]
  dsimp only
  rw [dif_pos hlt, List.reverse_cons]
  rfl

theorem Route.link {id p : NodeId} {ids : List NodeId} (h : Route nodes p ids) (hn : nodes[id]? = some n)
    (hprev : n.prev = some p) (hlt : p < id) :
    Route nodes id (ids ++ [id]) where
  path := by
    rw [pathTo_of_link hn hprev hlt, List.map_append, List.map_append, h.path, List.map_singleton, hn]
    rfl
  origin := by
    obtain ⟨first, m, hfirst, hm⟩ := h.origin
    exact ⟨first, m, by rw [List.head?_append, hfirst]; rfl, hm⟩
  links := by
    refine List.isChain_append.mpr ⟨h.links, .singleton id, ?_⟩
    intro a ha b hb
    rw [h.last] at ha
    cases ha
    cases hb
    rw [hn]
    exact hprev
  last := List.getLast?_concat

theorem Flow.Ordered.exists_route {first : NodeId} {f : Flow} (h : f.Ordered first) {id : NodeId}
    (hid : id < f.nodes.size) : ∃ ids, Route f.nodes id ids ∧ ∀ a ∈ ids.dropLast, a < id ∧ a < first := by
  induction id using Nat.strongRecOn with
  | _ id ih =>
    have hn := Array.getElem?_eq_getElem hid
    cases hprev : (f.nodes[id]).prev with
    | none =>
      refine ⟨[id], ⟨?_, ⟨id, _, rfl, hn, hprev⟩, .singleton id, rfl⟩, fun a ha => nomatch ha⟩
      rw [pathTo_of_origin hn hprev, List.map_singleton, hn]
      rfl
    | some p =>
      obtain ⟨hlt, hfirst⟩ := h.behind id p _ hn hprev
      obtain ⟨ids, hroute, hbefore⟩ := ih p hlt (Nat.lt_trans hlt hid)
      refine ⟨ids ++ [id], hroute.link hn hprev hlt, fun a ha => ?_⟩
      rw [List.dropLast_concat] at ha
      have hp : p < first := by
        by_cases hle : first ≤ id
        · exact hfirst hle
        · exact Nat.lt_trans hlt (Nat.lt_of_not_le hle)
      have ha' : a ∈ ids.dropLast ++ [p] := by
        rwa [List.dropLast_append_getLast? p hroute.last]
      rcases List.mem_append.mp ha' with ha' | ha'
      · obtain ⟨hap, haf⟩ := hbefore a ha'
        exact ⟨Nat.lt_trans hap hlt, haf⟩
      · rw [List.mem_singleton.mp ha']
        exact ⟨hlt, hp⟩

/-! ## The states of a pass in their order -/

/-- A moment of a pass: the scope that is walked and the step in it. -/
abbrev Moment := Nat ×ₗ Nat

/-- The step that is taken next: first the parameters of a scope, then its statements. -/
def Stage.step : Stage → Nat
  | .between => 0
  | .within _ k => k + 1

theorem Stage.step_between : Stage.between.step = 0 := rfl

theorem Stage.step_within (scope : Scope) (k : Nat) : (Stage.within scope k).step = k + 1 := rfl

namespace SourceUnit

variable {u : SourceUnit} {x : ExtractedUnit} {registry : Registry} {options : AnalysisOptions}
variable {done done' : Array Facts} {stage stage' : Stage} {flow flow' : Flow} {scope : Scope} {k : Nat}

theorem siteIn_inherits {done : Array Facts} {size : Nat}
    (h : ∀ facts ∈ done, ∀ (key : String) (t : Taint), facts[key]? = some t → t.Anchored size)
    (scope : Scope) : ∀ facts ∈ (u.siteIn x registry options done scope).inherited,
      ∀ (key : String) (t : Taint), facts[key]? = some t → t.Anchored size := by
  intro facts hfacts key t ht
  obtain ⟨j, hj, rfl⟩ := List.mem_map.mp hfacts
  have hlt := lt_of_mem_enclosing hj
  rw [Array.getD_eq_getD_getElem?, Array.getElem?_eq_getElem hlt] at ht
  exact h _ (Array.getElem_mem hlt) key t ht

theorem atStatement_inherits
    (hdone : ∀ facts ∈ done, ∀ (key : String) (t : Taint), facts[key]? = some t →
      t.Anchored flow.nodes.size) (scope : Scope) (st : Statement) :
    ((u.siteIn x registry options done scope).atStatement st flow).Inherits := by
  intro facts hfacts
  have hfacts : facts ∈ (u.siteIn x registry options done scope).inherited := hfacts
  exact siteIn_inherits hdone scope facts hfacts

theorem statement_ordered (hx : x.Recorded) {st : Statement}
    (hst : ∀ id ∈ st.operands, id < x.arena.size) (hflow : flow.Ordered flow.nodes.size)
    (hdone : ∀ facts ∈ done, ∀ (key : String) (t : Taint), facts[key]? = some t →
      t.Anchored flow.nodes.size)
    (hok : (u.siteIn x registry options done scope).statement st flow = .ok flow') :
    flow'.Ordered flow.nodes.size ∧ NodesKept flow.nodes flow'.nodes := by
  obtain ⟨found, _, rfl⟩ := Site.statement_eq_ok_iff.mp hok
  refine ⟨Site.effect_ordered (atStatement_inherits hdone scope st) hx.sound hst _ ?_, ?_⟩
  · exact hflow.withCandidates _
  · exact (Site.nodesKept_keeps _ flow.nodes).effect hx.sound hst _ fun _ _ h => h

theorem Reaches.ordered (h : u.Reaches x registry options done stage flow) (hx : x.Recorded) :
    flow.Ordered flow.nodes.size ∧ ∀ facts ∈ done, ∀ (key : String) (t : Taint),
      facts[key]? = some t → t.Anchored flow.nodes.size := by
  induction h with
  | start =>
    refine ⟨⟨Nat.le_refl _, fun key t ht => ?_, fun id p n hn => nomatch hn⟩, fun facts hfacts => ?_⟩
    · rw [Std.HashMap.getElem?_empty] at ht
      cases ht
    · exact absurd hfacts (Array.not_mem_empty facts)
  | @enter done flow scope _ _ ih =>
    obtain ⟨hflow, hdone⟩ := ih
    obtain ⟨hseed, hkept⟩ :=
      (u.siteIn x registry options done scope).seedParams_ordered hflow.withoutFacts
    exact ⟨hseed.next, fun facts hfacts key t ht => (hdone facts hfacts key t ht).mono hkept.size_le⟩
  | @step done flow flow' scope k st hr hst hok ih =>
    obtain ⟨hflow, hdone⟩ := ih
    obtain ⟨hordered, hkept⟩ := statement_ordered hx (hr.operand_lt hx hst) hflow hdone hok
    exact ⟨hordered.next, fun facts hfacts key t ht => (hdone facts hfacts key t ht).mono hkept.size_le⟩
  | leave _ _ ih =>
    obtain ⟨hflow, hdone⟩ := ih
    refine ⟨hflow, fun facts hfacts key t ht => ?_⟩
    rcases Array.mem_push.mp hfacts with hfacts | rfl
    · exact hdone facts hfacts key t ht
    · exact hflow.facts key t ht

theorem Reaches.walked_le (h : u.Reaches x registry options done (.within scope k) flow) :
    k ≤ scope.statements.size := by
  generalize hstage : Stage.within scope k = stage at h
  induction h generalizing k with
  | start => cases hstage
  | enter _ _ _ =>
    cases hstage
    exact Nat.zero_le _
  | step _ hst _ _ =>
    cases hstage
    exact (Array.getElem?_eq_some_iff.mp hst).1
  | leave _ _ _ => cases hstage

theorem Reaches.scope_unique {scope' : Scope} {k' : Nat}
    (h : u.Reaches x registry options done (.within scope k) flow)
    (h' : u.Reaches x registry options done' (.within scope' k') flow') (hsize : done.size = done'.size) :
    scope = scope' := by
  have hscope := h.scope_eq
  rw [hsize, h'.scope_eq] at hscope
  exact (Option.some.inj hscope).symm

theorem Reaches.unique (h : u.Reaches x registry options done stage flow)
    (h' : u.Reaches x registry options done' stage' flow') (hsize : done.size = done'.size)
    (hstep : stage.step = stage'.step) : done = done' ∧ flow = flow' := by
  induction h generalizing done' stage' flow' with
  | start =>
    cases h' with
    | start => exact ⟨rfl, rfl⟩
    | enter => cases hstep
    | step => cases hstep
    | leave =>
      rw [Array.size_push] at hsize
      cases hsize
  | enter h hscope ih =>
    cases h' with
    | start => cases hstep
    | enter h' hscope' =>
      obtain ⟨rfl, rfl⟩ := ih h' hsize rfl
      cases hscope.symm.trans hscope'
      exact ⟨rfl, rfl⟩
    | step => cases hstep
    | leave => cases hstep
  | step h hst hok ih =>
    cases h' with
    | start => cases hstep
    | enter => cases hstep
    | step h' hst' hok' =>
      cases h.scope_unique h' hsize
      cases hstep
      obtain ⟨rfl, rfl⟩ := ih h' hsize rfl
      cases hst.symm.trans hst'
      exact ⟨rfl, Except.ok.inj (hok.symm.trans hok')⟩
    | leave => cases hstep
  | leave h hend ih =>
    cases h' with
    | start =>
      rw [Array.size_push] at hsize
      cases hsize
    | enter => cases hstep
    | step => cases hstep
    | leave h' hend' =>
      rw [Array.size_push, Array.size_push] at hsize
      have hsize := Nat.succ.inj hsize
      cases h.scope_unique h' hsize
      have hk := Nat.le_antisymm h.walked_le (Array.getElem?_eq_none_iff.mp hend)
      have hk' := Nat.le_antisymm h'.walked_le (Array.getElem?_eq_none_iff.mp hend')
      obtain ⟨rfl, rfl⟩ := ih h' hsize (congrArg (· + 1) (hk.trans hk'.symm))
      exact ⟨rfl, rfl⟩

def moment (done : Array Facts) (stage : Stage) : Moment := toLex (done.size, stage.step)

theorem moment_le_iff : moment done stage ≤ moment done' stage' ↔
    done.size < done'.size ∨ done.size = done'.size ∧ stage.step ≤ stage'.step :=
  Prod.Lex.toLex_le_toLex

theorem Reaches.kept (h : u.Reaches x registry options done stage flow)
    (h' : u.Reaches x registry options done' stage' flow') (hx : x.Recorded)
    (hle : moment done stage ≤ moment done' stage') : NodesKept flow.nodes flow'.nodes := by
  -- A state at the same moment is the same; one at an earlier moment is not later than the one before.
  have hsame {done' : Array Facts} {stage' : Stage} {flow' : Flow}
      (h' : u.Reaches x registry options done' stage' flow') (hsize : done.size = done'.size)
      (hstep : stage.step = stage'.step) : NodesKept flow.nodes flow'.nodes := by
    obtain ⟨_, rfl⟩ := h.unique h' hsize hstep
    exact fun _ _ h => h
  induction h' with
  | start =>
    rw [moment_le_iff] at hle
    refine hsame .start ?_ ?_
    · rcases hle with hle | hle
      · exact absurd hle (Nat.not_lt_zero _)
      · exact hle.1
    · rcases hle with hle | hle
      · exact absurd hle (Nat.not_lt_zero _)
      · exact Nat.le_zero.mp hle.2
  | @enter done' flow' scope hr hscope ih =>
    by_cases hstep : done.size = done'.size ∧ stage.step = 1
    · exact hsame (hr.enter hscope) hstep.1 hstep.2
    · have hbefore : moment done stage ≤ moment done' .between := by
        rw [moment_le_iff] at hle ⊢
        simp only [Stage.step_between, Stage.step_within] at hle ⊢
        omega
      have hseed := (u.siteIn x registry options done' scope).seedParams_ordered
        (hr.ordered hx).1.withoutFacts
      exact fun id n hn => hseed.2 id n (ih hbefore id n hn)
  | @step done' flow' flow'' scope k st hr hst hok ih =>
    by_cases hstep : done.size = done'.size ∧ stage.step = k + 2
    · exact hsame (hr.step hst hok) hstep.1 hstep.2
    · have hbefore : moment done stage ≤ moment done' (.within scope k) := by
        rw [moment_le_iff] at hle ⊢
        simp only [Stage.step_within] at hle ⊢
        omega
      obtain ⟨hflow, hdone⟩ := hr.ordered hx
      have hstatement := statement_ordered hx (hr.operand_lt hx hst) hflow hdone hok
      exact fun id n hn => hstatement.2 id n (ih hbefore id n hn)
  | @leave done' flow' scope k hr hend ih =>
    by_cases hstep : done.size = done'.size + 1
    · refine hsame (hr.leave hend) (by rw [hstep, Array.size_push]) ?_
      rw [moment_le_iff, Array.size_push] at hle
      simp only [Stage.step_between] at hle ⊢
      omega
    · refine ih ?_
      rw [moment_le_iff, Array.size_push] at hle
      rw [moment_le_iff]
      by_cases hsize : done.size = done'.size
      · refine Or.inr ⟨hsize, ?_⟩
        cases stage with
        | between => exact Nat.zero_le _
        | within scope' k' =>
          cases h.scope_unique hr hsize
          exact Nat.succ_le_succ (Nat.le_trans h.walked_le (Array.getElem?_eq_none_iff.mp hend))
      · omega

/-! ## The moments at which nodes are made -/

section

variable (u : SourceUnit) (x : ExtractedUnit) (registry : Registry) (options : AnalysisOptions)

/-- The step that a pass takes at a moment leads from a flow to a flow. -/
inductive Takes : Moment → Flow → Flow → Prop where
  | params {done : Array Facts} {flow : Flow} {scope : Scope} :
    u.Reaches x registry options done .between flow → x.scopes[done.size]? = some scope →
    Takes (moment done .between) flow
      ((u.siteIn x registry options done scope).seedParams { flow with facts := {} }).2
  | statement {done : Array Facts} {flow flow' : Flow} {scope : Scope} {k : Nat} {st : Statement} :
    u.Reaches x registry options done (.within scope k) flow → scope.statements[k]? = some st →
    (u.siteIn x registry options done scope).statement st flow = .ok flow' →
    Takes (moment done (.within scope k)) flow flow'

def Makes (m : Moment) (id : NodeId) : Prop :=
  ∃ before after, u.Takes x registry options m before after ∧
    before.nodes.size ≤ id ∧ id < after.nodes.size

end

variable {m m' : Moment} {before after before' after' : Flow} {id p : NodeId}

section

variable (h : u.Takes x registry options m before after)
include h

theorem Takes.reaches :
    ∃ done stage, u.Reaches x registry options done stage before ∧ m = moment done stage := by
  cases h with
  | params hr _ => exact ⟨_, _, hr, rfl⟩
  | statement hr _ _ => exact ⟨_, _, hr, rfl⟩

theorem Takes.reaches_after :
    ∃ done stage, u.Reaches x registry options done stage after ∧
      ∀ {m' : Moment}, m < m' → moment done stage ≤ m' := by
  cases h with
  | @params done _ scope hr hscope =>
    refine ⟨_, _, hr.enter hscope, fun {m'} hlt => ?_⟩
    obtain ⟨i, k, rfl⟩ : ∃ i k, m' = toLex (i, k) := ⟨_, _, rfl⟩
    rw [moment, Prod.Lex.toLex_lt_toLex] at hlt
    rw [moment, Prod.Lex.toLex_le_toLex]
    simp only [Stage.step_between, Stage.step_within] at hlt ⊢
    omega
  | @statement done _ _ scope k _ hr hst hok =>
    refine ⟨_, _, hr.step hst hok, fun {m'} hlt => ?_⟩
    obtain ⟨i, j, rfl⟩ : ∃ i j, m' = toLex (i, j) := ⟨_, _, rfl⟩
    rw [moment, Prod.Lex.toLex_lt_toLex] at hlt
    rw [moment, Prod.Lex.toLex_le_toLex]
    simp only [Stage.step_within] at hlt ⊢
    omega

theorem Takes.ordered (hx : x.Recorded) : after.Ordered before.nodes.size := by
  cases h with
  | params hr _ => exact (Site.seedParams_ordered (hr.ordered hx).1.withoutFacts).1
  | statement hr hst hok =>
    obtain ⟨hflow, hdone⟩ := hr.ordered hx
    exact (statement_ordered hx (hr.operand_lt hx hst) hflow hdone hok).1

theorem Takes.size_le (h' : u.Takes x registry options m' before' after') (hx : x.Recorded) (hle : m ≤ m') :
    before.nodes.size ≤ before'.nodes.size := by
  obtain ⟨_, _, hr, rfl⟩ := h.reaches
  obtain ⟨_, _, hr', rfl⟩ := h'.reaches
  exact (hr.kept hr' hx hle).size_le

theorem Takes.size_le_of_lt
    (h' : u.Takes x registry options m' before' after') (hx : x.Recorded) (hlt : m < m') :
    after.nodes.size ≤ before'.nodes.size := by
  obtain ⟨_, _, hr, hnext⟩ := h.reaches_after
  obtain ⟨_, _, hr', rfl⟩ := h'.reaches
  exact (hr.kept hr' hx (hnext hlt)).size_le

end

theorem Makes.unique (h : u.Makes x registry options m id) (h' : u.Makes x registry options m' id)
    (hx : x.Recorded) : m = m' := by
  obtain ⟨before, after, htakes, hle, hlt⟩ := h
  obtain ⟨before', after', htakes', hle', hlt'⟩ := h'
  rcases lt_trichotomy m m' with hm | hm | hm
  · have hsize := htakes.size_le_of_lt htakes' hx hm
    exact absurd hle' (Nat.not_le.mpr (Nat.lt_of_lt_of_le hlt hsize))
  · exact hm
  · have hsize := htakes'.size_le_of_lt htakes hx hm
    exact absurd hle (Nat.not_le.mpr (Nat.lt_of_lt_of_le hlt' hsize))

theorem Reaches.exists_makes (h : u.Reaches x registry options done stage flow) (hid : id < flow.nodes.size) :
    ∃ m, u.Makes x registry options m id := by
  induction h with
  | start => exact absurd hid (Nat.not_lt_zero _)
  | @enter done flow scope hr hscope ih =>
    by_cases hold : id < flow.nodes.size
    · exact ih hold
    · exact ⟨_, _, _, .params hr hscope, Nat.le_of_not_lt hold, hid⟩
  | @step done flow flow' scope k st hr hst hok ih =>
    by_cases hold : id < flow.nodes.size
    · exact ih hold
    · exact ⟨_, _, _, .statement hr hst hok, Nat.le_of_not_lt hold, hid⟩
  | leave _ _ ih => exact ih hid

theorem Makes.lt_of_prev (h : u.Makes x registry options m id) (h' : u.Makes x registry options m' p)
    (hx : x.Recorded) (hr : u.Reaches x registry options done stage flow) {n : Node}
    (hn : flow.nodes[id]? = some n) (hprev : n.prev = some p) : m' < m := by
  obtain ⟨before, after, htakes, hle, hlt⟩ := h
  obtain ⟨before', after', htakes', hle', hlt'⟩ := h'
  -- The node is in the flow, so the flow comes behind the step that makes it.
  have hafter : m < moment done stage := by
    refine lt_of_not_ge fun hge => ?_
    obtain ⟨_, _, hbefore, rfl⟩ := htakes.reaches
    have hsize := (hr.kept hbefore hx hge).size_le
    have hid := (Array.getElem?_eq_some_iff.mp hn).1
    exact absurd hle (Nat.not_le.mpr (Nat.lt_of_lt_of_le hid hsize))
  obtain ⟨_, _, hrafter, hnext⟩ := htakes.reaches_after
  have hmade := Array.getElem?_eq_getElem hlt
  have hsame := hrafter.kept hr hx (hnext hafter) id _ hmade
  cases hn.symm.trans hsame
  have hbehind := ((htakes.ordered hx).behind id p _ hmade hprev).2 hle
  refine lt_of_not_ge fun hge => ?_
  have hsize := htakes.size_le htakes' hx hge
  exact absurd hle' (Nat.not_le.mpr (Nat.lt_of_lt_of_le hbehind hsize))

theorem Reaches.exists_moments (hr : u.Reaches x registry options done stage flow) (hx : x.Recorded)
    {ids : List NodeId} (hids : ∀ a ∈ ids, a < flow.nodes.size)
    (hlinks : ids.IsChain fun a b => flow.nodes[b]?.bind (·.prev) = some a) :
    ∃ moments : List Moment, List.Forall₂ (u.Makes x registry options) moments ids ∧
      moments.IsChain (· < ·) := by
  induction ids with
  | nil => exact ⟨[], .nil, .nil⟩
  | cons a rest ih =>
    obtain ⟨ha, hrest⟩ := List.forall_mem_cons.mp hids
    obtain ⟨moments, hmakes, hchain⟩ := ih hrest hlinks.tail
    obtain ⟨m, hm⟩ := hr.exists_makes ha
    refine ⟨m :: moments, .cons hm hmakes, ?_⟩
    cases hmakes with
    | nil => exact .singleton m
    | @cons m' b _ _ hm' _ =>
      refine .cons_cons ?_ hchain
      obtain ⟨n, hn, hprev⟩ := Option.bind_eq_some_iff.mp (List.isChain_cons_cons.mp hlinks).1
      exact hm'.lt_of_prev hm hx hr hn hprev

/-- In every state of a pass, and while a statement evaluates expressions, all that is known and all
values have a node just if they have a label. A node points back to one that was made before the
statement it was made by, and the path to it goes back to an origin through increasing moments. -/
theorem taint_graph_ordered {bound : Nat} {c c' : Countdown} (hx : u.extract bound c = (.ok x, c'))
    (hr : u.Reaches x registry options done stage flow) :
    (∀ (key : String) (t : Taint), flow.facts[key]? = some t → t.Anchored flow.nodes.size) ∧
    (∀ scope, ∀ facts ∈ (u.siteIn x registry options done scope).inherited,
      ∀ (key : String) (t : Taint), facts[key]? = some t → t.Anchored flow.nodes.size ∧
        ∀ t', t.exported? = some t' → t'.Anchored flow.nodes.size) ∧
    (∀ scope k st, stage = .within scope k → scope.statements[k]? = some st →
      ∀ f, ((u.siteIn x registry options done scope).atStatement st flow).Evaluating flow f →
        f.Ordered flow.nodes.size ∧ NodesKept flow.nodes f.nodes ∧
        (∀ fuel id, id < fuel →
          let value := ((u.siteIn x registry options done scope).atStatement st flow).evalTo fuel id f
          value.1.Anchored value.2.nodes.size) ∧
        ∀ id < f.nodes.size, ∃ ids, Route f.nodes id ids ∧ ∀ a ∈ ids.dropLast, a < flow.nodes.size) ∧
    ∀ id < flow.nodes.size, (∃! m, u.Makes x registry options m id) ∧
      (∀ n p m m', flow.nodes[id]? = some n → n.prev = some p → u.Makes x registry options m id →
        u.Makes x registry options m' p → m' < m) ∧
      ∃ ids moments, Route flow.nodes id ids ∧ List.Forall₂ (u.Makes x registry options) moments ids ∧
        moments.Pairwise (· < ·) := by
  have hrecorded := SourceUnit.extract_recorded hx
  obtain ⟨hflow, hdone⟩ := hr.ordered hrecorded
  refine ⟨hflow.facts, fun scope facts hfacts key t ht => ?_, fun scope k st _ _ f hf => ?_, fun id hid => ?_⟩
  · have hanchored := siteIn_inherits hdone scope facts hfacts key t ht
    exact ⟨hanchored, fun t' ht' => hanchored.exported ht'⟩
  · have hs : ((u.siteIn x registry options done scope).atStatement st flow).Inherits :=
      atStatement_inherits hdone scope st
    obtain ⟨hordered, hkept⟩ := hf.ordered hs hrecorded.sound hflow
    refine ⟨hordered, hkept, fun fuel id hid => ?_, fun id hid => ?_⟩
    · exact ((Site.orderedEvaluation hs).evalTo hrecorded.sound fuel hid trivial hordered).2.2
    · obtain ⟨ids, hroute, hbefore⟩ := hordered.exists_route hid
      exact ⟨ids, hroute, fun a ha => (hbefore a ha).2⟩
  · obtain ⟨m, hm⟩ := hr.exists_makes hid
    obtain ⟨ids, hroute, _⟩ := hflow.exists_route hid
    obtain ⟨moments, hmakes, hchain⟩ := hr.exists_moments hrecorded hroute.lt_size hroute.links
    refine ⟨⟨m, hm, fun m' hm' => hm'.unique hm hrecorded⟩, ?_, ids, moments, hroute, hmakes, hchain.pairwise⟩
    exact fun n p m m' hn hprev hm hm' => hm.lt_of_prev hm' hrecorded hr hn hprev

end SourceUnit

/-! ## A parameter that is copied -/

namespace CopiedParam

/-- A function that copies its parameter. -/
def unit : SourceUnit :=
  { id := "a.py", content := (Text.Utf8.encode "def h(v):\n a=v").toArray, language := .python }

def statement : Statement :=
  { kind := .assignment, targets := ["a"], operands := [1], span := ⟨11, 14⟩, controlTag := 0 }

def outermost : Scope := { kind := .module, name := "", headerSpan := ⟨0, 0⟩ }

def scope : Scope :=
  { kind := .function, name := "h", parent := some 0, parentKind := some .module, params := [⟨"v", ⟨6, 7⟩⟩]
    headerSpan := ⟨0, 9⟩, statements := #[statement] }

def extracted : ExtractedUnit :=
  { arena := ⟨#[⟨.variable "a", ⟨11, 12⟩⟩, ⟨.variable "v", ⟨13, 14⟩⟩], #[1, 1]⟩
    scopes := #[outermost, scope], stats := { statements := 1, scopes := 2 } }

def seeded : Flow :=
  { facts := ({} : Facts).insert "v" (.labelled (.of .untrusted) 0), nodes := #[⟨⟨6, 7⟩, 0, none⟩] }

theorem seedParams_eq (done : Array Facts) :
    ((unit.siteIn extracted (.ofOrdered []) {} done scope).seedParams {}).2 = seeded := by
  have hentry : scope.isEntryPoint unit.language = true := by decide +kernel
  unfold Site.seedParams
  rw [if_pos]
  · rfl
  · exact Bool.and_eq_true_iff.mpr ⟨rfl, hentry⟩

theorem effect_nodes (done : Array Facts) :
    let s := (unit.siteIn extracted (.ofOrdered []) {} done scope).atStatement statement seeded
    (s.effect statement [] seeded).2.nodes = #[⟨⟨6, 7⟩, 0, none⟩, ⟨⟨11, 14⟩, 0, some 0⟩] := by
  intro s
  have hheads : pathHeads (factKey "v") = ["v"] := by decide +kernel
  have hlookup : s.lookup? seeded.facts "v" = some (.labelled (.of .untrusted) 0) := by
    simp [Site.lookup?, hheads, seeded]
  have heval : s.eval 1 seeded = (.labelled (.of .untrusted) 0, seeded) := by
    change s.read "v" ⟨13, 14⟩ seeded = _
    have hsource : s.registry.sourceOfPath? "v" s.language = none := rfl
    rw [Site.read_apply, hsource, hlookup]
    rfl
  have hassign : (s.effect statement [] seeded).2 =
      (s.assign statement [] (s.eval 1 seeded).1 "a" (s.eval 1 seeded).2).2 := rfl
  rw [hassign, heval, Site.assign_apply]
  rfl

/-- The copy has a path through the parameter and the assignment, made one after the other. -/
theorem taint_graph_ordered_copied :
    unit.extract 1 .never = (.ok extracted, .never) ∧
      ∃ done flow, unit.Reaches extracted (.ofOrdered []) {} done (.within scope 1) flow ∧
        flow.nodes = #[⟨⟨6, 7⟩, 0, none⟩, ⟨⟨11, 14⟩, 0, some 0⟩] ∧
        ∃ ids moments, Route flow.nodes 1 ids ∧
          List.Forall₂ (unit.Makes extracted (.ofOrdered []) {}) moments ids ∧
          moments.Pairwise (· < ·) := by
  have hextract : unit.extract 1 .never = (.ok extracted, .never) := by decide +kernel
  have hmodule : unit.Reaches extracted (.ofOrdered []) {} #[] (.within outermost 0) {} := .enter .start rfl
  let done : Array Facts := #[{}]
  have hleft : unit.Reaches extracted (.ofOrdered []) {} done .between {} := hmodule.leave rfl
  have hscope : extracted.scopes[done.size]? = some scope := rfl
  have henter : unit.Reaches extracted (.ofOrdered []) {} done (.within scope 0) seeded :=
    seedParams_eq done ▸ hleft.enter hscope
  let s := unit.siteIn extracted (.ofOrdered []) {} done scope
  have hok : s.statement statement seeded =
      .ok ((s.atStatement statement seeded).effect statement [] seeded).2 := by
    refine Site.statement_eq_ok_iff.mpr ⟨[], ?_, rfl⟩
    cbv
  have hr := henter.step rfl hok
  have hnodes := effect_nodes done
  obtain ⟨_, _, _, hgraph⟩ := SourceUnit.taint_graph_ordered hextract hr
  refine ⟨hextract, done, _, hr, hnodes, (hgraph 1 ?_).2.2⟩
  exact hnodes ▸ (by decide : 1 < (#[⟨⟨6, 7⟩, 0, none⟩, ⟨⟨11, 14⟩, 0, some 0⟩] : Array Node).size)

end CopiedParam
end TaintScan
