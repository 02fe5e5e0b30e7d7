import Mathlib.Data.Prod.Lex
import TaintScan.Proofs.Flow.Report

/-! # The order of definitions

A definition points back behind the statement that makes it: what the statement itself has made by then
is folded into it. So the graph of definitions has no cycle, the path to a node loses no link, and it
holds at most one node of each statement, in the order of the statements.
-/
namespace TaintScan

/-! ## Anchored taints -/

/-- A taint has a node just if it has a label, and that node is recorded. -/
structure Taint.Anchored (size : Nat) (t : Taint) : Prop where
  isSome_node : t.node.isSome = t.isTainted
  lt_size : ∀ id, t.node = some id → id < size

namespace Taint.Anchored

variable {size size' : Nat} {t a b : Taint}

theorem mono (h : t.Anchored size) (hsize : size ≤ size') : t.Anchored size' :=
  { h with lt_size id hid := Nat.lt_of_lt_of_le (h.lt_size id hid) hsize }

theorem of_clean (size : Nat) : Taint.clean.Anchored size where
  isSome_node := rfl
  lt_size id hid := by cases hid

theorem defined (ht : t.isTainted = true) : { t with node := some size }.Anchored (size + 1) where
  isSome_node := ht.symm
  lt_size id hid := by
    cases hid
    exact Nat.lt_succ_self size

theorem labelled (l : Label) (size : Nat) : (Taint.labelled (.of l) size).Anchored (size + 1) :=
  defined (t := { labels := .of l }) (by cases l <;> rfl)

theorem join (ha : a.Anchored size) (hb : b.Anchored size) : (a.join b).Anchored size where
  isSome_node := by
    rw [isTainted_join, Taint.join]
    cases hta : a.isTainted with
    | true => exact ha.isSome_node.trans hta
    | false => exact hb.isSome_node
  lt_size id hid := by
    rw [Taint.join] at hid
    dsimp only at hid
    split at hid
    · exact ha.lt_size id hid
    · exact hb.lt_size id hid

theorem joinAll {ids : List ExprId} {taints : List Taint}
    (h : List.Forall₂ (fun _ t => t.Anchored size) ids taints) : (Taint.joinAll taints).Anchored size := by
  have hfold : ∀ start : Taint, start.Anchored size → (taints.foldl Taint.join start).Anchored size := by
    induction h with
    | nil => exact fun _ hstart => hstart
    | cons ht _ ih => exact fun start hstart => ih _ (hstart.join ht)
  exact hfold _ (of_clean size)

theorem remove (h : t.Anchored size) (removes : LabelSet) : (t.remove removes).Anchored size := by
  rw [Taint.remove]
  cases hleft : (t.labels.without removes).isEmpty with
  | true => exact ⟨by simp [isTainted, hleft], fun id hid => by cases hid⟩
  | false =>
    obtain ⟨l, hl⟩ := LabelSet.exists_contains hleft
    rw [LabelSet.contains_without, Bool.and_eq_true] at hl
    refine ⟨?_, h.lt_size⟩
    have htainted : t.node.isSome = true := h.isSome_node.trans (isTainted_of_contains hl.1)
    simpa [isTainted, hleft] using htainted

theorem withAdjacent (h : t.Anchored size) (adjacent : Bool) : { t with adjacent }.Anchored size :=
  ⟨h.isSome_node, h.lt_size⟩

theorem exported (h : t.Anchored size) {t' : Taint} (ht : t.exported? = some t') : t'.Anchored size := by
  unfold Taint.exported? at ht
  split at ht
  · next hsecret =>
    cases ht
    have htainted : t.isTainted = true := isTainted_of_contains (l := .secret) hsecret
    exact ⟨h.isSome_node.trans htainted, h.lt_size⟩
  · cases ht

end Taint.Anchored

/-! ## Ordered flows -/

/-- All that is known is anchored, no node points forward, and the nodes from `first` on point back
behind all of these. -/
structure Flow.Ordered (first : NodeId) (f : Flow) : Prop where
  first_le : first ≤ f.nodes.size
  facts : ∀ (key : String) (t : Taint), f.facts[key]? = some t → t.Anchored f.nodes.size
  behind : ∀ (id p : NodeId) (n : Node), f.nodes[id]? = some n → n.prev = some p →
    p < id ∧ (first ≤ id → p < first)

namespace Flow.Ordered

variable {first : NodeId} {f : Flow}

variable (h : f.Ordered first)
include h

theorem next : f.Ordered f.nodes.size where
  first_le := Nat.le_refl _
  facts := h.facts
  behind id p n hn hp := by
    have hlt : id < f.nodes.size := (Array.getElem?_eq_some_iff.mp hn).1
    exact ⟨(h.behind id p n hn hp).1, fun hle => absurd hlt (Nat.not_lt.mpr hle)⟩

theorem withCandidates (candidates : Array Candidate) : { f with candidates }.Ordered first :=
  ⟨h.first_le, h.facts, h.behind⟩

theorem withoutFacts : { f with facts := {} }.Ordered first :=
  { h with
    facts key t ht := by
      rw [Std.HashMap.getElem?_empty] at ht
      cases ht }

theorem pushNode {n : Node} (hprev : ∀ p, n.prev = some p → p < first) :
    { f with nodes := f.nodes.push n }.Ordered first where
  first_le := by
    rw [Array.size_push]
    exact Nat.le_succ_of_le h.first_le
  facts key t ht := by
    rw [Array.size_push]
    exact (h.facts key t ht).mono (Nat.le_succ _)
  behind id p m hm hp := by
    rw [Array.getElem?_push] at hm
    split at hm
    · next hid =>
      cases hm
      have hlt := hprev p hp
      rw [hid]
      exact ⟨Nat.lt_of_lt_of_le hlt h.first_le, fun _ => hlt⟩
    · exact h.behind id p m hm hp

theorem insertFact (key : String) {t : Taint} (ht : t.Anchored f.nodes.size) :
    { f with facts := f.facts.insert key t }.Ordered first :=
  { h with
    facts key' t' ht' := by
      dsimp only at ht'
      rw [Std.HashMap.getElem?_insert] at ht'
      split at ht'
      · cases ht'
        exact ht
      · exact h.facts key' t' ht' }

end Flow.Ordered

/-! ## At a statement -/

namespace Site

/-- The facts around a scope are anchored in the nodes that stand before a statement of it. -/
def Inherits (s : Site) : Prop :=
  ∀ facts ∈ s.inherited, ∀ (key : String) (t : Taint), facts[key]? = some t → t.Anchored s.firstNode

variable {s : Site} {f : Flow}

/-- A new definition points back behind the statement, whatever it is made from. -/
theorem lt_firstNode_of_folded (hf : f.Ordered s.firstNode) {prev : Option NodeId} {p : NodeId}
    (h : s.folded f.nodes prev = some p) : p < s.firstNode := by
  cases prev with
  | none => cases h
  | some id =>
    rw [folded] at h
    split at h
    · next hfirst =>
      obtain ⟨n, hn, hprev⟩ := Option.bind_eq_some_iff.mp h
      exact (hf.behind id p n hn hprev).2 hfirst
    · next hfirst =>
      cases h
      exact Nat.lt_of_not_le hfirst

theorem define_ordered (hf : f.Ordered s.firstNode) (prev : Option NodeId) :
    (s.define prev f).2.Ordered s.firstNode := by
  rw [define_apply]
  exact hf.pushNode fun p hp => lt_firstNode_of_folded hf hp

theorem defineFact_ordered (hf : f.Ordered s.firstNode) {t : Taint} (ht : t.isTainted = true)
    (path : String) :
    (Track.setFact path { t with node := some f.nodes.size } (s.define t.node f).2).2.Ordered s.firstNode := by
  refine (define_ordered hf t.node).insertFact (factKey path) ?_
  rw [define_apply, Array.size_push]
  exact .defined ht

theorem lookup_anchored (hs : s.Inherits) (hf : f.Ordered s.firstNode) (path : String) :
    ((s.lookup? f.facts path).getD .clean).Anchored f.nodes.size := by
  cases hlookup : s.lookup? f.facts path with
  | none => exact .of_clean _
  | some t =>
    obtain ⟨key, _, hfact | ⟨outer, houter, t', ht', hexported⟩⟩ := lookup?_eq_some hlookup
    · exact hf.facts key t hfact
    · exact ((hs outer houter key t' ht').exported hexported).mono hf.first_le

theorem source_ordered (hf : f.Ordered s.firstNode) (l : Label) (span : Span) {t : Taint}
    (ht : t.Anchored f.nodes.size) :
    { f with nodes := f.nodes.push ⟨span, s.tag, none⟩ }.Ordered s.firstNode ∧
      ((Taint.labelled (.of l) f.nodes.size).join t).Anchored (f.nodes.push ⟨span, s.tag, none⟩).size := by
  refine ⟨hf.pushNode (fun p hp => nomatch hp), ?_⟩
  rw [Array.size_push]
  exact (Taint.Anchored.labelled l f.nodes.size).join (ht.mono (Nat.le_succ _))

theorem read_ordered (hs : s.Inherits) (hf : f.Ordered s.firstNode) (path : String) (span : Span) :
    (s.read path span f).2.Ordered s.firstNode ∧ f.nodes.size ≤ (s.read path span f).2.nodes.size ∧
      (s.read path span f).1.Anchored (s.read path span f).2.nodes.size := by
  have hknown := lookup_anchored hs hf path
  rw [read_apply]
  split
  · next r l _ =>
    obtain ⟨hordered, hanchored⟩ := source_ordered hf l span hknown
    refine ⟨hordered, ?_, hanchored⟩
    rw [Array.size_push]
    exact Nat.le_succ _
  · exact ⟨hf, Nat.le_refl _, hknown⟩

theorem callResult_ordered (hf : f.Ordered s.firstNode) (span : Span) (callee : String) (constructs : Bool)
    {input : Taint} (hinput : input.Anchored f.nodes.size) :
    (s.callResult span callee constructs input f).2.Ordered s.firstNode ∧
      f.nodes.size ≤ (s.callResult span callee constructs input f).2.nodes.size ∧
      (s.callResult span callee constructs input f).1.Anchored
        (s.callResult span callee constructs input f).2.nodes.size := by
  rw [callResult_apply]
  split
  · next r l _ =>
    obtain ⟨hordered, hanchored⟩ := source_ordered hf l span hinput
    refine ⟨hordered, ?_, hanchored⟩
    rw [Array.size_push]
    exact Nat.le_succ _
  · split
    · next hit _ =>
      refine ⟨hf, Nat.le_refl _, ?_⟩
      dsimp only
      split
      · exact hinput.withAdjacent _
      · exact hinput.remove hit.removes
    · exact ⟨hf, Nat.le_refl _, hinput⟩

theorem storeInto_ordered (hf : f.Ordered s.firstNode) (receiver : ExprId) {value : Taint}
    (ht : value.isTainted = true) :
    (s.storeInto receiver value f).2.Ordered s.firstNode ∧
      f.nodes.size ≤ (s.storeInto receiver value f).2.nodes.size := by
  rw [storeInto_apply]
  split
  · next path _ =>
    have htainted : (((s.lookup? f.facts path).getD .clean).join value).isTainted = true := by
      rw [Taint.isTainted_join, ht, Bool.or_true]
    refine ⟨defineFact_ordered hf htainted path, ?_⟩
    change f.nodes.size ≤ (f.nodes.push _).size
    rw [Array.size_push]
    exact Nat.le_succ _
  · exact ⟨hf, Nat.le_refl _⟩

/-- The values that a statement evaluates are anchored. -/
def orderedEvaluation (hs : s.Inherits) : s.Evaluation where
  visits _ := True
  child _ _ _ := trivial
  inv := Flow.Ordered s.firstNode
  le f g := f.nodes.size ≤ g.nodes.size
  good f _ t := t.Anchored f.nodes.size
  refl _ := Nat.le_refl _
  trans hfg hgh := Nat.le_trans hfg hgh
  good_le hle h := h.mono hle
  absent _ _ := .of_clean _
  literal _ _ := .of_clean _
  read hf _ := read_ordered hs hf _ _
  parts _ _ _ hall := .joinAll hall
  sink _ hf _ _ _ _ := ⟨hf.withCandidates _, Nat.le_refl _⟩
  store _ hf _ _ htaint _ := storeInto_ordered hf _ htaint
  result hf _ hr ha := callResult_ordered hf _ _ _ ((Taint.Anchored.joinAll hr).join (.joinAll ha))

theorem reportTargetSinks_ordered {first : NodeId} (hf : f.Ordered first) (target : String)
    (value : Option ExprId) (t : Taint) : (s.reportTargetSinks target value t f).2.Ordered first := by
  unfold reportTargetSinks
  split
  · refine Track.each_inv (Flow.Ordered first) (fun p _ g hg => ?_) hf
    split
    · exact hg.withCandidates _
    · exact hg
  · exact hf

theorem assign_ordered (hf : f.Ordered s.firstNode) (st : Statement) (secretTargets : List String)
    (t : Taint) (target : String) : (s.assign st secretTargets t target f).2.Ordered s.firstNode := by
  have hg := reportTargetSinks_ordered (s := s) hf target st.operands.head? t
  rw [assign_apply]
  dsimp only
  generalize (s.reportTargetSinks target st.operands.head? t f).2 = g at hg
  generalize s.written st secretTargets t target g.facts = w
  split
  · next htainted => exact defineFact_ordered hg htainted target
  · next hclean =>
    have hclean : w.isTainted = false := by simpa using hclean
    exact hg.insertFact (factKey target) ⟨hclean.symm, fun id hid => nomatch hid⟩

theorem bound_ordered (hf : f.Ordered s.firstNode) (st : Statement) (kind : ControlKind) (operands : Taint) :
    (s.bound st kind operands f).2.Ordered s.firstNode ∧
      (s.bound st kind operands f).1.Anchored (s.bound st kind operands f).2.nodes.size := by
  have horigin (l : Label) : (s.define none f).2.Ordered s.firstNode ∧
      (Taint.labelled (.of l) f.nodes.size).Anchored (s.define none f).2.nodes.size := by
    refine ⟨define_ordered hf none, ?_⟩
    rw [define_apply, Array.size_push]
    exact .labelled l _
  unfold bound
  split
  · exact horigin .secret
  · split
    · exact horigin .untrusted
    · split
      · next htainted =>
        refine ⟨define_ordered hf operands.node, ?_⟩
        rw [define_apply, Array.size_push]
        exact .defined htainted
      · exact ⟨hf, .of_clean _⟩

theorem cleanArgument_ordered {first : NodeId} (hf : f.Ordered first) (removes : LabelSet) (arg : ExprId) :
    (s.cleanArgument removes arg f).2.Ordered first := by
  unfold cleanArgument
  split
  · split
    · next t ht => exact hf.insertFact _ ((hf.facts _ t ht).remove removes)
    · exact hf
  · exact hf

theorem sanitizeInPlace_ordered {first : NodeId} (hf : f.Ordered first) (call : ExprId) :
    (s.sanitizeInPlace call f).2.Ordered first :=
  s.sanitizeInPlace_cases call hf fun _ _ =>
    Track.each_inv (Flow.Ordered first) (fun _ _ _ hf => cleanArgument_ordered hf _ _) hf

theorem effect_ordered (hs : s.Inherits) (ha : s.arena.Sound) {st : Statement}
    (hst : ∀ id ∈ st.operands, id < s.arena.size) (secretTargets : List String)
    (hf : f.Ordered s.firstNode) : (s.effect st secretTargets f).2.Ordered s.firstNode := by
  have heval := ((orderedEvaluation hs).evalAll ha hst (fun _ _ => trivial) hf).1
  have hassign : (s.assignment st secretTargets f).2.Ordered s.firstNode :=
    Track.each_inv (Flow.Ordered s.firstNode) (fun _ _ _ hg => assign_ordered hg st secretTargets _ _) heval
  have hexpression : (s.expression st f).2.Ordered s.firstNode := by
    unfold expression
    simp only [Track.bind_apply]
    split
    · exact Track.each_inv (Flow.Ordered s.firstNode) (fun _ _ _ hg => sanitizeInPlace_ordered hg _) heval
    · exact heval
  unfold effect
  cases hkind : st.kind with
  | unparsed => exact hf
  | controlClose => exact hf
  | controlOpen kind =>
    dsimp only
    rw [openBlock_apply]
    dsimp only
    split
    · exact heval
    · obtain ⟨hbound, hanchored⟩ := bound_ordered heval st kind _
      exact (Track.each_inv (fun g => g.Ordered s.firstNode ∧ Taint.Anchored g.nodes.size _)
        (fun _ _ _ hg => ⟨hg.1.insertFact _ hg.2, hg.2⟩) ⟨hbound, hanchored⟩).1
  | assignment => exact hassign
  | declaration => exact hassign
  | call => exact hexpression
  | expression => exact hexpression

/-- The states in which expressions are evaluated from a state on. -/
inductive Evaluating (s : Site) (start : Flow) : Flow → Prop where
  | start (candidates : Array Candidate) : Evaluating s start { start with candidates }
  | eval {f : Flow} {fuel : Nat} {id : ExprId} : Evaluating s start f → id < fuel →
    Evaluating s start (s.evalTo fuel id f).2

theorem nodesKept_keeps (s : Site) (nodes : Array Node) : s.Keeps fun f => NodesKept nodes f.nodes where
  pushNode n hf id m hm := nodesKept_push _ n id m (hf id m hm)
  withFacts _ hf := hf
  report _ _ _ _ _ hf := hf

theorem Evaluating.ordered {start : Flow} (h : s.Evaluating start f) (hs : s.Inherits)
    (ha : s.arena.Sound) (hstart : start.Ordered s.firstNode) :
    f.Ordered s.firstNode ∧ NodesKept start.nodes f.nodes := by
  induction h with
  | start candidates => exact ⟨hstart.withCandidates candidates, fun _ _ h => h⟩
  | eval _ hid ih =>
    exact ⟨((orderedEvaluation hs).evalTo ha _ hid trivial ih.1).1,
      ((nodesKept_keeps s start.nodes).evaluation.evalTo ha _ hid trivial ih.2).1⟩

theorem seedParams_ordered {first : NodeId} (hf : f.Ordered first) :
    (s.seedParams f).2.Ordered first ∧ NodesKept f.nodes (s.seedParams f).2.nodes := by
  unfold seedParams
  split
  · refine Track.each_inv (fun g => g.Ordered first ∧ NodesKept f.nodes g.nodes) (fun p _ g hg => ?_)
      ⟨hf, fun _ _ h => h⟩
    have hpush : { g with nodes := g.nodes.push ⟨p.span, 0, none⟩ }.Ordered first :=
      hg.1.pushNode fun p hp => by cases hp
    refine ⟨hpush.insertFact p.name ?_, fun id m hm => nodesKept_push _ _ id m (hg.2 id m hm)⟩
    rw [Array.size_push]
    exact .labelled .untrusted _
  · exact ⟨hf, fun _ _ h => h⟩

end Site
end TaintScan
