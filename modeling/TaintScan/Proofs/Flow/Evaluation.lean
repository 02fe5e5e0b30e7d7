import Mathlib.Data.List.Forall2
import TaintScan.Flow.Eval
import TaintScan.Proofs.Arena

/-! # What an evaluation keeps

Evaluating an expression reads paths, joins taints, reports sinks, stores into receivers and gives
the results of calls. What each of these keeps, and what it says of a taint from those of the
children, holds of the evaluation of every expression.
-/
namespace TaintScan

namespace Track

variable {α β : Type}

theorem bind_apply (p : Track α) (f : α → Track β) (flow : Flow) :
    (p >>= f) flow = f (p flow).1 (p flow).2 := rfl

theorem each_spec (inv : Flow → Prop) (le : Flow → Flow → Prop) (Q : Flow → α → β → Prop)
    (hrefl : ∀ f, le f f) (htrans : ∀ {f g h}, le f g → le g h → le f h)
    (hQ : ∀ {f g a b}, le f g → Q f a b → Q g a b) {p : α → Track β} {l : List α}
    (hp : ∀ a ∈ l, ∀ f, inv f → inv (p a f).2 ∧ le f (p a f).2 ∧ Q (p a f).2 a (p a f).1)
    {f : Flow} (hf : inv f) :
    inv (each p l f).2 ∧ le f (each p l f).2 ∧ List.Forall₂ (Q (each p l f).2) l (each p l f).1 := by
  induction l generalizing f with
  | nil => exact ⟨hf, hrefl f, .nil⟩
  | cons a rest ih =>
    obtain ⟨ha, hrest⟩ := List.forall_mem_cons.mp hp
    obtain ⟨hinv, hle, hq⟩ := ha f hf
    obtain ⟨hinv', hle', hqs⟩ := ih hrest hinv
    exact ⟨hinv', htrans hle hle', .cons (hQ hle' hq) hqs⟩

theorem each_inv (inv : Flow → Prop) {p : α → Track β} {l : List α}
    (hp : ∀ a ∈ l, ∀ f, inv f → inv (p a f).2) {f : Flow} (hf : inv f) : inv (each p l f).2 :=
  (each_spec inv (fun _ _ => True) (fun _ _ _ => True) (fun _ => trivial) (fun _ _ => trivial)
    (fun _ _ => trivial) (fun a ha f hf => ⟨hp a ha f hf, trivial, trivial⟩) hf).1

end Track

namespace Site

/-- The definition that a new one points back to: nodes of the same statement are left out. -/
def folded (s : Site) (nodes : Array Node) : Option NodeId → Option NodeId
  | some id => if s.firstNode ≤ id then nodes[id]?.bind (·.prev) else some id
  | none => none

theorem define_apply (s : Site) (prev : Option NodeId) (f : Flow) :
    s.define prev f =
      (f.nodes.size, { f with nodes := f.nodes.push ⟨s.span, s.tag, s.folded f.nodes prev⟩ }) := by
  cases prev <;> rfl

theorem emit_apply (s : Site) (r : Rule) (span : Span) (t : Taint) (callee name : String) (f : Flow) :
    s.emit r span t callee name f =
      ((), { f with candidates := f.candidates.push (s.sinkCandidate f.nodes r span t callee name) }) := rfl

theorem read_apply (s : Site) (path : String) (span : Span) (f : Flow) :
    s.read path span f =
      match s.registry.sourceOfPath? path s.language with
      | some (_, label) =>
        ((Taint.labelled (.of label) f.nodes.size).join ((s.lookup? f.facts path).getD .clean),
          { f with nodes := f.nodes.push ⟨span, s.tag, none⟩ })
      | none => ((s.lookup? f.facts path).getD .clean, f) := by
  unfold read
  cases s.registry.sourceOfPath? path s.language <;> rfl

theorem storeInto_apply (s : Site) (receiver : ExprId) (value : Taint) (f : Flow) :
    s.storeInto receiver value f =
      match s.arena.kind? receiver with
      | some (.variable path) =>
        let stored := ((s.lookup? f.facts path).getD .clean).join value
        Track.setFact path { stored with node := some f.nodes.size } (s.define stored.node f).2
      | _ => ((), f) := by
  unfold storeInto
  cases s.arena.kind? receiver with
  | none => rfl
  | some kind => cases kind <;> rfl

theorem callResult_apply (s : Site) (span : Span) (callee : String) (constructs : Bool) (input : Taint)
    (f : Flow) :
    s.callResult span callee constructs input f =
      match s.registry.sourceOfCall? callee constructs s.language with
      | some (_, label) =>
        ((Taint.labelled (.of label) f.nodes.size).join input,
          { f with nodes := f.nodes.push ⟨span, s.tag, none⟩ })
      | none =>
        match s.registry.sanitizerOfCall? callee constructs s.language with
        | some hit =>
          (if hit.isPartial then { input with adjacent := input.adjacent || input.isTainted }
            else input.remove hit.removes, f)
        | none => (input, f) := by
  unfold callResult
  cases s.registry.sourceOfCall? callee constructs s.language with
  | some hit => rfl
  | none =>
    cases s.registry.sanitizerOfCall? callee constructs s.language with
    | none => rfl
    | some hit =>
      obtain ⟨rule, removes, isPartial⟩ := hit
      cases isPartial <;> rfl

/-- What the parts of an evaluation keep: a property of the flow, an order in which the flow grows, and
a property of the taints of expressions that growing keeps. Only some expressions are visited, and with
them all that they are built from. -/
structure Evaluation (s : Site) where
  visits : ExprId → Prop
  child : ∀ {id child : ExprId} {e : Expr}, visits id → s.arena.exprs[id]? = some e →
    child ∈ e.children → visits child
  inv : Flow → Prop
  le : Flow → Flow → Prop
  good : Flow → ExprId → Taint → Prop
  refl : ∀ f, le f f
  trans : ∀ {f g h : Flow}, le f g → le g h → le f h
  good_le : ∀ {f g : Flow} {id : ExprId} {t : Taint}, le f g → good f id t → good g id t
  absent : ∀ {f : Flow} {id : ExprId}, inv f → s.arena.exprs[id]? = none → good f id .clean
  literal : ∀ {f : Flow} {id : ExprId} {kind : LiteralKind} {value : String} {span : Span}, inv f →
    s.arena.exprs[id]? = some ⟨.literal kind value, span⟩ → good f id .clean
  read : ∀ {f : Flow} {id : ExprId} {path : String} {span : Span}, inv f →
    s.arena.exprs[id]? = some ⟨.variable path, span⟩ →
    inv (s.read path span f).2 ∧ le f (s.read path span f).2 ∧
      good (s.read path span f).2 id (s.read path span f).1
  parts : ∀ {f : Flow} {id : ExprId} {e : Expr} {parts : List ExprId} {taints : List Taint}, inv f →
    s.arena.exprs[id]? = some e → e.kind = .concat parts ∨ e.kind = .compound parts →
    List.Forall₂ (good f) parts taints → good f id (.joinAll taints)
  /-- A sink that an argument of a call reaches is reported. -/
  sink : ∀ {f : Flow} {id : ExprId} {callee : String} {receiver : Option ExprId} {args : List ExprId}
    {constructs : Bool} {span : Span} {taints : List Taint} {r : Rule} {spec : SinkSpec} {arg : ExprId}
    {t : Taint}, visits id → inv f →
    s.arena.exprs[id]? = some ⟨.call callee receiver args constructs, span⟩ →
    List.Forall₂ (good f) args taints → (r, spec) ∈ s.registry.sinksOfCall callee constructs s.language →
    sinkHit? spec (args.zip taints) = some (arg, t) →
    inv (s.emit r span t callee (s.describe arg) f).2 ∧
      le f (s.emit r span t callee (s.describe arg) f).2
  /-- A method stores its arguments into its receiver. -/
  store : ∀ {f : Flow} {id : ExprId} {callee : String} {receiver : ExprId} {args : List ExprId}
    {constructs : Bool} {span : Span} {taints : List Taint}, visits id → inv f →
    s.arena.exprs[id]? = some ⟨.call callee (some receiver) args constructs, span⟩ →
    List.Forall₂ (good f) args taints → (Taint.joinAll taints).isTainted = true →
    mutators.contains (Text.afterLast '.' callee) = true →
    inv (s.storeInto receiver (.joinAll taints) f).2 ∧ le f (s.storeInto receiver (.joinAll taints) f).2
  result : ∀ {f : Flow} {id : ExprId} {callee : String} {receiver : Option ExprId} {args : List ExprId}
    {constructs : Bool} {span : Span} {receivers taints : List Taint}, inv f →
    s.arena.exprs[id]? = some ⟨.call callee receiver args constructs, span⟩ →
    List.Forall₂ (good f) receiver.toList receivers → List.Forall₂ (good f) args taints →
    inv (s.callResult span callee constructs ((Taint.joinAll receivers).join (.joinAll taints)) f).2 ∧
      le f (s.callResult span callee constructs ((Taint.joinAll receivers).join (.joinAll taints)) f).2 ∧
      good (s.callResult span callee constructs ((Taint.joinAll receivers).join (.joinAll taints)) f).2 id
        (s.callResult span callee constructs ((Taint.joinAll receivers).join (.joinAll taints)) f).1

namespace Evaluation

variable {s : Site} (E : Evaluation s) {f : Flow} {ids : List ExprId} {taints : List Taint} {id : ExprId}

theorem good_all_le {g : Flow} (hle : E.le f g) (h : List.Forall₂ (E.good f) ids taints) :
    List.Forall₂ (E.good g) ids taints :=
  h.imp fun _ _ => E.good_le hle

theorem reportSinks {callee : String} {receiver : Option ExprId} {args : List ExprId} {constructs : Bool}
    {span : Span} (hv : E.visits id) (hf : E.inv f)
    (he : s.arena.exprs[id]? = some ⟨.call callee receiver args constructs, span⟩)
    (ht : List.Forall₂ (E.good f) args taints) :
    E.inv (s.reportSinks span callee constructs (args.zip taints) f).2 ∧
      E.le f (s.reportSinks span callee constructs (args.zip taints) f).2 := by
  -- The taints of the arguments stay good while the sinks are reported.
  have h : (E.inv (s.reportSinks span callee constructs (args.zip taints) f).2 ∧
      List.Forall₂ (E.good (s.reportSinks span callee constructs (args.zip taints) f).2) args taints) ∧
      E.le f (s.reportSinks span callee constructs (args.zip taints) f).2 := by
    refine Track.each_inv (fun g => (E.inv g ∧ List.Forall₂ (E.good g) args taints) ∧ E.le f g)
      (fun p hp g hg => ?_) ⟨⟨hf, ht⟩, E.refl f⟩
    cases hhit : sinkHit? p.2 (args.zip taints) with
    | none => exact hg
    | some hit =>
      obtain ⟨hinv, hle⟩ := E.sink hv hg.1.1 he hg.1.2 hp hhit
      exact ⟨⟨hinv, E.good_all_le hle hg.1.2⟩, E.trans hg.2 hle⟩
  exact ⟨h.1.1, h.2⟩

theorem storeAll {callee : String} {receiver : Option ExprId} {args : List ExprId} {constructs : Bool} {span : Span}
    (hv : E.visits id) (hf : E.inv f) (he : s.arena.exprs[id]? = some ⟨.call callee receiver args constructs, span⟩)
    (ht : List.Forall₂ (E.good f) args taints) (htaint : (Taint.joinAll taints).isTainted = true)
    (hname : mutators.contains (Text.afterLast '.' callee) = true) :
    E.inv (Track.each (s.storeInto · (.joinAll taints)) receiver.toList f).2 ∧
      E.le f (Track.each (s.storeInto · (.joinAll taints)) receiver.toList f).2 := by
  cases receiver with
  | none => exact ⟨hf, E.refl f⟩
  | some r => exact E.store hv hf he ht htaint hname

theorem evalTo (harena : s.arena.Sound) (fuel : Nat) (hid : id < fuel) (hv : E.visits id) (hf : E.inv f) :
    E.inv (s.evalTo fuel id f).2 ∧ E.le f (s.evalTo fuel id f).2 ∧
      E.good (s.evalTo fuel id f).2 id (s.evalTo fuel id f).1 := by
  induction fuel generalizing id f with
  | zero => exact absurd hid (Nat.not_lt_zero _)
  | succ n ih =>
    -- The children of an expression have smaller identifiers.
    have children {ids : List ExprId} (hids : ∀ c ∈ ids, c < id ∧ E.visits c) {g : Flow} (hg : E.inv g) :
        E.inv (Track.each (s.evalTo n) ids g).2 ∧ E.le g (Track.each (s.evalTo n) ids g).2 ∧
          List.Forall₂ (E.good (Track.each (s.evalTo n) ids g).2) ids (Track.each (s.evalTo n) ids g).1 :=
      Track.each_spec E.inv E.le E.good E.refl E.trans E.good_le
        (fun c hc g hg =>
          ih (Nat.lt_of_lt_of_le (hids c hc).1 (Nat.le_of_lt_succ hid)) (hids c hc).2 hg) hg
    rw [Site.evalTo]
    cases he : s.arena.exprs[id]? with
    | none => exact ⟨hf, E.refl f, E.absent hf he⟩
    | some e =>
      obtain ⟨kind, span⟩ := e
      have hlt : ∀ c ∈ Expr.children ⟨kind, span⟩, c < id ∧ E.visits c :=
        fun c hc => ⟨harena.child_lt he c hc, E.child hv he hc⟩
      cases kind with
      | literal kind value => exact ⟨hf, E.refl f, E.literal hf he⟩
      | «variable» path => exact E.read hf he
      | concat parts =>
        obtain ⟨hinv, hle, hparts⟩ := children hlt hf
        exact ⟨hinv, hle, E.parts hinv he (Or.inl rfl) hparts⟩
      | compound parts =>
        obtain ⟨hinv, hle, hparts⟩ := children hlt hf
        exact ⟨hinv, hle, E.parts hinv he (Or.inr rfl) hparts⟩
      | call callee receiver args constructs =>
        have hlt : ∀ c ∈ receiver.toList ++ args, c < id ∧ E.visits c := hlt
        obtain ⟨hr, ha⟩ := List.forall_mem_append.mp hlt
        obtain ⟨hinv₁, hle₁, hrecv⟩ := children hr hf
        obtain ⟨hinv₂, hle₂, hargs⟩ := children ha hinv₁
        obtain ⟨hinv₃, hle₃⟩ := E.reportSinks hv hinv₂ he hargs
        have hle := E.trans hle₁ (E.trans hle₂ hle₃)
        have hrecv := E.good_all_le (E.trans hle₂ hle₃) hrecv
        have hargs := E.good_all_le hle₃ hargs
        simp only [Track.bind_apply]
        split
        · next hstore =>
          obtain ⟨htaint, hname⟩ := Bool.and_eq_true_iff.mp hstore
          obtain ⟨hinv₄, hle₄⟩ := E.storeAll hv hinv₃ he hargs htaint hname
          obtain ⟨hinv₅, hle₅, hgood⟩ :=
            E.result hinv₄ he (E.good_all_le hle₄ hrecv) (E.good_all_le hle₄ hargs)
          exact ⟨hinv₅, E.trans hle (E.trans hle₄ hle₅), hgood⟩
        · obtain ⟨hinv₄, hle₄, hgood⟩ := E.result hinv₃ he hrecv hargs
          exact ⟨hinv₄, E.trans hle hle₄, hgood⟩

theorem evalEach (harena : s.arena.Sound) {fuel : Nat} (hids : ∀ id ∈ ids, id < fuel ∧ E.visits id) (hf : E.inv f) :
    E.inv (Track.each (s.evalTo fuel) ids f).2 ∧ E.le f (Track.each (s.evalTo fuel) ids f).2 ∧
      List.Forall₂ (E.good (Track.each (s.evalTo fuel) ids f).2) ids (Track.each (s.evalTo fuel) ids f).1 :=
  Track.each_spec E.inv E.le E.good E.refl E.trans E.good_le
    (fun id hid _ hf => E.evalTo harena fuel (hids id hid).1 (hids id hid).2 hf) hf

theorem evalAll (harena : s.arena.Sound) (hids : ∀ id ∈ ids, id < s.arena.size) (hv : ∀ id ∈ ids, E.visits id)
    (hf : E.inv f) :
    E.inv (Track.each s.eval ids f).2 ∧ E.le f (Track.each s.eval ids f).2 ∧
      List.Forall₂ (E.good (Track.each s.eval ids f).2) ids (Track.each s.eval ids f).1 :=
  E.evalEach harena (fun id hid => ⟨Nat.lt_succ_of_lt (hids id hid), hv id hid⟩) hf

end Evaluation
end Site
end TaintScan
