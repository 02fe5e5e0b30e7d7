import TaintScan.Flow.Track
import TaintScan.Proofs.Flow.Evaluation
import TaintScan.Proofs.Rule.Evidence

/-! # What a statement keeps

A statement changes facts, records definitions and reports candidates, and does nothing else. So a
property that survives any change of facts, any new definition and the report of any sink of the
registry survives every statement.
-/
namespace TaintScan

namespace Site

def written (s : Site) (st : Statement) (secretTargets : List String) (t : Taint) (target : String)
    (facts : Facts) : Taint :=
  let base := if st.compound then ((s.lookup? facts target).getD .clean).join t else t
  if secretTargets.contains target then { base with labels := base.labels.insert .secret } else base

theorem assign_apply (s : Site) (st : Statement) (secretTargets : List String) (t : Taint)
    (target : String) (f : Flow) :
    s.assign st secretTargets t target f =
      let f := (s.reportTargetSinks target st.operands.head? t f).2
      let w := s.written st secretTargets t target f.facts
      if w.isTainted then
        Track.setFact target { w with node := some f.nodes.size } (s.define w.node f).2
      else Track.setFact target { w with node := none } f := by
  change (if (s.written st secretTargets t target
    (s.reportTargetSinks target st.operands.head? t f).2.facts).isTainted then _ else _ : Track Unit) _ = _
  dsimp only
  split
  · rfl
  · rfl

def bound (s : Site) (st : Statement) (kind : ControlKind) (operands : Taint) (f : Flow) : Taint × Flow :=
  if kind == .catchBody then (.labelled (.of .secret) f.nodes.size, (s.define none f).2)
  else if kind == .lambda && s.routesRequests st then
    (.labelled (.of .untrusted) f.nodes.size, (s.define none f).2)
  else if operands.isTainted then
    ({ operands with node := some f.nodes.size }, (s.define operands.node f).2)
  else (.clean, f)

theorem openBlock_apply (s : Site) (st : Statement) (kind : ControlKind) (f : Flow) :
    (s.openBlock st kind f).2 =
      let taints := Track.each s.eval st.operands f
      let b := s.bound st kind (.joinAll taints.1) taints.2
      if st.targets.isEmpty then taints.2 else (Track.each (Track.setFact · b.1) st.targets b.2).2 := by
  unfold openBlock
  simp only [Track.bind_apply, bound]
  cases st.targets.isEmpty with
  | true => rfl
  | false =>
    simp only [Bool.not_false, Bool.false_eq_true, if_true, if_false]
    split
    · rfl
    · split
      · rfl
      · split
        · rfl
        · rfl

theorem cleanArgument_apply (s : Site) (removes : LabelSet) (arg : ExprId) (f : Flow) :
    ∃ facts, s.cleanArgument removes arg f = ((), { f with facts }) := by
  unfold cleanArgument
  split
  · split
    · exact ⟨_, rfl⟩
    · exact ⟨_, rfl⟩
  · exact ⟨_, rfl⟩

theorem sanitizeInPlace_cases (s : Site) (call : ExprId) {P : Flow → Prop} {f : Flow} (hf : P f)
    (hclean : ∀ removes args, P (Track.each (s.cleanArgument removes) args f).2) : P (s.sanitizeInPlace call f).2 := by
  unfold sanitizeInPlace
  cases s.arena.kind? call with
  | none => exact hf
  | some kind =>
    cases kind with
    | call callee receiver args constructs =>
      dsimp only
      cases s.registry.sanitizerOfCall? callee constructs s.language with
      | none => exact hf
      | some hit =>
        dsimp only
        split
        · exact hclean hit.removes args
        · exact hf
    | _ => exact hf

/-- A property of the flow that survives whatever a statement does to the flow. -/
structure Keeps (s : Site) (inv : Flow → Prop) : Prop where
  pushNode : ∀ {f : Flow} (n : Node), inv f → inv { f with nodes := f.nodes.push n }
  withFacts : ∀ {f : Flow} (facts : Facts), inv f → inv { f with facts }
  report : ∀ {f : Flow} {r : Rule} {spec : SinkSpec} (span : Span) (t : Taint) (callee name : String),
    (r, spec) ∈ s.registry.index.sinks → inv f → inv (s.emit r span t callee name f).2

namespace Keeps

variable {s : Site} {inv : Flow → Prop} (K : s.Keeps inv) {f : Flow} {st : Statement}
include K

theorem define (prev : Option NodeId) (hf : inv f) : inv (s.define prev f).2 :=
  K.pushNode _ hf

theorem setFact (path : String) (t : Taint) (hf : inv f) : inv (Track.setFact path t f).2 :=
  K.withFacts _ hf

theorem read (path : String) (span : Span) (hf : inv f) : inv (s.read path span f).2 := by
  rw [read_apply]
  split
  · exact K.pushNode _ hf
  · exact hf

theorem storeInto (receiver : ExprId) (value : Taint) (hf : inv f) : inv (s.storeInto receiver value f).2 := by
  rw [storeInto_apply]
  split
  · exact K.setFact _ _ (K.define _ hf)
  · exact hf

theorem callResult (span : Span) (callee : String) (constructs : Bool) (input : Taint) (hf : inv f) :
    inv (s.callResult span callee constructs input f).2 := by
  rw [callResult_apply]
  split
  · exact K.pushNode _ hf
  · split
    · exact hf
    · exact hf

def evaluation : s.Evaluation where
  visits _ := True
  child _ _ _ := trivial
  inv := inv
  le _ _ := True
  good _ _ _ := True
  refl _ := trivial
  trans _ _ := trivial
  good_le _ _ := trivial
  absent _ _ := trivial
  literal _ _ := trivial
  read hf _ := ⟨K.read _ _ hf, trivial, trivial⟩
  parts _ _ _ _ := trivial
  sink _ hf _ _ hr _ := ⟨K.report _ _ _ _ (List.mem_filter.mp hr).1 hf, trivial⟩
  store _ hf _ _ _ _ := ⟨K.storeInto _ _ hf, trivial⟩
  result hf _ _ _ := ⟨K.callResult _ _ _ _ hf, trivial, trivial⟩

theorem reportSinks (span : Span) (callee : String) (constructs : Bool) (args : List (ExprId × Taint)) (hf : inv f) :
    inv (s.reportSinks span callee constructs args f).2 := by
  refine Track.each_inv inv (fun p hp f hf => ?_) hf
  cases sinkHit? p.2 args with
  | none => exact hf
  | some hit => exact K.report _ _ _ _ (List.mem_filter.mp hp).1 hf

theorem evalAll (ha : s.arena.Sound) {ids : List ExprId} (hids : ∀ id ∈ ids, id < s.arena.size) (hf : inv f) :
    inv (Track.each s.eval ids f).2 :=
  (K.evaluation.evalAll ha hids (fun _ _ => trivial) hf).1

theorem reportTargetSinks (target : String) (value : Option ExprId) (t : Taint) (hf : inv f) :
    inv (s.reportTargetSinks target value t f).2 := by
  unfold Site.reportTargetSinks
  split
  · refine Track.each_inv inv (fun p hp f hf => ?_) hf
    split
    · exact K.report _ _ _ _ (List.mem_filter.mp hp).1 hf
    · exact hf
  · exact hf

theorem assign (st : Statement) (secretTargets : List String) (t : Taint) (target : String) (hf : inv f) :
    inv (s.assign st secretTargets t target f).2 := by
  have hreport := K.reportTargetSinks target st.operands.head? t hf
  rw [assign_apply]
  dsimp only
  split
  · exact K.setFact _ _ (K.define _ hreport)
  · exact K.setFact _ _ hreport

theorem openBlock (kind : ControlKind) (heval : inv (Track.each s.eval st.operands f).2) :
    inv (s.openBlock st kind f).2 := by
  have hbound (operands : Taint) {f : Flow} (hf : inv f) : inv (s.bound st kind operands f).2 := by
    unfold Site.bound
    split
    · exact K.define none hf
    · split
      · exact K.define none hf
      · split
        · exact K.define operands.node hf
        · exact hf
  rw [openBlock_apply]
  dsimp only
  split
  · exact heval
  · exact Track.each_inv inv (fun _ _ _ hf => K.setFact _ _ hf) (hbound _ heval)

theorem sanitizeInPlace (call : ExprId) (hf : inv f) : inv (s.sanitizeInPlace call f).2 := by
  refine s.sanitizeInPlace_cases call hf fun removes args => Track.each_inv inv (fun arg _ f hf => ?_) hf
  obtain ⟨facts, h⟩ := s.cleanArgument_apply removes arg f
  rw [h]
  exact K.withFacts facts hf

theorem effect_of_operands (secretTargets : List String) (heval : inv (Track.each s.eval st.operands f).2)
    (hidle : st.kind = .unparsed ∨ st.kind = .controlClose → inv f) :
    inv (s.effect st secretTargets f).2 := by
  have hassign : inv (s.assignment st secretTargets f).2 :=
    Track.each_inv inv (fun _ _ _ hf => K.assign _ _ _ _ hf) heval
  have hexpr : inv (s.expression st f).2 := by
    unfold Site.expression
    simp only [Track.bind_apply]
    split
    · exact Track.each_inv inv (fun _ _ _ hf => K.sanitizeInPlace _ hf) heval
    · exact heval
  unfold Site.effect
  cases hkind : st.kind with
  | unparsed => exact hidle (Or.inl hkind)
  | controlClose => exact hidle (Or.inr hkind)
  | controlOpen kind => exact K.openBlock kind heval
  | assignment => exact hassign
  | declaration => exact hassign
  | call => exact hexpr
  | expression => exact hexpr

theorem effect (ha : s.arena.Sound) (hst : ∀ id ∈ st.operands, id < s.arena.size) (secretTargets : List String)
    (hf : inv f) : inv (s.effect st secretTargets f).2 :=
  K.effect_of_operands secretTargets (K.evalAll ha hst hf) fun _ => hf

end Keeps
end Site
end TaintScan
