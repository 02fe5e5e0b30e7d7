import TaintScan.Proofs.Extract.Alike
import TaintScan.Rule.Registry

/-! # Alike statements match alike

Shapes look at the kinds of expressions, at the words of a statement and at what is known of paths, but
at no span. So in two statements over alike arenas the same rules match, at calls and statements that
correspond.
-/
namespace TaintScan

variable {S : Span → Span → Prop}

structure CallSite.Alike (S : Span → Span → Prop) (c d : CallSite) : Prop where
  callee : d.callee = c.callee
  args : d.args = c.args
  constructs : d.constructs = c.constructs
  span : S c.span d.span

structure ShapeMatch.Alike (S : Span → Span → Prop) (m n : ShapeMatch) : Prop where
  rule : n.rule = m.rule
  bindings : n.bindings = m.bindings
  confidence : n.confidence = m.confidence
  span : S m.span n.span

/-! ## The calls of a statement -/

structure CallSearch.Alike (S : Span → Span → Prop) (found found' : CallSearch) : Prop where
  seen : found'.seen = found.seen
  calls : List.Forall₂ (CallSite.Alike S) found.calls found'.calls

theorem Expr.Alike.children {e f : Expr} (h : e.Alike S f) : f.children = e.children := by
  unfold Expr.children
  rw [h.kind]

theorem Expr.Alike.callSite? {e f : Expr} (h : e.Alike S f) :
    List.Forall₂ (CallSite.Alike S) e.callSite?.toList f.callSite?.toList := by
  unfold Expr.callSite?
  rw [h.kind]
  split
  · exact .cons ⟨rfl, rfl, rfl, h.span⟩ .nil
  · exact .nil

namespace ExprArena.Alike

variable {a b : ExprArena}

theorem foldlM_visit {fuel : Nat} {ids : List ExprId}
    (hvisit : ∀ (id : ExprId) (search search' found : CallSearch), search.Alike S search' →
      a.visit fuel search id = .ok found → ∃ found', b.visit fuel search' id = .ok found' ∧
        found.Alike S found')
    {search search' found : CallSearch} (hs : search.Alike S search')
    (hfound : ids.foldlM (a.visit fuel) search = .ok found) :
    ∃ found', ids.foldlM (b.visit fuel) search' = .ok found' ∧ found.Alike S found' := by
  induction ids generalizing search search' with
  | nil =>
    cases hfound
    exact ⟨search', rfl, hs⟩
  | cons id rest ih =>
    rw [List.foldlM_cons] at hfound
    cases hnext : a.visit fuel search id with
    | error e =>
      rw [hnext] at hfound
      cases hfound
    | ok next =>
      rw [hnext] at hfound
      obtain ⟨next', hnext', halike⟩ := hvisit id search search' next hs hnext
      obtain ⟨found', hfound', halike'⟩ := ih halike hfound
      refine ⟨found', ?_, halike'⟩
      rw [List.foldlM_cons, hnext']
      exact hfound'

variable (h : a.Alike S b)
include h

theorem kind? (id : ExprId) : b.kind? id = a.kind? id := by
  unfold ExprArena.kind?
  obtain ⟨ha, hb⟩ | ⟨e, f, ha, hb, he⟩ := h.expr_cases id
  · rw [ha, hb]
  · rw [ha, hb, Option.map_some, Option.map_some, he.kind]

theorem stringLiteral? (id : ExprId) : b.stringLiteral? id = a.stringLiteral? id := by
  unfold ExprArena.stringLiteral?
  rw [h.kind?]

theorem referencePath? (id : ExprId) : b.referencePath? id = a.referencePath? id := by
  simp only [ExprArena.referencePath?, h.kind?]

theorem visit (fuel : Nat) {id : ExprId} {search search' found : CallSearch}
    (hs : search.Alike S search') (hfound : a.visit fuel search id = .ok found) :
    ∃ found', b.visit fuel search' id = .ok found' ∧ found.Alike S found' := by
  induction fuel generalizing id search search' found with
  | zero =>
    cases hfound
    exact ⟨search', rfl, hs⟩
  | succ n ih =>
    rw [ExprArena.visit] at hfound ⊢
    rw [hs.seen]
    split at hfound
    · next hseen =>
      rw [if_pos hseen]
      cases hfound
      exact ⟨search', rfl, hs⟩
    · next hseen =>
      rw [if_neg hseen]
      unfold ExprArena.get? at hfound ⊢
      obtain ⟨ha, _⟩ | ⟨e, f, ha, hb, he⟩ := h.expr_cases id
      · rw [ha] at hfound
        cases hfound
      · rw [ha] at hfound
        rw [hb]
        dsimp only at hfound ⊢
        rw [he.children]
        refine foldlM_visit (fun _ _ _ _ => ih) ⟨?_, ?_⟩ hfound
        · dsimp only
        · exact List.rel_append he.callSite? hs.calls

theorem callsIn {operands : List ExprId} {calls : List CallSite} (hcalls : a.callsIn operands = .ok calls) :
    ∃ calls', b.callsIn operands = .ok calls' ∧ List.Forall₂ (CallSite.Alike S) calls calls' := by
  unfold ExprArena.callsIn at hcalls ⊢
  rw [h.size]
  split at hcalls
  · next found hfound =>
    cases hcalls
    have hempty : CallSearch.Alike S {} {} := ⟨rfl, .nil⟩
    obtain ⟨found', hfound', halike⟩ := foldlM_visit (fun _ _ _ _ => h.visit _) hempty hfound
    rw [hfound']
    exact ⟨_, rfl, List.rel_reverse halike.calls⟩
  · cases hcalls

end ExprArena.Alike

/-! ## Matches -/

theorem CallSite.forall₂_filter {p : String → Bool → Bool} {calls calls' : List CallSite}
    (h : List.Forall₂ (CallSite.Alike S) calls calls') :
    List.Forall₂ (CallSite.Alike S) (calls.filter fun c => p c.callee c.constructs)
      (calls'.filter fun c => p c.callee c.constructs) := by
  have hsame (c d : CallSite) (hcd : c.Alike S d) :
      p c.callee c.constructs = true ↔ p d.callee d.constructs = true := by
    rw [hcd.callee, hcd.constructs]
  exact List.rel_filter hsame h

section

variable {a b : ExprArena} (ha : a.Alike S b) {s t : Statement} {m : ExprArena} (hs : s.Alike S m t)
variable {calls calls' : List CallSite} (hcalls : List.Forall₂ (CallSite.Alike S) calls calls')
include ha hcalls

theorem SinkSpec.evidenceIn_alike (spec : SinkSpec) (r : Rule) (context : ShapeContext) :
    List.Forall₂ (ShapeMatch.Alike S) (spec.evidenceIn r a calls context)
      (spec.evidenceIn r b calls' context) := by
  have harg : spec.argEvidence? b context = spec.argEvidence? a context := by
    funext arg
    simp only [SinkSpec.argEvidence?, ha.kind?, ha.referencePath?]
  refine List.rel_filterMap (R := CallSite.Alike S) (fun c d hcd => ?_)
    (CallSite.forall₂_filter hcalls)
  rw [hcd.args, hcd.callee, harg]
  cases (spec.checkedArgs c.args).findSome? (spec.argEvidence? a context) with
  | none => exact .none
  | some e => exact .some ⟨rfl, rfl, rfl, hcd.span⟩

include hs

theorem Shape.matchesIn_alike (shape : Shape) (r : Rule) (context : ShapeContext) :
    List.Forall₂ (ShapeMatch.Alike S) (shape.matchesIn r s a calls context)
      (shape.matchesIn r t b calls' context) := by
  have among (callees : List CalleePattern) :=
    CallSite.forall₂_filter (p := anyMatch callees) hcalls
  cases shape with
  | weakAlgorithm callees algorithms =>
    refine List.rel_filterMap (R := CallSite.Alike S) (fun c d hcd => ?_) (among callees)
    simp only [hcd.args, hcd.callee, ha.stringLiteral?]
    cases c.args.findSome? _ with
    | none => exact .none
    | some name => exact .some ⟨rfl, rfl, rfl, hcd.span⟩
  | forbiddenCall callees =>
    refine List.rel_map (R := CallSite.Alike S) (fun c d hcd => ?_) (among callees)
    rw [hcd.callee]
    exact ⟨rfl, rfl, rfl, hcd.span⟩
  | insecureRandom callees words =>
    simp only [Shape.matchesIn, hs.targets]
    split
    · refine List.rel_map (R := CallSite.Alike S) (fun c d hcd => ?_) (among callees)
      rw [hcd.callee]
      exact ⟨rfl, rfl, rfl, hcd.span⟩
    · exact .nil
  | hardcodedSecret names =>
    have hliteral : b.stringLiteral? = a.stringLiteral? := funext ha.stringLiteral?
    simp only [Shape.matchesIn, hs.kind, hs.compound, hs.targets, ← hs.operands.1, hliteral]
    split
    · cases s.operands.head? >>= a.stringLiteral? with
      | none => exact .nil
      | some value =>
        cases s.targets.find? (isSecretName · names) with
        | none => exact .nil
        | some target =>
          dsimp only
          split
          · exact .nil
          · exact .cons ⟨rfl, rfl, rfl, hs.span⟩ .nil
    · exact .nil

theorem Rule.matchesIn_alike (r : Rule) (context : ShapeContext) :
    List.Forall₂ (ShapeMatch.Alike S) (r.matchesIn s a calls context)
      (r.matchesIn t b calls' context) := by
  unfold Rule.matchesIn
  split
  · exact Shape.matchesIn_alike ha hs hcalls _ r context
  · split
    · exact SinkSpec.evidenceIn_alike ha hcalls _ r context
    · exact .nil
  · exact .nil

end

theorem Registry.matchShapes_alike (g : Registry) {L : Likeness} {a b : ExprArena}
    (ha : a.Alike L.span b) {m : ExprArena} {s t : Statement} (hs : s.Matches L m t) {language : Language}
    {context : ShapeContext} {found : List ShapeMatch}
    (hfound : g.matchShapes s a language context = .ok found) :
    ∃ found', g.matchShapes t b language context = .ok found' ∧
      List.Forall₂ (ShapeMatch.Alike L.span) found found' := by
  unfold matchShapes matchStatement at hfound ⊢
  rw [hs.kind]
  split at hfound
  · next hsilent =>
    rw [if_pos hsilent]
    cases hfound
    exact ⟨[], rfl, .nil⟩
  · next hsilent =>
    rw [if_neg hsilent]
    cases hs with
    | silent hk _ =>
      refine absurd ?_ hsilent
      cases hkind : s.kind with
      | unparsed => rfl
      | controlClose => rfl
      | _ =>
        rw [hkind] at hk
        cases hk
    | plain hs =>
      split at hfound
      · cases hfound
      · next calls hcalls =>
        cases hfound
        obtain ⟨calls', hcalls', halike⟩ := ha.callsIn hcalls
        rw [← hs.operands.1, hcalls']
        refine ⟨_, rfl, ?_⟩
        refine List.rel_flatMap (R := Eq) (List.forall₂_same.mpr fun _ _ => rfl) fun r r' hr => ?_
        cases hr
        exact Rule.matchesIn_alike ha hs halike r context

end TaintScan
