import TaintScan.Proofs.Flow.Pass
import TaintScan.Proofs.Flow.Propagation

/-! # What an evaluation visits

`Site.Visits` gives each expression that some operands are built from together with the flow that its
evaluation starts in. What is kept at every visited expression is kept by the evaluation of the
operands.
-/
namespace TaintScan

namespace Track

variable {α β : Type}

theorem each_append (p : α → Track β) (left right : List α) (f : Flow) :
    each p (left ++ right) f =
      ((each p left f).1 ++ (each p right (each p left f).2).1, (each p right (each p left f).2).2) := by
  induction left generalizing f with
  | nil => rfl
  | cons a rest ih =>
    change ((p a f).1 :: (each p (rest ++ right) (p a f).2).1, (each p (rest ++ right) (p a f).2).2) = _
    rw [ih]
    rfl

theorem each_through (p : α → Track β) (before after : List α) (a : α) (f : Flow) :
    (each p (before ++ a :: after) f).2 = (each p after (p a (each p before f).2).2).2 := by
  rw [each_append]
  rfl

theorem length_each (p : α → Track β) (l : List α) (f : Flow) : (each p l f).1.length = l.length := by
  induction l generalizing f with
  | nil => rfl
  | cons a rest ih => exact congrArg (· + 1) (ih (p a f).2)

theorem each_congr {p q : α → Track β} {l : List α} (h : ∀ a ∈ l, p a = q a) : each p l = each q l := by
  induction l with
  | nil => rfl
  | cons a rest ih =>
    obtain ⟨ha, hrest⟩ := List.forall_mem_cons.mp h
    rw [each, each, ha, ih hrest]

theorem each_along (inv : Flow → Prop) (good : β → Prop) {p : α → Track β} {l : List α} {f : Flow}
    (hp : ∀ before a after, l = before ++ a :: after → inv (each p before f).2 →
      inv (p a (each p before f).2).2 ∧ good (p a (each p before f).2).1) (hf : inv f) :
    inv (each p l f).2 ∧ ∀ b ∈ (each p l f).1, good b := by
  induction l generalizing f with
  | nil => exact ⟨hf, List.forall_mem_nil _⟩
  | cons a rest ih =>
    obtain ⟨hinv, hgood⟩ := hp [] a rest rfl hf
    obtain ⟨hinv', hgood'⟩ := ih (f := (p a f).2)
      (fun before b after hrest => hp (a :: before) b after (congrArg (a :: ·) hrest)) hinv
    exact ⟨hinv', List.forall_mem_cons.mpr ⟨hgood, hgood'⟩⟩

end Track

namespace Site

/-! ## Expressions after their children -/

/-- What a call does once its receiver and its arguments are evaluated. -/
def finishCall (s : Site) (span : Span) (callee : String) (receiver : Option ExprId) (args : List ExprId)
    (constructs : Bool) (receivers taints : List Taint) : Track Taint := do
  s.reportSinks span callee constructs (args.zip taints)
  if (Taint.joinAll taints).isTainted && mutators.contains (Text.afterLast '.' callee) then
    let _ ← Track.each (s.storeInto · (.joinAll taints)) receiver.toList
  s.callResult span callee constructs ((Taint.joinAll receivers).join (.joinAll taints))

def finish (s : Site) (e : Expr) (taints : List Taint) : Track Taint :=
  match e.kind with
  | .literal _ _ => return .clean
  | .variable path => s.read path e.span
  | .concat _ | .compound _ => return .joinAll taints
  | .call callee receiver args constructs =>
    s.finishCall e.span callee receiver args constructs (taints.take receiver.toList.length)
      (taints.drop receiver.toList.length)

variable {s : Site} {id : ExprId}

theorem evalTo_succ (s : Site) (n : Nat) {e : Expr} (he : s.arena.exprs[id]? = some e) :
    s.evalTo (n + 1) id = Track.each (s.evalTo n) e.children >>= s.finish e := by
  obtain ⟨kind, span⟩ := e
  funext f
  rw [Site.evalTo, he]
  cases kind with
  | call callee receiver args constructs =>
    rw [Track.bind_apply, finish, Expr.children]
    dsimp only
    rw [Track.each_append, List.take_left' (Track.length_each ..), List.drop_left' (Track.length_each ..)]
    rfl
  | _ => rfl

theorem evalTo_of_absent (s : Site) (n : Nat) (he : s.arena.exprs[id]? = none) : s.evalTo n id = pure .clean := by
  cases n with
  | zero => rfl
  | succ n =>
    funext f
    rw [Site.evalTo, he]

theorem evalTo_congr (ha : s.arena.Descends) {n m : Nat} (hn : id < n) (hm : id < m) :
    s.evalTo n id = s.evalTo m id := by
  induction n generalizing id m with
  | zero => exact absurd hn (Nat.not_lt_zero _)
  | succ n ih =>
    cases he : s.arena.exprs[id]? with
    | none => rw [evalTo_of_absent s _ he, evalTo_of_absent s _ he]
    | some e =>
      obtain ⟨m, rfl⟩ := Nat.exists_eq_succ_of_ne_zero (Nat.ne_zero_of_lt hm)
      have hchildren : ∀ c ∈ e.children, s.evalTo n c = s.evalTo m c := by
        intro c hc
        by_cases hsize : c < s.arena.size
        · have hlt := ha he c hc hsize
          exact ih (Nat.lt_of_lt_of_le hlt (Nat.le_of_lt_succ hn)) (Nat.lt_of_lt_of_le hlt (Nat.le_of_lt_succ hm))
        · have habsent := Array.getElem?_eq_none (Nat.le_of_not_lt hsize)
          rw [evalTo_of_absent s _ habsent, evalTo_of_absent s _ habsent]
      rw [evalTo_succ s _ he, evalTo_succ s _ he, Track.each_congr hchildren]

theorem eval_of_absent (s : Site) (he : s.arena.exprs[id]? = none) : s.eval id = pure .clean :=
  evalTo_of_absent s _ he

theorem eval_eq (ha : s.arena.Descends) {e : Expr} (he : s.arena.exprs[id]? = some e) :
    s.eval id = Track.each s.eval e.children >>= s.finish e := by
  have hchildren : ∀ c ∈ e.children, s.evalTo s.arena.size c = s.eval c := by
    intro c hc
    by_cases hsize : c < s.arena.size
    · exact evalTo_congr ha hsize (Nat.lt_succ_of_lt hsize)
    · have habsent := Array.getElem?_eq_none (Nat.le_of_not_lt hsize)
      rw [evalTo_of_absent s _ habsent, eval_of_absent s habsent]
  rw [Site.eval, evalTo_succ s _ he, Track.each_congr hchildren]

theorem reportSinks_facts (s : Site) (span : Span) (callee : String) (constructs : Bool)
    (args : List (ExprId × Taint)) (f : Flow) :
    (s.reportSinks span callee constructs args f).2.facts = f.facts := by
  refine Track.each_inv (fun g => g.facts = f.facts) (fun p _ g hg => ?_) rfl
  cases sinkHit? p.2 args with
  | none => exact hg
  | some hit => exact hg

theorem read_facts (s : Site) (path : String) (span : Span) (f : Flow) :
    (s.read path span f).2.facts = f.facts := by
  rw [read_apply]
  split
  · rfl
  · rfl

theorem callResult_facts (s : Site) (span : Span) (callee : String) (constructs : Bool) (input : Taint)
    (f : Flow) : (s.callResult span callee constructs input f).2.facts = f.facts := by
  rw [callResult_apply]
  split
  · rfl
  · split
    · rfl
    · rfl

theorem storeInto_facts (s : Site) (receiver : ExprId) (value : Taint) (f : Flow) :
    (s.storeInto receiver value f).2.facts = f.facts ∨
      ∃ path node, s.arena.kind? receiver = some (.variable path) ∧
        (s.storeInto receiver value f).2.facts = f.facts.insert (factKey path)
          { ((s.lookup? f.facts path).getD .clean).join value with node := some node } := by
  rw [storeInto_apply]
  split
  · next path hpath => exact Or.inr ⟨path, f.nodes.size, hpath, rfl⟩
  · exact Or.inl rfl

/-- A call of a method that stores tainted arguments into its receiver. The taints are those of the
receiver and of the arguments. -/
structure StoresAt (s : Site) (e : Expr) (taints : List Taint) (path : String) : Prop where
  call : ∃ callee receiver args constructs, e.kind = .call callee (some receiver) args constructs ∧
    s.arena.kind? receiver = some (.variable path) ∧ mutators.contains (Text.afterLast '.' callee) = true
  tainted : (Taint.joinAll (taints.drop 1)).isTainted = true

theorem finish_facts (s : Site) (e : Expr) (taints : List Taint) (f : Flow) :
    (s.finish e taints f).2.facts = f.facts ∨
      ∃ path node, s.StoresAt e taints path ∧ (s.finish e taints f).2.facts = f.facts.insert (factKey path)
        { ((s.lookup? f.facts path).getD .clean).join (.joinAll (taints.drop 1)) with node := some node } := by
  obtain ⟨kind, span⟩ := e
  cases kind with
  | literal kind value => exact Or.inl rfl
  | «variable» path => exact Or.inl (s.read_facts path span f)
  | concat parts => exact Or.inl rfl
  | compound parts => exact Or.inl rfl
  | call callee receiver args constructs =>
    dsimp only [finish]
    unfold finishCall
    simp only [Track.bind_apply]
    have hsinks := s.reportSinks_facts span callee constructs
      (args.zip (taints.drop receiver.toList.length)) f
    generalize (s.reportSinks span callee constructs (args.zip (taints.drop receiver.toList.length)) f).2 = g
      at hsinks
    split
    · next hstore =>
      obtain ⟨htaint, hname⟩ := Bool.and_eq_true_iff.mp hstore
      cases receiver with
      | none => exact Or.inl ((s.callResult_facts ..).trans hsinks)
      | some r =>
        -- The result of the call leaves what the method has stored.
        have hresult : (s.callResult span callee constructs ((Taint.joinAll (taints.take 1)).join
            (.joinAll (taints.drop 1))) (s.storeInto r (.joinAll (taints.drop 1)) g).2).2.facts =
            (s.storeInto r (.joinAll (taints.drop 1)) g).2.facts := s.callResult_facts ..
        rcases s.storeInto_facts r (.joinAll (taints.drop 1)) g with hsame | ⟨path, node, hpath, hstored⟩
        · exact Or.inl (hresult.trans (hsame.trans hsinks))
        · refine Or.inr ⟨path, node, ⟨⟨callee, r, args, constructs, rfl, hpath, hname⟩, htaint⟩, ?_⟩
          rw [← hsinks]
          exact hresult.trans hstored
    · exact Or.inl ((s.callResult_facts ..).trans hsinks)

/-! ## Visited expressions -/

/-- While some operands are evaluated, the evaluation of an expression starts in a flow. -/
inductive Visits (s : Site) (ids : List ExprId) (f : Flow) : ExprId → Flow → Prop where
  | operand {before after : List ExprId} {id : ExprId} : ids = before ++ id :: after →
    Visits s ids f id (Track.each s.eval before f).2
  | child {before after : List ExprId} {id c : ExprId} {e : Expr} {g : Flow} : Visits s ids f id g →
    s.arena.exprs[id]? = some e → e.children = before ++ c :: after →
    Visits s ids f c (Track.each s.eval before g).2

theorem Visits.under {ids : List ExprId} {f g : Flow} (h : s.Visits ids f id g) : s.arena.Under ids id := by
  induction h with
  | operand hids => exact s.arena.under_of_mem (hids ▸ List.mem_append_right _ List.mem_cons_self)
  | child _ he hchildren ih => exact ih.child he (hchildren ▸ List.mem_append_right _ List.mem_cons_self)

section

variable (inv : Flow → Prop) (good : Taint → Prop)

/-- A visited expression keeps a property of the flow, and has a value with a property, if its children
leave and have them. -/
def KeepsAt (s : Site) (id : ExprId) (g : Flow) : Prop :=
  ∀ e, s.arena.exprs[id]? = some e →
    inv (Track.each s.eval e.children g).2 → (∀ t ∈ (Track.each s.eval e.children g).1, good t) →
    inv (s.finish e (Track.each s.eval e.children g).1 (Track.each s.eval e.children g).2).2 ∧
      good (s.finish e (Track.each s.eval e.children g).1 (Track.each s.eval e.children g).2).1

variable {ids : List ExprId} {f : Flow} (ha : s.arena.Descends) (hclean : good .clean)
  (hkeeps : ∀ id g, s.Visits ids f id g → s.KeepsAt inv good id g)
include ha hclean hkeeps

theorem Visits.eval_keeps {id : ExprId} {g : Flow} (hv : s.Visits ids f id g) (hg : inv g) :
    inv (s.eval id g).2 ∧ good (s.eval id g).1 := by
  -- The recorded children of an expression have smaller identifiers; the others are clean.
  induction id using Nat.strongRecOn generalizing g with
  | _ id ih =>
    cases he : s.arena.exprs[id]? with
    | none =>
      rw [eval_of_absent s he]
      exact ⟨hg, hclean⟩
    | some e =>
      obtain ⟨hinv, hgood⟩ := Track.each_along inv good (p := s.eval) (l := e.children) (f := g)
        (fun before c after hchildren hc => by
          by_cases hsize : c < s.arena.size
          · exact ih c (ha he c (hchildren ▸ List.mem_append_right before List.mem_cons_self) hsize)
              (.child hv he hchildren) hc
          · rw [eval_of_absent s (Array.getElem?_eq_none (Nat.le_of_not_lt hsize))]
            exact ⟨hc, hclean⟩) hg
      rw [eval_eq ha he, Track.bind_apply]
      exact hkeeps id g hv e he hinv hgood

theorem Visits.inv_of_start {id : ExprId} {g : Flow} (hv : s.Visits ids f id g) (hf : inv f) : inv g := by
  induction hv with
  | @operand before after id hids =>
    refine (Track.each_along inv good (fun before' a after' hsplit hb => ?_) hf).1
    have hids' : ids = before' ++ a :: (after' ++ id :: after) := by
      rw [hids, hsplit, List.append_assoc, List.cons_append]
    exact Visits.eval_keeps inv good ha hclean hkeeps (.operand hids') hb
  | @child before after id c e g hv he hchildren ih =>
    refine (Track.each_along inv good (fun before' a after' hsplit hb => ?_) ih).1
    have hchildren' : e.children = before' ++ a :: (after' ++ c :: after) := by
      rw [hchildren, hsplit, List.append_assoc, List.cons_append]
    exact Visits.eval_keeps inv good ha hclean hkeeps (.child hv he hchildren') hb

theorem evalAll_of_visits (hf : inv f) :
    inv (Track.each s.eval ids f).2 ∧ ∀ t ∈ (Track.each s.eval ids f).1, good t :=
  Track.each_along inv good
    (fun _ _ _ hids hb => Visits.eval_keeps inv good ha hclean hkeeps (.operand hids) hb) hf

end

theorem Visits.inv_at_end (inv : Flow → Prop) (ha : s.arena.Descends)
    (hfinish : ∀ e taints g, inv g → inv (s.finish e taints g).2) {ids : List ExprId} {f g : Flow}
    (hv : s.Visits ids f id g) (h : inv (s.eval id g).2) : inv (Track.each s.eval ids f).2 := by
  have hrest (ids : List ExprId) {g : Flow} (hg : inv g) : inv (Track.each s.eval ids g).2 :=
    (evalAll_of_visits inv (fun _ => True) ha trivial (fun _ _ _ _ _ hg _ => ⟨hfinish _ _ _ hg, trivial⟩) hg).1
  induction hv with
  | operand hids =>
    rw [hids, Track.each_through]
    exact hrest _ h
  | child _ he hchildren ih =>
    apply ih
    rw [eval_eq ha he, Track.bind_apply]
    apply hfinish
    rw [hchildren, Track.each_through]
    exact hrest _ h

/-! ## Statements -/

def found (s : Site) (st : Statement) (flow : Flow) : List ShapeMatch :=
  ((s.registry.matchShapes st s.arena s.language ((s.atStatement st flow).context flow.facts)).toOption).getD []

/-- The flow in which a statement takes its effect: its shapes are matched. -/
def matched (s : Site) (st : Statement) (flow : Flow) : Flow :=
  { flow with candidates := flow.candidates ++ ((s.found st flow).map Candidate.ofShape).toArray }

def secrets (s : Site) (st : Statement) (flow : Flow) : List String := (s.found st flow).filterMap secretTarget?

theorem eq_effect_of_statement {st : Statement} {flow flow' : Flow} (h : s.statement st flow = .ok flow') :
    flow' = ((s.atStatement st flow).effect st (s.secrets st flow) (s.matched st flow)).2 := by
  obtain ⟨found, hfound, rfl⟩ := statement_eq_ok_iff.mp h
  have hsame : s.found st flow = found := by
    rw [Site.found, hfound]
    rfl
  rw [secrets, matched, hsame]

theorem statement_eq (ha : s.arena.Sound) {st : Statement} (hst : ∀ id ∈ st.operands, id < s.arena.size)
    (flow : Flow) :
    s.statement st flow =
      .ok ((s.atStatement st flow).effect st (s.secrets st flow) (s.matched st flow)).2 := by
  obtain ⟨flow', hflow⟩ := statement_ok ha hst flow
  rw [hflow, ← eq_effect_of_statement hflow]

end Site
end TaintScan
