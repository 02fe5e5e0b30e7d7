import TaintScan.Proofs.Flow.Mirror
import TaintScan.Proofs.Flow.Origin

/-! # One scope in two passes

Two passes that walk the same scope number their definitions differently. Facts whose ways back agree,
span by span and block by block, stay so through every statement and give the same candidates.
-/
namespace TaintScan

/-! ## Definitions -/

/-- Two definitions, one in each pass, with the same way back. -/
inductive SameWay (A B : Array Node) : NodeId → NodeId → Prop where
  | origin {a b : NodeId} {n m : Node} : A[a]? = some n → B[b]? = some m → m.span = n.span → m.tag = n.tag →
    n.prev = none → m.prev = none → SameWay A B a b
  | link {a b p q : NodeId} {n m : Node} : A[a]? = some n → B[b]? = some m → m.span = n.span → m.tag = n.tag →
    n.prev = some p → m.prev = some q → p < a → q < b → SameWay A B p q → SameWay A B a b

namespace SameWay

variable {A B A' B' : Array Node} {a b : NodeId}

theorem mono (hA : NodesKept A A') (hB : NodesKept B B') (h : SameWay A B a b) : SameWay A' B' a b := by
  induction h with
  | origin ha hb hspan htag hn hm => exact .origin (hA _ _ ha) (hB _ _ hb) hspan htag hn hm
  | link ha hb hspan htag hn hm hp hq _ ih => exact .link (hA _ _ ha) (hB _ _ hb) hspan htag hn hm hp hq ih

theorem lt_size (h : SameWay A B a b) : a < A.size ∧ b < B.size := by
  cases h with
  | origin ha hb => exact ⟨(Array.getElem?_eq_some_iff.mp ha).1, (Array.getElem?_eq_some_iff.mp hb).1⟩
  | link ha hb => exact ⟨(Array.getElem?_eq_some_iff.mp ha).1, (Array.getElem?_eq_some_iff.mp hb).1⟩

theorem prev (h : SameWay A B a b) :
    Option.Rel (SameWay A B) (A[a]?.bind (·.prev)) (B[b]?.bind (·.prev)) := by
  cases h with
  | origin ha hb _ _ hn hm =>
    rw [ha, hb, Option.bind_some, Option.bind_some, hn, hm]
    exact .none
  | link ha hb _ _ hn hm _ _ hpq =>
    rw [ha, hb, Option.bind_some, Option.bind_some, hn, hm]
    exact .some hpq

theorem backFrom (h : SameWay A B a b) :
    (backFrom B b).map (fun n => (n.span, n.tag)) = (backFrom A a).map fun n => (n.span, n.tag) := by
  induction h with
  | origin ha hb hspan htag hn hm =>
    rw [TaintScan.backFrom, TaintScan.backFrom, ha, hb]
    simp [hn, hm, hspan, htag]
  | link ha hb hspan htag hn hm hp hq _ ih =>
    rw [TaintScan.backFrom, TaintScan.backFrom, ha, hb]
    simp [hn, hm, hp, hq, hspan, htag, ih]

theorem pathTo {node node' : Option NodeId} (h : Option.Rel (SameWay A B) node node') :
    (pathTo B node').map (fun n => (n.span, n.tag)) = (pathTo A node).map fun n => (n.span, n.tag) := by
  cases h with
  | none => rfl
  | some h => simp [TaintScan.pathTo, h.backFrom]

theorem push {node node' : Option NodeId} (h : Option.Rel (SameWay A B) node node') (span : Span) (tag : Nat) :
    SameWay (A.push ⟨span, tag, node⟩) (B.push ⟨span, tag, node'⟩) A.size B.size := by
  have ha : (A.push ⟨span, tag, node⟩)[A.size]? = some ⟨span, tag, node⟩ := Array.getElem?_push_size
  have hb : (B.push ⟨span, tag, node'⟩)[B.size]? = some ⟨span, tag, node'⟩ := Array.getElem?_push_size
  cases h with
  | none => exact .origin ha hb rfl rfl rfl rfl
  | some h =>
    have hlt := h.lt_size
    exact .link ha hb rfl rfl rfl rfl hlt.1 hlt.2 (h.mono (nodesKept_push A _) (nodesKept_push B _))

end SameWay

/-! ## Taints and facts -/

def Facts.Twin (L : NodeId → NodeId → Prop) (F G : Facts) : Prop :=
  ∀ key : String, Option.Rel (Taint.Twin L) F[key]? G[key]?

theorem Taint.Twin.exported? {L : NodeId → NodeId → Prop} {t t' : Taint} (h : t.Twin L t') :
    Option.Rel (Taint.Twin L) t.exported? t'.exported? := by
  unfold Taint.exported?
  rw [h.labels]
  split
  · exact .some ⟨rfl, h.node, h.adjacent⟩
  · exact .none

namespace Facts.Twin

variable {L M : NodeId → NodeId → Prop} {F G : Facts}

theorem mono (h : ∀ i j, L i j → M i j) (hF : Facts.Twin L F G) : Facts.Twin M F G :=
  fun key => optionRel_mono (fun _ _ => .mono h) (hF key)

theorem empty : Facts.Twin L {} {} := by
  intro key
  rw [Std.HashMap.getElem?_empty]
  exact .none

theorem insert (h : Facts.Twin L F G) (key : String) {t t' : Taint} (ht : t.Twin L t') :
    Facts.Twin L (F.insert key t) (G.insert key t') := by
  intro key'
  rw [Std.HashMap.getElem?_insert, Std.HashMap.getElem?_insert]
  split
  · exact .some ht
  · exact h key'

end Facts.Twin

theorem optionRel_findSome? {α β γ δ : Type} {R : α → β → Prop} {S : γ → δ → Prop} {f : α → Option γ}
    {g : β → Option δ} (hfg : ∀ a b, R a b → Option.Rel S (f a) (g b)) {as : List α} {bs : List β}
    (h : List.Forall₂ R as bs) : Option.Rel S (as.findSome? f) (bs.findSome? g) := by
  induction h with
  | nil => exact .none
  | @cons a b as bs hab _ ih =>
    have hab := hfg a b hab
    rw [List.findSome?_cons, List.findSome?_cons]
    generalize f a = x at hab
    generalize g b = y at hab
    cases hab with
    | none => exact ih
    | some h => exact .some h

/-! ## Flows -/

/-- Two places where the same statement of a scope is walked. -/
structure Site.Twin (s t : Site) : Prop where
  unit : t.unit = s.unit
  arena : t.arena = s.arena
  registry : t.registry = s.registry
  seed : t.seed = s.seed
  scope : t.scope = s.scope
  span : t.span = s.span
  tag : t.tag = s.tag

/-- Two definitions with the same way back; the statement has made both or neither. -/
def Site.Linked (s t : Site) (f g : Flow) (a b : NodeId) : Prop :=
  SameWay f.nodes g.nodes a b ∧ (s.firstNode ≤ a ↔ t.firstNode ≤ b)

/-- What is known in the two passes is the same, and behind the candidates `c` and `c'` of other scopes the
same candidates were emitted. -/
structure Flow.Twin (s t : Site) (c c' : List Candidate) (f g : Flow) : Prop where
  facts : Facts.Twin (s.Linked t f g) f.facts g.facts
  inherited : List.Forall₂ (Facts.Twin (s.Linked t f g)) s.inherited t.inherited
  first : s.firstNode ≤ f.nodes.size ∧ t.firstNode ≤ g.nodes.size
  candidates : ∃ emitted, f.candidates.toList = c ++ emitted ∧ g.candidates.toList = c' ++ emitted

theorem NodesKept.refl (nodes : Array Node) : NodesKept nodes nodes := fun _ _ h => h

theorem NodesKept.trans {A B C : Array Node} (h : NodesKept A B) (h' : NodesKept B C) : NodesKept A C :=
  fun id n hn => h' id n (h id n hn)

theorem Site.Linked.mono {s t : Site} {f g f' g' : Flow} (hf : NodesKept f.nodes f'.nodes)
    (hg : NodesKept g.nodes g'.nodes) (a b : NodeId) (h : s.Linked t f g a b) : s.Linked t f' g' a b :=
  ⟨h.1.mono hf hg, h.2⟩

def Site.twins (s t : Site) (c c' : List Candidate) : FlowLink where
  rel := Flow.Twin s t c c'
  link := s.Linked t
  grows f g := NodesKept f.nodes g.nodes
  refl f := .refl f.nodes
  trans := NodesKept.trans
  mono := Site.Linked.mono

section

variable {s t : Site} {c c' : List Candidate} {f g : Flow}

namespace Flow.Twin

variable (hf : f.Twin s t c c' g)
include hf

theorem pushNode {prev prev' : Option NodeId} (hprev : Option.Rel (SameWay f.nodes g.nodes) prev prev')
    (span : Span) (tag : Nat) :
    Track.Meets (s.twins t c c') (s.Linked t) f g
      (f.nodes.size, { f with nodes := f.nodes.push ⟨span, tag, prev⟩ })
      (g.nodes.size, { g with nodes := g.nodes.push ⟨span, tag, prev'⟩ }) := by
  have hkept := nodesKept_push f.nodes ⟨span, tag, prev⟩
  have hkept' := nodesKept_push g.nodes ⟨span, tag, prev'⟩
  have hmono : ∀ a b, s.Linked t f g a b → s.Linked t { f with nodes := f.nodes.push ⟨span, tag, prev⟩ }
      { g with nodes := g.nodes.push ⟨span, tag, prev'⟩ } a b := Site.Linked.mono hkept hkept'
  refine ⟨⟨hf.facts.mono hmono, hf.inherited.imp fun _ _ h => h.mono hmono, ?_, hf.candidates⟩,
    ⟨hkept, hkept'⟩, ⟨.push hprev span tag, ?_⟩⟩
  · exact ⟨Nat.le_trans hf.first.1 hkept.size_le, Nat.le_trans hf.first.2 hkept'.size_le⟩
  · exact iff_of_true hf.first.1 hf.first.2

theorem insertFact (key : String) {a b : Taint} (hab : a.Twin (s.Linked t f g) b) :
    Flow.Twin s t c c' { f with facts := f.facts.insert key a } { g with facts := g.facts.insert key b } :=
  { hf with facts := hf.facts.insert key hab }

theorem reportAll (cs : List Candidate) :
    Flow.Twin s t c c' { f with candidates := f.candidates ++ cs.toArray }
      { g with candidates := g.candidates ++ cs.toArray } :=
  { hf with
    candidates := by
      obtain ⟨emitted, hc, hc'⟩ := hf.candidates
      refine ⟨emitted ++ cs, ?_, ?_⟩
      · simp [hc]
      · simp [hc'] }

theorem report (d : Candidate) :
    Flow.Twin s t c c' { f with candidates := f.candidates.push d } { g with candidates := g.candidates.push d } := by
  have h := hf.reportAll [d]
  simpa using h

end Flow.Twin
end

/-! ## Sites -/

namespace Site.Twin

open Track

section

variable {s t : Site} {c c' : List Candidate} {f g : Flow} (h : s.Twin t)

section

include h

theorem language : t.language = s.language := by
  rw [Site.language, h.unit, Site.language]

theorem describe (id : ExprId) : t.describe id = s.describe id := by
  simp only [Site.describe, h.arena, h.unit]

theorem isEntryPoint : t.scope.isEntryPoint t.language = s.scope.isEntryPoint s.language := by
  rw [h.scope, h.language]

end

theorem lookup? (hf : f.Twin s t c c' g) (path : String) :
    Option.Rel (Taint.Twin (s.Linked t f g)) (s.lookup? f.facts path) (t.lookup? g.facts path) := by
  refine optionRel_findSome? (R := Eq) ?_ (List.forall₂_same.mpr fun _ _ => rfl)
  rintro key _ rfl
  have hfact := hf.facts key
  generalize f.facts[key]? = x at hfact
  generalize g.facts[key]? = y at hfact
  cases hfact with
  | some hab => exact .some hab
  | none =>
    refine optionRel_findSome? (fun F G hFG => ?_) hf.inherited
    have houter := hFG key
    generalize F[key]? = x at houter
    generalize G[key]? = y at houter
    cases houter with
    | none => exact .none
    | some hab => exact hab.exported?

include h

theorem context (hf : f.Twin s t c c' g) : t.context g.facts = s.context f.facts := by
  have hclean (path : String) :
      (t.lookup? g.facts path).any (!·.isTainted) = (s.lookup? f.facts path).any (!·.isTainted) ∧
        (t.lookup? g.facts path).isNone = (s.lookup? f.facts path).isNone := by
    have hlookup := lookup? hf path
    generalize s.lookup? f.facts path = x at hlookup
    generalize t.lookup? g.facts path = y at hlookup
    cases hlookup with
    | none => exact ⟨rfl, rfl⟩
    | some hab => exact ⟨congrArg (!·) hab.isTainted, rfl⟩
  simp only [Site.context, Site.isSourcePath, h.registry, h.language, h.scope, hclean]

theorem sinkCandidate (r : Rule) (span : Span) {a b : Taint} (hab : a.Twin (s.Linked t f g) b) (callee name : String) :
    t.sinkCandidate g.nodes r span b callee name = s.sinkCandidate f.nodes r span a callee name := by
  have hpath := SameWay.pathTo (optionRel_mono (fun _ _ h => h.1) hab.node)
  have hspans : (pathTo g.nodes b.node).map (·.span) = (pathTo f.nodes a.node).map (·.span) := by
    simpa [Function.comp_def] using congrArg (List.map Prod.fst) hpath
  have htags : (pathTo g.nodes b.node).map (·.tag) = (pathTo f.nodes a.node).map (·.tag) := by
    simpa [Function.comp_def] using congrArg (List.map Prod.snd) hpath
  -- The line of the origin is read off its span.
  have horigin (line : Span → String) :
      (pathTo g.nodes b.node).head?.map (fun n => line n.span) =
        (pathTo f.nodes a.node).head?.map fun n => line n.span := by
    have hhead := congrArg (fun spans => spans.head?.map line) hspans
    simpa [Function.comp_def] using hhead
  simp only [Site.sinkCandidate, hspans, htags, h.tag, hab.adjacent, hab.labels, h.unit]
  rw [horigin fun span => a.labels.text ++ " data from line " ++ toString (s.unit.lines.position span.start).1]

end

theorem sinkHit? {L : NodeId → NodeId → Prop} (spec : SinkSpec) {args args' : List (ExprId × Taint)}
    (hargs : List.Forall₂ (fun p q => q.1 = p.1 ∧ p.2.Twin L q.2) args args') :
    Option.Rel (fun p q => q.1 = p.1 ∧ p.2.Twin L q.2) (sinkHit? spec args) (sinkHit? spec args') := by
  unfold Site.sinkHit?
  generalize 0 = start
  induction hargs generalizing start with
  | nil => exact .none
  | @cons p q args args' hpq _ ih =>
    have hlabels : q.2.labels = p.2.labels := hpq.2.labels
    rw [List.zipIdx_cons, List.zipIdx_cons, List.find?_cons, List.find?_cons]
    dsimp only
    rw [hlabels]
    split
    · exact .some hpq
    · exact ih (start + 1)

variable {s t : Site} {c c' : List Candidate} {f g : Flow} (h : s.Twin t) (hf : f.Twin s t c c' g)
include h hf

theorem emit (r : Rule) (span : Span) {a b : Taint} (hab : a.Twin (s.Linked t f g) b) (callee name : String) :
    Leads (s.twins t c c') f g (s.emit r span a callee name f) (t.emit r span b callee name g) := by
  rw [emit_apply, emit_apply, h.sinkCandidate r span hab]
  exact ⟨hf.report _, ⟨.refl _, .refl _⟩, trivial⟩

theorem define {prev prev' : Option NodeId} (hprev : Option.Rel (s.Linked t f g) prev prev') :
    Meets (s.twins t c c') (s.Linked t) f g (s.define prev f) (t.define prev' g) := by
  have hfolded : Option.Rel (SameWay f.nodes g.nodes) (s.folded f.nodes prev) (t.folded g.nodes prev') := by
    cases hprev with
    | none => exact .none
    | @some a b hab =>
      rw [folded, folded]
      by_cases hfirst : s.firstNode ≤ a
      · rw [if_pos hfirst, if_pos (hab.2.mp hfirst)]
        exact hab.1.prev
      · rw [if_neg hfirst, if_neg (mt hab.2.mpr hfirst)]
        exact .some hab.1
  rw [define_apply, define_apply, h.span, h.tag]
  exact hf.pushNode hfolded s.span s.tag

theorem reportSinks (span : Span) {args args' : List (ExprId × Taint)}
    (hargs : List.Forall₂ (fun p q => q.1 = p.1 ∧ p.2.Twin (s.Linked t f g) q.2) args args') (callee : String)
    (constructs : Bool) :
    Leads (s.twins t c c') f g (s.reportSinks span callee constructs args f)
      (t.reportSinks span callee constructs args' g) := by
  unfold Site.reportSinks
  rw [h.registry, h.language]
  refine .forEach hf ?_
  intro p _ f' g' hf' hkf hkg
  have hhit := sinkHit? p.2 hargs
  generalize Site.sinkHit? p.2 args = x at hhit
  generalize Site.sinkHit? p.2 args' = y at hhit
  cases hhit with
  | none => exact .pure hf' trivial
  | @some a b hab =>
    obtain ⟨arg, v⟩ := a
    obtain ⟨arg', v'⟩ := b
    obtain ⟨rfl, hab⟩ := hab
    dsimp only
    rw [h.describe]
    exact h.emit hf' p.1 span (hab.mono (Linked.mono hkf hkg)) callee _

theorem reportTargetSinks {a b : Taint} (hab : a.Twin (s.Linked t f g) b) (target : String) (value : Option ExprId) :
    Leads (s.twins t c c') f g (s.reportTargetSinks target value a f) (t.reportTargetSinks target value b g) := by
  have hname : t.describe = s.describe := funext h.describe
  unfold Site.reportTargetSinks
  rw [hab.isTainted, h.registry, h.language, hname, h.span]
  split
  · refine .forEach hf ?_
    intro p _ f' g' hf' hkf hkg
    rw [hab.labels]
    split
    · exact h.emit hf' p.1 s.span (hab.mono (Linked.mono hkf hkg)) target _
    · exact .pure hf' trivial
  · exact .pure hf trivial

omit hf in
theorem mirrors (c c' : List Candidate) : s.Mirrors (s.twins t c c') Eq t where
  insertFact hf hab key := ⟨hf.insertFact key hab, ⟨.refl _, .refl _⟩, trivial⟩
  fact hf := hf.facts
  lookup? := lookup?
  pushSource hf hab := by
    rw [h.tag, ← hab]
    exact hf.pushNode .none _ s.tag
  define hf hprev := h.define hf hprev
  size_arena := by rw [h.arena]
  expr_cases id := by
    rw [h.arena]
    cases s.arena.exprs[id]? with
    | none => exact Or.inl ⟨rfl, rfl⟩
    | some e => exact Or.inr ⟨e, e, rfl, rfl, rfl, rfl⟩
  seed := h.seed
  sourceOfPath? _ := by rw [h.registry, h.language]
  sourceOfCall? _ _ := by rw [h.registry, h.language]
  sanitizerOfCall? _ _ := by rw [h.registry, h.language]
  reportSinks hf hab hargs := hab ▸ h.reportSinks hf _ hargs
  reportTargetSinks hf hab := h.reportTargetSinks hf hab

end Site.Twin
end TaintScan
