import TaintScan.Proofs.Flow.Mirror
import TaintScan.Proofs.Flow.Pass
import TaintScan.Proofs.Rule.Alike

/-! # Two passes side by side

Two passes over units that are alike come to alike states: the same facts, and definitions and
candidates with spans that correspond. `Pairing` says what two such units have in common.
-/
namespace TaintScan

/-- How the texts of two units and the details of their candidates correspond. -/
structure Pairing (L : Likeness) (u w : SourceUnit) where
  language : w.language = u.language
  text : ∀ {s t : Span}, L.span s t → w.text t = u.text s
  detail : String → String → Prop
  /-- The line that a label comes from. -/
  origin : ∀ {s t : Span}, L.span s t → ∀ labels : LabelSet,
    detail (labels.text ++ " data from line " ++ toString (u.lines.position s.start).1)
      (labels.text ++ " data from line " ++ toString (w.lines.position t.start).1)
  /-- The details of a syntactic match tell no line. -/
  syntactic : ∀ m : ShapeMatch, ∀ line ∈ (Candidate.ofShape m).detail, detail line line

structure Node.Alike (S : Span → Span → Prop) (a b : Node) : Prop where
  span : S a.span b.span
  tag : b.tag = a.tag
  prev : b.prev = a.prev

section

variable {L : Likeness} {u w : SourceUnit} (P : Pairing L u w)

structure Candidate.Alike (c d : Candidate) : Prop where
  rule : d.rule = c.rule
  span : L.span c.span d.span
  path : List.Forall₂ L.span c.path d.path
  confidence : d.confidence = c.confidence
  adjacent : d.adjacent = c.adjacent
  bindings : d.bindings = c.bindings
  detail : List.Forall₂ P.detail c.detail d.detail

structure Flow.Alike (f g : Flow) : Prop where
  facts : g.facts = f.facts
  nodes : List.Forall₂ (Node.Alike L.span) f.nodes.toList g.nodes.toList
  candidates : List.Forall₂ (Candidate.Alike P) f.candidates.toList g.candidates.toList

end

/-- Two sites that differ at most in their units and in the places of their statements. -/
structure Site.Alike {L : Likeness} {u w : SourceUnit} (P : Pairing L u w) (s t : Site) : Prop where
  unit : s.unit = u ∧ t.unit = w
  arena : s.arena.Alike L.span t.arena
  registry : t.registry = s.registry
  seed : t.seed = s.seed
  scope : s.scope.Alike L s.arena t.scope
  inherited : t.inherited = s.inherited
  tag : t.tag = s.tag
  firstNode : t.firstNode = s.firstNode

variable {L : Likeness} {u w : SourceUnit} {P : Pairing L u w}

theorem ShapeMatch.Alike.ofShape {m n : ShapeMatch} (h : m.Alike L.span n) :
    (Candidate.ofShape m).Alike P (Candidate.ofShape n) := by
  have heq : Candidate.ofShape n = { Candidate.ofShape m with span := n.span } := by
    simp only [Candidate.ofShape, h.rule]
    split
    · simp only [Candidate.ofSecret, h.rule, h.bindings, h.confidence]
    · simp only [Candidate.ofEvidence, h.rule, h.bindings, h.confidence]
  have hplace : (Candidate.ofShape m).span = m.span ∧ (Candidate.ofShape m).path = [] := by
    unfold Candidate.ofShape
    split
    · exact ⟨rfl, rfl⟩
    · exact ⟨rfl, rfl⟩
  rw [heq]
  refine ⟨rfl, ?_, ?_, rfl, rfl, rfl, List.forall₂_same.mpr (P.syntactic m)⟩
  · rw [hplace.1]
    exact h.span
  · rw [hplace.2]
    exact .nil

/-! ## Flows -/

namespace Flow.Alike

variable {f g : Flow} (h : f.Alike P g)
include h

theorem size_nodes : g.nodes.size = f.nodes.size := by
  simpa using h.nodes.length_eq.symm

theorem pushNode {a b : Node} (hab : a.Alike L.span b) :
    Flow.Alike P { f with nodes := f.nodes.push a } { g with nodes := g.nodes.push b } :=
  { h with
    nodes := by
      rw [Array.toList_push, Array.toList_push]
      exact List.rel_append h.nodes (.cons hab .nil) }

theorem report {c d : Candidate} (hcd : c.Alike P d) :
    Flow.Alike P { f with candidates := f.candidates.push c } { g with candidates := g.candidates.push d } :=
  { h with
    candidates := by
      rw [Array.toList_push, Array.toList_push]
      exact List.rel_append h.candidates (.cons hcd .nil) }

theorem withFacts (facts : Facts) : Flow.Alike P { f with facts } { g with facts } :=
  { h with facts := rfl }

theorem reportAll {cs ds : List Candidate} (hcs : List.Forall₂ (Candidate.Alike P) cs ds) :
    Flow.Alike P { f with candidates := f.candidates ++ cs.toArray }
      { g with candidates := g.candidates ++ ds.toArray } :=
  { h with
    candidates := by
      simp only [Array.toList_append]
      exact List.rel_append h.candidates hcs }

theorem backFrom (id : NodeId) :
    List.Forall₂ (Node.Alike L.span) (backFrom f.nodes id) (backFrom g.nodes id) := by
  induction id using Nat.strongRecOn with
  | _ id ih =>
    rw [TaintScan.backFrom, TaintScan.backFrom]
    obtain ⟨ha, hb⟩ | ⟨a, b, ha, hb, hab⟩ := getElem?_cases h.nodes id
    · rw [ha, hb]
      exact .nil
    · rw [ha, hb]
      dsimp only
      rw [hab.prev]
      cases a.prev with
      | none => exact .cons hab .nil
      | some p =>
        dsimp only
        split
        · next hp => exact .cons hab (ih p hp)
        · exact .cons hab .nil

theorem pathTo (node : Option NodeId) :
    List.Forall₂ (Node.Alike L.span) (pathTo f.nodes node) (pathTo g.nodes node) := by
  cases node with
  | none => exact .nil
  | some id => exact List.rel_reverse (h.backFrom id)

end Flow.Alike

/-! ## Sites -/

namespace Site.Alike

open Track

section

variable {s t : Site} (h : s.Alike P t) {a b : Span}
include h

theorem language : t.language = s.language := by
  unfold Site.language
  rw [h.unit.1, h.unit.2, P.language]

theorem lookup? (facts : Facts) (path : String) : t.lookup? facts path = s.lookup? facts path := by
  unfold Site.lookup?
  rw [h.inherited]

theorem context (facts : Facts) : t.context facts = s.context facts := by
  simp only [Site.context, Site.isSourcePath, h.registry, h.language, h.lookup?, h.scope.name]

theorem describe (id : ExprId) : t.describe id = s.describe id := by
  unfold Site.describe
  obtain ⟨ha, hb⟩ | ⟨e, e', ha, hb, he⟩ := h.arena.expr_cases id
  · rw [ha, hb]
  · have htext : t.unit.text e'.span = s.unit.text e.span := by
      rw [h.unit.1, h.unit.2]
      exact P.text he.span
    rw [ha, hb]
    dsimp only
    rw [he.kind, htext]

theorem isEntryPoint : t.scope.isEntryPoint t.language = s.scope.isEntryPoint s.language := by
  simp only [Scope.isEntryPoint, Scope.hasModifier, h.language, h.scope.annotations, h.scope.modifiers,
    h.scope.name, h.scope.kind, h.scope.parentKind]

theorem sinkCandidate {f g : Flow} (hf : f.Alike P g) (r : Rule) (hab : L.span a b) (t' : Taint)
    (callee name : String) :
    (s.sinkCandidate f.nodes r a t' callee name).Alike P (t.sinkCandidate g.nodes r b t' callee name) := by
  have hpath := hf.pathTo t'.node
  have htags : (pathTo g.nodes t'.node).map (·.tag) = (pathTo f.nodes t'.node).map (·.tag) := by
    have hrel : List.Forall₂ Eq ((pathTo f.nodes t'.node).map (·.tag)) ((pathTo g.nodes t'.node).map (·.tag)) :=
      List.rel_map (fun _ _ hab => hab.tag.symm) hpath
    rw [List.forall₂_eq_eq_eq] at hrel
    exact hrel.symm
  refine ⟨rfl, hab, List.rel_map (fun _ _ hab => hab.span) hpath, ?_, rfl, rfl, ?_⟩
  · simp only [Site.sinkCandidate, htags, h.tag]
  · simp only [Site.sinkCandidate]
    revert hpath
    generalize pathTo f.nodes t'.node = path
    generalize pathTo g.nodes t'.node = path'
    intro hpath
    cases hpath with
    | nil => exact .nil
    | cons hab _ =>
      simp only [List.head?_cons, Option.map_some, Option.toList_some, h.unit.1, h.unit.2]
      exact .cons (P.origin hab.span _) .nil

theorem emit {f g : Flow} (hf : f.Alike P g) (r : Rule) {a b : Span} (hab : L.span a b) (t' : Taint)
    (callee name : String) :
    Leads (.same (Flow.Alike P)) f g (s.emit r a t' callee name f) (t.emit r b t' callee name g) :=
  ⟨hf.report (h.sinkCandidate hf r hab t' callee name), ⟨trivial, trivial⟩, trivial⟩

theorem reportSinks {f g : Flow} (hf : f.Alike P g) {a b : Span} (hab : L.span a b) (args : List (ExprId × Taint))
    (callee : String) (constructs : Bool) :
    Leads (.same (Flow.Alike P)) f g (s.reportSinks a callee constructs args f)
      (t.reportSinks b callee constructs args g) := by
  unfold Site.reportSinks
  rw [h.registry, h.language]
  refine .forEach hf fun p _ f' g' hf' _ _ => ?_
  cases sinkHit? p.2 args with
  | none => exact .pure hf' trivial
  | some hit =>
    dsimp only
    rw [h.describe]
    exact h.emit hf' _ hab _ _ _

end

/-! ## Sites whose statements stand at corresponding places -/

variable {s t : Site} (h : s.Alike P t) (hspan : L.span s.span t.span)
include h hspan

theorem define {f g : Flow} (hf : f.Alike P g) (prev : Option NodeId) :
    Meets (.same (Flow.Alike P)) (fun _ _ => Eq) f g (s.define prev f) (t.define prev g) := by
  have hfolded : t.folded g.nodes prev = s.folded f.nodes prev := by
    cases prev with
    | none => rfl
    | some id =>
      simp only [folded, h.firstNode]
      obtain ⟨ha, hb⟩ | ⟨a, b, ha, hb, hab⟩ := getElem?_cases hf.nodes id
      · rw [ha, hb]
      · rw [ha, hb, Option.bind_some, Option.bind_some, hab.prev]
  rw [define_apply, define_apply]
  exact ⟨hf.pushNode ⟨hspan, h.tag, hfolded⟩, ⟨trivial, trivial⟩, hf.size_nodes.symm⟩

theorem reportTargetSinks {f g : Flow} (hf : f.Alike P g) (t' : Taint) (target : String) (value : Option ExprId) :
    Leads (.same (Flow.Alike P)) f g (s.reportTargetSinks target value t' f)
      (t.reportTargetSinks target value t' g) := by
  have hname : t.describe = s.describe := funext h.describe
  unfold Site.reportTargetSinks
  rw [h.registry, h.language, hname]
  split
  · refine .forEach hf fun p _ f' g' hf' _ _ => ?_
    split
    · exact h.emit hf' _ hspan _ _ _
    · exact .pure hf' trivial
  · exact .pure hf trivial

theorem mirrors : s.Mirrors (.same (Flow.Alike P)) L.span t where
  insertFact hf hab key := by
    rw [hab.eq, hf.facts]
    exact ⟨hf.withFacts _, ⟨trivial, trivial⟩, trivial⟩
  fact hf key := hf.facts ▸ Taint.Twin.optionRel_refl _
  lookup? hf path := by
    rw [h.lookup?, hf.facts]
    exact Taint.Twin.optionRel_refl _
  pushSource hf hab := ⟨hf.pushNode ⟨hab, h.tag, rfl⟩, ⟨trivial, trivial⟩, hf.size_nodes.symm⟩
  define hf hprev := by
    cases hprev with
    | none => exact h.define hspan hf none
    | some hab => exact hab ▸ h.define hspan hf _
  size_arena := h.arena.size
  expr_cases := h.arena.expr_cases
  seed := h.seed
  sourceOfPath? _ := by rw [h.registry, h.language]
  sourceOfCall? _ _ := by rw [h.registry, h.language]
  sanitizerOfCall? _ _ := by rw [h.registry, h.language]
  reportSinks hf hab hargs := Taint.Twin.args_eq hargs ▸ h.reportSinks hf hab _
  reportTargetSinks hf hab := hab.eq ▸ h.reportTargetSinks hspan hf _

theorem effect {f g : Flow} (hf : f.Alike P g) {r : ExprArena} {st st' : Statement} (hst : st.Alike L.span r st')
    (secretTargets : List String) : (s.effect st secretTargets f).2.Alike P (t.effect st' secretTargets g).2 := by
  rw [effect_congr t hst.kind hst.targets hst.operands.1.symm hst.compound]
  exact ((h.mirrors hspan).effect hf st secretTargets).rel

end Site.Alike

/-! ## Passes -/

namespace Site.Alike

open Track

variable {s t : Site} (h : s.Alike P t) {r : ExprArena} {st st' : Statement}
include h

theorem atStatement (hst : st.Matches L r st') {f g : Flow} (hf : f.Alike P g) :
    (s.atStatement st f).Alike P (t.atStatement st' g) :=
  { h with tag := hst.controlTag, firstNode := hf.size_nodes }

/-- A silent statement does nothing, wherever it stands. -/
theorem effect_matches (hst : st.Matches L r st') {f g f' g' : Flow} (hf : f.Alike P g) (hf' : f'.Alike P g')
    (secretTargets : List String) :
    ((s.atStatement st f).effect st secretTargets f').2.Alike P
      ((t.atStatement st' g).effect st' secretTargets g').2 := by
  cases hst with
  | plain hst => exact (h.atStatement (.plain hst) hf).effect hst.span hf' hst secretTargets
  | silent hk hst =>
    unfold Site.effect
    rw [hst.kind]
    cases hkind : st.kind with
    | unparsed => exact hf'
    | controlClose => exact hf'
    | _ =>
      rw [hkind] at hk
      cases hk

theorem statement (hst : st.Matches L r st') {f g f' : Flow} (hf : f.Alike P g) (hok : s.statement st f = .ok f') :
    ∃ g', t.statement st' g = .ok g' ∧ f'.Alike P g' := by
  obtain ⟨found, hfound, rfl⟩ := statement_eq_ok_iff.mp hok
  obtain ⟨found', hfound', hmatches⟩ := s.registry.matchShapes_alike h.arena hst hfound
  have hcontext : (t.atStatement st' g).context g.facts = (s.atStatement st f).context f.facts := by
    rw [hf.facts]
    exact (h.atStatement hst hf).context f.facts
  have htargets : found'.filterMap secretTarget? = found.filterMap secretTarget? := by
    have hrel : List.Forall₂ Eq (found.filterMap secretTarget?) (found'.filterMap secretTarget?) := by
      refine List.rel_filterMap (fun m m' hm => ?_) hmatches
      have hsame : secretTarget? m' = secretTarget? m := by
        unfold secretTarget?
        rw [hm.rule, hm.bindings]
      rw [hsame]
      cases secretTarget? m with
      | none => exact .none
      | some target => exact .some rfl
    rw [List.forall₂_eq_eq_eq] at hrel
    exact hrel.symm
  have hreported := hf.reportAll
    (List.rel_map (fun _ _ hm => ShapeMatch.Alike.ofShape (P := P) hm) hmatches)
  refine ⟨_, statement_eq_ok_iff.mpr ⟨found', ?_, rfl⟩, ?_⟩
  · rw [hcontext, h.registry, h.language]
    exact hfound'
  · rw [htargets]
    exact h.effect_matches hst hf hreported _

theorem walk {sts sts' : List Statement} (hsts : List.Forall₂ (Statement.Matches L r) sts sts') {f g f' : Flow}
    {p p' : Progress} (hf : f.Alike P g) (hok : s.walk sts f p = (.ok f', p')) :
    ∃ g', t.walk sts' g p = (.ok g', p') ∧ f'.Alike P g' := by
  induction hsts generalizing f g p with
  | nil =>
    cases hok
    exact ⟨g, rfl, hf⟩
  | cons hst _ ih =>
    rw [Site.walk] at hok ⊢
    split at hok
    · cases hok
    · split at hok
      · cases hok
      · next hnext =>
        obtain ⟨g₁, hg₁, hf₁⟩ := h.statement hst hf hnext
        rw [hg₁]
        exact ih hf₁ hok

theorem seedParams (hf : f.Alike P g) : (s.seedParams f).2.Alike P (t.seedParams g).2 := by
  have hparams := h.scope.params
  unfold Site.seedParams
  rw [h.seed, h.isEntryPoint]
  split
  · generalize s.scope.params = params at hparams
    generalize t.scope.params = params' at hparams
    induction hparams generalizing f g with
    | nil => exact hf
    | @cons a b _ _ hab _ ih =>
      have hpush := hf.pushNode (a := ⟨a.span, 0, none⟩) (b := ⟨b.span, 0, none⟩) ⟨hab.span, rfl, rfl⟩
      have hfacts : g.facts.insert b.name (.labelled (.of .untrusted) g.nodes.size) =
          f.facts.insert a.name (.labelled (.of .untrusted) f.nodes.size) := by
        rw [hf.facts, hab.name, hf.size_nodes]
      exact ih (f := { f with nodes := _, facts := _ }) (g := { g with nodes := _, facts := _ })
        ⟨hfacts, hpush.nodes, hf.candidates⟩
  · exact hf

end Site.Alike

theorem enclosing_alike {L : Likeness} {r : ExprArena} {as bs : Array Scope}
    (h : List.Forall₂ (Scope.Alike L r) as.toList bs.toList) (index fuel : Nat) (p : Option Nat) :
    enclosing bs index fuel p = enclosing as index fuel p := by
  induction fuel generalizing p with
  | zero => rfl
  | succ k ih =>
    cases p with
    | none => rfl
    | some p =>
      simp only [enclosing]
      obtain ⟨ha, hb⟩ | ⟨a, b, ha, hb, hab⟩ := getElem?_cases h p
      · rw [ha, hb, ih]
      · rw [ha, hb, Option.bind_some, Option.bind_some, hab.parent, ih]

namespace SourceUnit

variable {x y : ExtractedUnit} (hx : x.Alike L y)
include hx

theorem siteIn_alike (registry : Registry) (options : AnalysisOptions) (done : Array Facts) {a b : Scope}
    (hab : a.Alike L x.arena b) :
    (u.siteIn x registry options done a).Alike P (w.siteIn y registry options done b) where
  unit := ⟨rfl, rfl⟩
  arena := hx.arena
  registry := rfl
  seed := rfl
  scope := hab
  inherited := by simp only [siteIn, enclosing_alike hx.scopes, hab.parent]
  tag := rfl
  firstNode := rfl

theorem trackFrom_alike {registry : Registry} {options : AnalysisOptions} {as bs : List Scope}
    (hscopes : List.Forall₂ (Scope.Alike L x.arena) as bs) {done : Array Facts} {f g f' : Flow}
    {p p' : Progress} (hf : f.Alike P g) (h : u.trackFrom x registry options as done f p = (.ok f', p')) :
    ∃ g', w.trackFrom y registry options bs done g p = (.ok g', p') ∧ f'.Alike P g' := by
  induction hscopes generalizing done f g p with
  | nil =>
    cases h
    exact ⟨g, rfl, hf⟩
  | @cons a b _ _ hab _ ih =>
    have hsite := siteIn_alike (P := P) hx registry options done hab
    have hseeded := hsite.seedParams (hf.withFacts {})
    rw [trackFrom] at h
    split at h
    · cases h
    · next hwalk =>
      obtain ⟨g₁, hg₁, hf₁⟩ := hsite.walk hab.statements hseeded hwalk
      obtain ⟨g', hg', hf'⟩ := ih hf₁ h
      refine ⟨g', ?_, hf'⟩
      rw [← hf₁.facts] at hg'
      rw [trackFrom]
      split
      · next hok => cases hg₁.symm.trans hok
      · next hok =>
        cases hg₁.symm.trans hok
        exact hg'

/-- Where a pass over a unit comes to its end, a pass over an alike unit does too, with alike candidates. -/
theorem track_alike (P : Pairing L u w) {registry : Registry} {options : AnalysisOptions} {countdown c : Countdown}
    {candidates : List Candidate} (h : u.track x registry options countdown = (.ok candidates, c)) :
    ∃ candidates', w.track y registry options countdown = (.ok candidates', c) ∧
      List.Forall₂ (Candidate.Alike P) candidates candidates' := by
  unfold track at h ⊢
  split at h
  · cases h
  · next hok =>
    cases h
    have hempty : Flow.Alike P {} {} := ⟨rfl, .nil, .nil⟩
    obtain ⟨g, hg, hflow⟩ := trackFrom_alike hx hx.scopes hempty hok
    rw [hg]
    exact ⟨_, rfl, hflow.candidates⟩

end SourceUnit
end TaintScan
