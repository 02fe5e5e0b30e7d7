import TaintScan.Proofs.Extract.Parse
import TaintScan.Proofs.Flow.Statement

/-! # One statement at two sites

A statement asks what is known of paths, which calls and paths are sources, which calls sanitize, and how many
definitions there are; spans, rules and candidates are passed on unseen. At two sites where these answers correspond,
every step gives taints that correspond, and flows stay related if reports and definitions keep them so.
-/
namespace TaintScan

/-! ## Taints -/

/-- The same labels and marks, from definitions that are linked. -/
structure Taint.Twin (L : NodeId → NodeId → Prop) (t t' : Taint) : Prop where
  labels : t'.labels = t.labels
  node : Option.Rel L t.node t'.node
  adjacent : t'.adjacent = t.adjacent

theorem optionRel_mono {α β : Type} {R S : α → β → Prop} (h : ∀ a b, R a b → S a b) {x : Option α} {y : Option β}
    (hxy : Option.Rel R x y) : Option.Rel S x y := by
  cases hxy with
  | none => exact .none
  | some hab => exact .some (h _ _ hab)

theorem option_map_cases {α β γ : Type} {f : α → γ} {g : β → γ} {x : Option α} {y : Option β}
    (h : y.map g = x.map f) : (x = none ∧ y = none) ∨ ∃ a b, x = some a ∧ y = some b ∧ g b = f a := by
  cases x <;> cases y <;> simp_all

namespace Taint.Twin

variable {L M : NodeId → NodeId → Prop} {t t' a a' b b' : Taint}

theorem mono (h : ∀ i j, L i j → M i j) (ht : t.Twin L t') : t.Twin M t' :=
  { ht with node := optionRel_mono h ht.node }

theorem isTainted (h : t.Twin L t') : t'.isTainted = t.isTainted := by
  rw [Taint.isTainted, Taint.isTainted, h.labels]

theorem of_clean : Taint.clean.Twin L .clean := ⟨rfl, .none, rfl⟩

theorem labelled (labels : LabelSet) {i j : NodeId} (h : L i j) :
    (Taint.labelled labels i).Twin L (.labelled labels j) := ⟨rfl, .some h, rfl⟩

theorem join (ha : a.Twin L a') (hb : b.Twin L b') : (a.join b).Twin L (a'.join b') where
  labels := by
    simp only [Taint.join, ha.labels, hb.labels]
  node := by
    simp only [Taint.join, ha.isTainted]
    split
    · exact ha.node
    · exact hb.node
  adjacent := by
    simp only [Taint.join, ha.adjacent, hb.adjacent]

theorem joinAll {ts ts' : List Taint} (h : List.Forall₂ (Taint.Twin L) ts ts') :
    (Taint.joinAll ts).Twin L (.joinAll ts') := by
  have hfold : ∀ a a' : Taint, a.Twin L a' → (ts.foldl Taint.join a).Twin L (ts'.foldl Taint.join a') := by
    induction h with
    | nil => exact fun _ _ ha => ha
    | cons ht _ ih => exact fun _ _ ha => ih _ _ (ha.join ht)
  exact hfold _ _ of_clean

theorem headD {ts ts' : List Taint} (h : List.Forall₂ (Taint.Twin L) ts ts') :
    (ts.headD .clean).Twin L (ts'.headD .clean) := by
  cases h with
  | nil => exact of_clean
  | cons ht _ => exact ht

theorem getD {x x' : Option Taint} (h : Option.Rel (Taint.Twin L) x x') : (x.getD .clean).Twin L (x'.getD .clean) := by
  cases h with
  | none => exact of_clean
  | some h => exact h

theorem remove (h : t.Twin L t') (labels : LabelSet) : (t.remove labels).Twin L (t'.remove labels) where
  labels := by
    simp only [Taint.remove, h.labels]
  node := by
    simp only [Taint.remove, h.labels]
    split
    · exact .none
    · exact h.node
  adjacent := h.adjacent

theorem withNode (h : t.Twin L t') {i j : NodeId} (hij : L i j) :
    Taint.Twin L { t with node := some i } { t' with node := some j } := ⟨h.labels, .some hij, h.adjacent⟩

theorem eq (h : t.Twin Eq t') : t' = t := by
  obtain ⟨labels, node, adjacent⟩ := t
  obtain ⟨labels', node', adjacent'⟩ := t'
  obtain ⟨rfl, hnode, rfl⟩ := h
  cases hnode with
  | none => rfl
  | some h => rw [h]

theorem refl (t : Taint) : t.Twin Eq t where
  labels := rfl
  node := by
    cases t.node with
    | none => exact .none
    | some id => exact .some rfl
  adjacent := rfl

theorem optionRel_refl (x : Option Taint) : Option.Rel (Taint.Twin Eq) x x := by
  cases x with
  | none => exact .none
  | some t => exact .some (refl t)

theorem args_eq {args args' : List (ExprId × Taint)}
    (h : List.Forall₂ (fun p q => q.1 = p.1 ∧ Taint.Twin Eq p.2 q.2) args args') : args' = args := by
  induction h with
  | nil => rfl
  | cons h _ ih => rw [ih, Prod.ext h.1 h.2.eq]

end Taint.Twin

/-! ## Steps -/

/-- A relation between two flows, and a link between their definitions that lasts while both flows grow. -/
structure FlowLink where
  rel : Flow → Flow → Prop
  link : Flow → Flow → NodeId → NodeId → Prop
  grows : Flow → Flow → Prop
  refl : ∀ f, grows f f
  trans : ∀ {f g h}, grows f g → grows g h → grows f h
  mono : ∀ {f f' g g'}, grows f f' → grows g g' → ∀ a b, link f g a b → link f' g' a b

def FlowLink.value (K : FlowLink) (f g : Flow) : Taint → Taint → Prop := Taint.Twin (K.link f g)

def FlowLink.same (rel : Flow → Flow → Prop) : FlowLink where
  rel := rel
  link _ _ := Eq
  grows _ _ := True
  refl _ := trivial
  trans _ _ := trivial
  mono _ _ _ _ h := h

/-- The ends of two steps from related flows: related again, grown from there, and with results that correspond. -/
structure Track.Meets {α β : Type} (K : FlowLink) (R : Flow → Flow → α → β → Prop) (f g : Flow) (p : α × Flow)
    (q : β × Flow) : Prop where
  rel : K.rel p.2 q.2
  grows : K.grows f p.2 ∧ K.grows g q.2
  result : R p.2 q.2 p.1 q.1

abbrev Track.Leads {α β : Type} (K : FlowLink) (f g : Flow) (p : α × Flow) (q : β × Flow) : Prop :=
  Track.Meets K (fun _ _ _ _ => True) f g p q

theorem FlowLink.value.mono {K : FlowLink} {f f' g g' : Flow} {a b : Taint} (h : K.value f g a b) (hf : K.grows f f')
    (hg : K.grows g g') : K.value f' g' a b := Taint.Twin.mono (K.mono hf hg) h

namespace Track.Meets

variable {K : FlowLink} {f g : Flow} {α β γ δ : Type} {R : Flow → Flow → α → β → Prop}

theorem pure (hf : K.rel f g) {a : α} {b : β} (h : R f g a b) : Meets K R f g (a, f) (b, g) :=
  ⟨hf, ⟨K.refl f, K.refl g⟩, h⟩

theorem after {S : Flow → Flow → γ → δ → Prop} {p : α × Flow} {q : β × Flow} {p' : γ × Flow} {q' : δ × Flow}
    (h : Meets K R f g p q) (h' : Meets K S p.2 q.2 p' q') : Meets K S f g p' q' :=
  ⟨h'.rel, ⟨K.trans h.grows.1 h'.grows.1, K.trans h.grows.2 h'.grows.2⟩, h'.result⟩

theorem bind {S : Flow → Flow → γ → δ → Prop} {p : Track α} {q : Track β} {k : α → Track γ} {l : β → Track δ}
    (h : Meets K R f g (p f) (q g))
    (hk : ∀ {a b f' g'}, K.rel f' g' → K.grows f f' → K.grows g g' → R f' g' a b → Meets K S f' g' (k a f') (l b g')) :
    Meets K S f g ((p >>= k) f) ((q >>= l) g) := by
  rw [bind_apply, bind_apply]
  exact h.after (hk h.rel h.grows.1 h.grows.2 h.result)

theorem each
    (hR : ∀ {f g f' g' a b}, K.grows f f' → K.grows g g' → R f g a b → R f' g' a b) {p : γ → Track α} {q : γ → Track β}
    {items : List γ} (hf : K.rel f g)
    (h : ∀ i ∈ items, ∀ {f' g'}, K.rel f' g' → K.grows f f' → K.grows g g' → Meets K R f' g' (p i f') (q i g')) :
    Meets K (fun f g => List.Forall₂ (R f g)) f g (Track.each p items f) (Track.each q items g) := by
  induction items generalizing f g with
  | nil => exact .pure hf .nil
  | cons i rest ih =>
    obtain ⟨hi, hrest⟩ := List.forall_mem_cons.mp h
    refine (hi hf (K.refl f) (K.refl g)).bind fun hf₁ hkf hkg hab => ?_
    refine (ih hf₁ fun j hj _ _ hf₂ hkf' hkg' => ?_).bind fun hf₂ hkf' hkg' hrest => ?_
    · exact hrest j hj hf₂ (K.trans hkf hkf') (K.trans hkg hkg')
    · exact .pure hf₂ (.cons (hR hkf' hkg' hab) hrest)

theorem forEach {p : γ → Track α} {q : γ → Track β} {items : List γ} (hf : K.rel f g)
    (h : ∀ i ∈ items, ∀ {f' g'}, K.rel f' g' → K.grows f f' → K.grows g g' → Leads K f' g' (p i f') (q i g')) :
    Leads K f g ((Track.each p items >>= fun _ => Pure.pure PUnit.unit) f)
      ((Track.each q items >>= fun _ => Pure.pure PUnit.unit) g) :=
  (each (fun _ _ h => h) hf h).bind fun hf _ _ _ => .pure hf trivial

end Track.Meets

/-! ## Sites -/

/-- Two sites where the same is asked of related flows. Expressions stand at places that `S` relates. -/
structure Site.Mirrors (s : Site) (K : FlowLink) (S : Span → Span → Prop) (t : Site) : Prop where
  insertFact : ∀ {f g a b}, K.rel f g → K.value f g a b → ∀ key,
    Track.Leads K f g ((), { f with facts := f.facts.insert key a }) ((), { g with facts := g.facts.insert key b })
  fact : ∀ {f g}, K.rel f g → ∀ key : String, Option.Rel (K.value f g) f.facts[key]? g.facts[key]?
  lookup? : ∀ {f g}, K.rel f g → ∀ path,
    Option.Rel (K.value f g) (s.lookup? f.facts path) (t.lookup? g.facts path)
  pushSource : ∀ {f g a b}, K.rel f g → S a b →
    Track.Meets K K.link f g (f.nodes.size, { f with nodes := f.nodes.push ⟨a, s.tag, none⟩ })
      (g.nodes.size, { g with nodes := g.nodes.push ⟨b, t.tag, none⟩ })
  define : ∀ {f g prev prev'}, K.rel f g → Option.Rel (K.link f g) prev prev' →
    Track.Meets K K.link f g (s.define prev f) (t.define prev' g)
  size_arena : t.arena.size = s.arena.size
  expr_cases : ∀ id : ExprId, (s.arena.exprs[id]? = none ∧ t.arena.exprs[id]? = none) ∨
    ∃ e e' : Expr, s.arena.exprs[id]? = some e ∧ t.arena.exprs[id]? = some e' ∧ e.Alike S e'
  seed : t.seed = s.seed
  sourceOfPath? : ∀ path, (t.registry.sourceOfPath? path t.language).map (·.2) =
    (s.registry.sourceOfPath? path s.language).map (·.2)
  sourceOfCall? : ∀ callee constructs, (t.registry.sourceOfCall? callee constructs t.language).map (·.2) =
    (s.registry.sourceOfCall? callee constructs s.language).map (·.2)
  sanitizerOfCall? : ∀ callee constructs,
    (t.registry.sanitizerOfCall? callee constructs t.language).map (fun hit => (hit.removes, hit.isPartial)) =
      (s.registry.sanitizerOfCall? callee constructs s.language).map fun hit => (hit.removes, hit.isPartial)
  reportSinks : ∀ {f g a b args args'}, K.rel f g → S a b →
    List.Forall₂ (fun p q => q.1 = p.1 ∧ K.value f g p.2 q.2) args args' → ∀ callee constructs,
    Track.Leads K f g (s.reportSinks a callee constructs args f) (t.reportSinks b callee constructs args' g)
  reportTargetSinks : ∀ {f g a b}, K.rel f g → K.value f g a b → ∀ target value,
    Track.Leads K f g (s.reportTargetSinks target value a f) (t.reportTargetSinks target value b g)

theorem Site.effect_congr (s : Site) {st st' : Statement} (hkind : st'.kind = st.kind)
    (htargets : st'.targets = st.targets) (hoperands : st'.operands = st.operands)
    (hcompound : st'.compound = st.compound) : s.effect st' = s.effect st := by
  cases st
  cases st'
  cases hkind
  cases htargets
  cases hoperands
  cases hcompound
  rfl

namespace Site.Mirrors

open Track

variable {K : FlowLink} {S : Span → Span → Prop} {s t : Site} (h : s.Mirrors K S t)

theorem zip_values {f g : Flow} (args : List ExprId) {taints taints' : List Taint}
    (hvalues : List.Forall₂ (K.value f g) taints taints') :
    List.Forall₂ (fun p q => q.1 = p.1 ∧ K.value f g p.2 q.2) (args.zip taints) (args.zip taints') := by
  induction hvalues generalizing args with
  | nil =>
    rw [List.zip_nil_right]
    exact .nil
  | cons hv _ ih =>
    cases args with
    | nil => exact .nil
    | cons arg rest => exact .cons ⟨rfl, hv⟩ (ih rest)

include h

theorem kind? (id : ExprId) : t.arena.kind? id = s.arena.kind? id := by
  unfold ExprArena.kind?
  obtain ⟨ha, hb⟩ | ⟨e, e', ha, hb, he⟩ := h.expr_cases id
  · rw [ha, hb]
  · rw [ha, hb, Option.map_some, Option.map_some, he.kind]

variable {f g : Flow} (hf : K.rel f g)
include hf

theorem known (path : String) :
    K.value f g ((s.lookup? f.facts path).getD .clean) ((t.lookup? g.facts path).getD .clean) :=
  .getD (h.lookup? hf path)

/-! ## Expressions -/

theorem source {a b : Span} (hab : S a b) (label : Label) {x y : Taint} (hxy : K.value f g x y) :
    Meets K K.value f g
      ((Taint.labelled (.of label) f.nodes.size).join x, { f with nodes := f.nodes.push ⟨a, s.tag, none⟩ })
      ((Taint.labelled (.of label) g.nodes.size).join y, { g with nodes := g.nodes.push ⟨b, t.tag, none⟩ }) := by
  have hpush := h.pushSource hf hab
  exact ⟨hpush.rel, hpush.grows, (Taint.Twin.labelled _ hpush.result).join (hxy.mono hpush.grows.1 hpush.grows.2)⟩

theorem read (path : String) {a b : Span} (hab : S a b) : Meets K K.value f g (s.read path a f) (t.read path b g) := by
  have hknown := h.known hf path
  rw [read_apply, read_apply]
  obtain ⟨hs, ht⟩ | ⟨hit, hit', hs, ht, hlabel⟩ := option_map_cases (h.sourceOfPath? path)
  · rw [hs, ht]
    exact .pure hf hknown
  · rw [hs, ht]
    dsimp only
    rw [hlabel]
    exact h.source hf hab _ hknown

theorem callResult {a b : Span} (hab : S a b) (callee : String) (constructs : Bool) {x y : Taint}
    (hxy : K.value f g x y) :
    Meets K K.value f g (s.callResult a callee constructs x f) (t.callResult b callee constructs y g) := by
  rw [callResult_apply, callResult_apply]
  obtain ⟨hs, ht⟩ | ⟨hit, hit', hs, ht, hlabel⟩ := option_map_cases (h.sourceOfCall? callee constructs)
  · rw [hs, ht]
    dsimp only
    obtain ⟨hs, ht⟩ | ⟨hit, hit', hs, ht, heq⟩ := option_map_cases (h.sanitizerOfCall? callee constructs)
    · rw [hs, ht]
      exact .pure hf hxy
    · obtain ⟨hremoves, hpartial⟩ := Prod.mk.inj heq
      rw [hs, ht]
      dsimp only
      rw [hremoves, hpartial]
      refine .pure hf ?_
      split
      · exact ⟨hxy.labels, hxy.node, by simp only [hxy.adjacent, hxy.isTainted]⟩
      · exact hxy.remove _
  · rw [hs, ht]
    dsimp only
    rw [hlabel]
    exact h.source hf hab _ hxy

theorem defineFact (path : String) {a b : Taint} (hab : K.value f g a b) :
    Leads K f g (setFact path { a with node := some f.nodes.size } (s.define a.node f).2)
      (setFact path { b with node := some g.nodes.size } (t.define b.node g).2) := by
  have hdefine := h.define hf hab.node
  refine hdefine.after (h.insertFact hdefine.rel ?_ _)
  have hlink := hdefine.result
  rw [define_apply, define_apply] at hdefine hlink ⊢
  exact (hab.mono hdefine.grows.1 hdefine.grows.2).withNode hlink

theorem storeInto (receiver : ExprId) {a b : Taint} (hab : K.value f g a b) :
    Leads K f g (s.storeInto receiver a f) (t.storeInto receiver b g) := by
  rw [storeInto_apply, storeInto_apply, h.kind?]
  split
  · next path _ => exact h.defineFact hf path ((h.known hf path).join hab)
  · exact .pure hf trivial

theorem evalTo (fuel : Nat) (id : ExprId) : Meets K K.value f g (s.evalTo fuel id f) (t.evalTo fuel id g) := by
  induction fuel generalizing id f g with
  | zero => exact .pure hf .of_clean
  | succ n ih =>
    have children {f g : Flow} (hf : K.rel f g) (ids : List ExprId) :
        Meets K (fun f g => List.Forall₂ (K.value f g)) f g (each (s.evalTo n) ids f) (each (t.evalTo n) ids g) :=
      .each (fun hf hg hv => hv.mono hf hg) hf fun id _ _ _ hf _ _ => ih hf id
    rw [Site.evalTo, Site.evalTo]
    obtain ⟨ha, hb⟩ | ⟨e, e', ha, hb, he⟩ := h.expr_cases id
    · rw [ha, hb]
      exact .pure hf .of_clean
    · obtain ⟨kind, place⟩ := e
      rw [ha, hb]
      dsimp only
      rw [he.kind]
      cases kind with
      | literal kind value => exact .pure hf .of_clean
      | «variable» path => exact h.read hf path he.span
      | concat parts => exact (children hf parts).bind fun hf _ _ hparts => .pure hf (.joinAll hparts)
      | compound parts => exact (children hf parts).bind fun hf _ _ hparts => .pure hf (.joinAll hparts)
      | call callee receiver args constructs =>
        refine (children hf receiver.toList).bind fun hf₁ _ _ hreceivers => ?_
        refine (children hf₁ args).bind fun hf₂ hkf₂ hkg₂ hargs => ?_
        refine (h.reportSinks hf₂ he.span (zip_values args hargs) callee constructs).bind fun hf₃ hkf₃ hkg₃ _ => ?_
        have hreceivers := Taint.Twin.joinAll (hreceivers.imp fun _ _ hv => (hv.mono hkf₂ hkg₂).mono hkf₃ hkg₃)
        have hargs := Taint.Twin.joinAll (hargs.imp fun _ _ hv => hv.mono hkf₃ hkg₃)
        have hinput := hreceivers.join hargs
        rw [hargs.isTainted]
        split
        · refine (Meets.each (R := fun _ _ _ _ => True) (fun _ _ h => h) hf₃ fun r _ _ _ hf hkf hkg => ?_).bind
            fun hf hkf hkg _ => ?_
          · exact h.storeInto hf r (hargs.mono (K.mono hkf hkg))
          · exact h.callResult hf he.span callee constructs (hinput.mono (K.mono hkf hkg))
        · exact h.callResult hf₃ he.span callee constructs hinput

theorem evalAll (ids : List ExprId) :
    Meets K (fun f g => List.Forall₂ (K.value f g)) f g (each s.eval ids f) (each t.eval ids g) := by
  unfold Site.eval
  rw [h.size_arena]
  exact .each (fun hf hg hv => hv.mono hf hg) hf fun id _ _ _ hf _ _ => h.evalTo hf _ id

/-! ## Statements -/

theorem written (st : Statement) (secretTargets : List String) {a b : Taint} (hab : K.value f g a b)
    (target : String) :
    K.value f g (s.written st secretTargets a target f.facts) (t.written st secretTargets b target g.facts) := by
  have hbase : K.value f g
      (if st.compound then ((s.lookup? f.facts target).getD .clean).join a else a)
      (if st.compound then ((t.lookup? g.facts target).getD .clean).join b else b) := by
    split
    · exact (h.known hf target).join hab
    · exact hab
  unfold Site.written
  dsimp only
  split
  · exact ⟨congrArg (LabelSet.insert · .secret) hbase.labels, hbase.node, hbase.adjacent⟩
  · exact hbase

theorem assign (st : Statement) (secretTargets : List String) {a b : Taint} (hab : K.value f g a b)
    (target : String) :
    Leads K f g (s.assign st secretTargets a target f) (t.assign st secretTargets b target g) := by
  have hreport := h.reportTargetSinks hf hab target st.operands.head?
  have hwritten := h.written hreport.rel st secretTargets (hab.mono hreport.grows.1 hreport.grows.2) target
  rw [assign_apply, assign_apply]
  dsimp only
  rw [hwritten.isTainted]
  split
  · exact hreport.after (h.defineFact hreport.rel target hwritten)
  · refine hreport.after (h.insertFact hreport.rel ?_ _)
    exact ⟨hwritten.labels, .none, hwritten.adjacent⟩

theorem assignment (st : Statement) (secretTargets : List String) :
    Leads K f g (s.assignment st secretTargets f) (t.assignment st secretTargets g) := by
  refine (h.evalAll hf st.operands).bind fun hf₁ _ _ hvalues => .forEach hf₁ ?_
  intro target _ f' g' hf' hkf hkg
  exact h.assign hf' st secretTargets ((Taint.Twin.headD hvalues).mono (K.mono hkf hkg)) target

theorem bound (st : Statement) (kind : ControlKind) {a b : Taint} (hab : K.value f g a b) :
    Meets K K.value f g (s.bound st kind a f) (t.bound st kind b g) := by
  have hkind : t.arena.kind? = s.arena.kind? := funext h.kind?
  have hroutes : t.routesRequests st = s.routesRequests st := by
    unfold Site.routesRequests
    rw [h.seed, hkind]
  have hnone := h.define hf (Option.Rel.none : Option.Rel (K.link f g) none none)
  have hdefine := h.define hf hab.node
  unfold Site.bound
  rw [hroutes, hab.isTainted]
  rw [define_apply, define_apply] at hnone hdefine
  rw [define_apply, define_apply, define_apply, define_apply]
  split
  · exact ⟨hnone.rel, hnone.grows, .labelled _ hnone.result⟩
  · split
    · exact ⟨hnone.rel, hnone.grows, .labelled _ hnone.result⟩
    · split
      · have hab := hab.mono hdefine.grows.1 hdefine.grows.2
        exact ⟨hdefine.rel, hdefine.grows, hab.withNode hdefine.result⟩
      · exact .pure hf .of_clean

theorem openBlock (st : Statement) (kind : ControlKind) :
    Leads K f g (s.openBlock st kind f) (t.openBlock st kind g) := by
  have heval := h.evalAll hf st.operands
  have hbound := h.bound heval.rel st kind (.joinAll heval.result)
  have heq (s : Site) (f : Flow) : s.openBlock st kind f = ((), (s.openBlock st kind f).2) := rfl
  rw [heq s, heq t, openBlock_apply, openBlock_apply]
  dsimp only
  split
  · exact ⟨heval.rel, heval.grows, trivial⟩
  · have hset := Meets.each (R := fun _ _ _ _ => True) (fun _ _ h => h) hbound.rel
      fun target (_ : target ∈ st.targets) _ _ hf hkf hkg => h.insertFact hf (hbound.result.mono hkf hkg) (factKey target)
    have hends := heval.after (hbound.after hset)
    exact ⟨hends.rel, hends.grows, trivial⟩

theorem cleanArgument (removes : LabelSet) (arg : ExprId) :
    Leads K f g (s.cleanArgument removes arg f) (t.cleanArgument removes arg g) := by
  unfold Site.cleanArgument
  rw [h.kind?]
  split
  · next path _ =>
    have hfact := h.fact hf (factKey path)
    generalize f.facts[factKey path]? = x at hfact
    generalize g.facts[factKey path]? = y at hfact
    cases hfact with
    | none => exact .pure hf trivial
    | some hab => exact h.insertFact hf (hab.remove removes) _
  · exact .pure hf trivial

theorem sanitizeInPlace (call : ExprId) : Leads K f g (s.sanitizeInPlace call f) (t.sanitizeInPlace call g) := by
  unfold Site.sanitizeInPlace
  rw [h.kind?]
  cases s.arena.kind? call with
  | none => exact .pure hf trivial
  | some kind =>
    cases kind with
    | call callee receiver args constructs =>
      dsimp only
      obtain ⟨hs, ht⟩ | ⟨hit, hit', hs, ht, heq⟩ := option_map_cases (h.sanitizerOfCall? callee constructs)
      · rw [hs, ht]
        exact .pure hf trivial
      · obtain ⟨hremoves, hpartial⟩ := Prod.mk.inj heq
        rw [hs, ht]
        dsimp only
        rw [hremoves, hpartial]
        split
        · exact .forEach hf fun arg _ _ _ hf _ _ => h.cleanArgument hf _ arg
        · exact .pure hf trivial
    | _ => exact .pure hf trivial

theorem expression (st : Statement) : Leads K f g (s.expression st f) (t.expression st g) := by
  refine (h.evalAll hf st.operands).bind fun hf _ _ _ => ?_
  split
  · exact .forEach hf fun call _ _ _ hf _ _ => h.sanitizeInPlace hf call
  · exact .pure hf trivial

theorem effect (st : Statement) (secretTargets : List String) :
    Leads K f g (s.effect st secretTargets f) (t.effect st secretTargets g) := by
  unfold Site.effect
  cases st.kind with
  | unparsed => exact .pure hf trivial
  | controlClose => exact .pure hf trivial
  | controlOpen kind => exact h.openBlock hf st kind
  | assignment => exact h.assignment hf st secretTargets
  | declaration => exact h.assignment hf st secretTargets
  | call => exact h.expression hf st
  | expression => exact h.expression hf st

end Site.Mirrors
end TaintScan
