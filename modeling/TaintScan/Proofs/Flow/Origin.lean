import TaintScan.Proofs.Flow.Propagation

/-! # Where taints come from

The path of a taint goes back from its node to an origin, a node without a predecessor. `Site.Traced`
says of a taint that its labels were brought by something and that the origin of its path brought some
label, not always one that the taint still has.
-/
namespace TaintScan

/-! ## Origins of nodes -/

/-- The path to a node starts at a span. -/
inductive Origin (nodes : Array Node) : NodeId → Span → Prop where
  | root {id : NodeId} {n : Node} : nodes[id]? = some n → n.prev = none → Origin nodes id n.span
  | link {id p : NodeId} {n : Node} {o : Span} : nodes[id]? = some n → n.prev = some p → p < id →
    Origin nodes p o → Origin nodes id o

def NodesKept (nodes nodes' : Array Node) : Prop :=
  ∀ (id : NodeId) (n : Node), nodes[id]? = some n → nodes'[id]? = some n

theorem NodesKept.size_le {nodes nodes' : Array Node} (h : NodesKept nodes nodes') :
    nodes.size ≤ nodes'.size := by
  refine Nat.le_of_not_lt fun hlt => ?_
  have hn := h nodes'.size _ (Array.getElem?_eq_getElem hlt)
  exact Nat.lt_irrefl _ (Array.getElem?_eq_some_iff.mp hn).1

theorem nodesKept_push (nodes : Array Node) (n : Node) : NodesKept nodes (nodes.push n) := by
  intro id m hm
  rw [Array.getElem?_push, if_neg (Nat.ne_of_lt (Array.getElem?_eq_some_iff.mp hm).1)]
  exact hm

namespace Origin

variable {nodes nodes' : Array Node} {id : NodeId} {o : Span}

variable (h : Origin nodes id o)
include h

theorem getElem? : ∃ n, nodes[id]? = some n := by
  cases h with
  | root h _ => exact ⟨_, h⟩
  | link h _ _ _ => exact ⟨_, h⟩

theorem lt_size : id < nodes.size := by
  obtain ⟨n, hn⟩ := h.getElem?
  exact (Array.getElem?_eq_some_iff.mp hn).1

theorem mono (hkept : NodesKept nodes nodes') : Origin nodes' id o := by
  induction h with
  | root hn hprev => exact .root (hkept _ _ hn) hprev
  | link hn hprev hlt _ ih => exact .link (hkept _ _ hn) hprev hlt ih

theorem getLast?_backFrom : (backFrom nodes id).getLast?.map (·.span) = some o := by
  induction h with
  | root hn hprev =>
    rw [backFrom, hn]
    dsimp only
    rw [hprev]
    rfl
  | @link id p n o hn hprev hlt _ ih =>
    rw [backFrom, hn]
    dsimp only
    rw [hprev]
    dsimp only
    rw [dif_pos hlt, List.getLast?_cons]
    cases hlast : (backFrom nodes p).getLast? with
    | none => rw [hlast] at ih; cases ih
    | some m => rw [hlast] at ih; exact ih

theorem head?_pathTo : ((pathTo nodes (some id)).map (·.span)).head? = some o := by
  rw [List.head?_map, pathTo, List.head?_reverse]
  exact h.getLast?_backFrom

end Origin

/-! ## Traced taints -/

theorem LabelSet.exists_contains {a : LabelSet} (h : a.isEmpty = false) : ∃ l, a.contains l = true := by
  obtain ⟨u, s⟩ := a
  cases u with
  | true => exact ⟨.untrusted, rfl⟩
  | false =>
    cases s with
    | true => exact ⟨.secret, rfl⟩
    | false => cases h

theorem LabelSet.exists_contains_of_intersects {a b : LabelSet} (h : a.intersects b = true) :
    ∃ l, a.contains l = true ∧ b.contains l = true := by
  rw [intersects, Bool.or_eq_true, Bool.and_eq_true, Bool.and_eq_true] at h
  rcases h with h | h
  · exact ⟨.untrusted, h⟩
  · exact ⟨.secret, h⟩

namespace Taint

theorem isTainted_join (a b : Taint) : (a.join b).isTainted = (a.isTainted || b.isTainted) := by
  obtain ⟨⟨au, as⟩, _, _⟩ := a
  obtain ⟨⟨bu, bs⟩, _, _⟩ := b
  cases au <;> cases as <;> cases bu <;> cases bs <;> rfl

theorem isTainted_of_contains {t : Taint} {l : Label} (h : t.labels.contains l = true) :
    t.isTainted = true := by
  rw [isTainted, LabelSet.isEmpty_eq_false_of_contains h]
  rfl

end Taint

namespace Site

/-- A definition at this statement that points back to `prev` goes back to one of some spans. -/
def Folds (s : Site) (nodes : Array Node) (W : Span → Prop) : Option NodeId → Prop
  | none => W s.span
  | some p => p < s.firstNode ∧ ∃ o, Origin nodes p o ∧ W o

theorem Folds.imp {s : Site} {nodes nodes' : Array Node} {V W : Span → Prop} {prev : Option NodeId}
    (h : s.Folds nodes V prev) (hkept : NodesKept nodes nodes') (hVW : ∀ o, V o → W o) :
    s.Folds nodes' W prev := by
  cases prev with
  | none => exact hVW _ h
  | some p =>
    obtain ⟨hlt, o, ho, hV⟩ := h
    exact ⟨hlt, o, ho.mono hkept, hVW o hV⟩

/-- A taint each of whose labels something brought, and whose path starts where something brought a
label. What brings a label is asked in a strict sense for the labels, in which no sanitizer has taken
them away, and in a loose sense for the path. -/
structure Traced (s : Site) (nodes : Array Node) (brings : Bool → Label → Span → Prop) (t : Taint) :
    Prop where
  label : ∀ l, t.labels.contains l = true → ∃ o, brings true l o
  node : t.isTainted = true → ∃ n l o, t.node = some n ∧ Origin nodes n o ∧ brings false l o ∧
    s.Folds nodes (brings false l) (s.folded nodes (some n))
  clean : t.isTainted = false → t.node = none

theorem folded_eq_of_kept {s : Site} {nodes nodes' : Array Node} (hkept : NodesKept nodes nodes')
    {n : NodeId} (hn : n < nodes.size) : s.folded nodes' (some n) = s.folded nodes (some n) := by
  obtain ⟨m, hm⟩ : ∃ m, nodes[n]? = some m := ⟨_, Array.getElem?_eq_getElem hn⟩
  rw [folded, folded, hkept n m hm, hm]

namespace Traced

variable {s : Site} {nodes nodes' : Array Node} {B C : Bool → Label → Span → Prop} {t a b : Taint}

theorem imp (h : s.Traced nodes B t) (hBC : ∀ strict l o, B strict l o → C strict l o) :
    s.Traced nodes C t where
  label l hl := (h.label l hl).imp fun o => hBC true l o
  node ht := by
    obtain ⟨n, l, o, hn, ho, hB, hfold⟩ := h.node ht
    exact ⟨n, l, o, hn, ho, hBC false l o hB, hfold.imp (fun _ _ h => h) (hBC false l)⟩
  clean := h.clean

theorem mono (h : s.Traced nodes B t) (hkept : NodesKept nodes nodes') : s.Traced nodes' B t :=
  { h with
    node ht := by
      obtain ⟨n, l, o, hn, ho, hB, hfold⟩ := h.node ht
      refine ⟨n, l, o, hn, ho.mono hkept, hB, ?_⟩
      rw [folded_eq_of_kept hkept ho.lt_size]
      exact hfold.imp hkept fun _ h => h }

theorem of_clean (s : Site) (nodes : Array Node) (B : Bool → Label → Span → Prop) :
    s.Traced nodes B .clean where
  label l hl := by cases l <;> cases hl
  node ht := by cases ht
  clean _ := rfl

theorem join (ha : s.Traced nodes B a) (hb : s.Traced nodes B b) : s.Traced nodes B (a.join b) where
  label l hl := by
    rw [Taint.contains_join, Bool.or_eq_true] at hl
    rcases hl with hl | hl
    · exact ha.label l hl
    · exact hb.label l hl
  node ht := by
    rw [Taint.isTainted_join, Bool.or_eq_true] at ht
    rw [Taint.join]
    dsimp only
    split
    · next h => exact ha.node h
    · next h => exact hb.node (ht.resolve_left h)
  clean ht := by
    rw [Taint.isTainted_join, Bool.or_eq_false_iff] at ht
    rw [Taint.join, ht.1]
    exact hb.clean ht.2

theorem joinAll {R : ExprId → Taint → Prop} {ids : List ExprId} {taints : List Taint}
    (h : List.Forall₂ R ids taints) (hR : ∀ id ∈ ids, ∀ t, R id t → s.Traced nodes B t) :
    s.Traced nodes B (.joinAll taints) := by
  have hfold : ∀ start, s.Traced nodes B start → s.Traced nodes B (taints.foldl Taint.join start) := by
    induction h with
    | nil => exact fun _ hstart => hstart
    | cons ht _ ih =>
      obtain ⟨hfirst, hrest⟩ := List.forall_mem_cons.mp hR
      exact fun start hstart => ih hrest _ (hstart.join (hfirst _ ht))
  exact hfold _ (of_clean s nodes B)

/-- A sanitizer takes labels away; the path stays that of the value it was given. -/
theorem remove (h : s.Traced nodes B t) (removes : LabelSet) :
    s.Traced nodes (fun strict l o => B strict l o ∧ (strict = true → removes.contains l = false))
      (t.remove removes) where
  label l hl := by
    rw [Taint.remove, LabelSet.contains_without, Bool.and_eq_true, Bool.not_eq_true'] at hl
    obtain ⟨o, ho⟩ := h.label l hl.1
    exact ⟨o, ho, fun _ => hl.2⟩
  node ht := by
    have hleft : (t.labels.without removes).isEmpty = false := by
      simpa [Taint.isTainted, Taint.remove] using ht
    obtain ⟨l, hl⟩ := LabelSet.exists_contains hleft
    rw [LabelSet.contains_without, Bool.and_eq_true] at hl
    have hbefore := Taint.isTainted_of_contains hl.1
    obtain ⟨n, l, o, hn, ho, hB, hfold⟩ := h.node hbefore
    refine ⟨n, l, o, ?_, ho, ⟨hB, fun h => absurd h Bool.false_ne_true⟩, hfold.imp (fun _ _ h => h) fun _ h =>
      ⟨h, fun h => absurd h Bool.false_ne_true⟩⟩
    rw [Taint.remove, hleft]
    exact hn
  clean ht := by
    have hleft : (t.labels.without removes).isEmpty = true := by
      simpa [Taint.isTainted, Taint.remove] using ht
    rw [Taint.remove, hleft]
    rfl

theorem withAdjacent (h : s.Traced nodes B t) (adjacent : Bool) :
    s.Traced nodes B { t with adjacent } where
  label := h.label
  node := h.node
  clean := h.clean

/-- A source brings its label where it stands; a definition at its statement takes its place. -/
theorem source {l : Label} {span : Span} (tag : Nat) (hfirst : s.firstNode ≤ nodes.size)
    (hB : ∀ strict, B strict l span) (hspan : B false l s.span) :
    s.Traced (nodes.push ⟨span, tag, none⟩) B (.labelled (.of l) nodes.size) where
  label l' hl := by
    have heq : l' = l := by cases l' <;> cases l <;> first | rfl | cases hl
    exact ⟨span, heq ▸ hB true⟩
  node _ := by
    have hnew : (nodes.push ⟨span, tag, none⟩)[nodes.size]? = some ⟨span, tag, none⟩ :=
      Array.getElem?_push_size
    refine ⟨nodes.size, l, span, rfl, .root hnew rfl, hB false, ?_⟩
    rw [folded, if_pos hfirst, hnew]
    exact hspan
  clean ht := by cases l <;> cases ht

theorem defined {l : Label} (tag : Nat) (hfirst : s.firstNode ≤ nodes.size)
    (hlabel : ∀ l, t.labels.contains l = true → ∃ o, B true l o) (ht : t.isTainted = true)
    (hfold : s.Folds nodes (B false l) (s.folded nodes t.node)) :
    s.Traced (nodes.push ⟨s.span, tag, s.folded nodes t.node⟩) B { t with node := some nodes.size } where
  label := hlabel
  node _ := by
    have hnew : (nodes.push ⟨s.span, tag, s.folded nodes t.node⟩)[nodes.size]? =
        some ⟨s.span, tag, s.folded nodes t.node⟩ := Array.getElem?_push_size
    have hkept := nodesKept_push nodes ⟨s.span, tag, s.folded nodes t.node⟩
    have hfolds := hfold.imp hkept fun _ h => h
    revert hnew hfolds
    generalize nodes.push ⟨s.span, tag, s.folded nodes t.node⟩ = nodes'
    generalize s.folded nodes t.node = prev
    intro hnew hfolds
    have hself : s.folded nodes' (some nodes.size) = prev := by
      rw [folded, if_pos hfirst, hnew]
      rfl
    cases prev with
    | none => exact ⟨nodes.size, l, s.span, rfl, .root hnew rfl, hfolds, hself ▸ hfolds⟩
    | some p =>
      obtain ⟨hlt, o, ho, hB⟩ := hfolds
      refine ⟨nodes.size, l, o, rfl, .link hnew rfl (Nat.lt_of_lt_of_le hlt hfirst) ho, hB, ?_⟩
      rw [hself]
      exact ⟨hlt, o, ho, hB⟩
  clean h := by cases ht.symm.trans h

theorem folds (h : s.Traced nodes B t) (ht : t.isTainted = true) :
    ∃ l, s.Folds nodes (B false l) (s.folded nodes t.node) := by
  obtain ⟨n, l, _, hn, _, _, hfold⟩ := h.node ht
  exact ⟨l, hn ▸ hfold⟩

theorem define (h : s.Traced nodes B t) (tag : Nat) (hfirst : s.firstNode ≤ nodes.size)
    (ht : t.isTainted = true) :
    s.Traced (nodes.push ⟨s.span, tag, s.folded nodes t.node⟩) B { t with node := some nodes.size } := by
  obtain ⟨_, hfold⟩ := h.folds ht
  exact defined tag hfirst h.label ht hfold

end Traced
end Site

/-! ## Between statements -/

structure Taint.Rooted (nodes : Array Node) (brings : Bool → Label → Span → Prop) (t : Taint) : Prop where
  label : ∀ l, t.labels.contains l = true → ∃ o, brings true l o
  node : t.isTainted = true → ∃ n l o, t.node = some n ∧ Origin nodes n o ∧ brings false l o
  clean : t.isTainted = false → t.node = none

theorem Site.Traced.rooted {s : Site} {nodes : Array Node} {B : Bool → Label → Span → Prop} {t : Taint}
    (h : s.Traced nodes B t) : t.Rooted nodes B :=
  { h with
    node ht := by
      obtain ⟨n, l, o, hn, ho, hB, _⟩ := h.node ht
      exact ⟨n, l, o, hn, ho, hB⟩ }

namespace Taint.Rooted

variable {nodes nodes' : Array Node} {B C : Bool → Label → Span → Prop} {t t' : Taint}

theorem mono (h : t.Rooted nodes B) (hkept : NodesKept nodes nodes') : t.Rooted nodes' B :=
  { h with
    node ht := by
      obtain ⟨n, l, o, hn, ho, hB⟩ := h.node ht
      exact ⟨n, l, o, hn, ho.mono hkept, hB⟩ }

theorem traced (h : t.Rooted nodes B) {s : Site} (hfirst : nodes.size ≤ s.firstNode) : s.Traced nodes B t :=
  { h with
    node ht := by
      obtain ⟨n, l, o, hn, ho, hB⟩ := h.node ht
      have hlt : n < s.firstNode := Nat.lt_of_lt_of_le ho.lt_size hfirst
      refine ⟨n, l, o, hn, ho, hB, ?_⟩
      rw [Site.folded, if_neg (Nat.not_le.mpr hlt)]
      exact ⟨hlt, o, ho, hB⟩ }

theorem exported (h : t.Rooted nodes B) (ht : t.exported? = some t') :
    t'.Rooted nodes fun strict l o => B strict l o ∧ (strict = true → l = .secret) := by
  unfold Taint.exported? at ht
  split at ht
  · next hsecret =>
    cases ht
    refine ⟨fun l hl => ?_, fun _ => ?_, fun hclean => nomatch hclean⟩
    · cases l with
      | untrusted => cases hl
      | secret =>
        obtain ⟨o, ho⟩ := h.label .secret hsecret
        exact ⟨o, ho, fun _ => rfl⟩
    · have htainted : t.isTainted = true := Taint.isTainted_of_contains (l := .secret) hsecret
      obtain ⟨n, l, o, hn, ho, hB⟩ := h.node htainted
      exact ⟨n, l, o, hn, ho, hB, fun h => nomatch h⟩
  · cases ht

end Taint.Rooted
end TaintScan
