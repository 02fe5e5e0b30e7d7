import Mathlib.Order.Basic
import TaintScan.Expr

/-! # Sound arenas

An arena that grew by recording expressions over recorded ones: identifiers go down from a parent to its
children, so every descent through expressions ends, and the recorded heights are those of trees.
-/
namespace TaintScan

/-- A child is recorded before its parent, and every height is the height of a tree. -/
structure ExprArena.Sound (a : ExprArena) : Prop where
  heights_size : a.heights.size = a.exprs.size
  child_lt : ∀ {id : ExprId} {e : Expr}, a.exprs[id]? = some e → ∀ child ∈ e.children, child < id
  height_eq : ∀ {id : ExprId} {e : Expr}, a.exprs[id]? = some e → a.height id = 1 + a.maxHeight e.children

/-- A recorded child has a smaller identifier than its parent. Some children may not be recorded. -/
def ExprArena.Descends (a : ExprArena) : Prop :=
  ∀ {id : ExprId} {e : Expr}, a.exprs[id]? = some e → ∀ child ∈ e.children, child < a.size → child < id

instance (a : ExprArena) : Decidable a.Descends :=
  decidable_of_iff
    (∀ id < a.size, ∀ e ∈ a.exprs[id]?, ∀ child ∈ e.children, child < a.size → child < id) <| by
    constructor
    · intro h id e he
      exact h id (Array.getElem?_eq_some_iff.mp he).1 e he
    · intro h id _ e he
      exact h he

theorem ExprArena.Sound.descends {a : ExprArena} (h : a.Sound) : a.Descends :=
  fun he child hchild _ => h.child_lt he child hchild

namespace ExprArena

theorem maxHeight_eq_foldl (a : ExprArena) (ids : List ExprId) :
    a.maxHeight ids = (ids.map a.height).foldl max 0 := by
  rw [maxHeight, List.foldl_map]

variable {ids : List ExprId} {kind : ExprKind} {span : Span} {bound : Nat}

theorem maxHeight_congr {a b : ExprArena} (h : ∀ id ∈ ids, a.height id = b.height id) :
    a.maxHeight ids = b.maxHeight ids := by
  rw [maxHeight_eq_foldl, maxHeight_eq_foldl, List.map_congr_left h]

theorem alloc_exprs (a : ExprArena) (kind : ExprKind) (span : Span) :
    (a.alloc kind span).2.exprs = a.exprs.push ⟨kind, span⟩ := rfl

theorem alloc_size (a : ExprArena) (kind : ExprKind) (span : Span) :
    (a.alloc kind span).2.size = a.size + 1 := by
  simp [size, alloc_exprs]

theorem alloc_heights (a : ExprArena) (kind : ExprKind) (span : Span) :
    (a.alloc kind span).2.heights = a.heights.push (1 + a.maxHeight (Expr.children ⟨kind, span⟩)) := rfl

theorem height_alloc_of_lt {a : ExprArena} (hs : a.Sound) {id : ExprId} (hid : id < a.size) :
    (a.alloc kind span).2.height id = a.height id := by
  have hid' : id < a.heights.size := by rw [hs.heights_size]; exact hid
  simp [height, alloc_heights, Array.getD_eq_getD_getElem?, Array.getElem?_push, Nat.ne_of_lt hid']

theorem Sound.alloc {a : ExprArena} (hs : a.Sound) (hc : ∀ child ∈ Expr.children ⟨kind, span⟩, child < a.size) :
    (a.alloc kind span).2.Sound := by
  have key {id : ExprId} {e : Expr} (he : (a.alloc kind span).2.exprs[id]? = some e) :
      (a.exprs[id]? = some e ∧ id < a.size) ∨ (id = a.size ∧ e = ⟨kind, span⟩) := by
    rw [alloc_exprs, Array.getElem?_push] at he
    split at he
    · next hi => exact Or.inr ⟨hi, (Option.some.inj he).symm⟩
    · exact Or.inl ⟨he, (Array.getElem?_eq_some_iff.mp he).1⟩
  refine ⟨?_, ?_, ?_⟩
  · simp [alloc_heights, alloc_exprs, hs.heights_size]
  · intro id e he child hchild
    obtain ⟨he, _⟩ | ⟨rfl, rfl⟩ := key he
    · exact hs.child_lt he child hchild
    · exact hc child hchild
  · intro id e he
    obtain ⟨he, hid⟩ | ⟨rfl, rfl⟩ := key he
    · rw [height_alloc_of_lt hs hid, hs.height_eq he]
      refine congrArg (1 + ·) (maxHeight_congr fun child hchild => (height_alloc_of_lt hs ?_).symm)
      exact Nat.lt_trans (hs.child_lt he child hchild) hid
    · have hsize : a.size = a.heights.size := hs.heights_size.symm
      rw [maxHeight_congr fun child hchild => height_alloc_of_lt hs (hc child hchild)]
      simp [height, alloc_heights, Array.getD_eq_getD_getElem?, hsize]

theorem getElem?_alloc_size (a : ExprArena) (kind : ExprKind) (span : Span) :
    (a.alloc kind span).2.exprs[a.size]? = some ⟨kind, span⟩ := by
  rw [alloc_exprs]
  exact Array.getElem?_push_size

/-! ## Arenas that grow -/

/-- Everything that is recorded in one arena is recorded in the other. -/
def Extends (b a : ExprArena) : Prop :=
  ∀ (id : ExprId) (e : Expr), a.exprs[id]? = some e → b.exprs[id]? = some e

theorem extends_alloc (a : ExprArena) (kind : ExprKind) (span : Span) : (a.alloc kind span).2.Extends a := by
  intro id e he
  rw [alloc_exprs, Array.getElem?_push, if_neg (Nat.ne_of_lt (Array.getElem?_eq_some_iff.mp he).1)]
  exact he

theorem Extends.lt_size {a b : ExprArena} (h : b.Extends a) {id : ExprId} (hid : id < a.size) : id < b.size :=
  (Array.getElem?_eq_some_iff.mp (h id _ (Array.getElem?_eq_getElem hid))).1

/-- An arena is below those that have its expressions, and at the same heights. -/
instance : Preorder ExprArena where
  le a b := b.Extends a ∧ ∀ id < a.size, b.height id = a.height id
  le_refl _ := ⟨fun _ _ he => he, fun _ _ => rfl⟩
  le_trans _ _ _ hab hbc := by
    refine ⟨fun id e he => hbc.1 id e (hab.1 id e he), fun id hid => ?_⟩
    exact (hbc.2 id (hab.1.lt_size hid)).trans (hab.2 id hid)

theorem le_alloc {a : ExprArena} (hs : a.Sound) (kind : ExprKind) (span : Span) : a ≤ (a.alloc kind span).2 :=
  ⟨a.extends_alloc kind span, fun _ hid => height_alloc_of_lt hs hid⟩

theorem lt_size_of_le {a b : ExprArena} (h : a ≤ b) {id : ExprId} (hid : id < a.size) : id < b.size :=
  h.1.lt_size hid

/-- A recorded expression whose tree is not higher than a bound. -/
def Fits (a : ExprArena) (bound : Nat) (id : ExprId) : Prop := id < a.size ∧ a.height id ≤ bound

namespace Fits

variable {a b : ExprArena} {k l : Nat} {id : ExprId}

theorem mono (h : a.Fits k id) (hab : a ≤ b) : b.Fits k id :=
  ⟨lt_size_of_le hab h.1, by rw [hab.2 id h.1]; exact h.2⟩

theorem le (h : a.Fits k id) (hk : k ≤ l) : a.Fits l id := ⟨h.1, Nat.le_trans h.2 hk⟩

theorem of_lt (h : id < a.size) : a.Fits (a.height id) id := ⟨h, Nat.le_refl _⟩

end Fits

/-! ## Expressions below an expression -/

/-- An expression that another one is built from, with nothing between them that is stopped. -/
inductive Below (a : ExprArena) (ok : Expr → Bool) : ExprId → ExprId → Prop where
  | refl (id : ExprId) : Below a ok id id
  | step {id child parent : ExprId} {e : Expr} : a.exprs[parent]? = some e → ok e = true →
    child ∈ e.children → Below a ok id child → Below a ok id parent

theorem Below.trans {a : ExprArena} {ok : Expr → Bool} {id mid top : ExprId}
    (h : a.Below ok id mid) (h' : a.Below ok mid top) : a.Below ok id top := by
  induction h' with
  | refl => exact h
  | step he hok hchild _ ih => exact .step he hok hchild ih

/-- An expression that one of some expressions is built from. -/
def Under (a : ExprArena) (ids : List ExprId) (id : ExprId) : Prop :=
  ∃ top ∈ ids, a.Below (fun _ => true) id top

theorem under_of_mem (a : ExprArena) {id : ExprId} (h : id ∈ ids) : a.Under ids id :=
  ⟨id, h, .refl id⟩

theorem Under.child {a : ExprArena} {id c : ExprId} {e : Expr} (h : a.Under ids id) (he : a.exprs[id]? = some e)
    (hc : c ∈ e.children) : a.Under ids c := by
  obtain ⟨top, htop, hbelow⟩ := h
  exact ⟨top, htop, Below.trans (.step he rfl hc (.refl c)) hbelow⟩

/-- A property goes from expressions to their children. -/
def Hereditary (a : ExprArena) (P : ExprId → Prop) : Prop :=
  ∀ {id : ExprId} {e : Expr}, P id → a.exprs[id]? = some e → ∀ c ∈ e.children, P c

theorem hereditary_under (a : ExprArena) (ids : List ExprId) : a.Hereditary (a.Under ids) :=
  fun h he _ hc => h.child he hc

theorem Under.of_hereditary {a : ExprArena} {P : ExprId → Prop} (hP : a.Hereditary P) (hids : ∀ id ∈ ids, P id)
    {id : ExprId} (h : a.Under ids id) : P id := by
  obtain ⟨top, htop, hbelow⟩ := h
  have hroot := hids top htop
  clear htop
  induction hbelow with
  | refl => exact hroot
  | step he _ hc _ ih => exact ih (hP hroot he _ hc)

/-! ## Heights -/

theorem maxHeight_eq_max? (a : ExprArena) (ids : List ExprId) :
    a.maxHeight ids = (ids.map a.height).max?.getD 0 := by
  rw [maxHeight_eq_foldl, List.foldl_max, Nat.zero_max]

theorem maxHeight_spec (a : ExprArena) (h : ids ≠ []) :
    (∃ id ∈ ids, a.height id = a.maxHeight ids) ∧ ∀ id ∈ ids, a.height id ≤ a.maxHeight ids := by
  have hne : ids.map a.height ≠ [] := mt List.map_eq_nil_iff.mp h
  obtain ⟨n, hn⟩ : ∃ n, (ids.map a.height).max? = some n :=
    Option.isSome_iff_exists.mp (List.isSome_max?_of_ne_nil hne)
  obtain ⟨hmem, hle⟩ := List.max?_eq_some_iff.mp hn
  rw [maxHeight_eq_max?, hn, Option.getD_some]
  exact ⟨List.mem_map.mp hmem, fun id hid => hle _ (List.mem_map_of_mem hid)⟩

theorem maxHeight_le (a : ExprArena) (h : ∀ id ∈ ids, a.height id ≤ bound) : a.maxHeight ids ≤ bound := by
  by_cases hids : ids = []
  · rw [hids]
    exact Nat.zero_le _
  · obtain ⟨id, hid, hmax⟩ := (a.maxHeight_spec hids).1
    rw [← hmax]
    exact h id hid

theorem Sound.fits_child {a : ExprArena} (hs : a.Sound) {id child : ExprId} {e : Expr} (h : a.Fits bound id)
    (he : a.exprs[id]? = some e) (hc : child ∈ e.children) : a.Fits (bound - 1) child := by
  refine ⟨Nat.lt_trans (hs.child_lt he child hc) h.1, ?_⟩
  have hmax := (a.maxHeight_spec (List.ne_nil_of_mem hc)).2 child hc
  have hheight := h.2
  rw [hs.height_eq he] at hheight
  omega

theorem fits_alloc {a : ExprArena} (hs : a.Sound) (hc : ∀ child ∈ Expr.children ⟨kind, span⟩, a.Fits bound child) :
    (a.alloc kind span).2.Fits (bound + 1) a.size := by
  have hsound : (a.alloc kind span).2.Sound := hs.alloc fun child hchild => (hc child hchild).1
  refine ⟨by rw [alloc_size]; exact Nat.lt_succ_self _, ?_⟩
  rw [hsound.height_eq (a.getElem?_alloc_size kind span), Nat.add_comm]
  refine Nat.succ_le_succ (maxHeight_le _ fun child hchild => ?_)
  exact ((hc child hchild).mono (le_alloc hs kind span)).2

/-- A way down from an expression, over `n` expressions with the first one. -/
inductive Descent (a : ExprArena) : ExprId → Nat → Prop where
  | stay {id : ExprId} {e : Expr} : a.exprs[id]? = some e → Descent a id 1
  | down {id child : ExprId} {e : Expr} {n : Nat} : a.exprs[id]? = some e → child ∈ e.children →
    Descent a child n → Descent a id (n + 1)

theorem Sound.descent_le {a : ExprArena} (hs : a.Sound) {id : ExprId} {n : Nat} (h : a.Descent id n) :
    n ≤ a.height id := by
  induction h with
  | stay he =>
    rw [hs.height_eq he]
    exact Nat.le_add_right 1 _
  | @down id child e n he hchild _ ih =>
    have hmax := (a.maxHeight_spec (List.ne_nil_of_mem hchild)).2 child hchild
    rw [hs.height_eq he]
    omega

theorem Sound.descent_height {a : ExprArena} (hs : a.Sound) {id : ExprId} (hid : id < a.size) :
    a.Descent id (a.height id) := by
  induction id using Nat.strongRecOn with
  | _ id ih =>
    obtain ⟨e, he⟩ : ∃ e, a.exprs[id]? = some e := ⟨_, Array.getElem?_eq_getElem hid⟩
    rw [hs.height_eq he]
    by_cases hleaf : e.children = []
    · rw [hleaf]
      exact .stay he
    · obtain ⟨child, hchild, hheight⟩ := (a.maxHeight_spec hleaf).1
      have hlt := hs.child_lt he child hchild
      rw [← hheight, Nat.add_comm]
      exact .down he hchild (ih child hlt (Nat.lt_trans hlt hid))

end ExprArena
end TaintScan
