import TaintScan.Proofs.Arena
import TaintScan.Proofs.Extract.Parse
import TaintScan.Extract.Expression

/-! # The leaves of expressions

The leaves of a recorded expression from left to right, and what the operations that put expressions together
do to them. An expression keeps its leaves while the arena grows, since it is built from expressions recorded
before it.
-/
namespace TaintScan

/-! ## Leaves in an arena -/

def Expr.isLeaf (e : Expr) : Bool :=
  match e.kind with
  | .literal .. | .variable _ => true
  | _ => false

theorem Expr.children_of_isLeaf {e : Expr} (h : e.isLeaf = true) : e.children = [] := by
  unfold isLeaf at h
  unfold children
  split at h
  · next hkind => rw [hkind]
  · next hkind => rw [hkind]
  · cases h

namespace ExprArena

/-- The leaves on `n` levels of an expression. -/
def leavesTo (a : ExprArena) : Nat → ExprId → List Expr
  | 0, _ => []
  | n + 1, id =>
    match a.exprs[id]? with
    | none => []
    | some e => if e.children.isEmpty then [e] else e.children.flatMap (leavesTo a n)

/-- The leaves of an expression from left to right: it has no more levels than there are identifiers up to
its own. -/
def leaves (a : ExprArena) (id : ExprId) : List Expr := a.leavesTo (id + 1) id

/-- The leaves of some expressions, one after the other. Each is recorded, and built from something recorded
before it. -/
inductive LeavesOf (a : ExprArena) : List ExprId → List Expr → Prop
  | nil : LeavesOf a [] []
  | leaf {id : ExprId} {e : Expr} {ids : List ExprId} {ls : List Expr} (he : a.exprs[id]? = some e)
    (hleaf : e.isLeaf = true) (h : LeavesOf a ids ls) : LeavesOf a (id :: ids) (e :: ls)
  | node {id : ExprId} {e : Expr} {ids : List ExprId} {ls rs : List Expr} (he : a.exprs[id]? = some e)
    (hne : e.children ≠ []) (hlt : ∀ child ∈ e.children, child < id) (hchildren : LeavesOf a e.children ls)
    (h : LeavesOf a ids rs) : LeavesOf a (id :: ids) (ls ++ rs)

namespace LeavesOf

variable {a b : ExprArena} {ids : List ExprId} {ls rs : List Expr} {span : Span}

theorem append {others : List ExprId} (h : a.LeavesOf ids ls) (h' : a.LeavesOf others rs) :
    a.LeavesOf (ids ++ others) (ls ++ rs) := by
  induction h with
  | nil => exact h'
  | leaf he hleaf _ ih => exact .leaf he hleaf ih
  | node he hne hlt hchildren _ _ ih =>
    rw [List.append_assoc]
    exact .node he hne hlt hchildren ih

theorem mono (h : a.LeavesOf ids ls) (hb : b.Extends a) : b.LeavesOf ids ls := by
  induction h with
  | nil => exact .nil
  | leaf he hleaf _ ih => exact .leaf (hb _ _ he) hleaf ih
  | node he hne hlt _ _ ihchildren ih => exact .node (hb _ _ he) hne hlt ihchildren ih

theorem lt_size (h : a.LeavesOf ids ls) : ∀ id ∈ ids, id < a.size := by
  have hrecorded {id : ExprId} {e : Expr} (he : a.exprs[id]? = some e) : id < a.size :=
    (Array.getElem?_eq_some_iff.mp he).1
  induction h with
  | nil => exact List.forall_mem_nil _
  | leaf he _ _ ih => exact List.forall_mem_cons.mpr ⟨hrecorded he, ih⟩
  | node he _ _ _ _ _ ih => exact List.forall_mem_cons.mpr ⟨hrecorded he, ih⟩

theorem flatMap_leavesTo (h : a.LeavesOf ids ls) {n : Nat} (hn : ∀ id ∈ ids, id < n) :
    ids.flatMap (a.leavesTo n) = ls := by
  induction h generalizing n with
  | nil => rfl
  | @leaf id e ids ls he hleaf _ ih =>
    obtain ⟨hid, hids⟩ := List.forall_mem_cons.mp hn
    obtain ⟨m, rfl⟩ := Nat.exists_eq_succ_of_ne_zero (Nat.ne_of_gt (Nat.zero_lt_of_lt hid))
    have hself : a.leavesTo (m + 1) id = [e] := by
      rw [leavesTo, he]
      dsimp only
      rw [Expr.children_of_isLeaf hleaf]
      rfl
    rw [List.flatMap_cons, ih hids, hself]
    rfl
  | @node id e ids ls rs he hne hlt _ _ ihchildren ih =>
    obtain ⟨hid, hids⟩ := List.forall_mem_cons.mp hn
    obtain ⟨m, rfl⟩ := Nat.exists_eq_succ_of_ne_zero (Nat.ne_of_gt (Nat.zero_lt_of_lt hid))
    have hself : a.leavesTo (m + 1) id = ls := by
      rw [leavesTo, he]
      dsimp only
      rw [if_neg (by simpa using hne)]
      exact ihchildren fun child hchild => Nat.lt_of_lt_of_le (hlt child hchild) (Nat.le_of_lt_succ hid)
    rw [List.flatMap_cons, ih hids, hself]

theorem leaves_eq {id : ExprId} (h : a.LeavesOf [id] ls) : a.leaves id = ls := by
  have hleaves := h.flatMap_leavesTo (n := id + 1) (List.forall_mem_singleton.mpr (Nat.lt_succ_self id))
  rwa [List.flatMap_cons, List.flatMap_nil, List.append_nil] at hleaves

theorem of_concat {id : ExprId} {parts : List ExprId} (h : a.LeavesOf [id] ls)
    (he : a.exprs[id]? = some ⟨.concat parts, span⟩) : parts ≠ [] ∧ a.LeavesOf parts ls := by
  cases h with
  | leaf he' hleaf _ =>
    cases he.symm.trans he'
    cases hleaf
  | node he' hne _ hchildren hnil =>
    cases he.symm.trans he'
    cases hnil
    rw [List.append_nil]
    exact ⟨hne, hchildren⟩

theorem alloc_leaf {kind : ExprKind} (hleaf : Expr.isLeaf ⟨kind, span⟩ = true) :
    (a.alloc kind span).2.LeavesOf [(a.alloc kind span).1] [⟨kind, span⟩] :=
  .leaf (a.getElem?_alloc_size kind span) hleaf .nil

theorem alloc_node {kind : ExprKind} (hne : Expr.children ⟨kind, span⟩ ≠ [])
    (h : a.LeavesOf (Expr.children ⟨kind, span⟩) ls) :
    (a.alloc kind span).2.LeavesOf [(a.alloc kind span).1] ls := by
  have hnode := node (a.getElem?_alloc_size kind span) hne h.lt_size (h.mono (a.extends_alloc kind span)) .nil
  rwa [List.append_nil] at hnode

end LeavesOf
end ExprArena

/-! ## What a run of a parser yields -/

/-- The parser keeps what is recorded, and what it answers is as said. -/
structure Parse.Yields {α : Type} (v : View) (d : Draft) (Q : α → Draft → Prop) (p : Parse α) : Prop where
  grows : (p v d).2.arena.Extends d.arena
  answer : ∀ a, (p v d).1 = some a → Q a (p v d).2

namespace Parse.Yields

variable {α β : Type} {v : View} {d : Draft} {Q : α → Draft → Prop} {R : β → Draft → Prop}
variable {p : Parse α} {f : α → Parse β}

theorem imp {Q' : α → Draft → Prop} (h : Yields v d Q p) (himp : ∀ a e, e.arena.Extends d.arena → Q a e → Q' a e) :
    Yields v d Q' p :=
  ⟨h.grows, fun a ha => himp a _ h.grows (h.answer a ha)⟩

theorem pure {a : α} (h : Q a d) : Yields v d Q (Pure.pure a) := by
  refine ⟨fun _ _ he => he, fun b hb => ?_⟩
  cases hb
  exact h

theorem fail : Yields v d Q (Parse.fail : Parse α) := by
  refine ⟨fun _ _ he => he, fun a ha => ?_⟩
  cases ha

theorem bind (hp : Yields v d Q p) (hf : ∀ a e, e.arena.Extends d.arena → Q a e → Yields v e R (f a)) :
    Yields v d R (p >>= f) := by
  obtain ⟨hgrows, hanswer⟩ := hp
  rcases hrun : p v d with ⟨_ | a, e⟩
  · have hbind : (p >>= f) v d = (none, e) := by rw [bind_apply, hrun]
    rw [hrun] at hgrows
    refine ⟨by rw [hbind]; exact hgrows, fun b hb => ?_⟩
    rw [hbind] at hb
    cases hb
  · have hbind : (p >>= f) v d = f a v e := by rw [bind_apply, hrun]
    rw [hrun] at hgrows hanswer
    have hrest := hf a e hgrows (hanswer a rfl)
    refine ⟨fun id expr he => ?_, ?_⟩
    · rw [hbind]
      exact hrest.grows id expr (hgrows id expr he)
    · rw [hbind]
      exact hrest.answer

theorem step {a : α} {e : Draft} (hp : p v d = (some a, e)) (harena : e.arena = d.arena) (hf : Yields v e R (f a)) :
    Yields v d R (p >>= f) := by
  have hrun : (p >>= f) v d = f a v e := by rw [bind_apply, hp]
  refine ⟨?_, ?_⟩
  · rw [hrun, ← harena]
    exact hf.grows
  · rw [hrun]
    exact hf.answer

theorem look {a : α} (hp : p v d = (some a, d)) (hf : Yields v d R (f a)) : Yields v d R (p >>= f) := step hp rfl hf

theorem ofOption {x : Option α} (hf : ∀ a, x = some a → Yields v d R (f a)) : Yields v d R (ofOption x >>= f) := by
  cases x with
  | none => exact fail
  | some a => exact look rfl (hf a rfl)

theorem attempt {f : Option α → Parse β} (hp : Yields v d Q p)
    (hnone : ∀ e, e.arena.Extends d.arena → Yields v e R (f none))
    (hsome : ∀ a e, e.arena.Extends d.arena → Q a e → Yields v e R (f (some a))) :
    Yields v d R (attempt p >>= f) := by
  have hattempt : Yields v d (fun x e => ∀ a, x = some a → Q a e) (Parse.attempt p) :=
    ⟨hp.grows, fun x hx a ha => hp.answer a (by rw [← ha, ← Option.some.inj hx])⟩
  refine hattempt.bind fun x e he hx => ?_
  cases x with
  | none => exact hnone e he
  | some a => exact hsome a e he (hx a rfl)

theorem ite {c : Prop} [Decidable c] {q : Parse α} (hp : c → Yields v d Q p) (hq : ¬c → Yields v d Q q) :
    Yields v d Q (if c then p else q) := by
  split
  · exact hp ‹c›
  · exact hq ‹¬c›

theorem unchanged {c : Prop} [Decidable c] {a : α} (hp : Yields v d (fun r e => r = a ∧ e = d) p)
    (hf : Yields v d R (f a)) : Yields v d R (if c then Pure.pure a >>= f else p >>= f) := by
  refine ite (fun _ => look rfl hf) fun _ => hp.bind fun r e _ hr => ?_
  obtain ⟨rfl, rfl⟩ := hr
  exact hf

theorem deeper (hp : ∀ e, e.pos = d.pos → e.arena = d.arena → Yields v e Q p) (hQ : ∀ a e, Q a e → Q a e.leave) :
    Yields v d Q (deeper p) := by
  by_cases h : d.depth < maxParseDepth
  · have hinner := hp (d.enter h) rfl rfl
    constructor
    · rw [deeper_of_lt h]
      exact hinner.grows
    · rw [deeper_of_lt h]
      exact fun a ha => hQ a _ (hinner.answer a ha)
  · constructor
    · rw [deeper_of_not_lt h]
      exact fun _ _ he => he
    · rw [deeper_of_not_lt h]
      intro a ha
      cases ha

end Parse.Yields

/-! ## Parsers that only look -/

namespace Parse

/-- The parser answers, and leaves the draft as it is. -/
def Looks {α : Type} (p : Parse α) : Prop := ∀ v d, ∃ a, p v d = (some a, d)

theorem Looks.pure {α : Type} (a : α) : Looks (Pure.pure a : Parse α) := fun _ _ => ⟨a, rfl⟩

theorem Looks.bind {α β : Type} {p : Parse α} {f : α → Parse β} (hp : Looks p) (hf : ∀ a, Looks (f a)) :
    Looks (p >>= f) := by
  intro v d
  obtain ⟨a, ha⟩ := hp v d
  obtain ⟨b, hb⟩ := hf a v d
  exact ⟨b, by rw [bind_apply, ha, ← hb]⟩

theorem looks_isStringLiteral (id : ExprId) : Looks (isStringLiteral id) := by
  refine Looks.bind (fun _ _ => ⟨_, rfl⟩) fun kind => ?_
  split
  · exact .pure true
  · exact .pure true
  · exact .pure false

theorem looks_tooDeep (left : Pending) : Looks (tooDeep left) := by
  have hheight (id : ExprId) : Looks (height id) := fun _ _ => ⟨_, rfl⟩
  cases left with
  | done id => exact (hheight id).bind fun _ => .pure _
  | path path span => exact .pure _
  | member base name span => exact (hheight base).bind fun _ => .pure _
  | chain concat parts height span => exact .pure _

theorem looks_buildsString (op : String) (left : Pending) (right : ExprId) : Looks (buildsString op left right) := by
  have hstringy (id : ExprId) : Looks (isStringy id) := fun _ _ => ⟨_, rfl⟩
  unfold buildsString
  split
  · exact .pure true
  · refine (hstringy right).bind fun stringy => ?_
    split
    · exact .pure true
    · split
      · exact .pure _
      · exact hstringy _
      · exact .pure false
  · split
    · refine Looks.bind (fun _ _ => ⟨_, rfl⟩) fun view => ?_
      split
      · exact looks_isStringLiteral _
      · exact .pure false
    · exact .pure false
  · exact .pure false

end Parse

/-! ## Operands -/

/-- The leaves that an operand has, or will have once it is recorded. -/
def Pending.Leaves (a : ExprArena) (ls : List Expr) : Pending → Prop
  | .done id => a.LeavesOf [id] ls
  | .path name span => ls = [⟨.variable name, span⟩]
  | .member .. => False
  | .chain _ parts _ _ => parts ≠ [] ∧ a.LeavesOf parts ls

theorem Pending.Leaves.mono {a b : ExprArena} {ls : List Expr} {p : Pending} (h : p.Leaves a ls)
    (hb : b.Extends a) : p.Leaves b ls := by
  cases p with
  | done id => exact ExprArena.LeavesOf.mono h hb
  | path path span => exact h
  | member base name span => exact h
  | chain concat parts height span => exact ⟨h.1, h.2.mono hb⟩

namespace Parse.Yields

variable {v : View} {d : Draft} {ls rs : List Expr}

theorem alloc {Q : ExprId → Draft → Prop} {kind : ExprKind} {span : Span}
    (h : Q (d.arena.alloc kind span).1 { d with arena := (d.arena.alloc kind span).2 }) :
    Yields v d Q (alloc kind span) := by
  refine ⟨d.arena.extends_alloc kind span, fun id hid => ?_⟩
  cases hid
  exact h

abbrev Recorded (d : Draft) (ls : List Expr) (id : ExprId) (e : Draft) : Prop :=
  e.pos = d.pos ∧ e.arena.LeavesOf [id] ls

theorem materialize {p : Pending} (h : p.Leaves d.arena ls) : Yields v d (Recorded d ls) (materialize p) := by
  cases p with
  | done id => exact pure ⟨rfl, h⟩
  | path path span =>
    cases h
    exact alloc ⟨rfl, .alloc_leaf rfl⟩
  | member base name span => exact h.elim
  | chain concat parts height span =>
    cases concat with
    | true => exact alloc ⟨rfl, .alloc_node h.1 h.2⟩
    | false => exact alloc ⟨rfl, .alloc_node h.1 h.2⟩

theorem operandsOf {id : ExprId} (h : d.arena.LeavesOf [id] ls) (concat : Bool) :
    Yields v d (fun parts e => e = d ∧ parts ≠ [] ∧ d.arena.LeavesOf parts ls) (operandsOf concat id) := by
  have hself : Yields v d (fun parts e => e = d ∧ parts ≠ [] ∧ d.arena.LeavesOf parts ls) (Pure.pure [id]) :=
    pure ⟨rfl, List.cons_ne_nil _ _, h⟩
  refine look rfl ?_
  split
  · next parts hkind =>
    cases concat with
    | false => exact hself
    | true =>
      obtain ⟨⟨kind, span⟩, he, rfl⟩ := Option.map_eq_some_iff.mp hkind
      exact pure ⟨rfl, h.of_concat he⟩
  · exact hself

theorem chainOf {left : Pending} (h : left.Leaves d.arena ls) (concat : Bool) :
    Yields v d (fun r e => e.pos = d.pos ∧ r.1 ≠ [] ∧ e.arena.LeavesOf r.1 ls) (chainOf concat left) := by
  have hrecorded : Yields v d (fun r e => e.pos = d.pos ∧ r.1 ≠ [] ∧ e.arena.LeavesOf r.1 ls)
      (do
        let id ← Parse.materialize left
        return (← Parse.operandsOf concat id, (← Parse.height id) + 1)) := by
    refine (materialize h).bind fun id e _ hid => ?_
    refine (operandsOf hid.2 concat).bind fun parts f _ hparts => ?_
    obtain ⟨rfl, hne, hleaves⟩ := hparts
    exact look rfl (pure ⟨hid.1, hne, hleaves⟩)
  cases left with
  | done id => exact hrecorded
  | path path span => exact hrecorded
  | member base name span => exact h.elim
  | chain kind parts height span =>
    refine ite (fun _ => ?_) fun _ => hrecorded
    exact pure ⟨rfl, h⟩

theorem binary {left : Pending} {right : ExprId} (hleft : left.Leaves d.arena ls)
    (hright : d.arena.LeavesOf [right] rs) (op : String) (start : Nat) :
    Yields v d (fun p e => e.pos = d.pos ∧ p.Leaves e.arena (ls ++ rs)) (binary op left right start) := by
  obtain ⟨concat, hconcat⟩ := looks_buildsString op left right v d
  refine look rfl (look hconcat ?_)
  refine (chainOf hleft concat).bind fun r e he hr => ?_
  refine (operandsOf (hright.mono he) concat).bind fun last f _ hlast => ?_
  obtain ⟨rfl, hne, hlast⟩ := hlast
  exact look rfl (pure ⟨hr.1, List.append_ne_nil_of_left_ne_nil hr.2.1 last, hr.2.2.append hlast⟩)

end Parse.Yields
end TaintScan
