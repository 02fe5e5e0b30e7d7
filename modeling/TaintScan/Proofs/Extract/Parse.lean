import TaintScan.Proofs.Arena
import TaintScan.Proofs.Extract.View

/-! # Two readings side by side

Two runs of one parser, through two views that look alike, take the same steps: they answer alike, and
what they record corresponds. `Parse.Agree` says so of a parser. It is kept by every way in which
parsers are put together, so it holds of every parser that is built from parsers of which it holds.
-/
namespace TaintScan

/-- The view of an expression embedded in a string token. -/
def View.inside (v : View) (t : Token) (segment : Span) : View :=
  let tokens := ((Token.lexSpan v.language v.unit.content segment t.line).filter (·.isParsed)).toArray
  { v with tokens := tokens, limit := tokens.size, nesting := v.nesting + 1 }

/-- How the views and the spans of two readings correspond. -/
structure Correspondence where
  view : View → View → Prop
  span : Span → Span → Prop
  alike : ∀ {v w : View}, view v w → v.Alike w
  /-- The circumstances of a statement may change in both views. -/
  focus : ∀ {v w : View}, view v w → ∀ limit nesting stmtStart receiver stopAtAppend,
    view { v with limit, nesting, stmtStart, receiver, stopAtAppend }
      { w with limit, nesting, stmtStart, receiver, stopAtAppend }
  token : ∀ {v w : View}, view v w → ∀ {i : Nat} {t u : Token}, v.tokens[i]? = some t →
    w.tokens[i]? = some u → span t.span u.span
  spanBetween : ∀ {v w : View}, view v w → ∀ first last, first < v.tokens.size →
    span (v.spanBetween first last) (w.spanBetween first last)
  /-- The expressions embedded in a token are read side by side too. -/
  segments : ∀ {v w : View}, view v w → ∀ {i : Nat} {t u : Token}, v.tokens[i]? = some t →
    w.tokens[i]? = some u → List.Forall₂ (fun s s' => view (v.inside t s) (w.inside u s'))
      (t.segments v.dialect (v.unit.slice t.span)) (u.segments w.dialect (w.unit.slice u.span))

def Correspondence.same (bound : Nat) : Correspondence where
  view v w := v = w ∧ v.bound = bound
  span s t := s = t
  alike h := h.1 ▸ .refl _
  focus h _ _ _ _ _ := ⟨by rw [h.1], h.2⟩
  token h _ _ _ ht hu := by
    obtain ⟨rfl, _⟩ := h
    rw [ht] at hu
    exact congrArg Token.span (Option.some.inj hu)
  spanBetween h _ _ _ := by rw [h.1]
  segments h _ _ _ ht hu := by
    obtain ⟨rfl, hb⟩ := h
    rw [ht] at hu
    rw [Option.some.inj hu]
    exact List.forall₂_same.mpr fun _ _ => ⟨rfl, hb⟩

/-! ## What is recorded -/

structure Expr.Alike (S : Span → Span → Prop) (e f : Expr) : Prop where
  kind : f.kind = e.kind
  span : S e.span f.span

theorem Expr.Alike.isStringy {S : Span → Span → Prop} {e f : Expr} (h : e.Alike S f) :
    f.isStringy = e.isStringy := by
  unfold Expr.isStringy
  rw [h.kind]

structure ExprArena.Alike (S : Span → Span → Prop) (a b : ExprArena) : Prop where
  sound : a.Sound
  heights : b.heights = a.heights
  exprs : List.Forall₂ (Expr.Alike S) a.exprs.toList b.exprs.toList

/-- The height of the highest left operand that something may follow. -/
def maxLeftHeight : Nat := Parse.maxTreeHeight - 1

/-- The height of the highest operand of a statement. -/
def maxOperandHeight : Nat := Parse.maxTreeHeight + 1

/-- Identifiers of recorded expressions that are not higher than a bound. -/
def Known (bound : Nat) (r : ExprArena) (a b : ExprId) : Prop := a = b ∧ r.Fits bound a

def KnownAll (bound : Nat) (r : ExprArena) (as bs : List ExprId) : Prop :=
  as = bs ∧ ∀ a ∈ as, r.Fits bound a

structure Property.Alike (S : Span → Span → Prop) (r : ExprArena) (p q : Property) : Prop where
  key : q.key = p.key
  value : Known maxOperandHeight r p.value q.value
  span : S p.span q.span

structure Draft.Alike (S : Span → Span → Prop) (d e : Draft) : Prop where
  pos : e.pos = d.pos
  depth : e.depth = d.depth
  arena : d.arena.Alike S e.arena
  lvalues : e.lvalues = d.lvalues
  deferred : e.deferred = d.deferred
  sources : ∀ lambda ∈ d.deferred, ∀ id ∈ lambda.sources, d.arena.Fits maxOperandHeight id
  properties : List.Forall₂ (Property.Alike S d.arena) d.properties.toList e.properties.toList

/-- Two left operands under construction that differ at most in their spans and are not higher than a
bound. Every part of a chain is lower than the chain says. -/
inductive Pending.Alike (S : Span → Span → Prop) (bound : Nat) (r : ExprArena) : Pending → Pending → Prop
  | done {id : ExprId} (hid : r.Fits bound id) : Alike S bound r (.done id) (.done id)
  | path {path : String} {s t : Span} (hs : S s t) : Alike S bound r (.path path s) (.path path t)
  | member {base : ExprId} {name : String} {s t : Span} (hb : r.Fits bound base) (hs : S s t) :
    Alike S bound r (.member base name s) (.member base name t)
  | chain {concat : Bool} {parts : List ExprId} {height : Nat} {s t : Span}
    (hp : ∀ p ∈ parts, p < r.size ∧ r.height p < height) (hh : height ≤ bound) (hs : S s t) :
    Alike S bound r (.chain concat parts height s) (.chain concat parts height t)

/-- Two left operands under construction that differ at most in their spans. -/
def Pending.Recorded (S : Span → Span → Prop) (r : ExprArena) (p q : Pending) : Prop :=
  ∃ bound, p.Alike S bound r q

namespace ExprArena.Alike

variable {S : Span → Span → Prop} {a b : ExprArena} (h : a.Alike S b)
include h

theorem size : b.size = a.size := by
  simpa [ExprArena.size] using h.exprs.length_eq.symm

theorem height (id : ExprId) : b.height id = a.height id := by
  unfold ExprArena.height
  rw [h.heights]

theorem maxHeight (ids : List ExprId) : b.maxHeight ids = a.maxHeight ids :=
  maxHeight_congr fun id _ => h.height id

theorem expr_cases (id : ExprId) :
    (a.exprs[id]? = none ∧ b.exprs[id]? = none) ∨
    ∃ e f, a.exprs[id]? = some e ∧ b.exprs[id]? = some f ∧ e.Alike S f :=
  getElem?_cases h.exprs id

theorem get? {id : ExprId} (hid : id < a.size) :
    ∃ e f, a.get? id = .ok e ∧ b.get? id = .ok f ∧ e.Alike S f ∧ ∀ child ∈ e.children, child < a.size := by
  unfold ExprArena.get?
  obtain ⟨ha, _⟩ | ⟨e, f, ha, hb, he⟩ := h.expr_cases id
  · exact absurd hid (Nat.not_lt.mpr (Array.getElem?_eq_none_iff.mp ha))
  · refine ⟨e, f, by rw [ha], by rw [hb], he, fun child hc => ?_⟩
    exact Nat.lt_trans (h.sound.child_lt ha child hc) hid

theorem alloc {kind : ExprKind} {s t : Span} (hc : ∀ child ∈ Expr.children ⟨kind, s⟩, child < a.size)
    (hs : S s t) : (a.alloc kind s).2.Alike S (b.alloc kind t).2 where
  sound := h.sound.alloc hc
  heights := by
    rw [alloc_heights, alloc_heights, h.heights, h.maxHeight]
    rfl
  exprs := by
    rw [alloc_exprs, alloc_exprs, Array.toList_push, Array.toList_push]
    exact List.rel_append h.exprs (.cons ⟨rfl, hs⟩ .nil)

end ExprArena.Alike

section

variable {k : Nat} {r m : ExprArena} {as bs : List ExprId}

theorem KnownAll.append {as' bs' : List ExprId} (ha : KnownAll k r as as') (hb : KnownAll k r bs bs') :
    KnownAll k r (as ++ bs) (as' ++ bs') := by
  obtain ⟨rfl, ha⟩ := ha
  obtain ⟨rfl, hb⟩ := hb
  refine ⟨rfl, fun id hid => ?_⟩
  rcases List.mem_append.mp hid with hid | hid
  · exact ha id hid
  · exact hb id hid

theorem KnownAll.nil : KnownAll k r [] [] := ⟨rfl, fun _ h => nomatch h⟩

theorem KnownAll.mono (h : KnownAll k r as bs) (hm : r ≤ m) : KnownAll k m as bs :=
  ⟨h.1, fun id hid => (h.2 id hid).mono hm⟩

theorem KnownAll.le {l : Nat} (h : KnownAll k r as bs) (hk : k ≤ l) : KnownAll l r as bs :=
  ⟨h.1, fun id hid => (h.2 id hid).le hk⟩

theorem Known.mono {a b : ExprId} (h : Known k r a b) (hm : r ≤ m) : Known k m a b :=
  ⟨h.1, h.2.mono hm⟩

theorem Known.le {l : Nat} {a b : ExprId} (h : Known k r a b) (hk : k ≤ l) : Known l r a b :=
  ⟨h.1, h.2.le hk⟩

theorem KnownAll.cons {a b : ExprId} (h : Known k r a b) (hs : KnownAll k r as bs) :
    KnownAll k r (a :: as) (b :: bs) := by
  obtain ⟨rfl, h⟩ := h
  obtain ⟨rfl, hs⟩ := hs
  exact ⟨rfl, List.forall_mem_cons.mpr ⟨h, hs⟩⟩

theorem KnownAll.ofOption {x y : Option ExprId} (h : Option.Rel (Known k r) x y) :
    KnownAll k r x.toList y.toList := by
  cases h with
  | none => exact .nil
  | some h => exact .cons h .nil

variable {S : Span → Span → Prop}

theorem Property.Alike.mono {p q : Property} (h : p.Alike S r q) (hm : r ≤ m) : p.Alike S m q :=
  ⟨h.key, h.value.mono hm, h.span⟩

theorem Pending.Alike.mono {p q : Pending} (h : p.Alike S k r q) (hm : r ≤ m) : p.Alike S k m q := by
  cases h with
  | done hid => exact .done (hid.mono hm)
  | path hs => exact .path hs
  | member hb hs => exact .member (hb.mono hm) hs
  | chain hp hh hs =>
    refine .chain (fun p h => ⟨ExprArena.lt_size_of_le hm (hp p h).1, ?_⟩) hh hs
    rw [hm.2 p (hp p h).1]
    exact (hp p h).2

namespace Pending.Recorded

theorem mono {p q : Pending} (h : p.Recorded S r q) (hm : r ≤ m) : p.Recorded S m q := by
  obtain ⟨bound, h⟩ := h
  exact ⟨bound, h.mono hm⟩

theorem done {id : ExprId} (h : r.Fits k id) : Recorded S r (.done id) (.done id) := ⟨k, .done h⟩

variable {s t : Span}

theorem path {path : String} (hs : S s t) : Recorded S r (.path path s) (.path path t) :=
  ⟨0, .path hs⟩

theorem member {base : ExprId} {name : String} (h : r.Fits k base) (hs : S s t) :
    Recorded S r (.member base name s) (.member base name t) :=
  ⟨k, .member h hs⟩

theorem chain {concat : Bool} {parts : List ExprId} {height : Nat}
    (hp : ∀ p ∈ parts, p < r.size ∧ r.height p < height) (hs : S s t) :
    Recorded S r (.chain concat parts height s) (.chain concat parts height t) :=
  ⟨height, .chain hp (Nat.le_refl _) hs⟩

end Pending.Recorded
end

namespace Draft.Alike

variable {S : Span → Span → Prop} {d e : Draft} (h : d.Alike S e)
include h

theorem withArena {a b : ExprArena} (ha : a.Alike S b) (hle : d.arena ≤ a) :
    Draft.Alike S { d with arena := a } { e with arena := b } :=
  { h with
    arena := ha
    sources lambda hl id hid := (h.sources lambda hl id hid).mono hle
    properties := h.properties.imp fun _ _ hp => hp.mono hle }

theorem withPos (i : Nat) : Draft.Alike S { d with pos := i } { e with pos := i } :=
  { h with pos := rfl }

theorem withDepth {i j : Fin (maxParseDepth + 1)} (hij : j.val = i.val) :
    Draft.Alike S { d with depth := i } { e with depth := j } := { h with depth := Fin.ext hij }

theorem enter (hd : d.depth < maxParseDepth) (he : e.depth < maxParseDepth) :
    Draft.Alike S (d.enter hd) (e.enter he) :=
  h.withDepth (congrArg (·.val + 1) h.depth)

theorem leave : Draft.Alike S d.leave e.leave := h.withDepth (congrArg (·.val - 1) h.depth)

theorem withDeferred {lambdas : Array Deferred}
    (hl : ∀ lambda ∈ lambdas, ∀ id ∈ lambda.sources, d.arena.Fits maxOperandHeight id) :
    Draft.Alike S { d with deferred := lambdas } { e with deferred := lambdas } :=
  { h with
    deferred := rfl
    sources := hl }

theorem clearDeferred : Draft.Alike S { d with deferred := #[] } { e with deferred := #[] } :=
  h.withDeferred fun _ hl => absurd hl (Array.not_mem_empty _)

theorem withProperties {ps qs : Array Property}
    (hp : List.Forall₂ (Property.Alike S d.arena) ps.toList qs.toList) :
    Draft.Alike S { d with properties := ps } { e with properties := qs } :=
  { h with properties := hp }

theorem takeDeferred (k : Nat) :
    Draft.Alike S { d with deferred := d.deferred.take k } { e with deferred := e.deferred.take k } := by
  rw [h.deferred]
  refine h.withDeferred fun lambda hl => h.sources lambda ?_
  obtain ⟨i, hi, rfl⟩ := Array.mem_extract_iff_getElem.mp hl
  exact Array.getElem_mem _

end Draft.Alike

/-- Nothing that was recorded or deferred is lost, and what is deferred in addition starts at one of
the first `size` tokens. -/
structure Draft.Grows (size : Nat) (d e : Draft) : Prop where
  arena : d.arena ≤ e.arena
  deferred : ∃ added : List Deferred, e.deferred.toList = d.deferred.toList ++ added ∧
    ∀ lambda ∈ added, lambda.start < size

namespace Draft.Grows

variable {size : Nat} {d e f : Draft}

theorem of_deferred_eq (ha : d.arena ≤ e.arena) (hd : e.deferred = d.deferred) : d.Grows size e :=
  ⟨ha, [], by rw [hd, List.append_nil], List.forall_mem_nil _⟩

protected theorem refl (size : Nat) (d : Draft) : d.Grows size d := of_deferred_eq (le_refl _) rfl

theorem trans (h : d.Grows size e) (h' : e.Grows size f) : d.Grows size f := by
  obtain ⟨added, hadded, hstarts⟩ := h.deferred
  obtain ⟨more, hmore, hstarts'⟩ := h'.deferred
  refine ⟨le_trans h.arena h'.arena, added ++ more, ?_, List.forall_mem_append.mpr ⟨hstarts, hstarts'⟩⟩
  rw [hmore, hadded, List.append_assoc]

theorem take_deferred (h : d.Grows size e) : e.deferred.take d.deferred.size = d.deferred := by
  obtain ⟨added, hadded, _⟩ := h.deferred
  rw [← Array.toList_inj, Array.take_eq_extract, Array.toList_extract, hadded]
  simp

end Draft.Grows

/-! ## Parsers that agree -/

theorem Parse.bind_apply {α β : Type} (p : Parse α) (f : α → Parse β) (v : View) (d : Draft) :
    (p >>= f) v d = match p v d with
      | (some a, d) => f a v d
      | (none, d) => (none, d) := rfl

instance : LawfulMonad Parse := LawfulMonad.mk' Parse
  (fun p => by
    funext v d
    change (p >>= fun a => pure (id a)) v d = p v d
    rw [Parse.bind_apply]
    rcases p v d with ⟨_ | a, d'⟩ <;> rfl)
  (fun _ _ => rfl)
  (fun p f g => by
    funext v d
    simp only [Parse.bind_apply]
    rcases p v d with ⟨_ | a, d'⟩ <;> rfl)

theorem Parse.deeper_of_lt {α : Type} {p : Parse α} {v : View} {d : Draft} (h : d.depth < maxParseDepth) :
    p.deeper v d = ((p v (d.enter h)).1, (p v (d.enter h)).2.leave) := by
  rw [Parse.deeper, dif_pos h]

theorem Parse.deeper_of_not_lt {α : Type} {p : Parse α} {v : View} {d : Draft}
    (h : ¬d.depth < maxParseDepth) : p.deeper v d = (none, d) := by
  rw [Parse.deeper, dif_neg h]

/-- Two parsers, read through two views, answer alike from drafts that correspond and in which at least
what is in an arena is recorded. The answers are compared by a relation that may ask what is recorded. -/
def Parse.Agree (C : Correspondence) (v w : View) (r : ExprArena) {α : Type}
    (A : ExprArena → α → α → Prop)
    (p q : Parse α) : Prop :=
  ∀ d e, d.Alike C.span e → r ≤ d.arena →
    Option.Rel (A (p v d).2.arena) (p v d).1 (q w e).1 ∧
    (p v d).2.Alike C.span (q w e).2 ∧ d.Grows v.tokens.size (p v d).2

abbrev Parse.Agrees (C : Correspondence) (v w : View) (r : ExprArena) {α : Type} (A : ExprArena → α → α → Prop)
    (p : Parse α) : Prop := Agree C v w r A p p

def Same {α : Type} (_ : ExprArena) (a b : α) : Prop := a = b

namespace Parse.Agree

variable {C : Correspondence} {v w : View} {r : ExprArena} {α β : Type}
variable {A : ExprArena → α → α → Prop} {B : ExprArena → β → β → Prop}
variable {p q : Parse α} {g : α → Parse β} {c : Prop} {s t : Span}

theorem weaken (h : Agree C v w r A p q) {m : ExprArena} (hm : r ≤ m) : Agree C v w m A p q :=
  fun d e hd hsize => h d e hd (le_trans hm hsize)

theorem imp {B : ExprArena → α → α → Prop} (h : Agree C v w r A p q) (hAB : ∀ m a b, A m a b → B m a b) :
    Agree C v w r B p q := by
  intro d e hd hsize
  obtain ⟨hr, hd', hle⟩ := h d e hd hsize
  refine ⟨?_, hd', hle⟩
  revert hr
  generalize (p v d).1 = x, (q w e).1 = y
  intro hr
  cases hr with
  | none => exact .none
  | some ha => exact .some (hAB _ _ _ ha)

theorem pure {a b : α} (h : ∀ m, r ≤ m → A m a b) : Agree C v w r A (pure a) (pure b) :=
  fun _ _ hd hsize => ⟨.some (h _ hsize), hd, .refl _ _⟩

theorem bind {f : α → Parse β} (hp : Agree C v w r A p q)
    (hf : ∀ m a b, r ≤ m → A m a b → Agree C v w m B (f a) (g b)) : Agree C v w r B (p >>= f) (q >>= g) := by
  intro d e hd hsize
  obtain ⟨hr, hd', hle⟩ := hp d e hd hsize
  rw [bind_apply, bind_apply]
  revert hr hd' hle
  generalize p v d = x, q w e = y
  obtain ⟨r, d'⟩ := x
  obtain ⟨s, e'⟩ := y
  intro hr hd' hle
  cases hr with
  | none => exact ⟨.none, hd', hle⟩
  | some ha =>
    obtain ⟨hs, hd'', hle'⟩ := hf _ _ _ (le_trans hsize hle.arena) ha d' e' hd' (le_refl _)
    exact ⟨hs, hd'', hle.trans hle'⟩

theorem next {R : α → α → Prop} {f : α → Parse β} (hp : Agree C v w r (fun _ => R) p q)
    (hf : ∀ a b, R a b → Agree C v w r B (f a) (g b)) : Agree C v w r B (p >>= f) (q >>= g) :=
  hp.bind fun _ a b hm ha => (hf a b ha).weaken hm

theorem same {f : α → Parse β} (hp : Agree C v w r Same p q) (hf : ∀ a, Agree C v w r B (f a) (g a)) :
    Agree C v w r B (p >>= f) (q >>= g) :=
  hp.bind fun _ a b hm ha => by
    cases ha
    exact (hf a).weaken hm

theorem ite [Decidable c] {p' q' : Parse α} (ht : c → Agree C v w r A p q) (he : ¬c → Agree C v w r A p' q') :
    Agree C v w r A (if c then p else p') (if c then q else q') := by
  split
  · next hc => exact ht hc
  · next hc => exact he hc

theorem branch [Decidable c] {p' q' : Parse α} (hrest : Agree C v w r A p' q')
    (hp : Agree C v w r A p' q' → Agree C v w r A p q) :
    Agree C v w r A (if c then p else p') (if c then q else q') :=
  ite (fun _ => hp hrest) fun _ => hrest

theorem step [Decidable c] {p q : Parse Unit} {f g : Unit → Parse β} (hp : Agree C v w r Same p q)
    (hf : Agree C v w r B (f ()) (g ())) :
    Agree C v w r B (if c then p >>= f else f ()) (if c then q >>= g else g ()) :=
  branch hf fun hf => hp.same fun _ => hf

theorem join {γ : Type} {G : ExprArena → γ → γ → Prop} {f g : γ → Parse β} {p q : Parse β}
    (hp : (∀ m a b, r ≤ m → G m a b → Agree C v w m B (f a) (g b)) → Agree C v w r B p q)
    (hf : ∀ m a b, r ≤ m → G m a b → Agree C v w m B (f a) (g b)) : Agree C v w r B p q :=
  hp hf

theorem mapM_flatten {k : Nat} {γ : Type} {f g : γ → Parse (List ExprId)} {xs ys : List γ}
    (h : List.Forall₂ (fun x y => Agree C v w r (KnownAll k) (f x) (g y)) xs ys) :
    Agree C v w r (fun m as bs => KnownAll k m as.flatten bs.flatten) (xs.mapM f) (ys.mapM g) := by
  induction h with
  | nil => exact pure fun _ _ => .nil
  | cons hx _ ih =>
    rw [List.mapM_cons, List.mapM_cons]
    refine hx.bind fun m as bs hm has => ?_
    refine (ih.weaken hm).bind fun l rest rest' hl hrest => ?_
    exact pure fun k hk => (has.mono (le_trans hl hk)).append (hrest.mono hk)

theorem fail : Agrees C v w r A fail := fun _ _ hd _ => ⟨.none, hd, .refl _ _⟩

theorem attempt (h : Agree C v w r A p q) : Agree C v w r (fun m => Option.Rel (A m)) p.attempt q.attempt := by
  intro d e hd hsize
  obtain ⟨hr, hd', hle⟩ := h d e hd hsize
  exact ⟨.some hr, hd', hle⟩

theorem ofOption {x y : Option α} (h : Option.Rel (fun a b => ∀ m, r ≤ m → A m a b) x y) :
    Agree C v w r A (ofOption x) (ofOption y) := by
  intro d e hd hsize
  refine ⟨?_, hd, .refl _ _⟩
  cases h with
  | some ha => exact .some (ha _ hsize)
  | none => exact .none

theorem ofOption_same (x : Option α) : Agrees C v w r Same (Parse.ofOption x) := by
  refine ofOption ?_
  cases x with
  | none => exact .none
  | some a => exact .some fun _ _ => rfl

theorem ofOption_self (x : Option α) : Agrees C v w r (fun _ a b => a = b ∧ x = some a) (Parse.ofOption x) := by
  refine ofOption ?_
  cases x with
  | none => exact .none
  | some a => exact .some fun _ _ => ⟨rfl, rfl⟩

theorem deeper (h : Agree C v w r A p q) : Agree C v w r A p.deeper q.deeper := by
  intro d e hd hsize
  by_cases hdepth : d.depth < maxParseDepth
  · have hdepth' : e.depth < maxParseDepth := by
      rw [hd.depth]
      exact hdepth
    rw [deeper_of_lt hdepth, deeper_of_lt hdepth']
    obtain ⟨hr, hd', hle⟩ := h _ _ (hd.enter hdepth hdepth') hsize
    exact ⟨hr, hd'.leave, hle.arena, hle.deferred⟩
  · have hdepth' : ¬e.depth < maxParseDepth := by
      rw [hd.depth]
      exact hdepth
    rw [deeper_of_not_lt hdepth, deeper_of_not_lt hdepth']
    exact ⟨.none, hd, .refl _ _⟩

theorem within {change change' : View → View} (ht : (change v).tokens = v.tokens)
    (h : Agree C (change v) (change' w) r A p q) : Agree C v w r A (within change p) (within change' q) := by
  intro d e hd hsize
  obtain ⟨hr, hd', hle⟩ := h d e hd hsize
  rw [ht] at hle
  exact ⟨hr, hd', hle⟩

theorem view {f g : View → Parse β} (h : Agree C v w r B (f v) (g w)) :
    Agree C v w r B (Parse.view >>= f) (Parse.view >>= g) := h

theorem here {f g : View → Nat → α} (h : ∀ i m, r ≤ m → A m (f v i) (g w i)) :
    Agree C v w r A (here f) (here g) := by
  intro d e hd hsize
  refine ⟨?_, hd, .refl _ _⟩
  change Option.Rel _ (some (f v d.pos)) (some (g w e.pos))
  rw [hd.pos]
  exact .some (h _ _ hsize)

theorem here_same {f : View → Nat → α} (h : ∀ i, f w i = f v i) : Agrees C v w r Same (Parse.here f) :=
  here fun i _ _ => (h i).symm

theorem pos : Agrees C v w r Same Parse.pos := here_same (f := fun _ i => i) fun _ => rfl

theorem fromHere {f g : Nat → α → Parse β} (hp : Agree C v w r A p q)
    (hstarts : ∀ d, (p v d).1.isSome = true → d.pos < v.tokens.size)
    (hf : ∀ start m a b, start < v.tokens.size → r ≤ m → A m a b →
      Agree C v w m B (f start a) (g start b)) :
    Agree C v w r B (Parse.pos >>= fun start => p >>= f start)
      (Parse.pos >>= fun start => q >>= g start) := by
  intro d e hd hsize
  have hrun {p : Parse α} {f : Nat → α → Parse β} {v : View} {d : Draft} :
      (Parse.pos >>= fun start => p >>= f start) v d = (p >>= f d.pos) v d := rfl
  rw [hrun, hrun, hd.pos]
  by_cases hpos : d.pos < v.tokens.size
  · exact hp.bind (fun m a b hm ha => hf d.pos m a b hpos hm ha) d e hd hsize
  · have hnone : (p v d).1 = none := by
      rw [← Option.not_isSome_iff_eq_none]
      exact fun h => hpos (hstarts d h)
    obtain ⟨hr, hd', hle⟩ := hp d e hd hsize
    rw [bind_apply, bind_apply]
    revert hr hd' hle hnone
    generalize p v d = x, q w e = y
    obtain ⟨_ | _, d'⟩ := x
    · obtain ⟨s, e'⟩ := y
      intro _ hr hd' hle
      cases hr
      exact ⟨.none, hd', hle⟩
    · exact fun h => nomatch h

theorem seek (i : Nat) : Agrees C v w r Same (seek i) :=
  fun _ _ hd _ => ⟨.some rfl, hd.withPos i, .of_deferred_eq (le_refl _) rfl⟩

theorem advance (k : Nat) : Agrees C v w r Same (advance k) := by
  intro d e hd _
  refine ⟨.some rfl, ?_, .of_deferred_eq (le_refl _) rfl⟩
  change Draft.Alike C.span { d with pos := d.pos + k } { e with pos := e.pos + k }
  rw [hd.pos]
  exact hd.withPos _

theorem progress (before : Nat) : Agrees C v w r Same (progress before) := by
  intro d e hd _
  have hp : Draft.Alike C.span (if d.pos == before then { d with pos := d.pos + 1 } else d)
      (if e.pos == before then { e with pos := e.pos + 1 } else e) := by
    rw [hd.pos]
    split
    · exact hd.withPos _
    · exact hd
  refine ⟨.some rfl, hp, ?_⟩
  change d.Grows _ (if d.pos == before then { d with pos := d.pos + 1 } else d)
  split
  · exact .of_deferred_eq (le_refl _) rfl
  · exact .refl _ _

theorem isOp (ha : v.Alike w) (op : String) : Agrees C v w r Same (isOp op) :=
  here_same fun i => ha.isOpAt i op

theorem isKeyword (ha : v.Alike w) (word : String) : Agrees C v w r Same (isKeyword word) :=
  here_same fun i => ha.isKeywordAt i word

theorem atBoundary (ha : v.Alike w) : Agrees C v w r Same atBoundary :=
  here_same ha.atBoundary

theorem eatOp (ha : v.Alike w) (op : String) : Agrees C v w r Same (eatOp op) := by
  intro d e hd _
  unfold Parse.eatOp
  rw [hd.pos, ha.isOpAt]
  split
  · exact ⟨.some rfl, hd.withPos _, .of_deferred_eq (le_refl _) rfl⟩
  · exact ⟨.some rfl, hd, .refl _ _⟩

theorem spanSince (hv : C.view v w) {start : Nat} (hstart : start < v.tokens.size) :
    Agrees C v w r (fun _ => C.span) (spanSince start) :=
  here fun _ _ _ => C.spanBetween hv _ _ hstart

/-! ## Recording -/

theorem alloc {k : Nat} {kind : ExprKind} (hc : ∀ child ∈ Expr.children ⟨kind, s⟩, r.Fits k child) (hs : C.span s t) :
    Agree C v w r (Known (k + 1)) (alloc kind s) (alloc kind t) := by
  intro d e hd hsize
  have hc' : ∀ child ∈ Expr.children ⟨kind, s⟩, d.arena.Fits k child :=
    fun child hchild => (hc child hchild).mono hsize
  have hsound := hd.arena.sound
  have hle : d.arena ≤ (d.arena.alloc kind s).2 := ExprArena.le_alloc hsound kind s
  refine ⟨.some ⟨hd.arena.size.symm, ExprArena.fits_alloc hsound hc'⟩, ?_, .of_deferred_eq hle rfl⟩
  exact hd.withArena (hd.arena.alloc (fun child hchild => (hc' child hchild).1) hs) hle

theorem literal (hs : C.span s t) (kind : LiteralKind) (value : String) :
    Agree C v w r (Known 1) (literal kind value s) (literal kind value t) :=
  alloc (fun _ h => nomatch h) hs

theorem variableRef (hs : C.span s t) (path : String) :
    Agree C v w r (Known 1) (Parse.alloc (.variable path) s) (Parse.alloc (.variable path) t) :=
  alloc (fun _ h => nomatch h) hs

theorem compound {k : Nat} (hv : C.view v w) {parts : List ExprId} (hp : ∀ p ∈ parts, r.Fits k p)
    {start : Nat} (hstart : start < v.tokens.size) : Agrees C v w r (Known (k + 1)) (compound parts start) :=
  (spanSince hv hstart).next fun _ _ hs => alloc hp hs

theorem setLValue (id : ExprId) (lvalue : LValue) : Agrees C v w r Same (setLValue id lvalue) := by
  intro d e hd _
  refine ⟨.some rfl, ⟨hd.pos, hd.depth, hd.arena, ?_, hd.deferred, hd.sources, hd.properties⟩,
    .of_deferred_eq (le_refl _) rfl⟩
  change e.lvalues.insert id lvalue = d.lvalues.insert id lvalue
  rw [hd.lvalues]

theorem defer {lambda : Deferred} (hstart : lambda.start < v.tokens.size)
    (hl : ∀ id ∈ lambda.sources, r.Fits maxOperandHeight id) : Agrees C v w r Same (defer lambda) := by
  intro d e hd hsize
  refine ⟨.some rfl, ?_, le_refl _, [lambda], Array.toList_push, by simpa using hstart⟩
  change Draft.Alike C.span { d with deferred := d.deferred.push lambda }
    { e with deferred := e.deferred.push lambda }
  rw [hd.deferred]
  refine hd.withDeferred fun l hmem id hid => ?_
  rcases Array.mem_push.mp hmem with hmem | rfl
  · exact hd.sources l hmem id hid
  · exact (hl id hid).mono hsize

theorem forgetting {f : α → Parse β} (hp : Agree C v w r A p q)
    (hf : ∀ m a b, r ≤ m → A m a b → Agree C v w m B (f a) (g b)) :
    Agree C v w r B
      (do
        let mark ← Parse.deferredCount
        let a ← p
        Parse.dropDeferred mark
        f a)
      (do
        let mark ← Parse.deferredCount
        let a ← q
        Parse.dropDeferred mark
        g a) := by
  intro d e hd hsize
  obtain ⟨hr, hd', hle⟩ := hp d e hd hsize
  have hrun {p : Parse α} {f : α → Parse β} {v : View} {d : Draft} :
      (do
        let mark ← Parse.deferredCount
        let a ← p
        Parse.dropDeferred mark
        f a : Parse β) v d =
      match p v d with
      | (some a, d') => f a v { d' with deferred := d'.deferred.take d.deferred.size }
      | (none, d') => (none, d') := rfl
  have hcount : e.deferred.size = d.deferred.size := congrArg Array.size hd.deferred
  rw [hrun, hrun, hcount]
  revert hr hd' hle
  generalize p v d = x, q w e = y
  obtain ⟨r, d'⟩ := x
  obtain ⟨s, e'⟩ := y
  intro hr hd' hle
  cases hr with
  | none => exact ⟨.none, hd', hle⟩
  | some ha =>
    have hmark : Draft.Grows v.tokens.size d
        { d' with deferred := d'.deferred.take d.deferred.size } :=
      .of_deferred_eq hle.arena hle.take_deferred
    obtain ⟨hs, hd'', hle'⟩ := hf _ _ _ (le_trans hsize hle.arena) ha _ _
      (hd'.takeDeferred d.deferred.size) (le_refl _)
    exact ⟨hs, hd'', hmark.trans hle'⟩

theorem addProperty {p q : Property} (hp : p.Alike C.span r q) :
    Agree C v w r Same (addProperty p) (addProperty q) := by
  intro d e hd hsize
  refine ⟨.some rfl, hd.withProperties ?_, .of_deferred_eq (le_refl _) rfl⟩
  rw [Array.toList_push, Array.toList_push]
  exact List.rel_append hd.properties (.cons (hp.mono hsize) .nil)

/-! ## Looking at what is recorded -/

theorem exprOf (id : ExprId) :
    Agrees C v w r
      (fun m => Option.Rel fun e f => e.Alike C.span f ∧ ∀ child ∈ e.children, m.Fits (m.height id) child)
      (exprOf id) := by
  intro d e hd _
  refine ⟨.some ?_, hd, .refl _ _⟩
  change Option.Rel _ d.arena.exprs[id]? e.arena.exprs[id]?
  obtain ⟨ha, hb⟩ | ⟨x, y, ha, hb, hx⟩ := hd.arena.expr_cases id
  · rw [ha, hb]
    exact .none
  · have hid : id < d.arena.size := (Array.getElem?_eq_some_iff.mp ha).1
    rw [ha, hb]
    refine .some ⟨hx, fun child hc => ?_⟩
    exact (hd.arena.sound.fits_child (.of_lt hid) ha hc).le (Nat.sub_le _ _)

theorem kindOf (id : ExprId) :
    Agrees C v w r
      (fun m x y => x = y ∧ ∀ parts, x = some (.concat parts) → ∀ p ∈ parts, m.Fits (m.height id) p)
      (kindOf id) := by
  intro d e hd hsize
  obtain ⟨hr, _, _⟩ := exprOf (C := C) (v := v) (w := w) (r := r) id d e hd hsize
  refine ⟨.some ?_, hd, .refl _ _⟩
  change Option.Rel (Option.Rel fun e f => e.Alike C.span f ∧
    ∀ child ∈ e.children, d.arena.Fits (d.arena.height id) child) (some d.arena.exprs[id]?)
    (some e.arena.exprs[id]?) at hr
  change _ = _ ∧ ∀ parts, d.arena.exprs[id]?.map (·.kind) = some (.concat parts) →
    ∀ p ∈ parts, d.arena.Fits (d.arena.height id) p
  revert hr
  generalize d.arena.exprs[id]? = x, e.arena.exprs[id]? = y
  intro hr
  cases hr with
  | some hr =>
    cases hr with
    | none => exact ⟨rfl, fun _ h => nomatch h⟩
    | some hx =>
      refine ⟨congrArg some hx.1.kind.symm, fun parts hk p hp => hx.2 p ?_⟩
      have hkind : (_ : Expr).kind = .concat parts := Option.some.inj hk
      simpa only [Expr.children, hkind] using hp

theorem isStringy (id : ExprId) : Agrees C v w r Same (isStringy id) := by
  intro d e hd _
  refine ⟨.some ?_, hd, .refl _ _⟩
  change d.arena.exprs[id]?.any _ = e.arena.exprs[id]?.any _
  obtain ⟨ha, hb⟩ | ⟨x, y, ha, hb, hx⟩ := hd.arena.expr_cases id
  · rw [ha, hb]
  · rw [ha, hb]
    exact hx.isStringy.symm

theorem isStringLiteral (id : ExprId) : Agrees C v w r Same (isStringLiteral id) := by
  refine (kindOf id).bind ?_
  rintro m x _ _ ⟨rfl, _⟩
  split <;> exact pure fun _ _ => rfl

theorem height (id : ExprId) : Agrees C v w r (fun m x y => x = y ∧ x = m.height id) (height id) := by
  intro d e hd _
  refine ⟨.some ⟨?_, rfl⟩, hd, .refl _ _⟩
  exact (hd.arena.height id).symm

theorem baseName (id : ExprId) : Agrees C v w r Same (baseName id) := by
  intro d e hd _
  unfold Parse.baseName
  rw [hd.lvalues]
  have hk : e.arena.exprs[id]?.map (·.kind) = d.arena.exprs[id]?.map (·.kind) := by
    obtain ⟨ha, hb⟩ | ⟨x, y, ha, hb, hx⟩ := hd.arena.expr_cases id
    · rw [ha, hb]
    · rw [ha, hb]
      exact congrArg some hx.kind
  rw [hk]
  exact ⟨.some rfl, hd, .refl _ _⟩

theorem materialize {k : Nat} {left left' : Pending} (hl : left.Alike C.span k r left') :
    Agree C v w r (Known (k + 1)) (materialize left) (materialize left') := by
  cases hl with
  | done hid => exact pure fun m hm => ⟨rfl, (hid.mono hm).le (Nat.le_succ k)⟩
  | path hs => exact alloc (fun _ h => nomatch h) hs
  | member hb hs =>
    refine (baseName _).same fun full => ?_
    refine (alloc (fun child hc => List.mem_singleton.mp hc ▸ hb) hs).bind ?_
    rintro m id _ _ ⟨rfl, hid⟩
    refine (setLValue id _).same fun _ => ?_
    exact pure fun k hk => ⟨rfl, hid.mono hk⟩
  | @chain concat parts height s t hp hh hs =>
    have hparts (p : ExprId) (h : p ∈ parts) : r.Fits k p :=
      ⟨(hp p h).1, Nat.le_of_lt (Nat.lt_of_lt_of_le (hp p h).2 hh)⟩
    cases concat with
    | true => exact alloc hparts hs
    | false => exact alloc hparts hs

theorem tooDeep {k : Nat} {left left' : Pending} (hl : left.Alike C.span k r left') :
    Agree C v w r (fun m x y => x = y ∧ (x = false → left.Alike C.span maxLeftHeight m left'))
      (tooDeep left) (tooDeep left') := by
  have hlow {h : Nat} (hx : decide (maxTreeHeight ≤ h) = false) : h ≤ maxLeftHeight :=
    Nat.le_sub_one_of_lt (Nat.lt_of_not_le (of_decide_eq_false hx))
  cases hl with
  | @done id hid =>
    refine (height id).bind ?_
    rintro m h _ hm ⟨rfl, rfl⟩
    refine pure fun l hl => ⟨rfl, fun hx => .done ?_⟩
    exact ExprArena.Fits.mono ⟨(hid.mono hm).1, hlow hx⟩ hl
  | path hs => exact pure fun _ _ => ⟨rfl, fun _ => .path hs⟩
  | @member base name s t hb hs =>
    refine (height base).bind ?_
    rintro m h _ hm ⟨rfl, rfl⟩
    refine pure fun l hl => ⟨rfl, fun hx => .member ?_ hs⟩
    exact ExprArena.Fits.mono ⟨(hb.mono hm).1, hlow hx⟩ hl
  | chain hp hh hs =>
    refine pure fun l hl => ⟨rfl, fun hx => Pending.Alike.mono ?_ hl⟩
    exact .chain hp (hlow hx) hs

end Parse.Agree
end TaintScan
