import TaintScan.Proofs.Extract.Ahead
import TaintScan.Proofs.Extract.Parse

/-! # Deferred bodies

The bodies that are deferred while an expression is parsed stand one behind the other, but for three
reasons: the braces of a Ruby lambda are read again as a block, and an operand that is given up behind
an operator, too high or with a bracket that does not close, is parsed again. `Parse.Tidy` says so of a
parser, and that it comes back to its level of nesting.
-/
namespace TaintScan

/-- Bodies one behind the other, between two token indices. -/
structure Deferred.Apart (first last : Nat) (bodies : List Deferred) : Prop where
  ordered : bodies.Pairwise fun a b => a.close < b.start
  inside : ∀ a ∈ bodies, first ≤ a.start ∧ a.start ≤ a.body ∧ a.start ≤ a.close ∧ a.close < last

namespace Deferred.Apart

variable {first middle last : Nat} {as bs : List Deferred}

theorem nil (first last : Nat) : Apart first last [] := ⟨.nil, fun _ h => nomatch h⟩

theorem mono {first' last' : Nat} (h : Apart first last as) (hf : first' ≤ first) (hl : last ≤ last') :
    Apart first' last' as := by
  refine ⟨h.ordered, fun a ha => ?_⟩
  have := h.inside a ha
  omega

theorem append (ha : Apart first middle as) (hb : Apart middle last bs) (hf : first ≤ middle)
    (hl : middle ≤ last) : Apart first last (as ++ bs) := by
  refine ⟨List.pairwise_append.mpr ⟨ha.ordered, hb.ordered, fun a h b h' => ?_⟩, fun a h => ?_⟩
  · have := ha.inside a h
    have := hb.inside b h'
    omega
  · rcases List.mem_append.mp h with h | h
    · exact (ha.mono (Nat.le_refl _) hl).inside a h
    · exact (hb.mono hf (Nat.le_refl _)).inside a h

theorem cons {a : Deferred} (hstart : first ≤ a.start) (hbody : a.start ≤ a.body) (hclose : a.start ≤ a.close)
    (hm : a.close < middle) (hb : Apart middle last bs) (hl : middle ≤ last) : Apart first last (a :: bs) := by
  refine ⟨List.pairwise_cons.mpr ⟨fun b h => ?_, hb.ordered⟩, fun b h => ?_⟩
  · have := hb.inside b h
    omega
  · rcases List.mem_cons.mp h with rfl | h
    · omega
    · have := hb.inside b h
      omega

end Deferred.Apart

/-- The greatest height of a recorded expression. -/
def ExprArena.top (a : ExprArena) : Nat := a.heights.foldl max 0

namespace ExprArena

theorem height_le_top (a : ExprArena) (id : ExprId) : a.height id ≤ a.top := by
  unfold height top
  rw [← Array.foldl_toList, List.foldl_max, Nat.zero_max, Array.getD_eq_getD_getElem?]
  cases h : a.heights[id]? with
  | none => exact Nat.zero_le _
  | some n => exact List.le_max?_getD_of_mem (Array.mem_toList_iff.mpr (Array.mem_of_getElem? h))

theorem top_le_alloc (a : ExprArena) (kind : ExprKind) (span : Span) : a.top ≤ (a.alloc kind span).2.top := by
  unfold top
  rw [alloc_heights, Array.foldl_push]
  exact Nat.le_max_left _ _

end ExprArena

namespace View

/-- The index behind the type that a constructor at an index names. -/
def constructorEnd (v : View) (start : Nat) : Nat :=
  let i := (v.constructorName (v.limit - start) (start + 1)).2
  if v.isOpAt i "<" then v.angleEnd i else i

theorem ahead_constructorEnd {v : View} {start : Nat} (h : start < v.limit) :
    v.Ahead start (v.constructorEnd start) := by
  have hname := (Ahead.next h).trans (v.ahead_constructorName (v.limit - start) (start + 1))
  exact .ite (fun _ => hname.trans (v.ahead_angleEnd _)) hname

theorem PartOf.constructorEnd {v w : View} (h : v.PartOf w) {start : Nat} (hk : v.constructorEnd start < v.limit) :
    w.constructorEnd start = v.constructorEnd start := by
  have hle := h.limit
  have hname : (v.constructorName (v.limit - start) (start + 1)).2 ≤ v.constructorEnd start := by
    unfold View.constructorEnd
    dsimp only
    split
    · exact (v.ahead_angleEnd _).le
    · exact Nat.le_refl _
  have hlt := Nat.lt_of_le_of_lt hname hk
  have hname' : (w.constructorName (w.limit - start) (start + 1)).2 =
      (v.constructorName (v.limit - start) (start + 1)).2 :=
    h.constructorName (by omega) (by omega) hlt
  unfold View.constructorEnd at hk ⊢
  dsimp only at hk ⊢
  rw [hname', h.isOpAt hlt]
  split
  · rename_i hop
    rw [if_pos hop] at hk
    exact h.angleEnd hk
  · rfl

/-- The two brackets around the arguments of a constructor, or around a size of an array. -/
inductive Constructs (v : View) : Nat → Nat → Prop where
  | first {start close : Nat} : v.isKeywordAt start "new" = true →
    v.matching? (v.constructorEnd start) = some close → Constructs v (v.constructorEnd start) close
  | next {opener close last : Nat} : Constructs v opener close → v.isOpAt (close + 1) "[" = true →
    v.matching? (close + 1) = some last → Constructs v (close + 1) last

/-- A bracket opens at an index that a constructor reads on over. -/
def opensMore (v : View) (i : Nat) : Bool := v.isOpAt i "[" || v.isOpAt i "\x7b"

theorem PartOf.opensMore {v w : View} (h : v.PartOf w) {i : Nat} {op : String} (hop : v.isOpAt i op = true)
    (hmem : op ∈ ["[", "\x7b"]) : w.opensMore i = true := by
  have hop : w.isOpAt i op = true := h.any hop
  unfold View.opensMore
  rcases List.mem_cons.mp hmem with rfl | hmem
  · rw [hop, Bool.true_or]
  · rw [List.mem_singleton.mp hmem] at hop
    rw [hop, Bool.or_true]

/-- A body among the arguments of a constructor that another bracket follows directly. -/
def Pressed (v : View) (body : Deferred) : Prop :=
  ∃ opener close, v.Constructs opener close ∧ opener < body.start ∧ body.close < close ∧
    v.opensMore (close + 1) = true

/-- A body in the braces of a Ruby lambda. -/
structure BracedArrow (v : View) (body : Deferred) : Prop where
  ruby : v.language = .ruby
  arrow : v.isOpAt body.start "->" = true
  brace : v.isOpAt (v.pastGroup "(" (body.start + 1)) "\x7b" = true

/-- Why bodies need not stand one behind the other, with expressions recorded up to a height. -/
inductive Irregular (v : View) (height : Nat) (bodies : List Deferred) : Prop where
  | arrow {body : Deferred} : body ∈ bodies → v.BracedArrow body → Irregular v height bodies
  | tall : Parse.maxTreeHeight ≤ height + 1 → Irregular v height bodies
  | pressed {body : Deferred} : body ∈ bodies → v.Pressed body → Irregular v height bodies

theorem Irregular.mono {v : View} {n m : Nat} {as bs : List Deferred} (h : v.Irregular n as) (hn : n ≤ m)
    (hs : as ⊆ bs) : v.Irregular m bs := by
  cases h with
  | arrow hb h => exact .arrow (hs hb) h
  | tall h => exact .tall (Nat.le_trans h (Nat.succ_le_succ hn))
  | pressed hb h => exact .pressed (hs hb) h

end View

theorem Draft.take_deferred {d e : Draft} {added : List Deferred}
    (h : e.deferred.toList = d.deferred.toList ++ added) : e.deferred.take d.deferred.size = d.deferred := by
  rw [← Array.toList_inj, Array.take_eq_extract, Array.toList_extract, h]
  simp

/-- Further bodies lie behind the token at an index, and below the limit if the token does. -/
def View.Defers (v : View) (first : Nat) (old new : Array Deferred) : Prop :=
  ∀ a ∈ new, a ∈ old ∨ first < a.body ∧ (first ≤ v.limit → a.close < v.limit)

namespace View.Defers

variable {v : View} {first middle : Nat} {old mid new : Array Deferred}

theorem of_eq (h : new = old) : v.Defers first old new := fun _ ha => .inl (h ▸ ha)

theorem trans (h : v.Defers first old mid) (h' : v.Defers middle mid new) (hf : v.Ahead first middle) :
    v.Defers first old new := by
  intro a ha
  rcases h' a ha with hold | ⟨hbody, hclose⟩
  · exact h a hold
  · exact .inr ⟨Nat.lt_of_le_of_lt hf.le hbody, fun hl => hclose (hf.within hl)⟩

theorem lower (h : v.Defers middle old new) (hf : v.Ahead first middle) : v.Defers first old new :=
  (of_eq rfl).trans h hf

theorem push {body : Deferred} (hbody : first < body.body) (hclose : first ≤ v.limit → body.close < v.limit) :
    v.Defers first old (old.push body) := by
  intro a ha
  rcases Array.mem_push.mp ha with hold | rfl
  · exact .inl hold
  · exact .inr ⟨hbody, hclose⟩

end View.Defers

/-- A draft in which more is recorded, at the same level of nesting. -/
structure Draft.Grown (d e : Draft) : Prop where
  top : d.arena.top ≤ e.arena.top
  depth : e.depth = d.depth

theorem Draft.Grown.refl (d : Draft) : d.Grown d := ⟨Nat.le_refl _, rfl⟩

theorem Draft.Grown.trans {d e f : Draft} (h : d.Grown e) (h' : e.Grown f) : d.Grown f :=
  ⟨Nat.le_trans h.top h'.top, h'.depth.trans h.depth⟩

/-- A left operand whose tree is at most one higher than the expressions recorded so far. -/
def Pending.Grounded (n : Nat) : Pending → Prop
  | .chain _ _ height _ => height ≤ n + 1
  | _ => True

theorem Pending.Grounded.mono {n m : Nat} {p : Pending} (h : p.Grounded n) (hm : n ≤ m) : p.Grounded m := by
  cases p with
  | chain => exact Nat.le_trans h (Nat.succ_le_succ hm)
  | _ => trivial

namespace Parse

/-- What a parser may leave behind when it fails: anything, or no new body and a cause for it. -/
inductive Failure where
  | free
  | only (cause : Prop)

/-- The bodies that a failure leaves are admitted, with a reason for bodies out of order or without. -/
def Failure.Admits (irregular : Prop) (added : List Deferred) : Failure → Prop
  | free => True
  | only cause => irregular ∨ added = [] ∧ cause

/-- A parser that fails only for irregular bodies fails as any other may, and with any bodies before it. -/
theorem Failure.admits_append {failure other : Failure} (h : other = .only False ∨ failure = .free) {whole : View}
    {n : Nat} {as bs : List Deferred} (hbs : other.Admits (whole.Irregular n bs) bs) :
    failure.Admits (whole.Irregular n (as ++ bs)) (as ++ bs) := by
  cases failure with
  | free => trivial
  | only c =>
    cases h.resolve_right fun h => nomatch h
    exact .inl ((hbs.resolve_right And.right).mono (Nat.le_refl _) (List.subset_append_right as bs))

/-- How a run of a parser goes on from a draft: it records more, ends at the level of nesting it started
at, does not come before the index `first`, and what it defers in addition is apart from there on, or
irregular. -/
structure Outcome (whole v : View) (failure : Failure) (first : Nat) {α : Type} (A : Nat → α → Prop)
    (d : Draft) (x : Option α × Draft) : Prop where
  grown : d.Grown x.2
  inside : v.Defers first d.deferred x.2.deferred
  ahead : v.Ahead first x.2.pos
  value : ∀ a, x.1 = some a → A x.2.arena.top a
  bodies : ∃ added, x.2.deferred.toList = d.deferred.toList ++ added ∧
    (whole.Irregular x.2.arena.top added ∨ Deferred.Apart first x.2.pos added) ∧
    (x.1 = none → failure.Admits (whole.Irregular x.2.arena.top added) added)

/-- A parser that is run at an index, with expressions recorded up to a height. -/
def Tidy (whole v : View) (failure : Failure) (first i n : Nat) {α : Type} (A : Nat → α → Prop)
    (p : Parse α) : Prop :=
  ∀ d : Draft, d.pos = i → n ≤ d.arena.top → Outcome whole v failure first A d (p v d)

/-- A parser that neither fails nor moves nor defers. -/
def Still (v : View) (n : Nat) {α : Type} (A : Nat → α → Prop) (p : Parse α) : Prop :=
  ∀ d : Draft, n ≤ d.arena.top → ∃ a e, p v d = (some a, e) ∧ e.pos = d.pos ∧ e.deferred = d.deferred ∧
    d.Grown e ∧ A e.arena.top a

def Anything {α : Type} (_ : Nat) (_ : α) : Prop := True

namespace Still

variable {v : View} {n : Nat} {α β : Type} {A : Nat → α → Prop} {B : Nat → β → Prop} {p : Parse α}

theorem weaken {m : Nat} (h : Still v n A p) (hm : n ≤ m) : Still v m A p :=
  fun d hd => h d (Nat.le_trans hm hd)

theorem pure {a : α} (h : ∀ m, n ≤ m → A m a) : Still v n A (pure a) :=
  fun d hd => ⟨a, d, rfl, rfl, rfl, .refl d, h _ hd⟩

theorem look {f : View → Draft → α} (h : ∀ d, n ≤ d.arena.top → A d.arena.top (f v d)) :
    Still v n A (fun v d => (some (f v d), d)) :=
  fun d hd => ⟨f v d, d, rfl, rfl, rfl, .refl d, h d hd⟩

theorem bind {f : α → Parse β} (hp : Still v n A p) (hf : ∀ a m, n ≤ m → A m a → Still v m B (f a)) :
    Still v n B (p >>= f) := by
  intro d hd
  obtain ⟨a, e, hrun, hpos, hdef, hgrown, ha⟩ := hp d hd
  obtain ⟨b, e', hrun', hpos', hdef', hgrown', hb⟩ := hf a _ (Nat.le_trans hd hgrown.top) ha e (Nat.le_refl _)
  refine ⟨b, e', ?_, hpos'.trans hpos, hdef'.trans hdef, hgrown.trans hgrown', hb⟩
  rw [bind_apply, hrun]
  exact hrun'

theorem next {f : α → Parse β} (hp : Still v n A p) (hf : ∀ a, Still v n B (f a)) : Still v n B (p >>= f) :=
  hp.bind fun a _ hm _ => (hf a).weaken hm

theorem view {f : View → Parse β} (h : Still v n B (f v)) : Still v n B (Parse.view >>= f) := h

theorem ite {c : Prop} [Decidable c] {q : Parse α} (hp : c → Still v n A p) (hq : ¬c → Still v n A q) :
    Still v n A (if c then p else q) := by
  split
  · exact hp ‹_›
  · exact hq ‹_›

theorem mapM {γ : Type} {f : γ → Parse β} (xs : List γ) (hf : ∀ x ∈ xs, Still v n Anything (f x)) :
    Still v n Anything (xs.mapM f) := by
  induction xs with
  | nil => exact pure fun _ _ => trivial
  | cons x xs ih =>
    rw [List.mapM_cons]
    have hrest := ih fun y hy => hf y (List.mem_cons_of_mem _ hy)
    exact (hf x (List.mem_cons_self ..)).next fun b => hrest.next fun bs => pure fun _ _ => trivial

end Still

namespace Outcome

variable {whole v : View} {failure : Failure} {first : Nat} {α : Type} {A : Nat → α → Prop} {d : Draft}
variable {x : Option α × Draft} {e : Draft}

theorem of_recorded (h : Outcome whole v failure first A e x) (hgrown : d.Grown e) (hdef : e.deferred = d.deferred) :
    Outcome whole v failure first A d x :=
  ⟨hgrown.trans h.grown, hdef ▸ h.inside, h.ahead, h.value, hdef ▸ h.bodies⟩

theorem failed {β : Type} {B : Nat → β → Prop} (h : Outcome whole v failure first A d (none, e)) :
    Outcome whole v failure first B d (none, e) := by
  obtain ⟨added, hadded, hapart, hfail⟩ := h.bodies
  exact ⟨h.grown, h.inside, h.ahead, (fun _ hb => nomatch hb), added, hadded, hapart, fun _ => hfail rfl⟩

theorem append {other : Failure} {middle : Nat} {as : List Deferred} (h : Outcome whole v other middle A e x)
    (hgrown : d.Grown e) (hin : v.Defers first d.deferred e.deferred) (hahead : v.Ahead first middle)
    (has : e.deferred.toList = d.deferred.toList ++ as)
    (hapart : whole.Irregular e.arena.top as ∨ Deferred.Apart first middle as)
    (hfail : ∀ n bs, e.arena.top ≤ n → other.Admits (whole.Irregular n bs) bs →
      failure.Admits (whole.Irregular n (as ++ bs)) (as ++ bs)) : Outcome whole v failure first A d x := by
  obtain ⟨bs, hbs, hapart', hnone⟩ := h.bodies
  refine ⟨hgrown.trans h.grown, hin.trans h.inside hahead, hahead.trans h.ahead, h.value, as ++ bs, ?_, ?_,
    fun hx => hfail _ bs h.grown.top (hnone hx)⟩
  · rw [hbs, has, List.append_assoc]
  · rcases hapart with hirr | hapart
    · exact .inl (hirr.mono h.grown.top (List.subset_append_left as bs))
    · refine hapart'.imp (fun hirr => ?_) fun hapart' => hapart.append hapart' hahead.le h.ahead.le
      exact hirr.mono (Nat.le_refl _) (List.subset_append_right as bs)

theorem of_irregular {as : List Deferred} (h : Outcome whole v failure first A e x) (hgrown : d.Grown e)
    (hin : v.Defers first d.deferred e.deferred) (has : e.deferred.toList = d.deferred.toList ++ as) (hirr : whole.Irregular e.arena.top as) :
    Outcome whole v failure first A d x := by
  obtain ⟨bs, hbs, _, _⟩ := h.bodies
  have hirr : whole.Irregular x.2.arena.top (as ++ bs) := hirr.mono h.grown.top (List.subset_append_left as bs)
  refine ⟨hgrown.trans h.grown, hin.trans h.inside (.refl v _), h.ahead, h.value, as ++ bs, ?_, .inl hirr, fun _ => ?_⟩
  · rw [hbs, has, List.append_assoc]
  · cases failure with
    | free => trivial
    | only c => exact .inl hirr

end Outcome

namespace Tidy

variable {whole v : View} {failure : Failure} {first i n : Nat} {α β : Type}
variable {A : Nat → α → Prop} {B : Nat → β → Prop} {p : Parse α} {c : Prop}

theorem weaken {m : Nat} (h : Tidy whole v failure first i n A p) (hm : n ≤ m) : Tidy whole v failure first i m A p :=
  fun d hi hd => h d hi (Nat.le_trans hm hd)

theorem only {c' : Prop} (h : Tidy whole v (.only c) first i n A p) (hc : c → c') :
    Tidy whole v (.only c') first i n A p := by
  intro d hi hd
  have h := h d hi hd
  obtain ⟨added, hadded, happart, hfail⟩ := h.bodies
  refine ⟨h.grown, h.inside, h.ahead, h.value, added, hadded, happart, fun hx => ?_⟩
  rcases hfail hx with hirr | ⟨hnil, hcause⟩
  · exact .inl hirr
  · exact .inr ⟨hnil, hc hcause⟩

theorem free (h : Tidy whole v failure first i n A p) : Tidy whole v .free first i n A p := by
  intro d hi hd
  have h := h d hi hd
  obtain ⟨added, hadded, happart, _⟩ := h.bodies
  exact ⟨h.grown, h.inside, h.ahead, h.value, added, hadded, happart, fun _ => trivial⟩

theorem sure (h : Tidy whole v (.only False) first i n A p) : Tidy whole v failure first i n A p := by
  cases failure with
  | only c => exact h.only False.elim
  | free => exact h.free

theorem lower {first' : Nat} (h : Tidy whole v failure first i n A p) (hf : v.Ahead first' first) :
    Tidy whole v failure first' i n A p := by
  intro d hi hd
  have h := h d hi hd
  obtain ⟨added, hadded, happart, hfail⟩ := h.bodies
  refine ⟨h.grown, h.inside.lower hf, hf.trans h.ahead, h.value, added, hadded, ?_, hfail⟩
  exact happart.imp id fun hap => hap.mono hf.le (Nat.le_refl _)

theorem ofStill (h : Still v n A p) (hi : v.Ahead first i) : Tidy whole v failure first i n A p := by
  rintro d rfl hd
  obtain ⟨a, e, hrun, hpos, hdef, hgrown, ha⟩ := h d hd
  rw [hrun]
  refine ⟨hgrown, .of_eq hdef, hpos ▸ hi, fun b hb => Option.some.inj hb ▸ ha, [], by simp [hdef], .inr (.nil _ _), fun hx => ?_⟩
  cases hx

theorem pure {a : α} (hi : v.Ahead first i) (h : ∀ m, n ≤ m → A m a) :
    Tidy whole v failure first i n A (pure a) :=
  ofStill (.pure h) hi

theorem fail (hi : v.Ahead first i) (hc : c) : Tidy whole v (.only c) first i n A Parse.fail := by
  rintro d rfl hd
  refine ⟨.refl _, .of_eq rfl, hi, (fun a ha => nomatch ha), [], by simp [Parse.fail], .inr (.nil _ _), fun _ => ?_⟩
  exact .inr ⟨rfl, hc⟩

theorem fail_of_tall (hi : v.Ahead first i) (hn : maxTreeHeight ≤ n + 1) :
    Tidy whole v (.only c) first i n A Parse.fail := by
  rintro d rfl hd
  have htall : maxTreeHeight ≤ d.arena.top + 1 := Nat.le_trans hn (Nat.succ_le_succ hd)
  refine ⟨.refl _, .of_eq rfl, hi, (fun a ha => nomatch ha), [], by simp [Parse.fail], .inr (.nil _ _), fun _ => ?_⟩
  exact .inl (.tall htall)

theorem ite [Decidable c] {q : Parse α} (hp : c → Tidy whole v failure first i n A p)
    (hq : ¬c → Tidy whole v failure first i n A q) : Tidy whole v failure first i n A (if c then p else q) := by
  split
  · exact hp ‹_›
  · exact hq ‹_›

theorem branch {P : Nat → Prop} [Decidable c] {r : Parse α} (hi : P i)
    (hr : ∀ j, P j → Tidy whole v failure first j n A r)
    (hp : c → (∀ j, P j → Tidy whole v failure first j n A r) → Tidy whole v failure first i n A p) :
    Tidy whole v failure first i n A (if c then p else r) :=
  ite (fun hc => hp hc hr) fun _ => hr i hi

/-! ## One step after another -/

theorem still {f : α → Parse β} (hp : Still v n A p)
    (hf : ∀ a m, n ≤ m → A m a → Tidy whole v failure first i m B (f a)) :
    Tidy whole v failure first i n B (p >>= f) := by
  intro d hi hd
  obtain ⟨a, e, hrun, hpos, hdef, hgrown, ha⟩ := hp d hd
  rw [bind_apply, hrun]
  exact (hf a _ (Nat.le_trans hd hgrown.top) ha e (hpos.trans hi) (Nat.le_refl _)).of_recorded hgrown hdef

theorem next {f : α → Parse β} (hp : Still v n A p) (hf : ∀ a, Tidy whole v failure first i n B (f a)) :
    Tidy whole v failure first i n B (p >>= f) :=
  still hp fun a _ hm _ => (hf a).weaken hm

theorem view {f : View → Parse β} (h : Tidy whole v failure first i n B (f v)) :
    Tidy whole v failure first i n B (Parse.view >>= f) := h

theorem here {φ : View → Nat → α} {f : α → Parse β} (h : Tidy whole v failure first i n B (f (φ v i))) :
    Tidy whole v failure first i n B (Parse.here φ >>= f) := by
  rintro d rfl hd
  exact h d rfl hd

theorem pos {f : Nat → Parse β} (h : Tidy whole v failure first i n B (f i)) :
    Tidy whole v failure first i n B (Parse.pos >>= f) :=
  here (φ := fun _ i => i) h

theorem seek {j : Nat} {f : Unit → Parse β} (h : Tidy whole v failure first j n B (f ())) :
    Tidy whole v failure first i n B (Parse.seek j >>= f) := by
  rintro d rfl hd
  exact (h { d with pos := j } rfl hd).of_recorded ⟨Nat.le_refl _, rfl⟩ rfl

theorem advance {k : Nat} {f : Unit → Parse β} (h : Tidy whole v failure first (i + k) n B (f ())) :
    Tidy whole v failure first i n B (Parse.advance k >>= f) := by
  rintro d rfl hd
  exact (h { d with pos := d.pos + k } rfl hd).of_recorded ⟨Nat.le_refl _, rfl⟩ rfl

theorem progress {before : Nat} {f : Unit → Parse β} (hi : v.Ahead first i) (hbefore : before < v.limit)
    (h : ∀ j, v.Ahead first j → Tidy whole v failure first j n B (f ())) :
    Tidy whole v failure first i n B (Parse.progress before >>= f) := by
  rintro d rfl hd
  by_cases hpos : d.pos = before
  · have hrun := h (d.pos + 1) (hi.succ (hpos ▸ hbefore)) { d with pos := d.pos + 1 } rfl hd
    simpa [bind_apply, Parse.progress, hpos] using hrun.of_recorded (d := d) ⟨Nat.le_refl _, rfl⟩ rfl
  · have hrun := h d.pos hi d rfl hd
    simpa [bind_apply, Parse.progress, hpos] using hrun

theorem eatOp {op : String} {f : Bool → Parse β}
    (ht : v.isOpAt i op = true → Tidy whole v failure first (i + 1) n B (f true))
    (hf : Tidy whole v failure first i n B (f false)) :
    Tidy whole v failure first i n B (Parse.eatOp op >>= f) := by
  rintro d rfl hd
  rw [bind_apply]
  unfold Parse.eatOp
  by_cases hop : v.isOpAt d.pos op = true
  · rw [if_pos hop]
    exact (ht hop { d with pos := d.pos + 1 } rfl hd).of_recorded ⟨Nat.le_refl _, rfl⟩ rfl
  · rw [if_neg hop]
    exact hf d rfl hd

theorem pass {P : Nat → Prop} {op : String} {f : Bool → Parse β} (hi : P i) (hnext : i < v.limit → P (i + 1))
    (hf : ∀ eaten j, P j → Tidy whole v failure first j n B (f eaten)) :
    Tidy whole v failure first i n B (Parse.eatOp op >>= f) :=
  eatOp (fun hop => hf true _ (hnext (View.lt_limit_of_any hop))) (hf false i hi)

theorem ofOption {x : Option α} {f : α → Parse β} (hi : v.Ahead first i) (hc : x = none → c)
    (hf : ∀ a, x = some a → Tidy whole v (.only c) first i n B (f a)) :
    Tidy whole v (.only c) first i n B (Parse.ofOption x >>= f) := by
  cases x with
  | none => exact fail hi (hc rfl)
  | some a => exact hf a rfl

theorem bindOf {other : Failure} {f : α → Parse β} (hfail : other = .only False ∨ failure = .free)
    (hp : Tidy whole v failure first i n A p)
    (hf : ∀ a j m, v.Ahead first j → n ≤ m → A m a → Tidy whole v other j j m B (f a)) :
    Tidy whole v failure first i n B (p >>= f) := by
  intro d hi hd
  have h := hp d hi hd
  rw [bind_apply]
  rcases hx : p v d with ⟨_ | a, e⟩
  · rw [hx] at h
    exact h.failed
  · rw [hx] at h
    obtain ⟨as, has, hapart, _⟩ := h.bodies
    have hrest := hf a e.pos e.arena.top h.ahead (Nat.le_trans hd h.grown.top) (h.value a rfl)
    exact (hrest e rfl (Nat.le_refl _)).append h.grown h.inside h.ahead has hapart fun _ _ _ => Failure.admits_append hfail

theorem bind {f : α → Parse β} (hp : Tidy whole v failure first i n A p)
    (hf : ∀ a j m, v.Ahead first j → n ≤ m → A m a → Tidy whole v (.only False) j j m B (f a)) :
    Tidy whole v failure first i n B (p >>= f) := bindOf (.inl rfl) hp hf

theorem fork [Decidable c] {q : Parse α} {f : α → Parse β} (hp : Tidy whole v failure first i n A p)
    (hq : Tidy whole v failure first i n A q)
    (hf : ∀ a j m, v.Ahead first j → n ≤ m → A m a → Tidy whole v (.only False) j j m B (f a)) :
    Tidy whole v failure first i n B (if c then p >>= f else q >>= f) :=
  ite (fun _ => hp.bind hf) fun _ => hq.bind hf

theorem bind_free {f : α → Parse β} (hp : Tidy whole v .free first i n A p)
    (hf : ∀ a j m, v.Ahead first j → n ≤ m → A m a → Tidy whole v .free j j m B (f a)) :
    Tidy whole v .free first i n B (p >>= f) := bindOf (.inr rfl) hp hf

/-- After an attempt that failed nothing has been deferred, or irregular bodies have; so the position
may be moved back then. -/
theorem attempt {f : Option α → Parse β} (hp : Tidy whole v (.only c) first i n A p)
    (hsome : ∀ a j m, v.Ahead first j → n ≤ m → A m a → Tidy whole v (.only False) j j m B (f (some a)))
    (hnone : ∀ j m, v.Ahead first j → n ≤ m → Tidy whole v (.only False) first j m B (f none)) :
    Tidy whole v (.only False) first i n B (Parse.attempt p >>= f) := by
  intro d hi hd
  have h := hp d hi hd
  rw [bind_apply]
  unfold Parse.attempt
  rcases hx : p v d with ⟨_ | a, e⟩
  · rw [hx] at h
    obtain ⟨as, has, _, hfail⟩ := h.bodies
    have hrest := hnone e.pos e.arena.top h.ahead (Nat.le_trans hd h.grown.top) e rfl (Nat.le_refl _)
    rcases hfail rfl with hirr | ⟨rfl, _⟩
    · exact hrest.of_irregular h.grown h.inside has hirr
    · exact hrest.of_recorded h.grown (Array.toList_inj.mp (by simpa using has))
  · rw [hx] at h
    obtain ⟨as, has, hapart, _⟩ := h.bodies
    have hrest := hsome a e.pos e.arena.top h.ahead (Nat.le_trans hd h.grown.top) (h.value a rfl)
    exact (hrest e rfl (Nat.le_refl _)).append h.grown h.inside h.ahead has hapart fun _ _ _ => Failure.admits_append (.inl rfl)

theorem deeper (h : Tidy whole v (.only True) i i n A p) : Tidy whole v (.only True) i i n A p.deeper := by
  rintro d rfl hd
  by_cases hdepth : d.depth < maxParseDepth
  · rw [deeper_of_lt hdepth]
    have h := h (d.enter hdepth) rfl hd
    refine ⟨⟨h.grown.top, Fin.ext ?_⟩, h.inside, h.ahead, h.value, h.bodies⟩
    change (p v (d.enter hdepth)).2.depth.val - 1 = d.depth.val
    rw [h.grown.depth]
    rfl
  · rw [deeper_of_not_lt hdepth]
    exact fail (.refl v _) trivial d rfl hd

theorem within {change : View → View} (hlimit : (change v).limit = v.limit)
    (h : Tidy whole (change v) failure first i n A p) : Tidy whole v failure first i n A (Parse.within change p) := by
  intro d hi hd
  have h := h d hi hd
  refine ⟨h.grown, ?_, ⟨h.ahead.le, hlimit ▸ h.ahead.within⟩, h.value, h.bodies⟩
  unfold View.Defers
  rw [← hlimit]
  exact h.inside

/-! ## Bodies -/

theorem forgetting {f : α → Parse β} (hp : Tidy whole v failure first i n A p)
    (hf : ∀ a j m, v.Ahead first j → n ≤ m → A m a → Tidy whole v (.only False) first j m B (f a)) :
    Tidy whole v failure first i n B
      (deferredCount >>= fun mark => p >>= fun a => dropDeferred mark >>= fun _ => f a) := by
  intro d hi hd
  have h := hp d hi hd
  change Outcome whole v failure first B d ((p >>= fun a => dropDeferred d.deferred.size >>= fun _ => f a) v d)
  rw [bind_apply]
  rcases hx : p v d with ⟨_ | a, e⟩
  · rw [hx] at h
    exact h.failed
  · rw [hx] at h
    obtain ⟨as, has, _, _⟩ := h.bodies
    have hrest : Tidy whole v failure first e.pos e.arena.top B (f a) :=
      (hf a e.pos e.arena.top h.ahead (Nat.le_trans hd h.grown.top) (h.value a rfl)).sure
    have hrun := hrest { e with deferred := e.deferred.take d.deferred.size } rfl (Nat.le_refl _)
    exact hrun.of_recorded ⟨h.grown.top, h.grown.depth⟩ (Draft.take_deferred has)

variable {body : Deferred} {f : Unit → Parse β}

theorem defer_seek {j : Nat} (hstart : first ≤ body.start) (hbody : body.start < body.body)
    (hclose : body.start ≤ body.close) (hpassed : body.close < j) (hj : v.Ahead first j)
    (hf : Tidy whole v (.only False) j j n B (f ())) :
    Tidy whole v failure first i n B (Parse.defer body >>= fun _ => Parse.seek j >>= f) := by
  rintro d rfl hd
  have hapart : Deferred.Apart first j [body] :=
    .cons hstart (Nat.le_of_lt hbody) hclose hpassed (.nil _ _) (Nat.le_refl _)
  have hrest := hf { d with deferred := d.deferred.push body, pos := j } rfl hd
  have hin : v.Defers first d.deferred (d.deferred.push body) :=
    .push (Nat.lt_of_le_of_lt hstart hbody) fun hl => Nat.lt_of_lt_of_le hpassed (hj.within hl)
  exact hrest.append ⟨Nat.le_refl _, rfl⟩ hin hj Array.toList_push (.inr hapart) fun _ _ _ => Failure.admits_append (.inl rfl)

theorem defer (hstart : first ≤ body.start) (hbody : body.start < body.body) (hclose : body.start ≤ body.close)
    (hpassed : body.close < i) (hi : v.Ahead first i) (hf : Tidy whole v (.only False) i i n B (f ())) :
    Tidy whole v failure first i n B (Parse.defer body >>= f) := by
  rintro d rfl hd
  exact defer_seek hstart hbody hclose hpassed hi hf d rfl hd

theorem defer_arrow (harrow : whole.BracedArrow body) (hbody : first < body.body) (hclose : body.close < v.limit)
    (hf : Tidy whole v failure first i n B (f ())) :
    Tidy whole v failure first i n B (Parse.defer body >>= f) := by
  rintro d rfl hd
  have hrest := hf { d with deferred := d.deferred.push body } rfl hd
  exact hrest.of_irregular ⟨Nat.le_refl _, rfl⟩ (.push hbody fun _ => hclose) Array.toList_push (.arrow (List.mem_singleton_self _) harrow)

/-- What is read up to a limit of its own, with what follows from an index behind it on. That may fail for
a cause by which the bodies before the limit are pressed. -/
theorem fenced {change : View → View} {limit stop : Nat} {g : α → Parse β} (hlimit : (change v).limit = limit)
    (hi : v.Ahead i limit) (hstop : v.Ahead limit stop) (hp : Tidy whole (change v) (.only False) i i n A p)
    (hg : ∀ a m, n ≤ m → A m a → Tidy whole v (.only c) stop stop m B (g a))
    (hpress : c → ∀ body : Deferred, i ≤ body.start → body.close < limit → whole.Pressed body) :
    Tidy whole v (.only c) i i n B (Parse.within change p >>= fun a => Parse.seek stop >>= fun _ => g a) := by
  intro d hpos hd
  have h := hp d hpos hd
  have hle : (p (change v) d).2.pos ≤ limit := hlimit ▸ h.ahead.within (hlimit ▸ hi.le)
  have hin (new : Array Deferred) (hnew : (change v).Defers i d.deferred new) : v.Defers i d.deferred new := by
    refine fun a ha => (hnew a ha).imp id fun ⟨hbody, hclose⟩ => ⟨hbody, fun hv => ?_⟩
    exact Nat.lt_of_lt_of_le (hlimit ▸ hclose (hlimit ▸ hi.le)) (hi.within hv)
  rw [bind_apply]
  unfold Parse.within
  rcases hx : p (change v) d with ⟨_ | a, e⟩
  · rw [hx] at h hle
    obtain ⟨as, has, _, hfail⟩ := h.bodies
    have hirr := (hfail rfl).resolve_right fun hcause => hcause.2
    have hahead : v.Ahead i e.pos := ⟨h.ahead.le, fun hv => Nat.le_trans hle (hi.within hv)⟩
    exact ⟨h.grown, hin e.deferred h.inside, hahead, (fun b hb => nomatch hb), as, has, .inl hirr, fun _ => .inl hirr⟩
  · rw [hx] at h hle
    obtain ⟨as, has, hbefore, _⟩ := h.bodies
    have hrest := hg a e.arena.top (Nat.le_trans hd h.grown.top) (h.value a rfl) { e with pos := stop } rfl
      (Nat.le_refl _)
    have hahead : v.Ahead i stop := hi.trans hstop
    have hapart : whole.Irregular e.arena.top as ∨ Deferred.Apart i stop as :=
      hbefore.imp id fun hapart => hapart.mono (Nat.le_refl _) (Nat.le_trans hle hstop.le)
    refine hrest.append ⟨h.grown.top, h.grown.depth⟩ (hin e.deferred h.inside) hahead has hapart fun n bs hn hbs => ?_
    rcases hbs with hirr | ⟨rfl, hc⟩
    · exact .inl (hirr.mono (Nat.le_refl _) (List.subset_append_right as bs))
    · rw [List.append_nil]
      rcases hbefore with hirr | hapart
      · exact .inl (hirr.mono hn (List.Subset.refl as))
      · cases as with
        | nil => exact .inr ⟨rfl, hc⟩
        | cons body rest =>
          have hbody := hapart.inside body (.head rest)
          exact .inl (.pressed (.head _) (hpress hc body hbody.1 (Nat.lt_of_lt_of_le hbody.2.2.2 hle)))

end Tidy

/-! ## Parsers that only record -/

namespace Still

variable {v : View} {n : Nat} {left : Pending}

theorem here {α : Type} (φ : View → Nat → α) : Still v n Anything (Parse.here φ) := look fun _ _ => trivial

theorem spanSince (start : Nat) : Still v n Anything (spanSince start) := here _

theorem alloc (kind : ExprKind) (span : Span) : Still v n Anything (alloc kind span) :=
  fun d _ => ⟨_, _, rfl, rfl, rfl, ⟨d.arena.top_le_alloc kind span, rfl⟩, trivial⟩

theorem literal (kind : LiteralKind) (value : String) (span : Span) :
    Still v n Anything (literal kind value span) :=
  alloc _ _

theorem compound (parts : List ExprId) (start : Nat) : Still v n Anything (compound parts start) :=
  (spanSince start).next fun _ => alloc _ _

theorem setLValue (id : ExprId) (lvalue : LValue) : Still v n Anything (setLValue id lvalue) :=
  fun _ _ => ⟨_, _, rfl, rfl, rfl, ⟨Nat.le_refl _, rfl⟩, trivial⟩

theorem addProperty (p : Property) : Still v n Anything (addProperty p) :=
  fun _ _ => ⟨_, _, rfl, rfl, rfl, ⟨Nat.le_refl _, rfl⟩, trivial⟩

theorem exprOf (id : ExprId) : Still v n Anything (exprOf id) := look fun _ _ => trivial

theorem kindOf (id : ExprId) : Still v n Anything (kindOf id) := look fun _ _ => trivial

theorem isStringy (id : ExprId) : Still v n Anything (isStringy id) := look fun _ _ => trivial

theorem height (id : ExprId) : Still v n (fun m h => h ≤ m) (height id) :=
  look fun d _ => d.arena.height_le_top id

theorem baseName (id : ExprId) : Still v n Anything (baseName id) := look fun _ _ => trivial

theorem isStringLiteral (id : ExprId) : Still v n Anything (isStringLiteral id) := by
  refine (kindOf id).next fun kind => ?_
  split <;> exact pure fun _ _ => trivial

theorem materialize (left : Pending) : Still v n Anything (materialize left) := by
  unfold Parse.materialize
  split
  · exact pure fun _ _ => trivial
  · exact alloc _ _
  · refine (baseName _).next fun name => (alloc _ _).next fun id => ?_
    exact (setLValue _ _).next fun _ => pure fun _ _ => trivial
  · exact alloc _ _
  · exact alloc _ _

theorem tooDeep (hl : left.Grounded n) :
    Still v n (fun m deep => deep = true → maxTreeHeight ≤ m + 1) (tooDeep left) := by
  have hid (id : ExprId) : Still v n (fun m deep => deep = true → maxTreeHeight ≤ m + 1)
      (do return decide (maxTreeHeight ≤ (← Parse.height id))) := by
    refine (height id).bind fun h m _ hh => pure fun k hk hdeep => ?_
    have := of_decide_eq_true hdeep
    omega
  cases left with
  | done id => exact hid id
  | member id => exact hid id
  | path => exact pure fun _ _ h => nomatch h
  | chain concat parts h span =>
    refine pure fun m hm hdeep => ?_
    have hdeep := of_decide_eq_true hdeep
    have hh : h ≤ n + 1 := hl
    omega

theorem operandsOf (concat : Bool) (id : ExprId) : Still v n Anything (operandsOf concat id) := by
  refine (kindOf id).next fun kind => ?_
  split <;> exact pure fun _ _ => trivial

theorem concat (ids : List ExprId) (span : Span) : Still v n Anything (concat ids span) :=
  (mapM ids fun id _ => operandsOf true id).next fun _ => alloc _ _

theorem calleeOf (left : Pending) : Still v n Anything (calleeOf left) := by
  unfold Parse.calleeOf
  split
  · split
    · exact (alloc _ _).next fun _ => pure fun _ _ => trivial
    · exact pure fun _ _ => trivial
  · exact (baseName _).next fun _ => pure fun _ _ => trivial
  · exact (materialize _).next fun _ => (baseName _).next fun _ => pure fun _ _ => trivial

theorem makeCall (callee : String) (receiver : Option ExprId) (args : List ExprId) (start : Nat) :
    Still v n Anything (makeCall callee receiver args start) := by
  have hliteral (x : Option ExprId) : Still v n Anything (x.elim (return false) Parse.isStringLiteral) := by
    cases x with
    | none => exact pure fun _ _ => trivial
    | some id => exact isStringLiteral id
  refine (spanSince start).next fun span => (hliteral receiver).next fun _ => (hliteral args.head?).next fun _ => ?_
  refine ite (fun _ => concat _ _) fun _ => ite (fun _ => concat _ _) fun _ => ?_
  exact .view (alloc _ _)

theorem blockSources (id : ExprId) : Still v n Anything (blockSources id) := by
  refine (exprOf id).next fun e => ?_
  split
  · exact pure fun _ _ => trivial
  · split
    · exact (alloc _ _).next fun _ => pure fun _ _ => trivial
    · exact pure fun _ _ => trivial
  · exact pure fun _ _ => trivial

theorem lambdaLiteral (start : Nat) : Still v n Pending.Grounded (lambdaLiteral start) :=
  (spanSince start).next fun _ => (literal _ _ _).next fun _ => pure fun _ _ => trivial

theorem buildsString (op : String) (left : Pending) (right : ExprId) :
    Still v n Anything (buildsString op left right) := by
  unfold Parse.buildsString
  split
  · exact pure fun _ _ => trivial
  · refine (isStringy right).next fun _ => ite (fun _ => pure fun _ _ => trivial) fun _ => ?_
    split
    · exact pure fun _ _ => trivial
    · exact isStringy _
    · exact pure fun _ _ => trivial
  · split
    · exact .view (ite (fun _ => isStringLiteral _) fun _ => pure fun _ _ => trivial)
    · exact pure fun _ _ => trivial
  · exact pure fun _ _ => trivial

theorem chainOf (concat : Bool) (hl : left.Grounded n) :
    Still v n (fun m x => x.2 ≤ m + 1) (chainOf concat left) := by
  have hrecord (left : Pending) : Still v n (fun m x => x.2 ≤ m + 1) (do
      let id ← Parse.materialize left
      return (← Parse.operandsOf concat id, (← Parse.height id) + 1)) := by
    refine (materialize left).next fun id => (operandsOf concat id).next fun parts => ?_
    refine (height id).bind fun h m _ hh => pure fun k hk => ?_
    exact Nat.succ_le_succ (Nat.le_trans hh hk)
  cases left with
  | chain kind parts h span =>
    refine ite (fun _ => pure fun m hm => ?_) fun _ => hrecord _
    exact Nat.le_trans hl (Nat.succ_le_succ hm)
  | _ => exact hrecord _

theorem binary (op : String) (hl : left.Grounded n) (right : ExprId) (start : Nat) :
    Still v n Pending.Grounded (binary op left right start) := by
  refine (spanSince start).next fun span => (buildsString op left right).next fun concat => ?_
  refine (chainOf concat hl).bind fun x m hm hx => (operandsOf concat right).next fun last => ?_
  refine (height right).bind fun h k hk hh => pure fun l hl => ?_
  change max x.2 (h + 1) ≤ l + 1
  omega

end Still
end Parse
end TaintScan
