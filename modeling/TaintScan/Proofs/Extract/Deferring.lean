import TaintScan.Proofs.Extract.Bodies

/-! # Parsers that defer bodies

Every parser of expressions defers bodies one behind the other, or for one of the known reasons. The
levels of nesting are taken one after the other: a level is tidy if the one below it is, and the lowest
one defers nothing.
-/
namespace TaintScan

structure Level.Tidy (sub : Level) : Prop where
  pending : ∀ {whole v : View}, v.PartOf whole → ∀ i n power : Nat,
    Parse.Tidy whole v (.only True) i i n Pending.Grounded (sub.pending power)
  primary : ∀ {whole v : View}, v.PartOf whole → ∀ i n : Nat,
    Parse.Tidy whole v (.only True) i i n Pending.Grounded sub.primary

/-! ## Members, blocks and lambdas -/

namespace Parse.Tidy

variable {whole v : View} {failure : Failure} {first i n : Nat} {β : Type} {B : Nat → β → Prop}

theorem member {left : Pending} (hl : left.Grounded n) (start : Nat) :
    Tidy whole v (.only False) i i n Pending.Grounded (member left start) := by
  refine .view (.pos (.ite (fun hword => .seek ?_) fun _ => .ite (fun _ => ?_) fun _ => ?_))
  · have hword := View.lt_limit_of_any hword
    have hj : v.Ahead i (i + 2) := .succ (.next (Nat.lt_of_succ_lt hword)) hword
    refine .next (.spanSince _) fun span => ?_
    split
    · exact .pure hj fun _ _ => trivial
    · exact .pure hj fun _ _ => trivial
    · exact .next (.materialize _) fun _ => .pure hj fun _ _ => trivial
  · split
    · rename_i close hclose
      obtain ⟨hlt, hlimit⟩ := View.matching?_bounds hclose
      exact .seek (.pure ((View.Ahead.of_lt (by omega) hlimit).succ hlimit) fun _ hm => hl.mono hm)
    · exact .pure (.refl v i) fun _ hm => hl.mono hm
  · exact .pure (.refl v i) fun _ hm => hl.mono hm

theorem braceBlock {left : Pending} (hl : left.Grounded n) (start : Nat) :
    Tidy whole v (.only False) i i n Pending.Grounded (braceBlock left start) := by
  refine .pos (.view ?_)
  split
  · exact .pure (.refl v i) fun _ hm => hl.mono hm
  · rename_i close hclose
    obtain ⟨hlt, hlimit⟩ := View.matching?_bounds hclose
    have hbody : i < (v.blockParams (i + 1)).2 := v.le_blockParams (i + 1)
    have hdefer (call : ExprId) : Tidy whole v (.only False) i i n Pending.Grounded (do
        let w ← Parse.view
        let sources ← blockSources call
        Parse.defer ⟨(w.blockParams (i + 1)).1, i, (w.blockParams (i + 1)).2, close, sources⟩
        Parse.seek (close + 1)
        return .done call) := by
      refine .view (.next (.blockSources call) fun sources => ?_)
      refine .defer_seek (Nat.le_refl i) hbody (Nat.le_of_lt hlt) (Nat.lt_succ_self close) (View.ahead_matching? hclose) ?_
      exact .pure (.refl v _) fun _ _ => trivial
    split
    · exact .next (.calleeOf _) fun _ => .next (.makeCall _ _ _ _) hdefer
    · exact .next (.calleeOf _) fun _ => .next (.makeCall _ _ _ _) hdefer
    · exact .next (.materialize _) hdefer

theorem bracedLambda (params : List String) {start opener : Nat} (hi : v.Ahead start i)
    (hstart : start ≤ opener) :
    Tidy whole v (.only True) start i n Pending.Grounded (bracedLambda params start opener) := by
  refine .view (.ofOption hi (fun _ => trivial) fun close hclose => ?_)
  obtain ⟨hlt, hlimit⟩ := View.matching?_bounds hclose
  have hpassed : v.Ahead start (close + 1) := (View.Ahead.of_lt (by omega) hlimit).succ hlimit
  have hrest : Tidy whole v (.only True) start i n Pending.Grounded
      (Parse.defer ⟨params, start, opener + 1, close, v.receiver.toList⟩ >>= fun _ =>
        Parse.seek (close + 1) >>= fun _ => lambdaLiteral start) := by
    refine .defer_seek (Nat.le_refl start) ?_ ?_ (Nat.lt_succ_self close) hpassed ?_
    · exact Nat.lt_succ_of_le hstart
    · exact Nat.le_trans hstart (Nat.le_of_lt hlt)
    · exact .ofStill (.lambdaLiteral start) (.refl v _)
  exact hrest

theorem bracketedParams {f : List String → Parse β} (hi : v.Ahead first i)
    (hf : ∀ names, v.Ahead first (v.pastGroup "(" i) →
      Tidy whole v (.only True) first (v.pastGroup "(" i) n B (f names)) :
    Tidy whole v (.only True) first i n B (bracketedParams >>= f) := by
  unfold Parse.bracketedParams
  rw [bind_assoc]
  refine .here ?_
  by_cases hop : v.isOpAt i "(" = true
  · rw [if_pos hop]
    simp only [bind_assoc, pure_bind]
    refine .view (.pos (.ofOption hi (fun _ => trivial) fun close hclose => .seek ?_))
    have hpast : v.pastGroup "(" i = close + 1 := by simp [View.pastGroup, hop, hclose]
    rw [hpast] at hf
    exact hf _ (hi.trans (View.ahead_matching? hclose))
  · rw [if_neg hop, pure_bind]
    have hpast : v.pastGroup "(" i = i := by simp [View.pastGroup, hop]
    rw [hpast] at hf
    exact hf [] hi

theorem skipType {f : Unit → Parse β} (h : Tidy whole v failure first (v.typeEnd i) n B (f ())) :
    Tidy whole v failure first i n B (skipType >>= f) := by
  unfold Parse.skipType
  rw [bind_assoc]
  exact .here (.seek h)

theorem skipCast {f : Bool → Parse β}
    (ht : v.Ahead i (v.typeEnd (i + 1)) → Tidy whole v failure first (v.typeEnd (i + 1)) n B (f true))
    (hf : Tidy whole v failure first i n B (f false)) : Tidy whole v failure first i n B (skipCast >>= f) := by
  unfold Parse.skipCast
  simp only [bind_assoc]
  refine .view (.pos ?_)
  split
  · rename_i hcast
    rw [bind_assoc]
    refine .seek (ht ?_)
    have has : v.textAt i = "as" := by simp_all
    exact (View.Ahead.next (View.lt_limit_of_textAt has (by decide))).trans (v.ahead_typeEnd (i + 1))
  · exact hf

/-- A Ruby lambda whose body is deferred is read twice. -/
theorem arrowLambda (hv : v.PartOf whole) (hlang : v.language = .ruby) (harrow : v.isOpAt i "->" = true) :
    Tidy whole v (.only True) i i n Pending.Grounded (Level.arrowLambda i) := by
  have hi : v.Ahead i (i + 1) := .next (View.lt_limit_of_any harrow)
  refine .advance (.bracketedParams hi fun names hj => .here (.ite (fun hop => ?_) fun _ => .fail hj trivial))
  refine .pos (.view (.ofOption hj (fun _ => trivial) fun close hclose => ?_))
  let body : Deferred := ⟨names, i, v.pastGroup "(" (i + 1) + 1, close, v.receiver.toList⟩
  have hbraced : whole.BracedArrow body := by
    refine ⟨hv.language ▸ hlang, hv.any harrow, ?_⟩
    change whole.isOpAt (whole.pastGroup "(" (i + 1)) _ = true
    rw [hv.pastGroup (by decide) hop]
    exact hv.any hop
  have hrest : Tidy whole v (.only True) i (v.pastGroup "(" (i + 1)) n Pending.Grounded
      (Parse.defer body >>= fun _ => lambdaLiteral i) :=
    .defer_arrow hbraced (Nat.lt_succ_of_le hj.le) (View.matching?_bounds hclose).2 (.ofStill (.lambdaLiteral i) hj)
  exact hrest

end Parse.Tidy

namespace Level

open Parse

theorem still_keep {v : View} {n : Nat} (key : Option (String × Nat)) (item : Option ExprId) :
    Still v n Anything (keep key item) := by
  unfold keep
  split
  · refine (Still.isStringLiteral _).next fun _ => .ite (fun _ => ?_) fun _ => .pure fun _ _ => trivial
    exact (Still.here _).next fun _ => .addProperty _
  · exact .pure fun _ _ => trivial

theorem isSome_bind {α β : Type} {p : Parse α} {f : α → Parse β} {v : View} {d : Draft}
    (hp : (p v d).1.isSome = true) (hf : ∀ a e, (f a v e).1.isSome = true) :
    ((p >>= f) v d).1.isSome = true := by
  rw [bind_apply]
  rcases hx : p v d with ⟨_ | a, e⟩
  · rw [hx] at hp
    cases hp
  · exact hf a e

theorem isSome_looseItems (sub : Level) (k : Nat) (v : View) (d : Draft) :
    (sub.looseItems k v d).1.isSome = true := by
  induction k generalizing d with
  | zero => rfl
  | succ k ih =>
    refine isSome_bind rfl fun i d => isSome_bind rfl fun w d => ?_
    split
    · rfl
    · refine isSome_bind rfl fun item d => isSome_bind rfl fun _ d => ?_
      exact isSome_bind (ih d) fun _ _ => rfl

theorem lt_limit_of_groupKey? {v : View} {object : Bool} {i : Nat} {name : String}
    (h : v.groupKey? object i = some name) : i + 1 < v.limit := by
  unfold View.groupKey? at h
  split at h
  · simp at h
  · split at h
    · split at h
      · rename_i hop
        rcases Bool.or_eq_true_iff.mp hop with hop | hop <;> exact View.lt_limit_of_any hop
      · simp at h
    · split at h
      · rename_i hop
        rcases Bool.or_eq_true_iff.mp hop with hop | hop <;> exact View.lt_limit_of_any hop
      · simp at h
    · split at h
      · rename_i hop
        rcases Bool.or_eq_true_iff.mp hop with hop | hop
        · exact View.lt_limit_of_any (Bool.and_eq_true_iff.mp hop).2
        · exact View.lt_limit_of_any (Bool.and_eq_true_iff.mp hop).2
      · simp at h
    · simp at h

namespace Tidy

variable {sub : Level} {whole v : View} {i n : Nat} (hs : sub.Tidy) (hv : v.PartOf whole) {left : Pending} {t : Token}
include hs hv

theorem expr (power : Nat) : Parse.Tidy whole v (.only True) i i n Anything (sub.expr power) :=
  (hs.pending hv i n power).bind fun _ j _ _ _ _ => .ofStill (.materialize _) (.refl v j)

/-! ## Groups -/

theorem groupItems (object : Bool) (k : Nat) (key : Option (String × Nat)) :
    Parse.Tidy whole v (.only False) i i n Anything (sub.groupItems object k key) := by
  induction k generalizing i n key with
  | zero => exact .pure (.refl v i) fun _ _ => trivial
  | succ k ih =>
    refine .pos (.view (.ite (fun _ => .pure (.refl v i) fun _ _ => trivial) fun hi => .here ?_))
    have hi : i < v.limit := Nat.lt_of_not_le hi
    split
    · rename_i name hname
      have hstep : v.Ahead i (i + 2) := (View.Ahead.next hi).succ (lt_limit_of_groupKey? hname)
      exact .here (.advance ((ih _).lower hstep))
    · refine .attempt (hs.expr hv 0) (fun item j m _ _ _ => ?_) fun j m hj _ => ?_
      · refine .next (still_keep _ _) fun _ => .progress (.refl v j) hi fun l hl => ?_
        exact ((ih none).lower hl).bind fun _ l _ _ _ _ => .pure (.refl v l) fun _ _ => trivial
      · refine .next (still_keep _ _) fun _ => .progress hj hi fun l hl => ?_
        exact ((ih none).lower hl).bind fun _ l _ _ _ _ => .pure (.refl v l) fun _ _ => trivial

theorem looseItems (k : Nat) : Parse.Tidy whole v (.only False) i i n Anything (sub.looseItems k) := by
  induction k generalizing i n with
  | zero => exact .pure (.refl v i) fun _ _ => trivial
  | succ k ih =>
    refine .pos (.view (.ite (fun _ => .pure (.refl v i) fun _ _ => trivial) fun hi => ?_))
    have hi : i < v.limit := Nat.lt_of_not_le hi
    refine .attempt (hs.expr hv 0) (fun item j m _ _ _ => ?_) fun j m hj _ => ?_
    · refine .progress (.refl v j) hi fun l hl => ?_
      exact (ih.lower hl).bind fun _ l _ _ _ _ => .pure (.refl v l) fun _ _ => trivial
    · refine .progress hj hi fun l hl => ?_
      exact (ih.lower hl).bind fun _ l _ _ _ _ => .pure (.refl v l) fun _ _ => trivial

/-- A bracketed group with what follows it. That may fail for a cause by which the bodies in the group
are pressed. -/
theorem group_bind {c : Prop} {β : Type} {B : Nat → β → Prop} {f : List ExprId → Parse β}
    (hnone : v.matching? i = none → c)
    (hf : ∀ close items m, v.matching? i = some close → n ≤ m →
      Parse.Tidy whole v (.only c) (close + 1) (close + 1) m B (f items))
    (hpress : ∀ close, v.matching? i = some close → c → ∀ body : Deferred, i < body.start →
      body.close < close → whole.Pressed body) :
    Parse.Tidy whole v (.only c) i i n B (sub.group i >>= f) := by
  unfold Level.group
  simp only [bind_assoc, pure_bind]
  refine .view (.ofOption (.refl v i) hnone fun close hclose => .view (.seek ?_))
  obtain ⟨hlt, hlimit⟩ := View.matching?_bounds hclose
  have hinner : View.PartOf { v with limit := close, nesting := v.nesting + 1 } whole :=
    ⟨hv.tokens, hv.dialect, Nat.le_trans (Nat.le_of_lt hlimit) hv.limit⟩
  have hstep : v.Ahead i (i + 1) := .next (Nat.lt_trans hlt hlimit)
  refine Parse.Tidy.lower ?_ hstep
  exact .fenced rfl (.of_lt hlt hlimit) (.next hlimit) (hs.groupItems hinner _ _ _)
    (fun items m hm _ => hf close items m hclose hm) fun hc => hpress close hclose hc

theorem group : Parse.Tidy whole v (.only True) i i n Anything (sub.group i) := by
  have h : Parse.Tidy whole v (.only (v.matching? i = none)) i i n Anything (sub.group i >>= pure) := by
    refine hs.group_bind hv id (fun close items m _ _ => .pure (.refl v _) fun _ _ => trivial) ?_
    intro close hclose hnone
    rw [hnone] at hclose
    cases hclose
  rw [bind_pure] at h
  exact h.only fun _ => trivial

omit hv in
theorem embedded (t : Token) (segment : Span) : Still v n Anything (sub.embedded t segment) := by
  intro d _
  have h := hs.looseItems (View.PartOf.refl (v.inside t segment)) (v.inside t segment).tokens.size
    { d with pos := 0 } rfl (Nat.le_refl _)
  have hsome := isSome_looseItems sub (v.inside t segment).tokens.size (v.inside t segment) { d with pos := 0 }
  obtain ⟨items, hitems⟩ := Option.isSome_iff_exists.mp hsome
  obtain ⟨added, hadded, _, _⟩ := h.bodies
  let read := sub.looseItems (v.inside t segment).tokens.size (v.inside t segment) { d with pos := 0 }
  let after : Draft := { read.2 with pos := d.pos, deferred := read.2.deferred.take d.deferred.size }
  have hrun : sub.embedded t segment v d = (read.1, after) := rfl
  refine ⟨items, after, ?_, rfl, Draft.take_deferred hadded, ⟨h.grown.top, h.grown.depth⟩, trivial⟩
  rw [hrun]
  exact Prod.ext hitems rfl

omit hv in
theorem interpolated (t : Token) (kind : LiteralKind) : Still v n Anything (sub.interpolated t kind) := by
  refine .view ((Still.literal _ _ _).next fun first => ?_)
  refine (Still.mapM _ fun segment _ => hs.embedded t segment).next fun rest => ?_
  split
  · exact .pure fun _ _ => trivial
  · exact .alloc _ _

/-! ## What follows an operand -/

theorem call (left : Pending) (start : Nat) :
    Parse.Tidy whole v (.only False) i i n Pending.Grounded (sub.call left start) := by
  refine .next (.calleeOf left) fun x => .pos ?_
  have hinner : View.PartOf { v with receiver := x.2 } whole := ⟨hv.tokens, hv.dialect, hv.limit⟩
  refine .attempt (.within rfl (hs.group hinner)) (fun args j m _ _ _ => ?_) fun j m hj _ => ?_
  · exact .next (.makeCall _ _ _ _) fun _ => .pure (.refl v j) fun _ _ => trivial
  · dsimp only
    split
    · exact .pure hj fun _ _ => trivial
    · exact .next (.spanSince _) fun _ => .next (.alloc _ _) fun _ => .pure hj fun _ _ => trivial

theorem index (left : ExprId) (start : Nat) :
    Parse.Tidy whole v (.only False) i i n Pending.Grounded (sub.index left start) := by
  refine .next (.baseName left) fun base => .pos ?_
  refine .attempt (hs.group hv) (fun keys j m _ _ _ => ?_) fun j m hj _ => .pure hj fun _ _ => trivial
  refine .next (.compound _ _) fun id => .next (.setLValue _ _) fun _ => ?_
  exact .pure (.refl v j) fun _ _ => trivial

theorem commandArgs (k : Nat) : Parse.Tidy whole v (.only False) i i n Anything (sub.commandArgs k) := by
  induction k generalizing i n with
  | zero => exact .pure (.refl v i) fun _ _ => trivial
  | succ k ih =>
    refine .here (.branch (View.Ahead.refl v i) (fun j hj => ?_) fun hlabel hrest => .advance (hrest _ ?_))
    · refine .attempt ((hs.expr hv 0).lower hj) (fun arg l m _ _ _ => ?_) fun l m hl _ => ?_
      · refine .eatOp (fun hop => ?_) (.pure (.refl v l) fun _ _ => trivial)
        refine (ih.lower (.next (View.lt_limit_of_any hop))).bind fun _ j _ _ _ _ => ?_
        exact .pure (.refl v j) fun _ _ => trivial
      · exact .pure hl fun _ _ => trivial
    · have hcolon := View.lt_limit_of_any (Bool.and_eq_true_iff.mp hlabel).2
      exact .succ (.next (Nat.lt_of_succ_lt hcolon)) hcolon

theorem commandCall (hl : left.Grounded n) (start : Nat) :
    Parse.Tidy whole v (.only False) i i n Pending.Grounded (sub.commandCall left start) := by
  refine .here (.ite (fun _ => ?_) fun _ => .pure (.refl v i) fun _ hm => hl.mono hm)
  refine .next (.calleeOf left) fun x => .view ?_
  have hinner : View.PartOf { v with receiver := x.2 } whole := ⟨hv.tokens, hv.dialect, hv.limit⟩
  refine (Parse.Tidy.within rfl (hs.commandArgs hinner v.limit)).bind fun args j m _ _ _ => ?_
  exact .next (.makeCall _ _ _ _) fun _ => .pure (.refl v j) fun _ _ => trivial

theorem adjacent (left : ExprId) (start : Nat) :
    Parse.Tidy whole v (.only False) i i n Pending.Grounded (sub.adjacent left start) := by
  refine .next (.isStringy left) fun stringy => .ite (fun _ => ?_) fun _ => .pure (.refl v i) fun _ _ => trivial
  refine .attempt (hs.primary hv i n) (fun next j m _ _ _ => ?_) fun j m hj _ => .pure hj fun _ _ => trivial
  refine .next (.materialize next) fun right => .next (.spanSince _) fun _ => .next (.concat _ _) fun _ => ?_
  exact .pure (.refl v j) fun _ _ => trivial

theorem suffixOperator (ht : v.tok? i = some t) (hl : left.Grounded n) (start : Nat) :
    Parse.Tidy whole v (.only False) i i n Pending.Grounded (sub.suffixOperator t left start) := by
  have hnext : v.Ahead i (i + 1) := .next (View.lt_limit_of_tok? ht)
  have hleft {j : Nat} (hj : v.Ahead i j) :
      Parse.Tidy whole v (.only False) i j n Pending.Grounded (pure left) :=
    .pure hj fun _ hm => hl.mono hm
  refine .view (.pos (.ite (fun _ => .member hl start) fun _ => ?_))
  split
  · exact hs.call hv left start
  · exact .next (.materialize left) fun _ => hs.index hv _ start
  · exact .advance (hleft hnext)
  · exact .advance (hleft hnext)
  · exact .ite (fun _ => .advance (hleft hnext)) fun _ => hleft (.refl v i)
  · exact .ite (fun _ => .seek (hleft (v.ahead_angleEnd i))) fun _ => hleft (.refl v i)
  · split
    · exact .braceBlock hl start
    · refine .attempt (hs.group hv) (fun items j m _ _ _ => ?_) fun j m hj _ => .pure hj fun _ _ => trivial
      exact .next (.compound _ _) fun _ => .pure (.refl v j) fun _ _ => trivial
    · exact hleft (.refl v i)
  · exact hleft (.refl v i)

theorem suffix (hl : left.Grounded n) (start : Nat) :
    Parse.Tidy whole v (.only False) i i n Pending.Grounded (sub.suffix left start) := by
  have hleft : Parse.Tidy whole v (.only False) i i n Pending.Grounded (pure left) :=
    .pure (.refl v i) fun _ hm => hl.mono hm
  refine .view (.pos ?_)
  split
  · exact hleft
  · rename_i t ht
    split
    · exact hs.suffixOperator hv ht hl start
    · exact .ite (fun _ => hs.commandCall hv hl start) fun _ => hleft
    · exact .ite (fun _ => hs.commandCall hv hl start) fun _ => hleft
    · exact .ite (fun _ => hs.commandCall hv hl start) fun _ => hleft
    · exact .ite (fun _ => hs.adjacent hv _ start) fun _ => hleft
    · exact .ite (fun _ => hs.adjacent hv _ start) fun _ => hleft
    · exact hleft

/-! ## Operands -/

theorem lambdaBody (params : List String) {start : Nat} (hi : v.Ahead start i) (hlt : start < i) :
    Parse.Tidy whole v (.only True) start i n Pending.Grounded (sub.lambdaBody params start) := by
  refine .pos (.here (.view (.ite (fun _ => .bracedLambda params hi hi.le) fun _ => ?_)))
  refine .forgetting ((hs.expr hv 1).lower hi) fun body stop m hstop _ _ => .pos ?_
  have hrest {first : Nat} (hf : v.Ahead first stop) : Parse.Tidy whole v (.only False) first stop m Pending.Grounded
      (do return .done (← compound [body] start)) :=
    .next (.compound _ _) fun _ => .pure hf fun _ _ => trivial
  refine .ite (fun hpassed => ?_) fun _ => hrest hstop
  have hdefer : Parse.Tidy whole v (.only False) start stop m Pending.Grounded
      (defer ⟨params, start, i, stop - 1, v.receiver.toList⟩ >>= fun _ => do return .done (← compound [body] start)) := by
    refine .defer (Nat.le_refl start) hlt ?_ ?_ hstop (hrest (.refl v stop)) <;> (dsimp only; omega)
  exact hdefer

theorem anonymousFunction (hi : i < v.limit) :
    Parse.Tidy whole v (.only True) i i n Pending.Grounded (sub.anonymousFunction i) := by
  -- All that follows the keyword starts behind it.
  let P : Nat → Prop := fun j => v.Ahead i j ∧ i < j
  have hsucc {j : Nat} (hj : P j) (hlt : j < v.limit) : P (j + 1) := ⟨hj.1.succ hlt, Nat.lt_succ_of_lt hj.2⟩
  have hstart : P (i + 1) := ⟨.next hi, Nat.lt_succ_self i⟩
  refine .seek (.pass hstart (hsucc hstart) fun _ j hj => ?_)
  refine .branch hj (fun j hj => ?_) fun _ hrest => .pass hj (hsucc hj) fun _ => hrest
  refine .here (.branch hj (fun j hj => ?_) fun hname hrest => .advance (hrest _ (hsucc hj (View.lt_limit_of_any hname))))
  refine .bracketedParams hj.1 fun params hpast => ?_
  have hpast : P (v.pastGroup "(" j) := ⟨hpast, Nat.lt_of_lt_of_le hj.2 (v.ahead_pastGroup "(" j).le⟩
  refine .here (.branch hpast (fun j hj => ?_) fun _ hrest => .view (.pos ?_))
  · refine .here ?_
    split
    · rename_i opener hbody
      obtain ⟨k, hk, _, hopener | hopener⟩ := v.ahead_functionBody? _ _ _ hbody <;> cases hopener
      exact .bracedLambda params hj.1 (Nat.le_trans hj.1.le hk)
    · rename_i k hbody
      obtain ⟨k, hk, hlimit, harrow | harrow⟩ := v.ahead_functionBody? _ _ _ hbody <;> cases harrow
      have hbody : v.Ahead i (k + 1) := (View.Ahead.of_lt (Nat.le_trans hj.1.le hk) hlimit).succ hlimit
      exact .seek (hs.lambdaBody hv params hbody (Nat.lt_succ_of_le (Nat.le_trans hj.1.le hk)))
    · exact .fail hj.1 trivial
  · refine .ofOption hpast.1 (fun _ => trivial) fun close hclose => .seek (hrest _ ?_)
    obtain ⟨hlt, hlimit⟩ := View.matching?_bounds hclose
    have hle := hpast.2
    exact ⟨.succ (.of_lt (by omega) hlimit) hlimit, by omega⟩

/-- The arguments of a constructor, with what follows them. That may fail where a bracket opens behind
them. -/
theorem group_more {β : Type} {B : Nat → β → Prop} {f : List ExprId → Parse β}
    (hcon : ∀ close, v.matching? i = some close → whole.Constructs i close)
    (hf : ∀ close items m, v.matching? i = some close → n ≤ m →
      Parse.Tidy whole v (.only (whole.opensMore (close + 1) = true)) (close + 1) (close + 1) m B (f items)) :
    Parse.Tidy whole v (.only True) i i n B (sub.group i >>= f) := by
  have h : Parse.Tidy whole v (.only (v.matching? i = none ∨
      ∃ close, v.matching? i = some close ∧ whole.opensMore (close + 1) = true)) i i n B (sub.group i >>= f) := by
    refine hs.group_bind hv .inl (fun close items m hclose hm => ?_) fun close hclose hcause body hstart hend => ?_
    · exact (hf close items m hclose hm).only fun hmore => .inr ⟨close, hclose, hmore⟩
    · obtain hnone | ⟨close', hclose', hmore⟩ := hcause
      · rw [hclose] at hnone
        cases hnone
      · cases hclose.symm.trans hclose'
        exact ⟨i, close, hcon close hclose, hstart, hend, hmore⟩
  exact h.only fun _ => trivial

theorem groups_bind {β : Type} {B : Nat → β → Prop} (k : Nat) {f : List ExprId → Parse β}
    (hcon : ∀ close, v.isOpAt i "[" = true → v.matching? i = some close → whole.Constructs i close)
    (hf : ∀ items j m, v.Ahead i j → n ≤ m →
      Parse.Tidy whole v (.only (whole.opensMore j = true)) j j m B (f items)) :
    Parse.Tidy whole v (.only (whole.opensMore i = true)) i i n B (sub.groups k >>= f) := by
  induction k generalizing i n f with
  | zero => exact hf [] i n (.refl v i) (Nat.le_refl n)
  | succ k ih =>
    unfold Level.groups
    rw [bind_assoc]
    refine .here ?_
    by_cases hop : v.isOpAt i "[" = true
    · rw [if_pos hop]
      simp only [bind_assoc, pure_bind]
      refine .pos (Parse.Tidy.only (c := True) ?_ fun _ => hv.opensMore hop (.head _))
      refine hs.group_more hv (fun close => hcon close hop) fun close items m hclose hm => ?_
      refine ih (fun last hop' hlast => ?_) fun rest j m' hj hm' => ?_
      · exact .next (hcon close hop hclose) (hv.any hop') (hv.matching? hlast)
      · exact hf _ j m' ((View.ahead_matching? hclose).trans hj) (Nat.le_trans hm hm')
    · rw [if_neg hop, pure_bind]
      exact hf [] i n (.refl v i) (Nat.le_refl n)

theorem bracedItems :
    Parse.Tidy whole v (.only (whole.opensMore i = true)) i i n Anything sub.bracedItems := by
  refine .here (.ite (fun hop => .pos ?_) fun _ => .pure (.refl v i) fun _ _ => trivial)
  exact (hs.group hv).only fun _ => hv.opensMore hop (.tail _ (.head _))

theorem constructor (hnew : v.isKeywordAt i "new" = true) :
    Parse.Tidy whole v (.only True) i i n Pending.Grounded (sub.constructor i) := by
  have hend : v.Ahead i (v.constructorEnd i) := View.ahead_constructorEnd (View.lt_limit_of_any hnew)
  have hcon (close : Nat) (hclose : v.matching? (v.constructorEnd i) = some close) :
      whole.Constructs (v.constructorEnd i) close := by
    obtain ⟨hlt, hlimit⟩ := View.matching?_bounds hclose
    have heq := hv.constructorEnd (Nat.lt_trans hlt hlimit)
    rw [← heq] at hclose ⊢
    exact .first (hv.any hnew) (hv.matching? hclose)
  have htail (args : List ExprId) {j m : Nat} :
      Parse.Tidy whole v (.only (whole.opensMore j = true)) j j m Pending.Grounded (do
        let items ←
          if v.language == .java then do
            if ← isOp "\x7b" then seek ((← ofOption (v.matching? (← pos))) + 1)
            pure []
          else sub.bracedItems
        return .done (← alloc (.call (v.constructorName (v.limit - i) (i + 1)).1 none (args ++ items) true)
          (← spanSince i))) := by
    have hdone (items : List ExprId) {first k m : Nat} {failure : Failure} (hk : v.Ahead first k) :
        Parse.Tidy whole v failure first k m Pending.Grounded (do
          return .done (← alloc (.call (v.constructorName (v.limit - i) (i + 1)).1 none (args ++ items) true)
            (← spanSince i))) :=
      .next (.spanSince _) fun _ => .next (.alloc _ _) fun _ => .pure hk fun _ _ => trivial
    refine .ite (fun _ => .here ?_) fun _ => ?_
    · refine .ite (fun hop => .pos ?_) fun _ => hdone [] (.refl v j)
      refine .ofOption (.refl v j) (fun _ => hv.opensMore hop (.tail _ (.head _))) fun close hclose => ?_
      exact .seek (hdone [] (View.ahead_matching? hclose))
    · exact (hs.bracedItems hv).bind fun items k m _ _ _ => hdone items (.refl v k)
  refine .view (.seek (.here (.ite (fun _ => ?_) fun _ => .here ?_)))
  · refine Parse.Tidy.lower ?_ hend
    refine (hs.groups_bind hv v.limit (fun close _ => hcon close) fun sizes j m _ _ => ?_).only fun _ => trivial
    refine (hs.bracedItems hv).bind fun items k m _ _ _ => ?_
    exact .next (.compound _ _) fun _ => .pure (.refl v k) fun _ _ => trivial
  · refine Parse.Tidy.lower ?_ hend
    refine .ite (fun _ => .pos ?_) fun _ => (htail []).only fun _ => trivial
    exact hs.group_more hv hcon fun close args m _ _ => htail args

theorem collection {start : Nat} (hi : v.Ahead start i) :
    Parse.Tidy whole v (.only True) start i n Pending.Grounded (sub.collection start) := by
  refine .here (.here (.ite (fun _ => .pos ?_) fun _ => .fail hi trivial))
  refine ((hs.group hv).lower hi).bind fun items j m _ _ _ => ?_
  exact .next (.compound _ _) fun _ => .pure (.refl v j) fun _ _ => trivial

theorem bracketed : Parse.Tidy whole v (.only True) i i n Pending.Grounded (sub.bracketed i) := by
  refine .view (.ofOption (.refl v i) (fun _ => trivial) fun close hclose => ?_)
  have hpast := View.ahead_matching? hclose
  have hle := (View.matching?_bounds hclose).1
  refine .ite (fun harrow => ?_) fun _ => .ite (fun _ => ?_) fun _ => ?_
  · have harrow : close + 1 < v.limit := View.lt_limit_of_any (Bool.and_eq_true_iff.mp harrow).2
    exact .seek (hs.lambdaBody hv _ (hpast.succ harrow) (by omega))
  · exact .seek ((hs.pending hv _ n 9).lower hpast)
  · refine (hs.group hv).bind fun items j m _ _ _ => ?_
    split
    · exact .pure (.refl v j) fun _ _ => trivial
    · exact .next (.spanSince _) fun _ => .next (.literal _ _ _) fun _ => .pure (.refl v j) fun _ _ => trivial
    · exact .next (.compound _ _) fun _ => .pure (.refl v j) fun _ _ => trivial

theorem unary (hi : i < v.limit) : Parse.Tidy whole v (.only True) i i n Pending.Grounded (sub.unary i) := by
  refine .advance (((hs.expr hv 9).lower (.next hi)).bind fun operand j m _ _ _ => ?_)
  exact .next (.compound _ _) fun _ => .pure (.refl v j) fun _ _ => trivial

theorem keywordOperand (ht : v.tok? i = some t) (hk : t.kind = .keyword) :
    Parse.Tidy whole v (.only True) i i n Pending.Grounded (sub.keywordOperand i t) := by
  have hi := View.lt_limit_of_tok? ht
  have hnext : v.Ahead i (i + 1) := .next hi
  refine .view (.ite (fun _ => ?_) fun _ => ?_)
  · exact .advance (.next (.literal _ _ _) fun _ => .pure hnext fun _ _ => trivial)
  · split
    iterate 4 exact .advance (.pure hnext fun _ _ => trivial)
    · rename_i hnew
      refine hs.constructor hv ?_
      simp [View.isKeywordAt, ht, Token.isKeyword, hk, hnew]
    iterate 2 exact hs.anonymousFunction hv hi
    · refine .ite (fun _ => .ofOption (.refl v i) (fun _ => trivial) fun colon hcolon => .seek ?_)
        fun _ => .fail (.refl v i) trivial
      obtain ⟨hle, hlimit⟩ := v.ahead_colonFrom _ _ _ hcolon
      exact hs.lambdaBody hv _ (.succ (.of_lt (by omega) hlimit) hlimit) (by omega)
    · exact .advance ((hs.primary hv _ n).lower hnext)
    iterate 2
      refine .advance (.here (.branch hnext (fun j hj => .here ?_) fun hfrom hrest => ?_))
      · refine .ite (fun _ => ?_) fun _ => (hs.pending hv j n 9).lower hj
        exact .next (.literal _ _ _) fun _ => .pure hj fun _ _ => trivial
      · exact .advance (hrest _ (hnext.succ (View.lt_limit_of_any hfrom)))
    iterate 4 exact hs.unary hv hi
    iterate 2
      refine .ite (fun _ => .advance (.here ?_)) fun _ => .fail (.refl v i) trivial
      refine .branch hnext (fun j hj => ?_) fun _ hrest => .pos ?_
      · exact .skipType (hs.collection hv (hj.trans (v.ahead_typeEnd j)))
      · refine .ofOption hnext (fun _ => trivial) fun close hclose => .seek (hrest _ ?_)
        exact hnext.trans (View.ahead_matching? hclose)
    · exact .fail (.refl v i) trivial

theorem operatorOperand (ht : v.tok? i = some t) (hk : t.kind = .operator) :
    Parse.Tidy whole v (.only True) i i n Pending.Grounded (sub.operatorOperand i t) := by
  have hi := View.lt_limit_of_tok? ht
  have hnext : v.Ahead i (i + 1) := .next hi
  have hitems : Parse.Tidy whole v (.only True) i i n Pending.Grounded
      (do return .done (← compound (← sub.group i) i)) :=
    (hs.group hv).bind fun _ j _ _ _ _ => .next (.compound _ _) fun _ => .pure (.refl v j) fun _ _ => trivial
  refine .view ?_
  split
  · exact hs.bracketed hv
  · refine .ite (fun hempty => .advance ?_) fun _ => hitems
    have hempty := View.lt_limit_of_any (Bool.and_eq_true_iff.mp hempty).2
    have hpair : v.Ahead i (i + 2) := hnext.succ hempty
    refine .pass hpair (fun hlt => hpair.succ hlt) fun _ j hj => ?_
    exact .skipType (hs.collection hv (hj.trans (v.ahead_typeEnd j)))
  · exact hitems
  iterate 6 exact hs.unary hv hi
  iterate 6 exact .advance ((hs.pending hv _ n 9).lower hnext)
  iterate 2 exact .advance ((hs.primary hv _ n).lower hnext)
  · rename_i harrow
    refine .ite (fun hruby => .arrowLambda hv (eq_of_beq hruby) ?_) fun _ => .fail (.refl v i) trivial
    simp [View.isOpAt, ht, Token.isOp, hk, harrow]
  · exact .fail (.refl v i) trivial

omit hv in
theorem literalOperand (hi : i < v.limit) (t : Token) (kind : LiteralKind) :
    Parse.Tidy whole v (.only True) i i n Pending.Grounded (sub.literalOperand t kind) := by
  have hnext : v.Ahead i (i + 1) := .next hi
  refine .advance ?_
  split
  · exact .next (hs.interpolated t _) fun _ => .pure hnext fun _ _ => trivial
  · refine .next (hs.interpolated t _) fun _ => .next (.alloc _ _) fun _ => ?_
    exact .pure hnext fun _ _ => trivial
  · exact .next (.literal _ _ _) fun _ => .pure hnext fun _ _ => trivial
  · exact .next (.literal _ _ _) fun _ => .pure hnext fun _ _ => trivial

theorem nameOperand (hi : i < v.limit) (t : Token) :
    Parse.Tidy whole v (.only True) i i n Pending.Grounded (sub.nameOperand i t) := by
  have hnext : v.Ahead i (i + 1) := .next hi
  refine .view (.ite (fun _ => hs.anonymousFunction hv hi) fun _ => .ite (fun harrow => .advance ?_) fun _ => ?_)
  · have harrow : i + 1 < v.limit := View.lt_limit_of_any (Bool.and_eq_true_iff.mp harrow).2
    exact hs.lambdaBody hv _ (hnext.succ harrow) (by omega)
  · exact .advance (.pure hnext fun _ _ => trivial)

theorem operand : Parse.Tidy whole v (.only True) i i n Pending.Grounded sub.operand := by
  refine .pos (.view (.ofOption (.refl v i) (fun _ => trivial) fun t ht => ?_))
  have hi := View.lt_limit_of_tok? ht
  split
  · exact hs.literalOperand hi t _
  · exact hs.nameOperand hv hi t
  · exact hs.keywordOperand hv ht ‹_›
  · exact hs.operatorOperand hv ht ‹_›
  · exact .fail (.refl v i) trivial

/-! ## Operators -/

theorem conditional (op : String) (left : ExprId) (start : Nat) :
    Parse.Tidy whole v (.only True) i i n Anything (sub.conditional op left start) := by
  refine (hs.expr hv _).bind fun second j m _ _ _ => ?_
  have hthird (more : Bool) {first k : Nat} (hk : v.Ahead first k) :
      Parse.Tidy whole v (.only False) first k m Anything (do
        let third ← if more then attempt (sub.expr 1) else pure none
        compound (left :: second :: third.toList) start) := by
    refine .ite (fun _ => ?_) fun _ => .ofStill (.compound _ _) hk
    refine .attempt ((hs.expr hv 1).lower hk) (fun third l _ _ _ _ => ?_) fun l _ hl _ => ?_
    · exact .ofStill (.compound _ _) (.refl v l)
    · exact .ofStill (.compound _ _) hl
  refine .ite (fun _ => ?_) fun _ => .here (.ite (fun hword => .advance ?_) fun _ => hthird false (.refl v j))
  · exact .pass (.refl v j) (fun hlt => .next hlt) fun more k hk => hthird more hk
  · exact hthird true (.next (View.lt_limit_of_any hword))

/-- Where the right operand is given up, the position goes back to the operator. -/
theorem operator {op : String} (power start : Nat) (hl : left.Grounded n) (hi : i < v.limit)
    (hnot : op = "not" → i + 1 < v.limit) :
    Parse.Tidy whole v (.only False) i i n (fun m x => x.1.Grounded m) (sub.operator op power start left) := by
  have hnext : v.Ahead i (i + 1) := .next hi
  refine .pos (.advance (.here (.branch hnext (fun j hj => ?_) fun hword hrest => .advance (hrest _ ?_))))
  · refine .ite (fun _ => .next (.materialize left) fun id => ?_) fun _ => ?_
    · refine .attempt ((hs.conditional hv _ _ _).lower hj) (fun _ k m _ _ _ => ?_) fun k m _ _ => .seek ?_
      · exact .pure (.refl v k) fun _ _ => trivial
      · exact .pure (.refl v i) fun _ _ => trivial
    · refine .attempt ((hs.expr hv power).lower hj) (fun right k m _ hm _ => ?_) fun k m _ hm => .seek ?_
      · refine .still (.binary op (hl.mono hm) right start) fun joined m' _ hjoined => ?_
        exact .pure (.refl v k) fun l hl => hjoined.mono hl
      · exact .pure (.refl v i) fun l hle => hl.mono (Nat.le_trans hm hle)
  · have hword : i + 1 < v.limit := by
      rcases Bool.or_eq_true_iff.mp hword with hword | hword
      · exact hnot (eq_of_beq hword)
      · exact View.lt_limit_of_any (Bool.and_eq_true_iff.mp hword).2
    exact hnext.succ hword

theorem climbFrom (power start k : Nat) (hl : left.Grounded n) :
    Parse.Tidy whole v (.only False) i i n Pending.Grounded (sub.climbFrom power start k left) := by
  induction k generalizing i n left with
  | zero => exact .pure (.refl v i) fun _ hm => hl.mono hm
  | succ k ih =>
    refine .still (.tooDeep hl) fun deep m hm _ => .here ?_
    refine .ite (fun _ => .pure (.refl v i) fun _ hm' => hl.mono (Nat.le_trans hm hm')) fun _ => .pos ?_
    have hl : left.Grounded m := hl.mono hm
    have hkept : Parse.Tidy whole v (.only False) i i m Pending.Grounded (pure left) :=
      .pure (.refl v i) fun _ hm => hl.mono hm
    refine .fork hkept (hs.suffix hv hl start) fun left j m _ _ hl => ?_
    have hstay : Parse.Tidy whole v (.only False) j j m Pending.Grounded (pure left) :=
      .pure (.refl v j) fun _ hm => hl.mono hm
    refine .pos (.ite (fun _ => ih hl) fun _ => .skipCast (fun hcast => (ih hl).lower hcast) (.here ?_))
    split
    · exact hstay
    · rename_i hpower
      obtain ⟨hj, hnot⟩ := View.lt_limit_of_bindingPower? hpower
      refine .ite (fun _ => hstay) fun _ => .here ?_
      refine (hs.operator hv _ start hl hj hnot).bind fun x l m' _ _ hx => ?_
      exact .ite (fun _ => ih hx) fun _ => .pure (.refl v l) fun _ hm => hx.mono hm

theorem climb (power : Nat) : Parse.Tidy whole v (.only True) i i n Pending.Grounded (sub.climb power) := by
  refine .pos ((hs.primary hv i n).bind fun first j m _ _ hfirst => .here ?_)
  refine (hs.climbFrom hv power i _ hfirst).bind fun left k m' _ _ hleft => ?_
  refine .still (.tooDeep hleft) fun deep l hl hdeep => ?_
  refine .ite (fun h => .fail_of_tall (.refl v k) (hdeep h)) fun _ => ?_
  exact .pure (.refl v k) fun _ hm => hleft.mono (Nat.le_trans hl hm)

end Tidy

/-- Expressions of every depth defer bodies one behind the other, or for one of the known reasons. -/
theorem tidy_nested (depth : Nat) : (nested depth).Tidy := by
  induction depth with
  | zero => exact ⟨fun _ i _ _ => .fail (.refl _ i) trivial, fun _ i _ => .fail (.refl _ i) trivial⟩
  | succ depth ih => exact ⟨fun hv _ _ power => (ih.climb hv power).deeper, fun hv _ _ => (ih.operand hv).deeper⟩

end Level

/-! ## The expressions of statements -/

namespace Parse.Tidy

variable {whole v : View} {i n : Nat} (hv : v.PartOf whole) {last : Nat}
include hv

theorem expr (power : Nat) : Tidy whole v (.only True) i i n Anything (Parse.expr power) :=
  (Level.tidy_nested _).expr hv power

theorem exprsIn_bind {β : Type} {B : Nat → β → Prop} {first : Nat} {f : List ExprId → Parse β} (hfirst : i ≤ first)
    (hle : first ≤ last) (hlast : last ≤ v.limit)
    (hf : ∀ items m, n ≤ m → Tidy whole v (.only False) last last m B (f items)) :
    Tidy whole v (.only False) i i n B (exprsIn first last >>= f) := by
  unfold Parse.exprsIn
  simp only [bind_assoc, pure_bind]
  have hlimit : min last v.limit = last := Nat.min_eq_left hlast
  have hinner : View.PartOf { v with limit := min last v.limit, nesting := v.nesting + 1 } whole :=
    ⟨hv.tokens, hv.dialect, Nat.le_trans (Nat.min_le_right _ _) hv.limit⟩
  have hstep : v.Ahead i first := ⟨hfirst, fun _ => Nat.le_trans hle hlast⟩
  refine .seek (Tidy.lower ?_ hstep)
  exact .fenced hlimit ⟨hle, fun _ => hlast⟩ (.refl v last) ((Level.tidy_nested _).looseItems hinner _)
    (fun items m hm _ => hf items m hm) fun hc => hc.elim

theorem exprsIn {first : Nat} (hfirst : i ≤ first) (hle : first ≤ last) (hlast : last ≤ v.limit) :
    Tidy whole v (.only False) i i n Anything (exprsIn first last) := by
  rw [← bind_pure (Parse.exprsIn first last)]
  exact exprsIn_bind hv hfirst hle hlast fun _ _ _ => .pure (.refl v last) fun _ _ => trivial

theorem resourceParts (hlast : last ≤ v.limit) (k : Nat) {item : Nat} (hi : i ≤ item) :
    Tidy whole v (.only False) i i n Anything (resourceParts last k item) := by
  induction k generalizing i n item with
  | zero => exact .pure (.refl v i) fun _ _ => trivial
  | succ k ih =>
    refine .ite (fun _ => .pure (.refl v i) fun _ _ => trivial) fun hitem => .view ?_
    have hstop : item ≤ (v.findOutside? item last [",", ";"]).getD last ∧
        (v.findOutside? item last [",", ";"]).getD last ≤ last := by
      cases hk : v.findOutside? item last [",", ";"] with
      | none => exact ⟨Nat.le_of_not_le hitem, Nat.le_refl last⟩
      | some k => exact ⟨(View.findOutside?_bounds hk).1, Nat.le_of_lt (View.findOutside?_bounds hk).2.1⟩
    generalize (v.findOutside? item last [",", ";"]).getD last = stop at hstop ⊢
    have hrest (targets : List String) (operands : List ExprId) {j m : Nat} (hj : j ≤ stop) :
        Tidy whole v (.only False) j j m Anything (do
          let more ← Parse.resourceParts last k (stop + 1)
          return (targets ++ more.1, operands ++ more.2)) :=
      (ih (Nat.le_succ_of_le hj)).bind fun _ l _ _ _ _ => .pure (.refl v l) fun _ _ => trivial
    dsimp only
    split
    · rename_i k hk
      obtain ⟨hitem, hlt, hlimit⟩ := View.findOutside?_bounds hk
      refine exprsIn_bind hv hi hitem (Nat.le_of_lt hlimit) fun operands m _ => ?_
      exact hrest _ operands (Nat.le_of_lt hlt)
    · split
      · rename_i k hk
        obtain ⟨hitem, hlt, hlimit⟩ := View.findOutside?_bounds hk
        refine exprsIn_bind hv (by omega) hlt (Nat.le_trans hstop.2 hlast) fun operands m _ => ?_
        exact hrest _ operands (Nat.le_refl _)
      · refine exprsIn_bind hv hi hstop.1 (Nat.le_trans hstop.2 hlast) fun operands m _ => ?_
        exact hrest _ operands (Nat.le_refl _)

theorem iterationParts {first separator : Nat} (hi : i ≤ first) (hfirst : first ≤ separator) (hsep : separator < last)
    (hlast : last ≤ v.limit) :
    Tidy whole v (.only False) i i n Anything (iterationParts first separator last) := by
  have hleft : Tidy whole v (.only False) i i n Anything (Parse.exprsIn first separator) :=
    exprsIn hv hi hfirst (by omega)
  have hright : Tidy whole v (.only False) i i n Anything (Parse.exprsIn (separator + 1) last) :=
    exprsIn hv (by omega) hsep hlast
  refine .view ?_
  split
  · exact hleft.bind fun _ j _ _ _ _ => .pure (.refl v j) fun _ _ => trivial
  · exact hright.bind fun _ j _ _ _ _ => .pure (.refl v j) fun _ _ => trivial
  · exact hright.bind fun _ j _ _ _ _ => .pure (.refl v j) fun _ _ => trivial
  · exact hright.bind fun _ j _ _ _ _ => .pure (.refl v j) fun _ _ => trivial

theorem moreItems (k : Nat) : Tidy whole v .free i i n Anything (moreItems k) := by
  induction k generalizing i n with
  | zero => exact .pure (.refl v i) fun _ _ => trivial
  | succ k ih =>
    refine .eatOp (fun hop => ?_) (.pure (.refl v i) fun _ _ => trivial)
    refine ((expr hv 0).free.lower (.next (View.lt_limit_of_any hop))).bind_free fun item j m _ _ _ => ?_
    exact ih.bind_free fun _ k _ _ _ _ => .pure (.refl v k) fun _ _ => trivial

theorem trailingConditions (k : Nat) : Tidy whole v (.only False) i i n Anything (trailingConditions k) := by
  induction k generalizing i n with
  | zero => exact .pure (.refl v i) fun _ _ => trivial
  | succ k ih =>
    refine .here (.ite (fun hword => .advance ?_) fun _ => .pure (.refl v i) fun _ _ => trivial)
    have hword : i < v.limit := View.lt_limit_of_any (Bool.and_eq_true_iff.mp hword).2
    refine .attempt ((expr hv 0).lower (.next hword)) (fun condition j m _ _ _ => ?_) fun j m hj _ => ?_
    · exact ih.bind fun _ k _ _ _ _ => .pure (.refl v k) fun _ _ => trivial
    · exact (ih.lower hj).bind fun _ k _ _ _ _ => .pure (.refl v k) fun _ _ => trivial

theorem commandItems (k : Nat) : Tidy whole v .free i i n Anything (commandItems k) := by
  induction k generalizing i n with
  | zero => exact .pure (.refl v i) fun _ _ => trivial
  | succ k ih =>
    refine .here (.ite (fun _ => .pure (.refl v i) fun _ _ => trivial) fun _ => ?_)
    refine (expr hv 0).free.bind_free fun item j m _ _ _ => ?_
    refine .eatOp (fun hop => ?_) (.pure (.refl v j) fun _ _ => trivial)
    refine (ih.lower (.next (View.lt_limit_of_any hop))).bind_free fun _ k _ _ _ _ => ?_
    exact .pure (.refl v k) fun _ _ => trivial

theorem leftSides : Tidy whole v .free i i n Anything Walk.leftSides := by
  have hinner : View.PartOf { v with stopAtAppend := v.language == .ruby } whole :=
    ⟨hv.tokens, hv.dialect, hv.limit⟩
  refine (Tidy.within rfl (expr hinner 0)).free.bind_free fun first j m _ _ _ => .here (.here (.ite (fun _ => .here ?_) fun _ => ?_))
  · exact (moreItems hv _).bind_free fun _ k _ _ _ _ => .pure (.refl v k) fun _ _ => trivial
  · exact .pure (.refl v j) fun _ _ => trivial

theorem assignedValue (start : Nat) : Tidy whole v .free i i n Anything (Walk.assignedValue start) := by
  refine (expr hv 0).free.bind_free fun value j m _ _ _ => .view (.here (.ite (fun _ => .here ?_) fun _ => ?_))
  · exact (moreItems hv _).bind_free fun _ k _ _ _ _ => .ofStill (.compound _ _) (.refl v k)
  · exact .pure (.refl v j) fun _ _ => trivial

end Parse.Tidy

/-! ## Ends of bodies in headers -/

namespace Parse

theorem exprsIn_snd (first last : Nat) (v : View) (d : Draft) :
    (exprsIn first last v d).2 = { (Level.outermost.looseItems (last - first)
      { v with limit := min last v.limit, nesting := v.nesting + 1 } { d with pos := first }).2 with pos := last } := by
  have hsome := Level.isSome_looseItems .outermost (last - first)
    { v with limit := min last v.limit, nesting := v.nesting + 1 } { d with pos := first }
  change ((within _ (Level.outermost.looseItems (last - first)) >>= _) v { d with pos := first }).2 = _
  rw [bind_apply]
  unfold within
  generalize Level.outermost.looseItems (last - first) _ _ = x at hsome ⊢
  obtain ⟨_ | items, e⟩ := x
  · cases hsome
  · rfl

/-- Further bodies end before an index. -/
def EndsBefore (last : Nat) (v : View) {α : Type} (p : Parse α) : Prop :=
  ∀ d, ∀ a ∈ (p v d).2.deferred, a ∈ d.deferred ∨ a.close < last

namespace EndsBefore

variable {last : Nat} {v : View} {α β : Type}

theorem pure (a : α) : EndsBefore last v (pure a) := fun _ _ ha => .inl ha

theorem view {f : View → Parse β} (h : EndsBefore last v (f v)) : EndsBefore last v (Parse.view >>= f) := h

theorem bind {p : Parse α} {f : α → Parse β} (hp : EndsBefore last v p) (hf : ∀ a, EndsBefore last v (f a)) :
    EndsBefore last v (p >>= f) := by
  intro d a ha
  rw [bind_apply] at ha
  have hd := hp d
  rcases hx : p v d with ⟨_ | x, e⟩
  · rw [hx] at ha hd
    exact hd a ha
  · rw [hx] at ha hd
    exact (hf x e a ha).elim (hd a) .inr

theorem exprsIn {first stop : Nat} (hle : stop ≤ last) : EndsBefore last v (exprsIn first stop) := by
  intro d a ha
  rw [exprsIn_snd] at ha
  let w : View := { v with limit := min stop v.limit, nesting := v.nesting + 1 }
  have hlast : w.limit ≤ last := Nat.le_trans (Nat.min_le_left _ _) hle
  have hrun := (Level.tidy_nested (maxParseDepth + 1)).looseItems (.refl w) (stop - first) { d with pos := first } rfl
    (Nat.le_refl _)
  by_cases hfirst : first ≤ w.limit
  · exact (hrun.inside a ha).imp id fun h => Nat.lt_of_lt_of_le (h.2 hfirst) hlast
  · cases hn : stop - first with
    | zero =>
      rw [hn] at ha
      exact .inl ha
    | succ n =>
      have hend : Level.outermost.looseItems (n + 1) w { d with pos := first } = (some [], { d with pos := first }) := by
        change (if w.limit ≤ first then (Pure.pure [] : Parse (List ExprId)) else _) w { d with pos := first } = _
        rw [if_pos (Nat.le_of_not_le hfirst)]
        rfl
      rw [hn, hend] at ha
      exact .inl ha

theorem resourceParts (n item : Nat) : EndsBefore last v (resourceParts last n item) := by
  induction n generalizing item with
  | zero => exact pure _
  | succ n ih =>
    have hrest (stop : Nat) (targets : List String) (operands : List ExprId) : EndsBefore last v (do
        let more ← Parse.resourceParts last n (stop + 1)
        return (targets ++ more.1, operands ++ more.2)) := (ih _).bind fun _ => pure _
    unfold Parse.resourceParts
    split
    · exact pure _
    · refine view ?_
      have hstop : (v.findOutside? item last [",", ";"]).getD last ≤ last := by
        cases hk : v.findOutside? item last [",", ";"] with
        | none => exact Nat.le_refl last
        | some k => exact Nat.le_of_lt (View.findOutside?_bounds hk).2.1
      generalize (v.findOutside? item last [",", ";"]).getD last = stop at hstop ⊢
      dsimp only
      split
      · rename_i k hk
        have := View.findOutside?_bounds hk
        exact (exprsIn (by omega)).bind fun _ => hrest _ _ _
      · split
        · exact (exprsIn hstop).bind fun _ => hrest _ _ _
        · exact (exprsIn hstop).bind fun _ => hrest _ _ _

theorem iterationParts {first separator : Nat} (h : separator ≤ last) :
    EndsBefore last v (iterationParts first separator last) := by
  have hparts (names : List String) {first stop : Nat} (hle : stop ≤ last) :
      EndsBefore last v (do return (names, ← Parse.exprsIn first stop)) := (exprsIn hle).bind fun _ => pure _
  refine view ?_
  split
  · exact hparts _ h
  · exact hparts _ (Nat.le_refl _)
  · exact hparts _ (Nat.le_refl _)
  · exact hparts _ (Nat.le_refl _)

end EndsBefore
end Parse
end TaintScan
