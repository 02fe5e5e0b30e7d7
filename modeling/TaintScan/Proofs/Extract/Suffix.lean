import TaintScan.Proofs.Extract.Parse

/-! # Groups, calls and members side by side

What is read between brackets, inside of strings and behind an operand agrees with itself over two
readings, if the parsers of the level below do.
-/
namespace TaintScan

/-- Two views at a draft, the receiver around them recorded. -/
structure Correspondence.At (C : Correspondence) (r : ExprArena) (v w : View) : Prop where
  view : C.view v w
  receiver : ∀ id, v.receiver = some id → r.Fits maxLeftHeight id
  limit : v.limit ≤ v.tokens.size

/-- The tokens that two views have under one index. -/
def View.Paired (v w : View) (t u : Token) : Prop := ∃ i, v.tok? i = some t ∧ w.tok? i = some u

namespace Correspondence.At

variable {C : Correspondence} {r : ExprArena} {v w : View} (h : C.At r v w)
include h

theorem alike : v.Alike w := C.alike h.view

theorem mono {m : ExprArena} (hm : r ≤ m) : C.At m v w :=
  ⟨h.view, fun id hid => (h.receiver id hid).mono hm, h.limit⟩

theorem nest {limit : Nat} (hlimit : limit ≤ v.limit) :
    C.At r { v with limit := limit, nesting := v.nesting + 1 }
      { w with limit := limit, nesting := w.nesting + 1 } := by
  have ha := h.alike
  have hf := C.focus h.view limit (v.nesting + 1) v.stmtStart v.receiver v.stopAtAppend
  refine ⟨?_, h.receiver, Nat.le_trans hlimit h.limit⟩
  rw [ha.nesting, ha.stmtStart, ha.receiver, ha.stopAtAppend]
  exact hf

theorem under {receiver : Option ExprId} (hr : ∀ id, receiver = some id → r.Fits maxLeftHeight id) :
    C.At r { v with receiver := receiver } { w with receiver := receiver } := by
  have ha := h.alike
  have hf := C.focus h.view v.limit v.nesting v.stmtStart receiver v.stopAtAppend
  refine ⟨?_, hr, h.limit⟩
  rw [ha.limit, ha.nesting, ha.stmtStart, ha.stopAtAppend]
  exact hf

theorem append (stopAtAppend : Bool) :
    C.At r { v with stopAtAppend := stopAtAppend } { w with stopAtAppend := stopAtAppend } := by
  have ha := h.alike
  have hf := C.focus h.view v.limit v.nesting v.stmtStart v.receiver stopAtAppend
  refine ⟨?_, h.receiver, h.limit⟩
  rw [ha.limit, ha.nesting, ha.stmtStart, ha.receiver]
  exact hf

theorem start (stmtStart : Nat) :
    C.At r { v with stmtStart := stmtStart } { w with stmtStart := stmtStart } := by
  have ha := h.alike
  have hf := C.focus h.view v.limit v.nesting stmtStart v.receiver v.stopAtAppend
  refine ⟨?_, h.receiver, h.limit⟩
  rw [ha.limit, ha.nesting, ha.receiver, ha.stopAtAppend]
  exact hf

theorem upTo {limit : Nat} (hlimit : limit ≤ v.tokens.size) :
    C.At r { v with limit := limit } { w with limit := limit } := by
  have ha := h.alike
  have hf := C.focus h.view limit v.nesting v.stmtStart v.receiver v.stopAtAppend
  refine ⟨?_, h.receiver, hlimit⟩
  rw [ha.nesting, ha.stmtStart, ha.receiver, ha.stopAtAppend]
  exact hf

theorem tok?_cases (i : Nat) :
    (v.tok? i = none ∧ w.tok? i = none) ∨
    ∃ t u, v.tok? i = some t ∧ w.tok? i = some u ∧ t.Alike u ∧ v.Paired w t u := by
  obtain ⟨hv, hw⟩ | ⟨t, u, hv, hw, ht⟩ := h.alike.tok?_cases i
  · exact Or.inl ⟨hv, hw⟩
  · exact Or.inr ⟨t, u, hv, hw, ht, i, hv, hw⟩

end Correspondence.At

variable {i : Nat}

theorem View.tokens_of_tok? {v : View} {t : Token} (h : v.tok? i = some t) : v.tokens[i]? = some t := by
  unfold View.tok? at h
  split at h
  · exact h
  · cases h

theorem View.closeFrom_lt {v : View} {opener closer : String} {n depth j : Nat}
    (h : v.closeFrom opener closer n depth i = some j) : i ≤ j ∧ j < i + n := by
  induction n generalizing depth i with
  | zero => cases h
  | succ n ih =>
    have hnext {depth : Nat} (h : v.closeFrom opener closer n depth (i + 1) = some j) :
        i ≤ j ∧ j < i + (n + 1) := by
      have := ih h
      omega
    unfold View.closeFrom at h
    split at h
    · exact hnext h
    · split at h
      · split at h
        · cases h
          omega
        · exact hnext h
      · exact hnext h

theorem View.matching?_lt {v : View} {j : Nat} (h : v.matching? i = some j) : i < v.limit ∧ j < v.limit := by
  obtain ⟨closer, _, hclose⟩ := Option.bind_eq_some_iff.mp h
  have := closeFrom_lt hclose
  omega

namespace View.Paired

variable {C : Correspondence} {v w : View} {t u : Token} (h : v.Paired w t u)
include h

theorem span (hv : C.view v w) : C.span t.span u.span := by
  obtain ⟨i, ht, hu⟩ := h
  exact C.token hv (tokens_of_tok? ht) (tokens_of_tok? hu)

theorem alike (ha : v.Alike w) : t.Alike u := by
  obtain ⟨i, ht, hu⟩ := h
  obtain ⟨hv, _⟩ | ⟨t', u', hv, hw, htu⟩ := ha.tok?_cases i
  · rw [ht] at hv
    cases hv
  · rw [ht] at hv
    rw [hu] at hw
    cases hv
    cases hw
    exact htu

theorem touched (ha : v.Alike w) (j : Nat) :
    (w.tokens[j]?.any fun x => x.span.stop == u.span.start) =
      v.tokens[j]?.any fun x => x.span.stop == t.span.start := by
  obtain ⟨i, ht, hu⟩ := h
  have hj := ha.touches j i
  unfold View.touches at hj
  rw [tokens_of_tok? ht, tokens_of_tok? hu] at hj
  rcases hv : v.tokens[j]? with _ | x <;> rcases hw : w.tokens[j]? with _ | y <;>
    simp_all

theorem segments (hv : C.view v w) :
    List.Forall₂ (fun s s' => C.view (v.inside t s) (w.inside u s'))
      (t.segments v.dialect (v.unit.slice t.span)) (u.segments w.dialect (w.unit.slice u.span)) := by
  obtain ⟨i, ht, hu⟩ := h
  exact C.segments hv (tokens_of_tok? ht) (tokens_of_tok? hu)

end View.Paired

/-- The parsers of a level answer alike over any two readings. -/
structure Level.Agree (C : Correspondence) (sub : Level) : Prop where
  pending : ∀ {r : ExprArena} {v w : View}, C.At r v w → ∀ power,
    Parse.Agree C v w r (Pending.Alike C.span maxLeftHeight) (sub.pending power) (sub.pending power)
  primary : ∀ {r : ExprArena} {v w : View}, C.At r v w →
    Parse.Agree C v w r (Pending.Recorded C.span) sub.primary sub.primary
  /-- An operand starts at a token. -/
  starts : ∀ (v : View) (d : Draft), (sub.primary v d).1.isSome = true → d.pos < v.tokens.size

/-! ## Groups and embedded expressions -/

namespace Parse.Agree

variable {C : Correspondence} {r : ExprArena} {v w : View} {k start : Nat} {left left' : Pending}

/-- The callee and the receiver of a call, the receiver recorded. -/
def KnownCallee (r : ExprArena) (x y : String × Option ExprId) : Prop :=
  x = y ∧ ∀ id, x.2 = some id → r.Fits maxLeftHeight id

theorem recorded {p q : Parse ExprId} (h : Agree C v w r (Known k) p q) :
    Agree C v w r (Pending.Recorded C.span) (p >>= fun id => return .done id)
      (q >>= fun id => return .done id) := by
  refine h.bind ?_
  rintro m id _ _ ⟨rfl, hid⟩
  exact pure fun k hk => .done (hid.mono hk)

theorem operandsOf (concat : Bool) {id : ExprId} (hid : r.Fits k id) :
    Agrees C v w r (KnownAll k) (operandsOf concat id) := by
  refine (kindOf id).bind ?_
  rintro m x _ hm ⟨rfl, hparts⟩
  have hid := hid.mono hm
  have hself : ∀ p ∈ [id], m.Fits k p := fun p hp => List.mem_singleton.mp hp ▸ hid
  split
  · next parts =>
    refine pure fun l hl => KnownAll.mono ⟨rfl, ?_⟩ hl
    cases concat with
    | true => exact fun p hp => (hparts parts rfl p hp).le hid.2
    | false => exact hself
  · exact pure fun l hl => KnownAll.mono ⟨rfl, hself⟩ hl

theorem concat {ids : List ExprId} (hids : ∀ id ∈ ids, r.Fits k id) {s t : Span} (hs : C.span s t) :
    Agree C v w r (Known (k + 1)) (concat ids s) (concat ids t) := by
  refine (mapM_flatten (List.forall₂_same.mpr fun id hid => operandsOf true (hids id hid))).bind ?_
  rintro m parts parts' _ ⟨hparts, hall⟩
  rw [← hparts]
  exact alloc hall hs

theorem calleeOf (hl : left.Alike C.span maxLeftHeight r left') :
    Agree C v w r KnownCallee (calleeOf left) (calleeOf left') := by
  cases hl with
  | path hs =>
    simp only [Parse.calleeOf]
    split
    · refine (variableRef hs _).bind ?_
      rintro m id _ _ ⟨rfl, hid⟩
      exact pure fun k hk => ⟨rfl, fun _ h => Option.some.inj h ▸ (hid.mono hk).le (by decide)⟩
    · exact pure fun _ _ => ⟨rfl, fun _ h => nomatch h⟩
  | member hb hs =>
    refine (baseName _).same fun base => ?_
    exact pure fun k hk => ⟨rfl, fun _ h => Option.some.inj h ▸ hb.mono hk⟩
  | done hid =>
    refine (materialize (.done hid)).bind ?_
    rintro m id _ _ ⟨rfl, _⟩
    exact (baseName _).same fun base => pure fun _ _ => ⟨rfl, fun _ h => nomatch h⟩
  | chain hp hh hs =>
    refine (materialize (.chain hp hh hs)).bind ?_
    rintro m id _ _ ⟨rfl, _⟩
    exact (baseName _).same fun base => pure fun _ _ => ⟨rfl, fun _ h => nomatch h⟩

theorem makeCall (hv : C.At r v w) (callee : String) {receiver : Option ExprId}
    (hr : ∀ id, receiver = some id → r.Fits k id) {args : List ExprId} (ha : ∀ id ∈ args, r.Fits k id)
    (hstart : start < v.tokens.size) :
    Agrees C v w r (Known (k + 1)) (makeCall callee receiver args start) := by
  have literal (x : Option ExprId) : Agrees C v w r Same (x.elim (return false) Parse.isStringLiteral) := by
    cases x with
    | none => exact pure fun _ _ => rfl
    | some id => exact isStringLiteral id
  refine (spanSince hv.view hstart).next fun s t hst => ?_
  refine (literal receiver).same fun onLiteral => ?_
  refine (literal args.head?).same fun template => ?_
  refine .ite (fun _ => concat (fun id hid => ?_) hst) fun _ => ?_
  · rcases List.mem_append.mp hid with hid | hid
    · split at hid
      · exact hr id (Option.mem_toList.mp hid)
      · cases hid
    · exact ha id hid
  · refine .ite (fun _ => concat ha hst) fun _ => .view ?_
    rw [hv.alike.language]
    refine alloc (fun id hid => ?_) hst
    rcases List.mem_append.mp hid with hid | hid
    · exact hr id (Option.mem_toList.mp hid)
    · exact ha id hid

theorem blockSources {id : ExprId} (hid : r.Fits (k + 1) id) :
    Agrees C v w r (KnownAll (k + 1)) (blockSources id) := by
  refine (exprOf id).bind fun m x y hm hx => ?_
  have hid := hid.mono hm
  have hself : KnownAll (k + 1) m [id] [id] := .cons ⟨rfl, hid⟩ .nil
  cases hx with
  | none => exact pure fun l hl => hself.mono hl
  | @some e f hx =>
    obtain ⟨⟨hkind, hspan⟩, hchildren⟩ := hx
    obtain ⟨kind, s⟩ := e
    obtain ⟨_, t⟩ := f
    cases hkind
    cases kind with
    | call callee receiver args constructs =>
      cases receiver with
      | none => exact pure fun l hl => hself.mono hl
      | some receiver =>
        have hreceiver := (hchildren receiver (.head _)).le hid.2
        exact pure fun l hl => (KnownAll.cons ⟨rfl, hreceiver⟩ hself).mono hl
    | «variable» path =>
      dsimp only
      split
      · refine (variableRef hspan _).bind ?_
        rintro l owner _ hl ⟨rfl, howner⟩
        have howner := howner.le (Nat.le_add_left 1 k)
        exact pure fun j hj => (KnownAll.cons ⟨rfl, howner⟩ (hself.mono hl)).mono hj
      · exact pure fun l hl => hself.mono hl
    | _ => exact pure fun l hl => hself.mono hl

theorem member (hv : C.At r v w) (hl : left.Alike C.span k r left') (hstart : start < v.tokens.size) :
    Agree C v w r (Pending.Recorded C.span) (member left start) (member left' start) := by
  refine .view (pos.same fun i => ?_)
  rw [hv.alike.isWordAt, hv.alike.textAt, hv.alike.language, hv.alike.isOpAt, hv.alike.matching?]
  have hleft : ∀ m, r ≤ m → left.Recorded C.span m left' := fun m hm => ⟨k, hl.mono hm⟩
  refine .ite (fun _ => ?_) fun _ => .ite (fun _ => ?_) fun _ => pure hleft
  · refine (seek _).same fun _ => ?_
    refine (spanSince hv.view hstart).next fun s t hst => ?_
    cases hl with
    | path => exact pure fun _ _ => .path hst
    | member hb => exact pure fun l hl => .member (hb.mono hl) hst
    | done hid =>
      refine (materialize (.done hid)).bind ?_
      rintro m id _ _ ⟨rfl, hid⟩
      exact pure fun l hl => .member (hid.mono hl) hst
    | chain hp hh hs =>
      refine (materialize (.chain hp hh hs)).bind ?_
      rintro m id _ _ ⟨rfl, hid⟩
      exact pure fun l hl => .member (hid.mono hl) hst
  · split
    · exact (seek _).same fun _ => pure hleft
    · exact pure hleft

theorem braceBlock (hv : C.At r v w) (hl : left.Alike C.span maxLeftHeight r left') (hstart : start < v.tokens.size) :
    Agree C v w r (Pending.Recorded C.span) (braceBlock left start) (braceBlock left' start) := by
  refine pos.same fun opener => .view ?_
  rw [hv.alike.matching?]
  split
  · exact pure fun m hm => ⟨_, hl.mono hm⟩
  · next close hclose =>
    have hopener : opener < v.tokens.size := Nat.lt_of_lt_of_le (View.matching?_lt hclose).1 hv.limit
    -- what follows once the call is recorded
    have hblock {m : ExprArena} {call call' : ExprId} (hm : r ≤ m)
        (hcall : Known (maxLeftHeight + 1) m call call') :
        Agree C v w m (Pending.Recorded C.span)
          (do
            let block := (← Parse.view).blockParams (opener + 1)
            let sources ← Parse.blockSources call
            Parse.defer ⟨block.1, opener, block.2, close, sources⟩
            Parse.seek (close + 1)
            return .done call)
          (do
            let block := (← Parse.view).blockParams (opener + 1)
            let sources ← Parse.blockSources call'
            Parse.defer ⟨block.1, opener, block.2, close, sources⟩
            Parse.seek (close + 1)
            return .done call') := by
      obtain ⟨rfl, hcall⟩ := hcall
      refine .view ?_
      rw [hv.alike.blockParams]
      refine (blockSources hcall).bind ?_
      rintro k sources _ hk ⟨rfl, hsources⟩
      refine (defer hopener fun id hid => (hsources id hid).le (by decide)).same fun _ => ?_
      refine (seek _).same fun _ => ?_
      exact pure fun l hl => .done (hcall.mono (le_trans hk hl))
    have hbare {m : ExprArena} {x y : String × Option ExprId} (hm : r ≤ m) (hx : KnownCallee m x y) :
        Agree C v w m (Known (maxLeftHeight + 1)) (Parse.makeCall x.1 x.2 [] start)
          (Parse.makeCall y.1 y.2 [] start) := by
      obtain ⟨rfl, hr⟩ := hx
      exact makeCall (hv.mono hm) _ hr (List.forall_mem_nil _) hstart
    cases hl with
    | path hs =>
      refine (calleeOf (.path hs)).bind fun m x y hm hx => ?_
      exact (hbare hm hx).bind fun k _ _ hk hcall => hblock (le_trans hm hk) hcall
    | member hb hs =>
      refine (calleeOf (.member hb hs)).bind fun m x y hm hx => ?_
      exact (hbare hm hx).bind fun k _ _ hk hcall => hblock (le_trans hm hk) hcall
    | done hid => exact (materialize (.done hid)).bind fun _ _ _ hm hcall => hblock hm hcall
    | chain hp hh hs =>
      exact (materialize (.chain hp hh hs)).bind fun _ _ _ hm hcall => hblock hm hcall

end Parse.Agree

namespace Level.Agree

open Parse

variable {C : Correspondence} {sub : Level} {r : ExprArena} {v w : View}

theorem keep (hv : C.At r v w) {key : Option (String × Nat)}
    (hkey : ∀ name i, key = some (name, i) → i < v.tokens.size) {item item' : Option ExprId}
    (hi : Option.Rel (Known maxTreeHeight r) item item') :
    Parse.Agree C v w r Same (Level.keep key item) (Level.keep key item') := by
  cases hi with
  | none => cases key <;> exact .pure fun _ _ => rfl
  | some hi =>
    obtain ⟨rfl, hid⟩ := hi
    cases key with
    | none => exact .pure fun _ _ => rfl
    | some key =>
      refine (Agree.isStringLiteral _).same fun literal => ?_
      refine .ite (fun _ => ?_) fun _ => .pure fun _ _ => rfl
      refine (Agree.here fun _ _ _ => C.spanBetween hv.view _ _ (hkey _ _ rfl)).next fun s t hst => ?_
      exact .addProperty ⟨rfl, ⟨rfl, hid.le (by decide)⟩, hst⟩

theorem key_none {size : Nat} : ∀ (name : String) (i : Nat), none = some (name, i) → i < size :=
  fun _ _ h => nomatch h

variable (hs : sub.Agree C) (hv : C.At r v w) {left left' : Pending} {start : Nat}
include hs hv

theorem expr (power : Nat) : Parse.Agrees C v w r (Known maxTreeHeight) (sub.expr power) :=
  (hs.pending hv power).bind fun _ _ _ _ hl => .materialize hl

theorem groupItems (object : Bool) (k : Nat) {key : Option (String × Nat)}
    (hkey : ∀ name i, key = some (name, i) → i < v.tokens.size) :
    Parse.Agrees C v w r (KnownAll maxTreeHeight) (sub.groupItems object k key) := by
  induction k generalizing r key with
  | zero => exact .pure fun _ _ => .nil
  | succ k ih =>
    refine Agree.pos.same fun i => .view ?_
    rw [hv.alike.limit]
    refine .ite (fun _ => .pure fun _ _ => .nil) fun hi => ?_
    refine (Agree.here_same fun j => hv.alike.groupKey? object j).same fun name? => ?_
    cases name? with
    | some name =>
      refine (Agree.here_same fun j => by rw [hv.alike.isOpAt]).same fun marked => ?_
      refine (Agree.advance 2).same fun _ => ih hv fun name' j hj => ?_
      split at hj
      · cases hj
        exact Nat.lt_of_lt_of_le (Nat.not_le.mp hi) hv.limit
      · exact hkey name' j hj
    | none =>
      refine (hs.expr hv 0).attempt.bind fun m item item' hm hi => ?_
      refine (keep (hv.mono hm) hkey hi).same fun _ => ?_
      refine (Agree.progress i).same fun _ => ?_
      refine (ih (hv.mono hm) key_none).bind fun l rest rest' hl hrest => ?_
      exact .pure fun k hk => ((KnownAll.ofOption hi).mono (le_trans hl hk)).append (hrest.mono hk)

theorem group (opener : Nat) : Parse.Agrees C v w r (KnownAll maxTreeHeight) (sub.group opener) := by
  refine .view ?_
  rw [hv.alike.matching?]
  refine (Agree.ofOption_self _).next fun close _ hclose => .view ?_
  obtain ⟨rfl, hclose⟩ := hclose
  rw [hv.alike.isOpAt]
  refine (Agree.seek _).same fun _ => ?_
  have hnest := hv.nest (Nat.le_of_lt (View.matching?_lt hclose).2)
  refine (Agree.within rfl (hs.groupItems hnest _ _ key_none)).bind fun m items items' _ hi => ?_
  exact (Agree.seek _).same fun _ => .pure fun k hk => hi.mono hk

theorem looseItems (k : Nat) : Parse.Agrees C v w r (KnownAll maxTreeHeight) (sub.looseItems k) := by
  induction k generalizing r with
  | zero => exact .pure fun _ _ => .nil
  | succ k ih =>
    refine Agree.pos.same fun i => .view ?_
    rw [hv.alike.limit]
    refine .ite (fun _ => .pure fun _ _ => .nil) fun _ => ?_
    refine (hs.expr hv 0).attempt.bind fun m item item' hm hi => ?_
    refine (Agree.progress i).same fun _ => ?_
    refine (ih (hv.mono hm)).bind fun l rest rest' hl hrest => ?_
    exact .pure fun k hk => ((KnownAll.ofOption hi).mono (le_trans hl hk)).append (hrest.mono hk)

/-- An embedded expression is read from its own first token on; its bodies are forgotten. -/
theorem embedded {t u : Token} {s s' : Span} (hi : C.view (v.inside t s) (w.inside u s')) :
    Parse.Agree C v w r (KnownAll maxTreeHeight) (sub.embedded t s) (sub.embedded u s') := by
  intro d e hd hsize
  have hsizes : (w.inside u s').tokens.size = (v.inside t s).tokens.size := (C.alike hi).size
  obtain ⟨hr, hd', hle⟩ := hs.looseItems (r := r)
    ⟨hi, hv.receiver, Nat.le_refl _⟩ (v.inside t s).tokens.size
    { d with pos := 0 } { e with pos := 0 } (hd.withPos 0) hsize
  have hcount : e.deferred.size = d.deferred.size := congrArg Array.size hd.deferred
  have he : sub.embedded u s' w e =
      let read := sub.looseItems (w.inside u s').tokens.size (w.inside u s') { e with pos := 0 }
      (read.1, { read.2 with pos := e.pos, deferred := read.2.deferred.take e.deferred.size }) := rfl
  rw [he, hsizes, hd.pos, hcount]
  exact ⟨hr, (hd'.takeDeferred _).withPos _, .of_deferred_eq hle.arena hle.take_deferred⟩

theorem interpolated {t u : Token} (ht : v.Paired w t u) (kind : LiteralKind) :
    Parse.Agree C v w r (Known (maxTreeHeight + 1)) (sub.interpolated t kind) (sub.interpolated u kind) := by
  refine .view ?_
  rw [(ht.alike hv.alike).text]
  refine (Agree.literal (ht.span hv.view) kind _).bind ?_
  rintro m first _ hm ⟨rfl, hf⟩
  have hi := (ht.segments hv.view).imp fun _ _ hseg => hs.embedded (hv.mono hm) hseg
  refine (Agree.mapM_flatten hi).bind ?_
  rintro k rest rest' hk ⟨hrest, hall⟩
  rw [← hrest]
  split
  · exact .pure fun l hl => ⟨rfl, (hf.mono (le_trans hk hl)).le (by decide)⟩
  · refine .alloc (fun id hid => ?_) (ht.span hv.view)
    rcases List.mem_cons.mp hid with rfl | hid
    · exact (hf.mono hk).le (by decide)
    · exact hall id hid

/-! ## What follows an operand -/

theorem call (hl : left.Alike C.span maxLeftHeight r left') (hstart : start < v.tokens.size) :
    Parse.Agree C v w r (Pending.Recorded C.span) (sub.call left start) (sub.call left' start) := by
  refine (Agree.calleeOf hl).bind ?_
  rintro m ⟨callee, receiver⟩ _ hm ⟨rfl, hr⟩
  refine Agree.pos.same fun i => ?_
  refine (Agree.within rfl (hs.group ((hv.mono hm).under hr) i)).attempt.bind ?_
  intro k args args' hk hargs
  cases hargs with
  | some hargs =>
    obtain ⟨rfl, hargs⟩ := hargs
    exact .recorded (.makeCall (hv.mono (le_trans hm hk)) callee
      (fun id hid => ((hr id hid).mono hk).le (by decide)) hargs hstart)
  | none =>
    cases receiver with
    | some id =>
      exact .pure fun j hj => .done ((hr id rfl).mono (le_trans hk hj))
    | none =>
      refine (Agree.spanSince hv.view hstart).next fun s t hst => ?_
      exact .recorded (.variableRef hst callee)

theorem index {left : ExprId} (hl : r.Fits maxTreeHeight left) (hstart : start < v.tokens.size) :
    Parse.Agrees C v w r (Pending.Recorded C.span) (sub.index left start) := by
  refine (Agree.baseName left).same fun base => ?_
  refine Agree.pos.same fun i => ?_
  refine (hs.group hv i).attempt.bind fun m keys keys' hm hkeys => ?_
  cases hkeys with
  | some hkeys =>
    obtain ⟨rfl, hkeys⟩ := hkeys
    refine (Agree.compound hv.view
      (List.forall_mem_cons.mpr ⟨hl.mono hm, hkeys⟩) hstart).bind ?_
    rintro k id _ _ ⟨rfl, hid⟩
    refine (Agree.setLValue id _).same fun _ => ?_
    exact .pure fun j hj => .done (hid.mono hj)
  | none => exact .pure fun j hj => .done (hl.mono (le_trans hm hj))

theorem commandArgs (k : Nat) : Parse.Agrees C v w r (KnownAll maxTreeHeight) (sub.commandArgs k) := by
  induction k generalizing r with
  | zero => exact .pure fun _ _ => .nil
  | succ k ih =>
    refine (Agree.here_same fun i => by rw [hv.alike.isIdentAt, hv.alike.isOpAt]).same fun label => ?_
    refine .step (.advance 2) ?_
    refine (hs.expr hv 0).attempt.bind fun m arg arg' hm harg => ?_
    cases harg with
    | none => exact .pure fun _ _ => .nil
    | some harg =>
      refine (Agree.eatOp hv.alike ",").same fun more => .ite (fun _ => ?_) fun _ => ?_
      · refine (ih (hv.mono hm)).bind fun l rest rest' hl hrest => ?_
        exact .pure fun j hj => .cons (harg.mono (le_trans hl hj)) (hrest.mono hj)
      · exact .pure fun j hj => .cons (harg.mono hj) .nil

theorem commandCall (hl : left.Alike C.span maxLeftHeight r left') (hstart : start < v.tokens.size) :
    Parse.Agree C v w r (Pending.Recorded C.span) (sub.commandCall left start)
      (sub.commandCall left' start) := by
  refine (Agree.here_same hv.alike.startsCommand).same fun starts => .ite (fun _ => ?_) fun _ => ?_
  · refine (Agree.calleeOf hl).bind ?_
    rintro m ⟨callee, receiver⟩ _ hm ⟨rfl, hr⟩
    refine .view ?_
    rw [hv.alike.limit]
    refine (Agree.within rfl (hs.commandArgs ((hv.mono hm).under hr) v.limit)).bind ?_
    rintro k args _ hk ⟨rfl, hargs⟩
    exact .recorded (.makeCall (hv.mono (le_trans hm hk)) callee
      (fun id hid => ((hr id hid).mono hk).le (by decide)) hargs hstart)
  · exact .pure fun m hm => ⟨_, hl.mono hm⟩

theorem adjacent {k : Nat} {left : ExprId} (hl : r.Fits k left) (hstart : start < v.tokens.size) :
    Parse.Agrees C v w r (Pending.Recorded C.span) (sub.adjacent left start) := by
  refine (Agree.isStringy left).same fun stringy => .ite (fun _ => ?_) fun _ => ?_
  · refine (hs.primary hv).attempt.bind fun m next next' hm hnext => ?_
    cases hnext with
    | none => exact .pure fun j hj => .done (hl.mono (le_trans hm hj))
    | some hnext =>
      obtain ⟨bound, hnext⟩ := hnext
      refine (Agree.materialize hnext).bind ?_
      rintro l right _ hl' ⟨rfl, hright⟩
      refine (Agree.spanSince hv.view hstart).next fun s t hst => ?_
      have hparts : ∀ id ∈ [left, right], l.Fits (max k (bound + 1)) id :=
        (KnownAll.cons ⟨rfl, (hl.mono (le_trans hm hl')).le (Nat.le_max_left _ _)⟩
          (.cons ⟨rfl, hright.le (Nat.le_max_right _ _)⟩ .nil)).2
      exact .recorded (.concat hparts hst)
  · exact .pure fun j hj => .done (hl.mono hj)

theorem suffixOperator {t u : Token} (ht : v.Paired w t u)
    (hl : left.Alike C.span maxLeftHeight r left') (hstart : start < v.tokens.size) :
    Parse.Agree C v w r (Pending.Recorded C.span) (sub.suffixOperator t left start)
      (sub.suffixOperator u left' start) := by
  have hleft : ∀ m, r ≤ m → left.Recorded C.span m left' := fun m hm => ⟨_, hl.mono hm⟩
  refine .view (Agree.pos.same fun j => ?_)
  rw [(ht.alike hv.alike).text, hv.alike.dialect]
  refine .ite (fun _ => .member hv hl hstart) fun _ => ?_
  split
  · exact hs.call hv hl hstart
  · refine (Agree.materialize hl).bind ?_
    rintro m id _ hm ⟨rfl, hid⟩
    exact hs.index (hv.mono hm) hid hstart
  · exact (Agree.advance 1).same fun _ => .pure hleft
  · exact (Agree.advance 1).same fun _ => .pure hleft
  · rw [hv.alike.language, ht.touched hv.alike, hv.alike.isOpAt]
    exact .step (.advance 1) (.pure hleft)
  · rw [hv.alike.language, hv.alike.genericCallAhead, hv.alike.angleEnd]
    exact .step (.seek _) (.pure hleft)
  · rw [hv.alike.language]
    cases v.language with
    | ruby => exact .braceBlock hv hl hstart
    | go =>
      cases hl with
      | path hs' =>
        refine (hs.group hv j).attempt.bind fun m items items' hm hitems => ?_
        cases hitems with
        | none => exact .pure fun _ _ => .path hs'
        | some hitems =>
          obtain ⟨rfl, hitems⟩ := hitems
          exact .recorded (.compound hv.view hitems hstart)
      | _ => exact .pure hleft
    | _ => exact .pure hleft
  · exact .pure hleft

theorem suffix (hl : left.Alike C.span maxLeftHeight r left') (hstart : start < v.tokens.size) :
    Parse.Agree C v w r (Pending.Recorded C.span) (sub.suffix left start) (sub.suffix left' start) := by
  have hleft : ∀ m, r ≤ m → left.Recorded C.span m left' := fun m hm => ⟨_, hl.mono hm⟩
  refine .view (Agree.pos.same fun i => ?_)
  obtain ⟨ht, hu⟩ | ⟨t, u, ht, hu, htu, hp⟩ := hv.tok?_cases i
  · rw [ht, hu]
    exact .pure hleft
  · rw [ht, hu]
    dsimp only
    rw [htu.kind, hv.alike.dialect, hv.alike.language]
    have hcommand : Parse.Agree C v w r (Pending.Recorded C.span)
        (if v.dialect.parenLessCalls then sub.commandCall left start else pure left)
        (if v.dialect.parenLessCalls then sub.commandCall left' start else pure left') :=
      .ite (fun _ => hs.commandCall hv hl hstart) fun _ => .pure hleft
    cases hk : t.kind with
    | operator => exact hs.suffixOperator hv hp hl hstart
    | identifier | keyword =>
      cases hl with
      | path _ => exact hcommand
      | _ => exact .pure hleft
    | literal kind =>
      cases hl with
      | path _ => exact hcommand
      | done hid =>
        cases kind with
        | string | interpolatedString =>
          exact .ite (fun _ => hs.adjacent hv hid hstart) fun _ => .pure hleft
        | _ => exact .pure hleft
      | _ => cases kind <;> exact .pure hleft
    | _ => exact .pure hleft

end Level.Agree
end TaintScan
