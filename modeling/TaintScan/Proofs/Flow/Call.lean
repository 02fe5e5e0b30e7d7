import TaintScan.Proofs.Flow.Propagation

/-! # Calls lose no label

A call is recorded with its receiver and its arguments below it, also where it builds a string; only
what a formatter with a literal template, or a function that joins paths, is called on is left out.
So a label of a variable in the receiver or in an argument gets to whatever the call is assigned to.
-/
namespace TaintScan

/-! ## Recording a call -/

namespace ExprArena

theorem Extends.kind? {a b : ExprArena} (h : b.Extends a) {id : ExprId} {kind : ExprKind}
    (hk : a.kind? id = some kind) : b.kind? id = some kind := by
  obtain ⟨e, he, rfl⟩ := Option.map_eq_some_iff.mp hk
  rw [ExprArena.kind?, h id e he]
  rfl

/-- What an operand contributes to string building. -/
def partsOf (a : ExprArena) (id : ExprId) : List ExprId :=
  match a.kind? id with
  | some (.concat parts) => parts
  | _ => [id]

def isText (a : ExprArena) (id : ExprId) : Bool :=
  match a.kind? id with
  | some (.literal .string _) | some (.literal .interpolatedString _) => true
  | _ => false

end ExprArena

namespace Parse

variable {v : View} {d : Draft}

theorem bind_eq {α β : Type} {p : Parse α} {f : α → Parse β} {d' : Draft} {a : α} (h : p v d = (some a, d')) :
    (p >>= f) v d = f a v d' := by
  simp only [bind, h]

theorem alloc_apply (kind : ExprKind) (span : Span) (v : View) (d : Draft) :
    alloc kind span v d = (some d.arena.size, { d with arena := (d.arena.alloc kind span).2 }) := rfl

theorem kindOf_apply (id : ExprId) (v : View) (d : Draft) :
    kindOf id v d = (some (d.arena.kind? id), d) := rfl

theorem operandsOf_apply (id : ExprId) (v : View) (d : Draft) :
    operandsOf true id v d = (some (d.arena.partsOf id), d) := by
  rw [operandsOf, bind_eq (kindOf_apply id v d), ExprArena.partsOf]
  cases d.arena.kind? id with
  | none => rfl
  | some kind => cases kind <;> rfl

theorem concat_apply (ids : List ExprId) (span : Span) (v : View) (d : Draft) :
    concat ids span v d = alloc (.concat (ids.flatMap d.arena.partsOf)) span v d := by
  have hmap : ids.mapM (operandsOf true) v d = (some (ids.map d.arena.partsOf), d) := by
    induction ids with
    | nil => rfl
    | cons id rest ih =>
      rw [List.mapM_cons, bind_eq (operandsOf_apply id v d), bind_eq ih]
      rfl
  rw [concat, bind_eq hmap, List.flatMap_def]

theorem isStringLiteral_apply (id : ExprId) (v : View) (d : Draft) :
    isStringLiteral id v d = (some (d.arena.isText id), d) := by
  rw [isStringLiteral, bind_eq (kindOf_apply id v d), ExprArena.isText]
  cases d.arena.kind? id with
  | none => rfl
  | some kind =>
    cases kind with
    | literal kind value => cases kind <;> rfl
    | _ => rfl

theorem isStringLiteral_option (id : Option ExprId) (v : View) (d : Draft) :
    (id.elim (return false) isStringLiteral : Parse Bool) v d = (some (id.any d.arena.isText), d) := by
  cases id with
  | none => rfl
  | some id => exact isStringLiteral_apply id v d

/-- What a call is recorded as. -/
def callKind (a : ExprArena) (language : Language) (callee : String) (receiver : Option ExprId)
    (args : List ExprId) : ExprKind :=
  let method := Text.afterLast '.' callee
  let onLiteral := receiver.any a.isText
  if (formatCalls.contains method && (onLiteral || args.head?.any a.isText)) ||
      (method == "join" && onLiteral) then
    .concat (((if onLiteral then receiver.toList else []) ++ args).flatMap a.partsOf)
  else if pathJoins.contains callee then .concat (args.flatMap a.partsOf)
  else .call callee receiver args (language == .ruby && method == "new")

theorem makeCall_apply (callee : String) (receiver : Option ExprId) (args : List ExprId) (start : Nat)
    (v : View) (d : Draft) :
    makeCall callee receiver args start v d =
      alloc (callKind d.arena v.language callee receiver args) (v.spanSince start d.pos) v d := by
  have hspan : spanSince start v d = (some (v.spanSince start d.pos), d) := rfl
  rw [makeCall, bind_eq hspan, bind_eq (isStringLiteral_option receiver v d),
    bind_eq (isStringLiteral_option args.head? v d), callKind]
  dsimp only
  split
  · exact concat_apply _ _ v d
  · split
    · exact concat_apply _ _ v d
    · rfl

theorem makeCall_eq {callee : String} {receiver : Option ExprId} {args : List ExprId} {start : Nat} {d' : Draft}
    {id : ExprId} (h : makeCall callee receiver args start v d = (some id, d')) :
    id = d.arena.size ∧ d'.arena.Extends d.arena ∧
      ∃ span, d'.arena.exprs[id]? = some ⟨callKind d.arena v.language callee receiver args, span⟩ := by
  rw [makeCall_apply, alloc_apply] at h
  cases h
  exact ⟨rfl, d.arena.extends_alloc _ _, _, d.arena.getElem?_alloc_size _ _⟩

theorem calleeOf_path {path receiver method : String} {span : Span}
    (h : Text.splitLast? '.' path = some (receiver, method)) :
    calleeOf (.path path span) v d =
      (some (path, some d.arena.size),
        { d with arena := (d.arena.alloc (.variable receiver) span).2 }) := by
  rw [calleeOf, h]
  rfl

theorem calleeOf_member (base : ExprId) (name : String) (span : Span) (v : View) (d : Draft) :
    ∃ owner, calleeOf (.member base name span) v d = (some (owner ++ "." ++ name, some base), d) :=
  ⟨_, rfl⟩

/-- A call leaves out what it is called on: a formatter with a literal template, or a function that
joins paths. -/
def dropsReceiver (a : ExprArena) (callee : String) (args : List ExprId) : Bool :=
  (formatCalls.contains (Text.afterLast '.' callee) && args.head?.any a.isText) ||
    pathJoins.contains callee

end Parse

/-! ## What gets into a call -/

namespace Site

variable {s : Site} {l : Label} {a : ExprArena} {path : String}

/-- What gets to an operand of string building gets to the string, also when the operand is taken
apart. -/
theorem Feeds.concat (ha : s.arena.Extends a) {id : ExprId} {ids : List ExprId} {span : Span}
    (he : s.arena.exprs[id]? = some ⟨.concat (ids.flatMap a.partsOf), span⟩) {var part : ExprId}
    (hvar : s.arena.kind? var = some (.variable path)) (hpart : part ∈ ids) (h : s.Feeds l var part) :
    s.Feeds l var id := by
  have hbelow : ∀ child ∈ a.partsOf part, s.Feeds l var child → s.Feeds l var id :=
    fun child hchild hfeeds => .step he rfl (List.mem_flatMap.mpr ⟨part, hpart, hchild⟩) hfeeds
  unfold ExprArena.partsOf at hbelow
  split at hbelow
  · next parts hparts =>
    have hparts := ha.kind? hparts
    cases h with
    | refl => cases hvar.symm.trans hparts
    | step he' hpass hchild hfeeds =>
      rw [ExprArena.kind?, he', Option.map_some, Option.some_inj] at hparts
      rw [Expr.children, hparts] at hchild
      exact hbelow _ hchild hfeeds
  · exact hbelow part List.mem_cons_self h

/-- What gets to an argument of a call, or to what the call is called on and does not leave out, gets
to the call. -/
theorem Feeds.call (ha : s.arena.Extends a) {id : ExprId} {language : Language} {callee : String}
    {receiver : Option ExprId} {args : List ExprId} {span : Span}
    (he : s.arena.exprs[id]? = some ⟨Parse.callKind a language callee receiver args, span⟩)
    (hpass : s.passes l ⟨Parse.callKind a language callee receiver args, span⟩ = true) {var part : ExprId}
    (hvar : s.arena.kind? var = some (.variable path))
    (hpart : part ∈ args ∨ receiver = some part ∧ Parse.dropsReceiver a callee args = false)
    (h : s.Feeds l var part) : s.Feeds l var id := by
  unfold Parse.callKind at he hpass
  dsimp only at he hpass
  split at he
  · next hbuilds =>
    refine Feeds.concat ha he hvar ?_ h
    rcases hpart with hpart | ⟨rfl, hkept⟩
    · exact List.mem_append_right _ hpart
    · refine List.mem_append_left _ ?_
      -- Without a literal receiver only a literal template builds a string here.
      have hliteral : (some part).any a.isText = true := by
        rw [Parse.dropsReceiver, Bool.or_eq_false_iff] at hkept
        cases hl : (some part).any a.isText with
        | true => rfl
        | false =>
          rw [hl, Bool.false_or, hkept.1, Bool.and_false] at hbuilds
          cases hbuilds
      rw [if_pos hliteral]
      exact List.mem_cons_self
  · next hbuilds =>
    rw [if_neg hbuilds] at hpass
    split at he
    · next hjoins =>
      refine Feeds.concat ha he hvar ?_ h
      rcases hpart with hpart | ⟨-, hkept⟩
      · exact hpart
      · rw [Parse.dropsReceiver, hjoins, Bool.or_true] at hkept
        cases hkept
    · next hjoins =>
      rw [if_neg hjoins] at hpass
      refine .step he hpass ?_ h
      rcases hpart with hpart | ⟨rfl, -⟩
      · exact List.mem_append_right _ hpart
      · exact List.mem_append_left _ List.mem_cons_self

/-- A variable occurs in a call: as the path, or in the expression, that the call is called on, or in an
argument. What the call leaves out does not count. -/
inductive Occurs (s : Site) (l : Label) (path : String) (a : ExprArena) (callee : String)
    (receiver : Option ExprId) (args : List ExprId) : Prop where
  | owner {full method : String} {span : Span} {v : View} {d d' : Draft} :
    Parse.calleeOf (.path full span) v d = (some (callee, receiver), d') →
    Text.splitLast? '.' full = some (path, method) → s.arena.Extends d'.arena →
    Parse.dropsReceiver a callee args = false → Occurs s l path a callee receiver args
  | base {base var : ExprId} {name : String} {span : Span} {v : View} {d d' : Draft} :
    Parse.calleeOf (.member base name span) v d = (some (callee, receiver), d') →
    s.arena.kind? var = some (.variable path) → s.Feeds l var base →
    Parse.dropsReceiver a callee args = false → Occurs s l path a callee receiver args
  | arg {arg var : ExprId} : arg ∈ args → s.arena.kind? var = some (.variable path) →
    s.Feeds l var arg → Occurs s l path a callee receiver args

theorem Occurs.feeds {callee : String} {receiver : Option ExprId} {args : List ExprId}
    (h : s.Occurs l path a callee receiver args) :
    ∃ var part, s.arena.kind? var = some (.variable path) ∧ s.Feeds l var part ∧
      (part ∈ args ∨ receiver = some part ∧ Parse.dropsReceiver a callee args = false) := by
  cases h with
  | @owner full method span v d d' hcallee hsplit hext hkept =>
    rw [Parse.calleeOf_path hsplit] at hcallee
    cases hcallee
    have hvar := hext _ _ (d.arena.getElem?_alloc_size (.variable path) span)
    refine ⟨d.arena.size, d.arena.size, ?_, .refl _, Or.inr ⟨rfl, hkept⟩⟩
    rw [ExprArena.kind?, hvar]
    rfl
  | @base base var name span v d d' hcallee hvar hfeeds hkept =>
    obtain ⟨owner, hmember⟩ := Parse.calleeOf_member base name span v d
    rw [hmember] at hcallee
    cases hcallee
    exact ⟨var, base, hvar, hfeeds, Or.inr ⟨rfl, hkept⟩⟩
  | arg harg hvar hfeeds => exact ⟨_, _, hvar, hfeeds, Or.inl harg⟩

end Site
end TaintScan
