import TaintScan.Proofs.Extract.Suffix

/-! # Expressions side by side

Every parser of expressions agrees with itself over two readings. The levels of nesting are taken one
after the other: a level agrees if the one below it does, and the lowest one reads nothing.
-/
namespace TaintScan

/-! ## Lambdas -/

namespace Parse.Agree

variable {C : Correspondence} {r : ExprArena} {v w : View} {start k : Nat} {left left' : Pending}

section

variable (hv : C.At r v w)
include hv

theorem token (i : Nat) :
    Agree C v w r (fun _ t u => v.Paired w t u ∧ i < v.tokens.size) (Parse.ofOption (v.tok? i))
      (Parse.ofOption (w.tok? i)) := by
  refine ofOption ?_
  obtain ⟨ht, hu⟩ | ⟨t, u, ht, hu, _, hp⟩ := hv.tok?_cases i
  · rw [ht, hu]
    exact .none
  · rw [ht, hu]
    exact .some fun _ _ => ⟨hp, View.lt_size_of_tok? ht⟩

theorem deferBody (params : List String) (hstart : start < v.tokens.size) (body close : Nat) :
    Agrees C v w r Same (deferBody params start body close) := by
  refine .view ?_
  rw [hv.alike.receiver]
  exact defer hstart fun id hid => (hv.receiver id (Option.mem_toList.mp hid)).le (by decide)

theorem lambdaLiteral (hstart : start < v.tokens.size) :
    Agrees C v w r (Pending.Recorded C.span) (lambdaLiteral start) :=
  (spanSince hv.view hstart).next fun _ _ hs => recorded (literal hs _ _)

theorem bracedLambda (params : List String) (hstart : start < v.tokens.size) (opener : Nat) :
    Agrees C v w r (Pending.Recorded C.span) (bracedLambda params start opener) := by
  refine .view ?_
  rw [hv.alike.matching?]
  refine (ofOption_same _).same fun close => ?_
  refine (deferBody hv params hstart (opener + 1) close).same fun _ => ?_
  exact (seek _).same fun _ => lambdaLiteral hv hstart

theorem bracketedParams : Agrees C v w r Same bracketedParams := by
  refine (isOp hv.alike _).same fun opens => .ite (fun _ => ?_) fun _ => pure fun _ _ => rfl
  refine .view (pos.same fun i => ?_)
  rw [hv.alike.matching?]
  refine (ofOption_same _).same fun close => (seek _).same fun _ => ?_
  exact pure fun _ _ => (hv.alike.paramNames _ _).symm

theorem skipType : Agrees C v w r Same skipType :=
  (here_same hv.alike.typeEnd).same fun i => seek i

/-! ## Chains of operators -/

theorem skipCast : Agrees C v w r Same skipCast := by
  refine .view (pos.same fun i => ?_)
  rw [hv.alike.language, hv.alike.textAt, hv.alike.typeEnd,
    hv.alike.tok?_any fun t u ht => by rw [ht.kind]]
  refine .ite (fun _ => ?_) fun _ => pure fun _ _ => rfl
  exact (seek _).same fun _ => pure fun _ _ => rfl

theorem buildsString (op : String) (hl : left.Alike C.span k r left') (right : ExprId) :
    Agree C v w r Same (buildsString op left right) (buildsString op left' right) := by
  unfold Parse.buildsString
  split
  · exact pure fun _ _ => rfl
  · refine (isStringy right).same fun stringy => .ite (fun _ => pure fun _ _ => rfl) fun _ => ?_
    cases hl with
    | chain => exact pure fun _ _ => rfl
    | done => exact isStringy _
    | _ => exact pure fun _ _ => rfl
  · cases hl with
    | done =>
      refine .view ?_
      rw [hv.alike.dialect]
      exact .ite (fun _ => isStringLiteral _) fun _ => pure fun _ _ => rfl
    | _ => exact pure fun _ _ => rfl
  · exact pure fun _ _ => rfl

end

/-- The operands and the height of a chain, the operands recorded and lower than it. -/
def KnownChain (r : ExprArena) (x y : List ExprId × Nat) : Prop :=
  x = y ∧ ∀ id ∈ x.1, id < r.size ∧ r.height id < x.2

theorem KnownChain.mono {m : ExprArena} {x y : List ExprId × Nat} (h : KnownChain r x y) (hm : r ≤ m) :
    KnownChain m x y := by
  refine ⟨h.1, fun id hid => ?_⟩
  obtain ⟨hlt, hheight⟩ := h.2 id hid
  rw [hm.2 id hlt]
  exact ⟨ExprArena.lt_size_of_le hm hlt, hheight⟩

theorem chainOf (concat : Bool) (hl : left.Alike C.span k r left') :
    Agree C v w r KnownChain (chainOf concat left) (chainOf concat left') := by
  have hstart {m : ExprArena} {id id' : ExprId} (hid : Known (k + 1) m id id') : Agree C v w m KnownChain
      (do return (← Parse.operandsOf concat id, (← Parse.height id) + 1))
      (do return (← Parse.operandsOf concat id', (← Parse.height id') + 1)) := by
    obtain ⟨rfl, hid⟩ := hid
    refine (operandsOf concat (.of_lt hid.1)).bind ?_
    rintro l parts _ hl ⟨rfl, hparts⟩
    refine (height id).bind ?_
    rintro j h _ hj ⟨rfl, rfl⟩
    refine pure fun i hi => KnownChain.mono ⟨rfl, fun p hp => ?_⟩ hi
    have hp := (hparts p hp).mono hj
    refine ⟨hp.1, Nat.lt_succ_of_le ?_⟩
    rw [(le_trans hl hj).2 id hid.1]
    exact hp.2
  have hrecord := (materialize (v := v) (w := w) hl).bind fun _ _ _ _ hid => hstart hid
  cases hl with
  | chain hp =>
    refine .ite (fun _ => pure fun l hl => KnownChain.mono ⟨rfl, hp⟩ hl) fun _ => hrecord
  | _ => exact hrecord

theorem binary (hv : C.At r v w) (op : String) {l : Nat} (hl : left.Alike C.span k r left') {right : ExprId}
    (hr : r.Fits l right) (hstart : start < v.tokens.size) :
    Agree C v w r (Pending.Recorded C.span) (binary op left right start) (binary op left' right start) := by
  refine (spanSince hv.view hstart).next fun s t hst => ?_
  refine (buildsString hv op hl right).same fun concat => ?_
  refine (chainOf concat hl).bind ?_
  rintro m ⟨parts, h⟩ x hm hparts
  obtain rfl := hparts.1
  have hright := ExprArena.lt_size_of_le hm hr.1
  refine (operandsOf concat (.of_lt hright)).bind ?_
  rintro i last _ hi ⟨rfl, hlast⟩
  refine (height right).bind ?_
  rintro j h' _ hj ⟨rfl, rfl⟩
  have hij := le_trans hi hj
  refine pure fun x hx => Pending.Recorded.mono (.chain (fun p hp => ?_) hst) hx
  rcases List.mem_append.mp hp with hp | hp
  · obtain ⟨hsize, hheight⟩ := (hparts.mono hij).2 p hp
    exact ⟨hsize, Nat.lt_of_lt_of_le hheight (Nat.le_max_left _ _)⟩
  · have hp := (hlast p hp).mono hj
    rw [← hij.2 right hright] at hp
    exact ⟨hp.1, Nat.lt_of_lt_of_le (Nat.lt_succ_of_le hp.2) (Nat.le_max_right _ _)⟩

end Parse.Agree

namespace Level.Agree

open Parse

variable {C : Correspondence} {sub : Level} {r : ExprArena} {v w : View} (hs : sub.Agree C)
variable (hv : C.At r v w) {start : Nat} {t u : Token}
include hs hv

theorem pendingOperand (power : Nat) : Parse.Agrees C v w r (Pending.Recorded C.span) (sub.pending power) :=
  (hs.pending hv power).imp fun _ _ _ h => ⟨maxLeftHeight, h⟩

theorem lambdaBody (params : List String) (hstart : start < v.tokens.size) :
    Parse.Agrees C v w r (Pending.Recorded C.span) (sub.lambdaBody params start) := by
  refine Agree.pos.same fun first => ?_
  refine (Agree.isOp hv.alike _).same fun opens => .view ?_
  rw [hv.alike.language]
  refine .ite (fun _ => .bracedLambda hv params hstart first) fun _ => ?_
  refine (hs.expr hv 1).forgetting ?_
  rintro m body _ hm ⟨rfl, hbody⟩
  refine Agree.pos.same fun stop => ?_
  refine .step (.deferBody (hv.mono hm) params hstart first (stop - 1)) ?_
  exact .recorded (.compound hv.view (fun id hid => List.mem_singleton.mp hid ▸ hbody) hstart)

theorem anonymousFunction (hstart : start < v.tokens.size) :
    Parse.Agrees C v w r (Pending.Recorded C.span) (sub.anonymousFunction start) := by
  refine (Agree.seek _).same fun _ => ?_
  refine (Agree.eatOp hv.alike "*").same fun star => ?_
  refine .branch ?_ fun hrest => (Agree.eatOp hv.alike "&").same fun _ => hrest
  refine (Agree.here_same hv.alike.isIdentAt).same fun named => .step (.advance 1) ?_
  refine (Agree.bracketedParams hv).same fun params => ?_
  refine (Agree.here_same fun i => by
    rw [hv.alike.language, hv.alike.textAt, hv.alike.isOpAt]).same fun captures => ?_
  refine .branch ?_ fun hrest => .view (Agree.pos.same fun i => ?_)
  · refine (Agree.here_same fun i => by
      rw [hv.alike.limit, hv.alike.functionBody?]).same fun body => ?_
    split
    · exact .bracedLambda hv params hstart _
    · exact (Agree.seek _).same fun _ => hs.lambdaBody hv params hstart
    · exact .fail
  · rw [hv.alike.matching?]
    exact (Agree.ofOption_same _).same fun close => (Agree.seek _).same fun _ => hrest

theorem groups (k : Nat) : Parse.Agrees C v w r (KnownAll maxTreeHeight) (sub.groups k) := by
  induction k generalizing r with
  | zero => exact .pure fun _ _ => .nil
  | succ k ih =>
    refine (Agree.isOp hv.alike _).same fun opens => .ite (fun _ => ?_) fun _ => .pure fun _ _ => .nil
    refine Agree.pos.same fun i => ?_
    refine (hs.group hv i).bind fun m items items' hm hitems => ?_
    refine (ih (hv.mono hm)).bind fun l rest rest' hl hrest => ?_
    exact .pure fun k hk => (hitems.mono (le_trans hl hk)).append (hrest.mono hk)

theorem bracedItems : Parse.Agrees C v w r (KnownAll maxTreeHeight) sub.bracedItems := by
  refine (Agree.isOp hv.alike _).same fun opens => .ite (fun _ => ?_) fun _ => .pure fun _ _ => .nil
  exact Agree.pos.same fun i => hs.group hv i

theorem constructor (hstart : start < v.tokens.size) :
    Parse.Agrees C v w r (Pending.Recorded C.span) (sub.constructor start) := by
  refine .view ?_
  rw [hv.alike.limit, hv.alike.constructorName]
  generalize v.constructorName (v.limit - start) (start + 1) = x
  obtain ⟨name, i⟩ := x
  dsimp -zeta only
  rw [hv.alike.isOpAt, hv.alike.angleEnd, hv.alike.language]
  refine (Agree.seek _).same fun _ => ?_
  refine (Agree.isOp hv.alike _).same fun sized => .ite (fun _ => ?_) fun _ => ?_
  · refine (hs.groups hv v.limit).bind fun m sizes sizes' hm hsizes => ?_
    refine (hs.bracedItems (hv.mono hm)).bind fun k items items' hk hitems => ?_
    obtain ⟨heq, hall⟩ := (hsizes.mono hk).append hitems
    rw [← heq]
    exact .recorded (.compound hv.view hall hstart)
  · refine (Agree.isOp hv.alike _).same fun called => ?_
    refine .join (G := KnownAll maxTreeHeight) (fun hcont => .ite
      (fun _ => Agree.pos.same fun i => (hs.group hv i).bind hcont)
      fun _ => (Agree.pure fun _ _ => .nil).bind hcont) fun m args args' hm hargs => ?_
    refine .join (G := KnownAll maxTreeHeight) (fun hcont => .ite (fun _ => ?_)
      fun _ => (hs.bracedItems (hv.mono hm)).bind hcont) fun k items items' hk hitems => ?_
    · refine (Agree.isOp hv.alike _).same fun body => ?_
      refine .branch ((Agree.pure fun _ _ => .nil).bind hcont) fun hrest => ?_
      refine Agree.pos.same fun i => ?_
      rw [hv.alike.matching?]
      exact (Agree.ofOption_same _).same fun close => (Agree.seek _).same fun _ => hrest
    · obtain ⟨heq, hall⟩ := (hargs.mono hk).append hitems
      rw [← heq]
      exact (Agree.spanSince hv.view hstart).next fun s t hst => .recorded (.alloc hall hst)

theorem collection (hstart : start < v.tokens.size) :
    Parse.Agrees C v w r (Pending.Recorded C.span) (sub.collection start) := by
  refine (Agree.isOp hv.alike _).same fun braced => ?_
  refine (Agree.isOp hv.alike _).same fun called => .ite (fun _ => ?_) fun _ => .fail
  refine Agree.pos.same fun i => (hs.group hv i).bind ?_
  rintro m items _ _ ⟨rfl, hitems⟩
  exact .recorded (.compound hv.view hitems hstart)

theorem bracketed {opener : Nat} (hopener : opener < v.tokens.size) :
    Parse.Agrees C v w r (Pending.Recorded C.span) (sub.bracketed opener) := by
  refine .view ?_
  rw [hv.alike.matching?]
  refine (Agree.ofOption_same _).same fun close => ?_
  rw [hv.alike.isArrowAt, hv.alike.paramNames, hv.alike.isCast]
  refine .ite (fun _ => ?_) fun _ => .ite (fun _ => ?_) fun _ => ?_
  · exact (Agree.seek _).same fun _ => hs.lambdaBody hv _ hopener
  · exact (Agree.seek _).same fun _ => hs.pendingOperand hv 9
  · refine (hs.group hv opener).bind ?_
    rintro m items _ _ ⟨rfl, hitems⟩
    split
    · exact .pure fun k hk => .done ((hitems _ (.head _)).mono hk)
    · exact (Agree.spanSince hv.view hopener).next fun s t hst => .recorded (.literal hst _ _)
    · exact .recorded (.compound hv.view hitems hopener)

theorem unary (hstart : start < v.tokens.size) :
    Parse.Agrees C v w r (Pending.Recorded C.span) (sub.unary start) := by
  refine (Agree.advance 1).same fun _ => (hs.expr hv 9).bind ?_
  rintro m operand _ _ ⟨rfl, ho⟩
  exact .recorded (.compound hv.view (fun id hid => List.mem_singleton.mp hid ▸ ho) hstart)

theorem keywordOperand (ht : v.Paired w t u) (hstart : start < v.tokens.size) :
    Parse.Agree C v w r (Pending.Recorded C.span) (sub.keywordOperand start t)
      (sub.keywordOperand start u) := by
  refine .view ?_
  rw [(ht.alike hv.alike).text, hv.alike.dialect]
  have hspan := ht.span hv.view
  have hpath : Parse.Agree C v w r (Pending.Recorded C.span)
      (advance 1 >>= fun _ => return .path t.text t.span)
      (advance 1 >>= fun _ => return .path t.text u.span) :=
    (Agree.advance 1).same fun _ => .pure fun _ _ => .path hspan
  have hawait : Parse.Agree C v w r (Pending.Recorded C.span)
      (do
        advance 1
        if ← isKeyword "from" then advance 1
        if ← atBoundary then return .done (← literal .constant "" t.span) else sub.pending 9)
      (do
        advance 1
        if ← isKeyword "from" then advance 1
        if ← atBoundary then return .done (← literal .constant "" u.span) else sub.pending 9) := by
    refine (Agree.advance 1).same fun _ => (Agree.isKeyword hv.alike _).same fun _ => ?_
    refine .step (.advance 1) ((Agree.atBoundary hv.alike).same fun _ => ?_)
    exact .ite (fun _ => .recorded (.literal hspan _ _)) fun _ => hs.pendingOperand hv 9
  have hgo : Parse.Agree C v w r (Pending.Recorded C.span)
      (if v.language == .go then do
          advance 1
          if ← isOp "[" then seek ((← ofOption (v.matching? (← pos))) + 1)
          skipType
          sub.collection start
        else fail)
      (if w.language == .go then do
          advance 1
          if ← isOp "[" then seek ((← ofOption (w.matching? (← pos))) + 1)
          skipType
          sub.collection start
        else fail) := by
    rw [hv.alike.language]
    refine .ite (fun _ => ?_) fun _ => .fail
    refine (Agree.advance 1).same fun _ => (Agree.isOp hv.alike _).same fun _ => ?_
    refine .branch ((Agree.skipType hv).same fun _ => hs.collection hv hstart) fun hrest => ?_
    refine Agree.pos.same fun i => ?_
    rw [hv.alike.matching?]
    exact (Agree.ofOption_same _).same fun _ => (Agree.seek _).same fun _ => hrest
  refine .ite (fun _ => ?_) fun _ => ?_
  · exact (Agree.advance 1).same fun _ => .recorded (.literal hspan _ _)
  · split
    iterate 4 exact hpath
    · exact hs.constructor hv hstart
    iterate 2 exact hs.anonymousFunction hv hstart
    · rw [hv.alike.language, hv.alike.colonAfter?]
      refine .ite (fun _ => (Agree.ofOption_same _).same fun colon => ?_) fun _ => .fail
      rw [hv.alike.paramNames]
      exact (Agree.seek _).same fun _ => hs.lambdaBody hv _ hstart
    · exact (Agree.advance 1).same fun _ => hs.primary hv
    iterate 2 exact hawait
    iterate 4 exact hs.unary hv hstart
    iterate 2 exact hgo
    · exact .fail

omit hs in
theorem arrowLambda (hstart : start < v.tokens.size) :
    Parse.Agrees C v w r (Pending.Recorded C.span) (Level.arrowLambda start) := by
  refine (Agree.advance 1).same fun _ => (Agree.bracketedParams hv).same fun params => ?_
  refine (Agree.isOp hv.alike _).same fun opens => .ite (fun _ => ?_) fun _ => .fail
  refine Agree.pos.same fun opener => .view ?_
  rw [hv.alike.matching?]
  refine (Agree.ofOption_same _).same fun close => ?_
  exact (Agree.deferBody hv params hstart _ close).same fun _ => .lambdaLiteral hv hstart

theorem operatorOperand (ht : v.Paired w t u) (hstart : start < v.tokens.size) :
    Parse.Agree C v w r (Pending.Recorded C.span) (sub.operatorOperand start t)
      (sub.operatorOperand start u) := by
  refine .view ?_
  rw [(ht.alike hv.alike).text, hv.alike.language, hv.alike.isOpAt]
  have hitems : Parse.Agrees C v w r (Pending.Recorded C.span)
      (do return .done (← compound (← sub.group start) start)) := by
    refine (hs.group hv start).bind ?_
    rintro m items _ _ ⟨rfl, hitems⟩
    exact .recorded (.compound hv.view hitems hstart)
  split
  · exact hs.bracketed hv hstart
  · refine .ite (fun _ => ?_) fun _ => hitems
    refine (Agree.advance 2).same fun _ => (Agree.eatOp hv.alike _).same fun _ => ?_
    exact (Agree.skipType hv).same fun _ => hs.collection hv hstart
  · exact hitems
  iterate 6 exact hs.unary hv hstart
  iterate 6 exact (Agree.advance 1).same fun _ => hs.pendingOperand hv 9
  iterate 2 exact (Agree.advance 1).same fun _ => hs.primary hv
  · exact .ite (fun _ => arrowLambda hv hstart) fun _ => .fail
  · exact .fail

theorem literalOperand (ht : v.Paired w t u) (kind : LiteralKind) :
    Parse.Agree C v w r (Pending.Recorded C.span) (sub.literalOperand t kind)
      (sub.literalOperand u kind) := by
  have hspan := ht.span hv.view
  have htext := (ht.alike hv.alike).text
  refine (Agree.advance 1).same fun _ => ?_
  rw [htext]
  split
  · exact .recorded (hs.interpolated hv ht _)
  · refine (hs.interpolated hv ht _).bind ?_
    rintro m inner _ _ ⟨rfl, hi⟩
    exact .recorded (.alloc (fun id hid => List.mem_singleton.mp hid ▸ hi) hspan)
  · exact .recorded (.literal hspan _ _)
  · exact .recorded (.literal hspan _ _)

theorem nameOperand (ht : v.Paired w t u) (hstart : start < v.tokens.size) :
    Parse.Agree C v w r (Pending.Recorded C.span) (sub.nameOperand start t)
      (sub.nameOperand start u) := by
  refine .view ?_
  rw [(ht.alike hv.alike).text, hv.alike.language, hv.alike.isOpAt, hv.alike.isArrowAt]
  refine .ite (fun _ => hs.anonymousFunction hv hstart) fun _ => .ite (fun _ => ?_) fun _ => ?_
  · exact (Agree.advance 2).same fun _ => hs.lambdaBody hv _ hstart
  · exact (Agree.advance 1).same fun _ => .pure fun _ _ => .path (ht.span hv.view)

theorem operand : Parse.Agrees C v w r (Pending.Recorded C.span) sub.operand := by
  refine Agree.pos.same fun start => .view ?_
  refine (Agree.token hv start).next fun t u htoken => ?_
  obtain ⟨hp, hstart⟩ := htoken
  rw [(hp.alike hv.alike).kind]
  split
  · exact hs.literalOperand hv hp _
  · exact hs.nameOperand hv hp hstart
  · exact hs.keywordOperand hv hp hstart
  · exact hs.operatorOperand hv hp hstart
  · exact .fail

omit hs hv in
theorem lt_size_of_operand (sub : Level) (v : View) (d : Draft)
    (h : (sub.operand v d).1.isSome = true) : d.pos < v.tokens.size := by
  cases ht : v.tok? d.pos with
  | none =>
    have hrun : sub.operand v d = (none, d) := by
      change (Parse.ofOption (v.tok? d.pos) >>= _) v d = _
      rw [ht]
      rfl
    rw [hrun] at h
    cases h
  | some t => exact View.lt_size_of_tok? ht

omit hs hv in
theorem lt_size_of_deeper_operand (sub : Level) (v : View) (d : Draft)
    (h : (sub.operand.deeper v d).1.isSome = true) : d.pos < v.tokens.size := by
  by_cases hdepth : d.depth < maxParseDepth
  · rw [deeper_of_lt hdepth] at h
    exact lt_size_of_operand sub v (d.enter hdepth) h
  · rw [deeper_of_not_lt hdepth] at h
    cases h

/-! ## Operators -/

theorem conditional (op : String) {k : Nat} {left : ExprId} (hl : r.Fits k left)
    (hstart : start < v.tokens.size) :
    Parse.Agrees C v w r (Known (max k maxTreeHeight + 1)) (sub.conditional op left start) := by
  refine (hs.expr hv _).bind ?_
  rintro m second _ hm ⟨rfl, hsecond⟩
  have hv' := hv.mono hm
  have hthird {i : ExprArena} {more : Bool} (hi : m ≤ i) :
      Parse.Agrees C v w i (Known (max k maxTreeHeight + 1))
      (do
        let third ← if more then attempt (sub.expr 1) else pure none
        compound (left :: second :: third.toList) start) := by
    refine .join (G := fun l => Option.Rel (Known maxTreeHeight l)) (fun hcont => .ite
      (fun _ => (hs.expr (hv'.mono hi) 1).attempt.bind hcont)
      fun _ => (Agree.pure fun _ _ => .none).bind hcont) fun l third third' hl' hthird => ?_
    obtain ⟨heq, hall⟩ := (KnownAll.ofOption hthird).le (Nat.le_max_right k _)
    rw [← heq]
    have hle := le_trans hi hl'
    refine .compound hv.view (List.forall_mem_cons.mpr ⟨?_, List.forall_mem_cons.mpr ⟨?_, hall⟩⟩) hstart
    · exact (hl.mono (le_trans hm hle)).le (Nat.le_max_left _ _)
    · exact (hsecond.mono hle).le (Nat.le_max_right _ _)
  refine .ite (fun _ => (Agree.eatOp hv.alike _).same fun more => hthird (le_refl m)) fun _ => ?_
  refine (Agree.isKeyword hv.alike _).same fun word => .ite (fun _ => ?_) fun _ => ?_
  · exact (Agree.advance 1).same fun _ => (Agree.pure fun _ _ => rfl).same fun _ => hthird (le_refl m)
  · exact (Agree.pure fun _ _ => rfl).same fun _ => hthird (le_refl m)

def Taken (S : Span → Span → Prop) (r : ExprArena) (x y : Pending × Bool) : Prop :=
  x.1.Recorded S r y.1 ∧ y.2 = x.2

theorem operator (op : String) (power : Nat) (hstart : start < v.tokens.size) {k : Nat}
    {left left' : Pending} (hl : left.Alike C.span k r left') :
    Parse.Agree C v w r (Taken C.span) (sub.operator op power start left)
      (sub.operator op power start left') := by
  refine Agree.pos.same fun i => (Agree.advance 1).same fun _ => ?_
  refine (Agree.isKeyword hv.alike _).same fun word => .step (.advance 1) ?_
  refine .ite (fun _ => ?_) fun _ => ?_
  · refine (Agree.materialize hl).bind ?_
    rintro m first _ hm ⟨rfl, hfirst⟩
    refine (hs.conditional (hv.mono hm) op hfirst hstart).attempt.bind fun k id id' hk hid => ?_
    cases hid with
    | none =>
      exact (Agree.seek i).same fun _ => .pure fun l hl => ⟨.done (hfirst.mono (le_trans hk hl)), rfl⟩
    | some hid =>
      obtain ⟨rfl, hid⟩ := hid
      exact .pure fun l hl => ⟨.done (hid.mono hl), rfl⟩
  · refine (hs.expr hv power).attempt.bind fun m right right' hm hright => ?_
    cases hright with
    | none => exact (Agree.seek i).same fun _ => .pure fun l hl' => ⟨⟨k, hl.mono (le_trans hm hl')⟩, rfl⟩
    | some hright =>
      obtain ⟨rfl, hright⟩ := hright
      refine (Agree.binary (hv.mono hm) op (hl.mono hm) hright hstart).bind fun k x y _ hx => ?_
      exact .pure fun l hl => ⟨hx.mono hl, rfl⟩

theorem climbFrom (power : Nat) (hstart : start < v.tokens.size) (k : Nat) {left left' : Pending}
    (hl : left.Recorded C.span r left') :
    Parse.Agree C v w r (Pending.Recorded C.span) (sub.climbFrom power start k left)
      (sub.climbFrom power start k left') := by
  induction k generalizing r left left' with
  | zero => exact .pure fun m hm => hl.mono hm
  | succ k ih =>
    obtain ⟨bound, hl⟩ := hl
    refine (Agree.tooDeep hl).bind ?_
    rintro m deep _ hm ⟨rfl, hlow⟩
    have hv := hv.mono hm
    have hl := hl.mono hm
    refine (Agree.atBoundary hv.alike).same fun ends => ?_
    refine .ite (fun _ => .pure fun l hl' => ⟨bound, hl.mono hl'⟩) fun hgo => Agree.pos.same fun before => ?_
    have hlow := hlow (Bool.or_eq_false_iff.mp (Bool.not_eq_true _ ▸ hgo)).1
    have hchain : left'.isChain = left.isChain := by cases hl <;> rfl
    rw [hchain]
    refine .join (G := Pending.Recorded C.span) (fun hcont => .ite
      (fun _ => (Agree.pure fun l hl' => ⟨bound, hl.mono hl'⟩).bind hcont)
      fun _ => (hs.suffix hv hlow hstart).bind hcont) fun m left left' hm hl => ?_
    have hv := hv.mono hm
    refine Agree.pos.same fun after => .ite (fun _ => ih hv hl) fun _ => ?_
    refine (Agree.skipCast hv).same fun cast => .ite (fun _ => ih hv hl) fun _ => ?_
    refine (Agree.here_same hv.alike.bindingPower?).same fun power? => ?_
    split
    · exact .pure fun m hm => hl.mono hm
    · refine .ite (fun _ => .pure fun m hm => hl.mono hm) fun _ => ?_
      refine (Agree.here_same hv.alike.textAt).same fun op => ?_
      obtain ⟨_, hl⟩ := hl
      refine (hs.operator hv op _ hstart hl).bind ?_
      rintro k' ⟨x, taken⟩ ⟨y, _⟩ hk ⟨hx, rfl⟩
      exact .ite (fun _ => ih (hv.mono hk) hx) fun _ => .pure fun m hm => hx.mono hm

theorem climb (power : Nat) :
    Parse.Agrees C v w r (Pending.Alike C.span maxLeftHeight) (sub.climb power) := by
  refine (hs.primary hv).fromHere (hs.starts v) fun start m first first' hstart hm hfirst => ?_
  refine (Agree.here_same fun i => by rw [hv.alike.limit]).same fun rest => ?_
  refine (hs.climbFrom (hv.mono hm) power hstart _ hfirst).bind fun k left left' hk hl => ?_
  obtain ⟨_, hl⟩ := hl
  refine (Agree.tooDeep hl).bind ?_
  rintro l deep _ _ ⟨rfl, hlow⟩
  refine .ite (fun _ => .fail) fun hdeep => .pure fun j hj => ?_
  exact (hlow (Bool.eq_false_iff.mpr hdeep)).mono hj

end Level.Agree

theorem Level.nested_agree (C : Correspondence) (k : Nat) : (Level.nested k).Agree C := by
  -- The parsers of one level call those of the level below; the lowest level always fails.
  induction k with
  | zero => exact ⟨fun _ _ => .fail, fun _ => .fail, fun _ _ h => nomatch h⟩
  | succ k ih =>
    exact ⟨fun hv power => (ih.climb hv power).deeper, fun hv => (ih.operand hv).deeper,
      Agree.lt_size_of_deeper_operand _⟩

namespace Parse.Agree

variable {C : Correspondence} {r : ExprArena} {v w : View} (hv : C.At r v w)
include hv

theorem expr (power : Nat) : Agrees C v w r (Known maxTreeHeight) (expr power) :=
  (Level.nested_agree C _).expr hv power

end Parse.Agree
end TaintScan
