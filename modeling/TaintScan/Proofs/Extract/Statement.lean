import TaintScan.Proofs.Extract.Walk

/-! # Headers and statements side by side

Every step of an extraction keeps a tracking, since the parsers in it agree; so two extractions of units
that are alike stay side by side to the end.
-/
namespace TaintScan

/-! ## Parts of headers and statements -/

/-- Names beside recorded expressions. -/
def KnownParts (r : ExprArena) (x y : List String × List ExprId) : Prop :=
  x = y ∧ ∀ id ∈ x.2, r.Fits maxOperandHeight id

namespace Parse.Agree

variable {C : Correspondence} {r : ExprArena} {v w : View} (hv : C.At r v w)
include hv

theorem exprsIn (first last : Nat) : Agrees C v w r (KnownAll maxOperandHeight) (exprsIn first last) := by
  have hv' : C.At r { v with limit := min last v.limit, nesting := v.nesting + 1 }
      { w with limit := min last w.limit, nesting := w.nesting + 1 } := by
    rw [hv.alike.limit]
    exact hv.nest (Nat.min_le_right _ _)
  refine (seek first).same fun _ => ?_
  refine (within rfl ((Level.nested_agree C _).looseItems hv' _)).bind fun m items items' _ hitems => ?_
  exact (seek last).same fun _ => pure fun k hk => (hitems.mono hk).le (by decide)

theorem resourceParts (last k item : Nat) : Agrees C v w r KnownParts (resourceParts last k item) := by
  induction k generalizing r item with
  | zero => exact pure fun _ _ => ⟨rfl, List.forall_mem_nil _⟩
  | succ k ih =>
    have hrest {stop : Nat} {m : ExprArena} {x y : List String × List ExprId} (hm : r ≤ m)
        (hx : KnownParts m x y) :
        Agree C v w m KnownParts
          (do
            let rest ← Parse.resourceParts last k stop
            return (x.1 ++ rest.1, x.2 ++ rest.2))
          (do
            let rest ← Parse.resourceParts last k stop
            return (y.1 ++ rest.1, y.2 ++ rest.2)) := by
      obtain ⟨rfl, hx⟩ := hx
      refine (ih (hv.mono hm) stop).bind ?_
      rintro l ⟨names, ids⟩ _ hl ⟨rfl, hids⟩
      refine pure fun j hj => ⟨rfl, fun id hid => ?_⟩
      rcases List.mem_append.mp hid with hid | hid
      · exact (hx id hid).mono (le_trans hl hj)
      · exact (hids id hid).mono hj
    refine .ite (fun _ => pure fun _ _ => ⟨rfl, List.forall_mem_nil _⟩) fun _ => .view ?_
    simp only [hv.alike.findOutside?, hv.alike.names, hv.alike.identsIn]
    split
    · exact (exprsIn hv _ _).bind fun _ _ _ hm ho => hrest hm ⟨by rw [ho.1], ho.2⟩
    · split
      · exact (exprsIn hv _ _).bind fun _ _ _ hm ho => hrest hm ⟨by rw [ho.1], ho.2⟩
      · exact (exprsIn hv _ _).bind fun _ _ _ hm ho => hrest hm ⟨by rw [ho.1], ho.2⟩

theorem iterationParts (first separator last : Nat) :
    Agrees C v w r KnownParts (iterationParts first separator last) := by
  have hparts (names : List String) (i j : Nat) : Agrees C v w r KnownParts
      (do return (names, ← Parse.exprsIn i j)) := by
    refine (exprsIn hv i j).bind ?_
    rintro m ids _ _ ⟨rfl, hids⟩
    exact pure fun k hk => ⟨rfl, fun id hid => (hids id hid).mono hk⟩
  refine .view ?_
  rw [hv.alike.language, hv.alike.names, hv.alike.names, hv.alike.names, hv.alike.identsIn,
    hv.alike.identsIn]
  split <;> exact hparts _ _ _

theorem moreItems (k : Nat) : Agrees C v w r (KnownAll maxTreeHeight) (moreItems k) := by
  induction k generalizing r with
  | zero => exact pure fun _ _ => .nil
  | succ k ih =>
    refine (eatOp hv.alike _).same fun more => .ite (fun _ => ?_) fun _ => pure fun _ _ => .nil
    refine (expr hv 0).bind fun m item item' hm hitem => ?_
    refine (ih (hv.mono hm)).bind fun l rest rest' hl hrest => ?_
    exact pure fun j hj => .cons (hitem.mono (le_trans hl hj)) (hrest.mono hj)

theorem trailingConditions (k : Nat) : Agrees C v w r (KnownAll maxOperandHeight) (trailingConditions k) := by
  induction k generalizing r with
  | zero => exact pure fun _ _ => .nil
  | succ k ih =>
    have hahead (i : Nat) := hv.alike.tok?_any (i := i)
      (p := fun t => t.kind == .keyword && trailingWords.contains t.text)
      fun t u ht => by rw [ht.kind, ht.text]
    refine (here_same fun i => by rw [hv.alike.language, hv.alike.newlineBefore, hahead]).same
      fun ahead => .ite (fun _ => ?_) fun _ => pure fun _ _ => .nil
    refine (advance 1).same fun _ => (expr hv 0).attempt.bind fun m item item' hm hitem => ?_
    refine (ih (hv.mono hm)).bind fun l rest rest' hl hrest => ?_
    exact pure fun j hj =>
      (((KnownAll.ofOption hitem).mono (le_trans hl hj)).le (by decide)).append (hrest.mono hj)

theorem commandItems (k : Nat) : Agrees C v w r (KnownAll maxTreeHeight) (commandItems k) := by
  induction k generalizing r with
  | zero => exact pure fun _ _ => .nil
  | succ k ih =>
    refine (atBoundary hv.alike).same fun ends => .ite (fun _ => pure fun _ _ => .nil) fun _ => ?_
    refine (expr hv 0).bind fun m item item' hm hitem => ?_
    refine (eatOp hv.alike _).same fun more => .ite (fun _ => ?_) fun _ => ?_
    · refine (ih (hv.mono hm)).bind fun l rest rest' hl hrest => ?_
      exact pure fun j hj => .cons (hitem.mono (le_trans hl hj)) (hrest.mono hj)
    · exact pure fun j hj => .cons (hitem.mono hj) .nil

theorem leftSides : Agrees C v w r (KnownAll maxOperandHeight) Walk.leftSides := by
  have hv' : C.At r { v with stopAtAppend := v.language == .ruby }
      { w with stopAtAppend := w.language == .ruby } := by
    rw [hv.alike.language]
    exact hv.append _
  refine (within rfl (expr hv' 0)).bind fun m first first' hm hfirst => ?_
  refine (isOp hv.alike _).same fun comma => (here_same hv.alike.assignmentAhead).same fun ahead => ?_
  have hfirst := hfirst.le (Nat.le_succ maxTreeHeight)
  refine .ite (fun _ => ?_) fun _ => pure fun j hj => .cons (hfirst.mono hj) .nil
  refine (here_same fun i => by rw [hv.alike.limit]).same fun k => ?_
  refine (moreItems (hv.mono hm) k).bind fun l rest rest' hl hrest => ?_
  exact pure fun j hj => .cons (hfirst.mono (le_trans hl hj)) ((hrest.mono hj).le (by decide))

theorem assignedValue {start : Nat} (hstart : start < v.tokens.size) :
    Agrees C v w r (Known maxOperandHeight) (Walk.assignedValue start) := by
  refine (expr hv 0).bind ?_
  rintro m value _ hm ⟨rfl, hvalue⟩
  refine .view ?_
  rw [hv.alike.language]
  refine (isOp hv.alike _).same fun comma => .ite (fun _ => ?_) fun _ => ?_
  · refine (here_same fun i => by rw [hv.alike.limit]).same fun k => ?_
    refine (moreItems (hv.mono hm) k).bind ?_
    rintro l more _ hl ⟨rfl, hmore⟩
    exact compound hv.view (List.forall_mem_cons.mpr ⟨hvalue.mono hl, hmore⟩) hstart
  · exact pure fun j hj => ⟨rfl, (hvalue.mono hj).le (by decide)⟩

end Parse.Agree

/-- What an assignment to a part of several targets writes. -/
def ExprKind.targets : ExprKind → Except UnknownExpr (List String)
  | .variable path => .ok [path]
  | _ => .ok []

theorem ExprKind.targets_ok (kind : ExprKind) : ∃ names, kind.targets = .ok names := by
  unfold targets
  split
  · exact ⟨_, rfl⟩
  · exact ⟨_, rfl⟩

theorem Draft.Alike.targetsOf {S : Span → Span → Prop} {d e : Draft} (h : d.Alike S e) {id : ExprId}
    (hid : id < d.arena.size) : ∃ x, d.targetsOf id = .ok x ∧ e.targetsOf id = .ok x := by
  have hparts {parts : List ExprId} (hp : ∀ p ∈ parts, p < d.arena.size) :
      ∃ names : List (List String),
        (parts.mapM fun part => do (← d.arena.get? part).kind.targets) = .ok names ∧
        (parts.mapM fun part => do (← e.arena.get? part).kind.targets) = .ok names := by
    induction parts with
    | nil => exact ⟨[], rfl, rfl⟩
    | cons part rest ih =>
      obtain ⟨hpart, hrest⟩ := List.forall_mem_cons.mp hp
      obtain ⟨names, hd, he⟩ := ih hrest
      obtain ⟨x, y, hx, hy, hxy, _⟩ := h.arena.get? hpart
      obtain ⟨targets, htargets⟩ := x.kind.targets_ok
      rw [List.mapM_cons, List.mapM_cons, hd, he, hx, hy]
      change ∃ names', x.kind.targets >>= _ = _ ∧ y.kind.targets >>= _ = _
      rw [hxy.kind, htargets]
      exact ⟨_, rfl, rfl⟩
  unfold Draft.targetsOf
  rw [h.lvalues]
  split
  · exact ⟨_, rfl, rfl⟩
  · exact ⟨_, rfl, rfl⟩
  · obtain ⟨⟨kind, s⟩, ⟨_, t⟩, hx, hy, hxy, hchildren⟩ := h.arena.get? hid
    cases hxy.kind
    rw [hx, hy]
    cases kind with
    | compound parts =>
      obtain ⟨names, hd, he⟩ := hparts hchildren
      refine ⟨(names.flatten, false), ?_, ?_⟩
      · exact congrArg (· >>= fun names => Except.ok (names.flatten, false)) hd
      · exact congrArg (· >>= fun names => Except.ok (names.flatten, false)) he
    | _ => exact ⟨_, rfl, rfl⟩

theorem View.Alike.isNamedFunction {v w : View} (h : v.Alike w) {S : Span → Span → Prop} {b c : Builder}
    (hb : b.Alike S c) (i : Nat) : w.isNamedFunction c i = v.isNamedFunction b i := by
  unfold View.isNamedFunction
  simp only [h.language, h.isIdentAt, h.isOpAt, h.matching?, hb.currentScope, hb.currentTag]

theorem View.lt_size_of_findOutside? {v : View} {first last i : Nat} {ops : List String}
    (h : v.findOutside? first last ops = some i) : first < v.tokens.size := by
  unfold View.findOutside? at h
  cases hn : min last v.limit - first with
  | zero =>
    rw [hn] at h
    cases h
  | succ n =>
    rw [hn, View.findOutsideFrom] at h
    split at h
    · cases h
    · next ht => exact View.lt_size_of_tok? ht

/-- A way of replaying deferred bodies that keeps a tracking. -/
def Replay.Agree {C : Correspondence} (R : Tracking C) (replay : Replay) : Prop :=
  ∀ {r : ExprArena} {v w : View}, C.At r v w → ∀ {lambdas : List Deferred},
    (∀ l ∈ lambdas, l.start < v.tokens.size ∧ ∀ id ∈ l.sources, r.Fits maxOperandHeight id) →
    Walk.Agree R v w r Same (replay lambdas) (replay lambdas)

/-! ## Headers -/

namespace Walk.Agree

variable {C : Correspondence} {R : Tracking C} {r : ExprArena} {v w : View} {start : Nat} {replay : Replay}
variable (hv : C.At r v w)
include hv

theorem skipStatement : Agrees R v w r Same skipStatement := by
  refine (here hv.alike.statementEnd).same fun x => ?_
  exact (seek _).same fun _ => pure fun _ _ => rfl

theorem giveUp (hstart : start < v.tokens.size) : Agrees R v w r Same (giveUp start) := by
  refine (skipStatement hv).same fun opens => (emitUnparsed hv.view hstart).same fun _ => ?_
  exact optional pushPlain

theorem openScope (kind : ScopeKind) (name : String) {params params' : List Param}
    (hp : List.Forall₂ (Param.Alike C.span) params params') (hd : ∀ p ∈ params, v.Declares p)
    (hstart : start < v.tokens.size) (last : Nat) (single : Bool) (indent : Option Nat) :
    Agree R v w r Same (openScope kind name params start last single indent)
      (openScope kind name params' start last single indent) :=
  act fun hb _ => Tracking.reach_openScope hv.view kind name hp hd (C.spanBetween hv.view _ _ hstart)
    single indent hb

section

variable (hstart : start < v.tokens.size)
include hstart

theorem openBody (kind : ScopeKind) (name : String)
    {params params' : List Param} (hp : List.Forall₂ (Param.Alike C.span) params params')
    (hd : ∀ p ∈ params, v.Declares p) :
    Agree R v w r Same (openBody start kind name params) (openBody start kind name params') := by
  have ha := hv.alike
  refine .view (pos.same fun i => ?_)
  rw [ha.dialect, ha.bodySearchEnd, ha.findOutside?, ha.headerColon?, ha.headerEnd]
  split
  · split
    · exact giveUp hv hstart
    · refine (seek _).same fun _ => ?_
      rw [ha.isOpAt, ha.isOpAt]
      refine .ite (fun _ => ?_) fun _ => openScope hv kind name hp hd hstart _ _ none
      exact clearModifiers.same fun _ => clearAnnotations.same fun _ => finish hv.view
  · split
    · exact giveUp hv hstart
    · refine (seek _).same fun _ => ?_
      rw [ha.sameLine, ha.lineIndent start hstart]
      exact .ite (fun _ => openScope hv kind name hp hd hstart _ _ _)
        fun _ => openScope hv kind name hp hd hstart _ _ _
  · refine (seek _).same fun _ => (eatOp ha _).same fun _ => ?_
    exact openScope hv kind name hp hd hstart _ _ _

theorem functionHeader : Agrees R v w r Same (functionHeader start) := by
  have ha := hv.alike
  have hparams (i j : Nat) := ha.paramsIn (fun i j hi => C.spanBetween hv.view i j hi) i j
  refine .view ?_
  simp only [ha.language, ha.pastGroup, ha.isOpAt, ha.functionName, ha.limit, ha.angleEnd, ha.matching?,
    ha.headerEnd]
  refine .ite (fun _ => ?_) fun _ => .ite (fun _ => ?_) fun _ => ?_
  · split
    · exact (seek _).same fun _ => giveUp hv hstart
    · exact (seek _).same fun _ => openBody hv hstart _ _ (hparams _ _) (v.declares_paramsIn _ _)
  · exact (seek _).same fun _ => openBody hv hstart _ _ (hparams _ _) (v.declares_paramsIn _ _)
  · exact (seek _).same fun _ => openBody hv hstart _ _ .nil (List.forall_mem_nil _)

theorem methodHeader (shape : View.MethodShape) : Agrees R v w r Same (methodHeader start shape) := by
  refine .view ((seek _).same fun _ => ?_)
  rw [hv.alike.textAt]
  exact openBody hv hstart _ _ (hv.alike.paramsIn (fun i j hi => C.spanBetween hv.view i j hi) _ _)
    (v.declares_paramsIn _ _)

theorem typeHeader : Agrees R v w r Same (typeHeader start) := by
  have ha := hv.alike
  refine .view ?_
  simp only [ha.isIdentAt, ha.textAt, ha.dialect, ha.findOutside?, ha.bodySearchEnd, ha.isOpAt]
  refine (seek _).same fun _ => .ite (fun _ => ?_) fun _ => openBody hv hstart _ _ .nil (List.forall_mem_nil _)
  split
  · refine .ite (fun _ => openBody hv hstart _ _ .nil (List.forall_mem_nil _)) fun _ => (seek _).same fun _ => ?_
    exact clearModifiers.same fun _ => clearAnnotations
  · exact (skipStatement hv).same fun _ => clearModifiers.same fun _ => clearAnnotations

end

theorem closeBranch : Agrees R v w r Same closeBranch := by
  intro b c hb hs _
  unfold Walk.closeBranch
  rw [(R.alike hb).blocks]
  split
  · exact .ok rfl ((Tracking.Reach.refl hb).goes hs)
  · split
    · exact .ok rfl ((Tracking.Reach.refl hb).goes hs)
    · exact .ok rfl ((Tracking.reach_closeTop hv.view hb).goes hs)

/-! ## Parts of statements -/

theorem clauseParts (last k clause : Nat) :
    Agrees R v w r (KnownAll maxOperandHeight) (clauseParts last k clause) := by
  induction k generalizing r clause with
  | zero => exact pure fun _ _ => .nil
  | succ k ih =>
    have ha := hv.alike
    have hrest {stop : Nat} {m : ExprArena} {xs ys : List ExprId} (hm : r ≤ m)
        (hx : KnownAll maxOperandHeight m xs ys) :
        Agree R v w m (KnownAll maxOperandHeight) (do return xs ++ (← Walk.clauseParts last k stop))
          (do return ys ++ (← Walk.clauseParts last k stop)) := by
      refine (ih (hv.mono hm) stop).bind fun l rest rest' hl hrest => ?_
      exact pure fun j hj => (hx.mono (le_trans hl hj)).append (hrest.mono hj)
    refine .ite (fun _ => pure fun _ _ => .nil) fun _ => .view ?_
    simp only [ha.findOutside?, ha.identsIn, ha.names, ha.language]
    split
    · next hassign =>
      have hclause : clause < v.tokens.size := View.lt_size_of_findOutside? hassign
      refine (parseList (.exprsIn hv _ _)).bind ?_
      rintro m values _ hm ⟨rfl, hvalues⟩
      refine (emit hv.view rfl _ false hvalues hclause).same fun _ => ?_
      exact hrest hm .nil
    · exact (parseList (.exprsIn hv _ _)).bind fun m xs ys hm hx => hrest hm hx

theorem withExpr (hstart : start < v.tokens.size) {next next' : ExprId → Walk Unit}
    (hn : ∀ m id, r ≤ m → m.Fits maxOperandHeight id → Agree R v w m Same (next id) (next' id)) :
    Agree R v w r Same (withExpr start next) (withExpr start next') := by
  refine (parse (.expr hv 0)).bind fun m id id' hm hid => ?_
  cases hid with
  | none => exact giveUp (hv.mono hm) hstart
  | some hid =>
    obtain ⟨rfl, hid⟩ := hid
    exact hn m _ hm (hid.le (by decide))

theorem trailingConditions : Agrees R v w r (KnownAll maxOperandHeight) trailingConditions :=
  (here fun i => by rw [hv.alike.limit]).same fun k => parseList (.trailingConditions hv k)

theorem annotation (start : Nat) : Agrees R v w r Same ( annotation start) := by
  refine .view ?_
  simp only [hv.alike.limit, hv.alike.annotationName, hv.alike.pastGroup]
  exact (seek _).same fun _ => optional ( addAnnotation _)

theorem attributeList (opener : Nat) : Agrees R v w r Same (attributeList opener) := by
  refine .view ?_
  rw [hv.alike.matching?]
  split
  · exact pure fun _ _ => rfl
  · rw [hv.alike.declarationFollows, hv.alike.attributeName]
    refine .ite (fun _ => ?_) fun _ => pure fun _ _ => rfl
    exact step ( addAnnotation _) ((seek _).same fun _ => pure fun _ _ => rfl)

theorem initialValue (ops : List String) :
    Agrees R v w r (fun m => Option.Rel (KnownAll maxOperandHeight m)) (initialValue ops) := by
  refine (here fun i => hv.alike.isAnyOpAt i ops).same fun valued => .ite (fun _ => ?_) fun _ => ?_
  · refine (advance 1).same fun _ => (parse (.expr hv 0)).bind fun m id id' _ hid => ?_
    refine pure fun k hk => ?_
    cases hid with
    | none => exact .none
    | some hid => exact .some (.cons ((hid.mono hk).le (by decide)) .nil)
  · exact pure fun _ _ => .some .nil

omit hv in
theorem assignmentTargets (ids : List ExprId) (hids : ∀ id ∈ ids, r.Fits maxOperandHeight id) :
    Agrees R v w r KnownParts (assignmentTargets ids) := by
  induction ids generalizing r with
  | nil => exact pure fun _ _ => ⟨rfl, List.forall_mem_nil _⟩
  | cons id rest ih =>
    obtain ⟨hid, hrest⟩ := List.forall_mem_cons.mp hids
    refine (look (A := fun m d e => Draft.Alike C.span d e ∧ d.arena = m)
      fun hb => ⟨(R.alike hb).draft, rfl⟩).bind ?_
    rintro m d e hm ⟨hd, rfl⟩
    obtain ⟨⟨names, container⟩, hx, hy⟩ := hd.targetsOf (hid.mono hm).1
    rw [hx, hy]
    have hfound : Agrees R v w d.arena Same (ofExcept (.ok (names, container))) := pure fun _ _ => rfl
    refine hfound.same fun x => ?_
    obtain ⟨names, container⟩ := x
    refine (ih fun id hid => (hrest id hid).mono hm).bind ?_
    rintro k ⟨moreNames, moreContainers⟩ _ hk ⟨rfl, hmore⟩
    refine pure fun j hj => ⟨rfl, ?_⟩
    have hmore' (p : ExprId) (hp : p ∈ moreContainers) := (hmore p hp).mono hj
    cases container with
    | true =>
      refine List.forall_mem_cons.mpr ⟨?_, hmore'⟩
      exact hid.mono (le_trans hm (le_trans hk hj))
    | false => exact hmore'

theorem visibility (start : Nat) (word : String) : Agrees R v w r Same (visibility start word) := by
  have ha := hv.alike
  refine .view ?_
  rw [ha.isKeywordAt, ha.newlineBefore, ha.limit]
  refine .ite (fun _ => ?_) fun _ => .ite (fun _ => ?_) fun _ => ?_
  · exact (addModifier word).same fun _ => advance 1
  · refine (act fun {b c} hb _ => .of_draft_eq ?_ rfl rfl).same fun _ => advance 1
    have halike := R.alike hb
    unfold Builder.setPrivateSection
    rw [halike.blocks, halike.markPrivate]
    exact R.withBlocks hb _ (b.map_markPrivate (fun _ _ => rfl) _ _)
  · exact (skipStatement hv).same fun _ => pure fun _ _ => rfl

theorem inertStatement : Agrees R v w r Same inertStatement :=
  (skipStatement hv).same fun _ => clearModifiers

theorem abandon {lambda : Deferred} (hstart : lambda.start < v.tokens.size) :
    Agrees R v w r Same (abandon lambda) :=
  act fun {b c} hb _ => by
    have hspan := C.spanBetween hv.view lambda.start lambda.close hstart
    have hpush := Tracking.reach_push
      (s := { kind := .unparsed, span := v.spanBetween lambda.start lambda.close
              controlTag := b.currentTag })
      (t := { kind := .unparsed, span := w.spanBetween lambda.start lambda.close
              controlTag := b.currentTag })
      hv.view ⟨rfl, rfl, rfl, .nil, hspan, rfl⟩ rfl (fun _ => ⟨rfl, rfl⟩) rfl hb
    have hpushed := R.alike hpush.1
    dsimp only
    rw [(R.alike hb).currentTag, hpushed.pos]
    exact hpush.trans
      ⟨R.withDraft hpush.1 (hpushed.draft.withPos _) (le_refl _), le_refl _, fun _ hl => hl, rfl⟩

variable (hr : replay.Agree R)
include hr

theorem headerParts (kind : ControlKind) (iterates : Bool) (first last : Nat) :
    Agrees R v w r KnownParts (headerParts replay kind iterates first last) := by
  have ha := hv.alike
  have hrest {m : ExprArena} {x y : List String × List ExprId} (hm : r ≤ m) (hx : KnownParts m x y) :
      Agree R v w m KnownParts
        (do
          replay (← Walk.takeDeferred)
          Walk.seek last
          return x)
        (do
          replay (← Walk.takeDeferred)
          Walk.seek last
          return y) := by
    obtain ⟨rfl, hx⟩ := hx
    refine takeDeferred.bind ?_
    rintro k lambdas _ hk ⟨rfl, hl⟩
    refine (hr (hv.mono (le_trans hm hk)) hl).same fun _ => (seek last).same fun _ => ?_
    exact pure fun j hj => ⟨rfl, fun id hid => (hx id hid).mono (le_trans hk hj)⟩
  have hclauses : Agrees R v w r KnownParts (do return ([], ← Walk.clauseParts last (last - first) first)) := by
    refine (clauseParts hv last _ first).bind ?_
    rintro m ids _ _ ⟨rfl, hids⟩
    exact pure fun k hk => ⟨rfl, fun id hid => (hids id hid).mono hk⟩
  have hparsed {p : Parse (List String × List ExprId)} (hp : Parse.Agrees C v w r KnownParts p) :
      Agrees R v w r KnownParts (do return (← Walk.parse p).getD ([], [])) := by
    refine (parse hp).bind fun m x y _ hx => pure fun k hk => ?_
    cases hx with
    | none => exact ⟨rfl, List.forall_mem_nil _⟩
    | some hx =>
      obtain ⟨rfl, hx⟩ := hx
      exact ⟨rfl, fun id hid => (hx id hid).mono hk⟩
  refine .ite (fun _ => pure fun _ _ => ⟨rfl, List.forall_mem_nil _⟩) fun _ => .view ?_
  rw [ha.catchBinding, ha.iterationSeparator?]
  dsimp only
  split
  · exact hrest (le_refl r) ⟨rfl, List.forall_mem_nil _⟩
  · split
    · exact (hparsed (.iterationParts hv _ _ _)).bind fun _ _ _ hm hx => hrest hm hx
    · exact hclauses.bind fun _ _ _ hm hx => hrest hm hx
  · exact (hparsed (.resourceParts hv _ _ _)).bind fun _ _ _ hm hx => hrest hm hx
  · exact (hparsed (.resourceParts hv _ _ _)).bind fun _ _ _ hm hx => hrest hm hx
  · exact hclauses.bind fun _ _ _ hm hx => hrest hm hx

theorem complete {kind : StatementKind} (hk : kind.isPlain = true)
    (targets : List String) (compound : Bool) {operands : List ExprId}
    (ho : ∀ id ∈ operands, r.Fits maxOperandHeight id) (hstart : start < v.tokens.size) :
    Agrees R v w r Same (complete replay kind targets compound operands start) := by
  refine takeDeferred.bind ?_
  rintro m lambdas _ hm ⟨rfl, hl⟩
  refine pos.same fun i => ?_
  refine (emit hv.view hk targets compound
    (fun id hid => (ho id hid).mono hm) hstart).same fun _ => ?_
  refine clearModifiers.same fun _ => (hr (hv.mono hm) hl).same fun _ => (resume i).same fun _ => ?_
  exact (eatOp hv.alike _).same fun _ => finish hv.view

theorem completeWithBlock {kind : StatementKind} (hk' : kind.isPlain = true)
    (targets : List String) (compound : Bool) {operands : List ExprId}
    (ho : ∀ id ∈ operands, r.Fits maxOperandHeight id) (hstart : start < v.tokens.size) :
    Agrees R v w r Same (completeWithBlock replay kind targets compound operands start) := by
  have ha := hv.alike
  refine .view ?_
  rw [ha.language]
  refine seen (fun i => ha.isKeywordAt i "do") fun i => .ite (fun hword => .pos (fromAny ?_ i))
    fun _ => fromAny (complete hv hr hk' targets compound ho hstart) i
  have hi : i < v.tokens.size := View.lt_size_of_any (Bool.and_eq_true_iff.mp hword).2
  refine (here fun i => ha.blockParams (i + 1)).same fun x => ?_
  obtain ⟨params, behind⟩ := x
  let rest (sources : List ExprId) : Walk Unit := do
    let lambdas ← Walk.takeDeferred
    Walk.emit kind targets compound operands start
    Walk.seek behind
    Walk.clearModifiers
    replay lambdas
    Walk.act fun _ b => b.seek (max b.pos behind)
    Walk.openControl .lambda params sources i .block none
  have hrest {m : ExprArena} {sources sources' : List ExprId} (hm : r ≤ m)
      (hs : KnownAll maxOperandHeight m sources sources') :
      Agree R v w m Same (rest sources) (rest sources') := by
    obtain ⟨rfl, hs⟩ := hs
    refine takeDeferred.bind ?_
    rintro k lambdas _ hk ⟨rfl, hl⟩
    have hle := le_trans hm hk
    refine (emit hv.view hk' targets compound
      (fun id hid => (ho id hid).mono hle) hstart).same fun _ => ?_
    refine (seek behind).same fun _ => clearModifiers.same fun _ => ?_
    refine (hr (hv.mono hle) hl).same fun _ => (resume behind).same fun _ => ?_
    exact openControl hv.view .lambda params (fun id hid => (hs id hid).mono hk) hi _ _
  cases operands with
  | nil => exact hrest (le_refl r) .nil
  | cons first rest =>
    refine (parseList (.blockSources (ho first (.head _)))).bind fun m _ _ hm hs => ?_
    exact hrest hm hs

theorem declarations (k : Nat) (hstart : start < v.tokens.size) : Agrees R v w r Same (declarations replay k start) := by
  induction k generalizing r start with
  | zero => exact giveUp hv hstart
  | succ k ih =>
    have ha := hv.alike
    refine (here ha.bindingPattern).same fun x => ?_
    obtain ⟨targets, i⟩ := x
    refine (seek i).same fun _ => .ite (fun _ => giveUp hv hstart) fun _ => ?_
    refine (here ha.annotationEnd).same fun j => (seek j).same fun _ => ?_
    refine (initialValue hv _).bind fun m operands operands' hm ho => ?_
    have hv' := hv.mono hm
    cases ho with
    | none => exact giveUp hv' hstart
    | some ho =>
      obtain ⟨rfl, ho⟩ := ho
      refine (isOp ha _).same fun comma => .ite (fun _ => ?_) fun _ => ?_
      · refine seen (fun i => ha.isIdentAt (i + 1)) fun i => .ite (fun hnext => ?_)
          fun _ => fromAny (giveUp hv' hstart) i
        refine .move (k := 0) (emit hv.view rfl targets false ho hstart) (fun b => b.emit_pos v _ _ _ _ _) ?_
        refine .move (k := 1) (advance 1) (fun _ => rfl) (.pos (fromAny ?_ _))
        exact ih hv' (View.lt_size_of_any hnext)
      · refine (atBoundary ha).same fun ends => (isKeyword ha _).same fun word => ?_
        exact .ite (fun _ => completeWithBlock hv' hr rfl targets false ho hstart) fun _ => giveUp hv' hstart

theorem typedDeclarations (k : Nat) (hstart : start < v.tokens.size) :
    Agrees R v w r Same (typedDeclarations replay k start) := by
  induction k generalizing r start with
  | zero => exact giveUp hv hstart
  | succ k ih =>
    have ha := hv.alike
    refine .view (pos.same fun i => ?_)
    simp -zeta only [ha.textAt, ha.limit, ha.emptyPairsEnd, ha.accessorEnd?]
    refine (seek _).same fun _ => ?_
    refine (isOp ha _).same fun valued => .ite (fun _ => ?_) fun _ => ?_
    · exact complete hv hr rfl _ _ (List.forall_mem_nil _) hstart
    · refine (initialValue hv _).bind fun m operands operands' hm ho => ?_
      have hv' := hv.mono hm
      cases ho with
      | none => exact giveUp hv' hstart
      | some ho =>
        obtain ⟨rfl, ho⟩ := ho
        have hfurther (i : Nat) : (w.isOpAt i "," && w.isIdentAt (i + 1)) =
            (v.isOpAt i "," && v.isIdentAt (i + 1)) := by
          rw [ha.isOpAt, ha.isIdentAt]
        refine seen hfurther fun i => .ite (fun hnext => ?_) fun _ => fromAny ?_ i
        · have hnext := View.lt_size_of_any (Bool.and_eq_true_iff.mp hnext).2
          refine .move (k := 0) (emit hv.view rfl _ false ho hstart) (fun b => b.emit_pos v _ _ _ _ _) ?_
          exact .move (k := 1) (advance 1) (fun _ => rfl) (.pos (fromAny (ih hv' hnext) _))
        · refine (atBoundary ha).same fun ends => .ite (fun _ => ?_) fun _ => giveUp hv' hstart
          exact complete hv' hr rfl _ _ ho hstart

/-! ## Statements -/

section Statements

variable (hstart : start < v.tokens.size)
include hstart

theorem bracesControl (kind : ControlKind) (iterates : Bool) :
    Agrees R v w r Same (bracesControl replay start kind iterates) := by
  have ha := hv.alike
  refine .view (pos.same fun i => ?_)
  simp only [ha.language, ha.lineEnd, ha.findOutside?, ha.isOpAt, ha.matching?]
  split
  · exact giveUp hv hstart
  · refine (headerParts hv hr kind iterates _ _).bind ?_
    rintro m ⟨targets, operands⟩ _ hm ⟨rfl, ho⟩
    refine (seek _).same fun _ => (eatOp ha _).same fun braced => ?_
    refine .ite (fun _ => openControl hv.view kind targets ho hstart _ _) fun _ => ?_
    refine (eatOp ha _).same fun empty => ?_
    refine .ite (fun _ => openControl hv.view kind targets ho hstart _ _) fun _ => ?_
    refine (hereWith (G := fun x y => y.isNone = x.isNone) fun i => ha.tok?_isNone i).bind ?_
    intro k x y hk hxy
    rw [hxy]
    have ho' (id : ExprId) (hid : id ∈ operands) := (ho id hid).mono hk
    exact .ite (fun _ => openControl hv.view kind targets ho' hstart _ _)
      fun _ => openControl hv.view kind targets ho' hstart _ _

theorem indentedControl (kind : ControlKind) (iterates : Bool) :
    Agrees R v w r Same (indentedControl replay start kind iterates) := by
  have ha := hv.alike
  refine .view (pos.same fun i => ?_)
  rw [ha.headerColon?]
  split
  · exact giveUp hv hstart
  · refine (headerParts hv hr kind iterates _ _).bind ?_
    rintro m ⟨targets, operands⟩ _ hm ⟨rfl, ho⟩
    refine (seek _).same fun _ => ?_
    rw [ha.sameLine, ha.lineIndent start hstart]
    exact .ite (fun _ => openControl hv.view kind targets ho hstart _ _)
      fun _ => openControl hv.view kind targets ho hstart _ _

theorem endControl (kind : ControlKind) (iterates closesParent : Bool) :
    Agrees R v w r Same (endControl replay start kind iterates closesParent) := by
  have ha := hv.alike
  refine .view (pos.same fun i => ?_)
  simp only [ha.headerEnd, ha.isKeywordAt, ha.isOpAt]
  refine (headerParts hv hr kind iterates _ _).bind ?_
  rintro m ⟨targets, operands⟩ _ hm ⟨rfl, ho⟩
  refine (seek _).same fun _ => (openControl hv.view kind targets ho hstart _ _).same fun _ => ?_
  refine optional (act fun hb _ => ?_)
  exact Tracking.reach_modifyTop (fun block => { block with closesParent := true }) (fun _ => rfl) hb

theorem controlHeader (kind : ControlKind) : Agrees R v w r Same (controlHeader replay start kind) := by
  have ha := hv.alike
  refine .view ((here ha.textAt).same fun word => ?_)
  rw [ha.language, ha.dialect]
  refine (advance 1).same fun _ => clearModifiers.same fun _ => .ite (fun _ => ?_) fun _ => ?_
  · exact (closeBranch hv).same fun closesParent => endControl hv hr hstart kind _ closesParent
  · split
    · exact bracesControl hv hr hstart kind _
    · exact indentedControl hv hr hstart kind _
    · exact endControl hv hr hstart kind _ false

theorem commandStatement : Agrees R v w r Same (commandStatement replay start) := by
  refine (here hv.alike.textAt).same fun callee => (advance 1).same fun _ => ?_
  refine (here fun i => by rw [hv.alike.limit]).same fun k => ?_
  refine (parse (.commandItems hv k)).bind fun m args args' hm hargs => ?_
  cases hargs with
  | none => exact giveUp (hv.mono hm) hstart
  | some hargs =>
    obtain ⟨rfl, hargs⟩ := hargs
    rename_i args
    refine (atBoundary hv.alike).same fun ends => .ite (fun _ => ?_) fun _ => giveUp (hv.mono hm) hstart
    have hc : ∀ child ∈ Expr.children ⟨.call callee none args false, ⟨0, 0⟩⟩,
        m.Fits Parse.maxTreeHeight child := hargs
    refine (alloc hv.view hstart hc).bind ?_
    rintro k call _ hk ⟨rfl, hcall⟩
    exact complete (hv.mono (le_trans hm hk)) hr rfl _ _
      (fun id hid => List.mem_singleton.mp hid ▸ hcall) hstart

theorem leadingStatement : Agrees R v w r Same (leadingStatement replay start) := by
  refine (advance 1).same fun _ => (atBoundary hv.alike).same fun ends => .ite (fun _ => ?_) fun _ => ?_
  · exact (eatOp hv.alike _).same fun _ => clearModifiers.same fun _ => finish hv.view
  · refine withExpr hv hstart fun m value hm hvalue => ?_
    refine (trailingConditions (hv.mono hm)).bind ?_
    rintro k conditions _ hk ⟨rfl, hc⟩
    have hv' := hv.mono (le_trans hm hk)
    refine (atBoundary hv.alike).same fun ends => .ite (fun _ => ?_) fun _ => giveUp hv' hstart
    exact complete hv' hr rfl _ _
      (List.forall_mem_cons.mpr ⟨hvalue.mono hk, hc⟩) hstart

theorem keywordDeclaration : Agrees R v w r Same (keywordDeclaration replay start) := by
  refine (advance 1).same fun _ => (isOp hv.alike _).same fun opens => .ite (fun _ => ?_) fun _ => ?_
  · exact (skipStatement hv).same fun _ => pure fun _ _ => rfl
  · exact (here fun i => by rw [hv.alike.limit]).same fun k => declarations hv hr k hstart

theorem assignment (op : String) {left : List ExprId} (hl : ∀ id ∈ left, r.Fits maxOperandHeight id) :
    Agrees R v w r Same (assignment replay start op left) := by
  refine (advance 1).same fun _ => (parse (.assignedValue hv hstart)).bind fun m value value' hm hvalue => ?_
  cases hvalue with
  | none => exact giveUp (hv.mono hm) hstart
  | some hvalue =>
    obtain ⟨rfl, hvalue⟩ := hvalue
    refine (assignmentTargets left fun id hid => (hl id hid).mono hm).bind ?_
    rintro k ⟨targets, containers⟩ _ hk ⟨rfl, hcontainers⟩
    refine (trailingConditions (hv.mono (le_trans hm hk))).bind ?_
    rintro l conditions _ hl ⟨rfl, hconditions⟩
    have hv' := hv.mono (le_trans hm (le_trans hk hl))
    refine (atBoundary hv.alike).same fun ends => (isKeyword hv.alike _).same fun word => ?_
    refine .ite (fun _ => completeWithBlock hv' hr ?_ targets _ ?_ hstart) fun _ => giveUp hv' hstart
    · split <;> rfl
    · refine List.forall_mem_cons.mpr ⟨hvalue.mono (le_trans hk hl), ?_⟩
      refine List.forall_mem_append.mpr ⟨fun id hid => ?_, hconditions⟩
      exact (hcontainers id hid).mono hl

theorem expressionStatement : Agrees R v w r Same (expressionStatement replay start) := by
  have ha := hv.alike
  refine .view ((parse (.leftSides hv)).bind fun m sides sides' hm hsides => ?_)
  have hv' := hv.mono hm
  cases hsides with
  | none => exact giveUp hv' hstart
  | some hsides =>
    obtain ⟨rfl, hsides⟩ := hsides
    rename_i sides
    cases sides with
    | nil => exact giveUp hv' hstart
    | cons first rest =>
      dsimp -zeta only
      rw [ha.language]
      refine (isOp ha _).same fun colon => ?_
      refine branch ?_ fun hrest => (here ha.annotationEnd).same fun i => (seek i).same fun _ => hrest
      refine (here fun i => by rw [ha.isAnyOpAt, ha.language, ha.isOpAt]).same fun assigns => ?_
      refine .ite (fun _ => ?_) fun _ => ?_
      · exact (here ha.textAt).same fun op => assignment hv' hr hstart op hsides
      · refine (trailingConditions hv').bind ?_
        rintro k conditions _ hk ⟨rfl, hconditions⟩
        have hvk := hv'.mono hk
        refine (look (A := fun m a b => ExprArena.Alike C.span a b ∧ a = m)
          fun hb => ⟨(R.alike hb).draft.arena, rfl⟩).bind ?_
        rintro l a b hl ⟨harena, rfl⟩
        have hall (id : ExprId) (hid : id ∈ first :: rest ++ conditions) :
            a.Fits maxOperandHeight id := by
          rcases List.mem_append.mp hid with hid | hid
          · exact (hsides id hid).mono (le_trans hk hl)
          · exact (hconditions id hid).mono hl
        obtain ⟨x, y, hx, hy, hxy, _⟩ := harena.get? (hall first (.head _)).1
        rw [hx, hy]
        have hfound : Agree R v w a (fun _ => Expr.Alike C.span) (ofExcept (.ok x))
            (ofExcept (.ok y)) := pure fun _ _ => hxy
        refine hfound.bind fun j e f hj hef => ?_
        rw [hef.kind]
        refine (atBoundary ha).same fun ends => (isKeyword ha _).same fun word => ?_
        have hvj := hvk.mono (le_trans hl hj)
        refine .ite (fun _ => completeWithBlock hvj hr ?_ [] false ?_ hstart) fun _ => giveUp hvj hstart
        · unfold plainKind
          split <;> rfl
        · exact fun id hid => (hall id hid).mono hj

theorem declarationOrExpression : Agrees R v w r Same (declarationOrExpression replay start) := by
  have ha := hv.alike
  refine .view (pos.same fun i => ?_)
  refine (look (A := Same) fun hb => ?_).same fun inType => ?_
  · have halike := R.alike hb
    simp only [Same, halike.currentTag, halike.currentScope, halike.scopeKind]
  · rw [ha.methodShape?, ha.dialect, ha.typedName?, ha.limit]
    split
    · exact methodHeader hv hstart _
    · split
      · exact (seek _).same fun _ => typedDeclarations hv hr _ hstart
      · exact expressionStatement hv hr hstart

theorem importStatement (word : String) : Agrees R v w r Same (importStatement replay start word) := by
  refine .view ?_
  rw [hv.alike.language, hv.alike.isIdentAt]
  refine .ite (fun _ => (advance 1).same fun _ => ?_) fun _ => inertStatement hv
  exact within rfl (declarationOrExpression (hv.start (start + 1)) hr hstart)

theorem otherStatement (keyword : Bool) (word : String) :
    Agrees R v w r Same (otherStatement replay start keyword word) := by
  refine .view ?_
  rw [hv.alike.dialect, hv.alike.isIdentAt, hv.alike.isOpAt]
  exact .ite (fun _ => keywordDeclaration hv hr hstart) fun _ => declarationOrExpression hv hr hstart

theorem keywordStatement (word : String) : Agree R v w r Same
      ((keywordStatement? replay start word v).getD (Walk.otherStatement replay start true word))
      ((keywordStatement? replay start word w).getD (Walk.otherStatement replay start true word)) := by
  have ha := hv.alike
  unfold keywordStatement?
  rw [ha.isKeywordAt, ha.language, ha.dialect]
  split
  · exact (advance 1).same fun _ => controlHeader hv hr hstart _
  · split
    · exact controlHeader hv hr hstart _
    · split
      · exact controlHeader hv hr hstart _
      · split
        · exact commandStatement hv hr hstart
        · split
          · exact inertStatement hv
          · split
            · exact leadingStatement hv hr hstart
            · exact otherStatement hv hr hstart true word

theorem wordStatement (keyword : Bool) (word : String) : Agrees R v w r Same (wordStatement replay start keyword word) := by
  have ha := hv.alike
  refine .view ?_
  rw [ha.language, ha.dialect, ha.isCaseLabel, ha.isOpAt, ha.modifierPosition]
  dsimp only
  refine .ite (fun _ => ?_) fun _ => .ite (fun _ => ?_) fun _ => .ite (fun _ => ?_) fun _ =>
    .ite (fun _ => ?_) fun _ => .ite (fun _ => ?_) fun _ => .ite (fun _ => ?_) fun _ =>
    .ite (fun _ => ?_) fun _ => .ite (fun _ => ?_) fun _ => .ite (fun _ => ?_) fun _ =>
    .ite (fun _ => ?_) fun _ => .ite (fun _ => ?_) fun _ => ?_
  · exact (advance 1).same fun _ => act fun hb _ => (R.closing hv.view _).atEnd (.refl hb)
  · exact (here ha.caseEnd).same fun i => seek i
  · exact importStatement hv hr hstart word
  · exact controlHeader hv hr hstart _
  · exact visibility hv start word
  · exact (addModifier word).same fun _ => advance 1
  · refine (look (A := Same) fun hb => (ha.isNamedFunction (R.alike hb) start).symm).same fun named => ?_
    exact .ite (fun _ => functionHeader hv hstart) fun _ => expressionStatement hv hr hstart
  · exact typeHeader hv hstart
  · exact (skipStatement hv).same fun _ => pure fun _ _ => rfl
  · exact keywordStatement hv hr hstart word
  · exact (skipStatement hv).same fun _ => pure fun _ _ => rfl
  · exact otherStatement hv hr hstart false word

theorem operatorStatement (op : String) : Agrees R v w r Same (operatorStatement replay start op) := by
  have ha := hv.alike
  have hexpr := expressionStatement (R := R) hv hr hstart
  refine .view ?_
  rw [ha.dialect, ha.language, ha.isIdentAt, ha.isOpAt]
  split
  · exact advance 1
  · exact (advance 1).same fun _ => act fun hb _ => (R.closing hv.view _).brace (.refl hb)
  · refine .ite (fun _ => ?_) fun _ => hexpr
    exact (advance 1).same fun _ => clearModifiers.same fun _ => pushPlain
  · exact .ite (fun _ => annotation hv start) fun _ => hexpr
  · refine .ite (fun _ => ?_) fun _ => hexpr
    exact (attributeList hv start).same fun _ => optional hexpr
  · refine .ite (fun _ => ?_) fun _ => hexpr
    exact (attributeList hv (start + 1)).same fun _ => optional (seek _)
  iterate 3 exact (advance 1).same fun _ => emitUnparsed hv.view hstart
  · exact hexpr

end Statements

theorem statement : Agrees R v w r Same (statement replay) := by
  have ha := hv.alike
  refine pos.same fun start => .view (within rfl ?_)
  have hv' := hv.start start
  obtain ⟨ht, hu⟩ | ⟨t, u, ht, hu, htu, _⟩ := hv.tok?_cases start
  · rw [ht, hu]
    exact pure fun _ _ => rfl
  · have hstart : start < v.tokens.size := View.lt_size_of_tok? ht
    rw [ht, hu]
    dsimp -zeta only
    refine (look (A := Same) fun hb => ?_).same fun dedents => ?_
    · simp only [Same, ha.dialect, (R.alike hb).modifiers, ha.startsLine]
    · refine step (act fun hb _ => (R.closing hv'.view _).dedent (.refl hb) (ha.indentOf _)) ?_
      rw [htu.kind, htu.text]
      split
      · exact advance 1
      · exact advance 1
      · exact operatorStatement hv' hr hstart t.text
      · exact wordStatement hv' hr hstart true t.text
      · exact wordStatement hv' hr hstart false t.text
      · exact expressionStatement hv' hr hstart

theorem statements (depth k : Nat) : Agrees R v w r Same (statements replay depth k) := by
  induction k with
  | zero => exact pure fun _ _ => rfl
  | succ k ih =>
    refine pos.same fun before => ?_
    refine (look (A := Same) fun hb => by simp only [Same, (R.alike hb).blocks]).same fun ready => .view ?_
    rw [hv.alike.limit]
    refine .ite (fun hready => ?_) fun _ => pure fun _ _ => rfl
    have hbefore : before < v.tokens.size :=
      Nat.lt_of_lt_of_le (of_decide_eq_true (Bool.and_eq_true_iff.mp hready).1) hv.limit
    refine checkpoint.same fun _ => (statement hv hr).same fun _ => pos.same fun after => ?_
    refine branch ih fun hrest => (advance 1).same fun _ => ?_
    exact (emitUnparsed hv.view hbefore).same fun _ => hrest

theorem replayBody {lambda : Deferred} (hstart : lambda.start < v.tokens.size)
    (hl : ∀ id ∈ lambda.sources, r.Fits maxOperandHeight id) :
    Agrees R v w r Same (replayBody replay lambda) := by
  have hv' : C.At r { v with limit := min (lambda.close + 1) v.tokens.size }
      { w with limit := min (lambda.close + 1) w.tokens.size } := by
    rw [hv.alike.size]
    exact hv.upTo (Nat.min_le_right _ _)
  refine pos.same fun i => (seek _).same fun _ => ?_
  refine (openControl hv.view .lambda lambda.params hl hstart .block none).same fun _ => ?_
  refine (act fun hb _ => Tracking.reach_modifyTop (fun block => { block with deferred := true })
    (fun _ => rfl) hb).same fun _ => ?_
  refine (look (A := Same) fun hb => by simp only [Same, (R.alike hb).blocks]).same fun depth => ?_
  refine (seek _).same fun _ => ?_
  refine (within rfl ?_ : Agrees R v w r Same _).same fun _ => seek _
  refine (statements hv' hr depth _).same fun _ => ?_
  exact act fun hb _ => (R.closing hv'.view _).above (.refl hb) _

end Walk.Agree

theorem Walk.replay_agree {C : Correspondence} (R : Tracking C) (k : Nat) : (Walk.replay k).Agree R := by
  have hforM {f : Deferred → Walk Unit} (hf : ∀ {r : ExprArena} {v w : View}, C.At r v w →
      ∀ {lambda : Deferred}, lambda.start < v.tokens.size → (∀ id ∈ lambda.sources, r.Fits maxOperandHeight id) →
      Walk.Agrees R v w r Same (f lambda)) :
      Replay.Agree R fun lambdas => lambdas.forM f := by
    intro n v w hv lambdas hl
    induction lambdas with
    | nil => exact .pure fun _ _ => rfl
    | cons lambda rest ih =>
      obtain ⟨hlambda, hrest⟩ := List.forall_mem_cons.mp hl
      exact (hf hv hlambda.1 hlambda.2).same fun _ => ih hrest
  -- A body at the deepest level is given up; above it, bodies within a body are replayed one level down.
  induction k with
  | zero => exact hforM fun hv _ hstart _ => .abandon hv hstart
  | succ k ih => exact hforM fun hv _ hstart hl => .replayBody hv ih hstart hl

theorem Walk.unit_agree {C : Correspondence} (R : Tracking C) {r : ExprArena} {v w : View} (hv : C.At r v w) :
    Walk.Agrees R v w r Same Walk.unit := by
  refine .view ?_
  rw [hv.alike.limit]
  refine (Agree.statements hv (replay_agree R _) 0 _).same fun _ => ?_
  exact .act fun hb _ => (R.closing hv.view _).above (.refl hb) 0

end TaintScan
