import TaintScan.Proofs.Extract.Replay

/-! # Bodies are replayed apart

The bodies that a statement replays stand one behind the other, between its first token and the place
where the extraction goes on, or are irregular. `SourceUnit.extract_checked` says so of every
extraction: it is the same one if each replay is made only after this has been checked.
-/
namespace TaintScan

theorem View.iterationSeparator?_bounds {v : View} {first last k : Nat}
    (h : v.iterationSeparator? first last = some k) : first ≤ k ∧ k < last ∧ k < v.limit := by
  unfold iterationSeparator? at h
  split at h
  · cases h
  · exact findOutside?_bounds h

/-! ## Steps that defer nothing -/

namespace Walk.Ends

variable {G : Ground} {v : View} {i : Nat}

theorem change {φ : View → Builder → Builder} (hφ : ∀ b, G.Calm (φ v) b) : Runs G v G.Clear Eq (act φ) :=
  .lastly (fun b hb => hb.keep (hφ b)) (fun b => (hφ b).timed) fun b => (hφ b).keeps.notes.symm

theorem seek {j : Nat} (hj : G.start ≤ j) : Runs G v G.Clear Eq (seek j) :=
  .lastly (fun _ hb => hb.seek hj) (fun _ _ => rfl) fun _ => rfl

theorem advance (k : Nat) : Runs G v G.Clear Eq (advance k) :=
  .lastly (fun _ hb => hb.seek (Nat.le_add_right_of_le hb.le)) (fun _ _ => rfl) fun _ => rfl

theorem clearModifiers : Runs G v G.Clear Eq clearModifiers := change (.words fun _ => [])

theorem skipRest : Runs G v G.Clear Eq (do let _ ← skipStatement) :=
  .skip (fun _ _ hb hj => hb.seek (Nat.le_trans hb.le hj)) fun _ => .pure fun _ hb => hb

theorem inertStatement : Runs G v G.Clear Eq inertStatement :=
  .skip (fun _ _ hb hj => hb.seek (Nat.le_trans hb.le hj)) fun _ => clearModifiers

theorem visibility (hruby : G.whole.language = .ruby) (start : Nat) (word : String) :
    Runs G v G.Clear Eq (visibility start word) := by
  refine .view (.ite (fun _ => ?_) fun _ => .ite (fun _ => ?_) fun _ => skipRest)
  · exact .keep Ground.Clear.keep (.words (· ++ [word])) (advance 1)
  · exact .keep Ground.Clear.keep (.setPrivateSection hruby _) (advance 1)

section Firm

variable [G.Firm]

theorem finish : Runs G v G.Clear Eq finish := change (.finish v)

theorem pushPlain : Runs G v G.Clear Eq (pushBlock { frame := .plain }) := change .pushPlain

theorem openControl (kind : ControlKind) (targets : List String) (operands : List ExprId) (start : Nat)
    {body : Body} (hbody : body = .single → G.whole.language ≠ .ruby) (indent : Option Nat) :
    Runs G v G.Clear Eq (openControl kind targets operands start body indent) :=
  change (.openControl v kind targets operands start hbody indent)

theorem emitUnparsed (start : Nat) : Runs G v G.Holds Eq (emitUnparsed start) := by
  let cleared (b : Builder) : Builder := { b with draft.deferred := #[], draft.properties := #[] }
  have hclear (b : Builder) (hb : G.Holds b) : G.Clear (cleared b) := ⟨⟨hb.le, hb.depth, hb.stands⟩, rfl⟩
  have hcalm (b : Builder) : G.Calm _ b :=
    (Ground.Calm.emit v .unparsed [] false [] start b).comp ((Ground.Calm.words (fun _ => []) _).comp (.finish v _))
  refine .lastly (fun b hb => ?_) (fun b t => ?_) fun b => ?_
  · exact (hclear b hb).keep (hcalm (cleared b))
  · exact (hcalm (cleared b)).timed t
  · exact (hcalm (cleared b)).keeps.notes.symm

theorem giveUp (start : Nat) : Runs G v G.Holds Eq (giveUp start) :=
  .skip (fun _ _ hb hj => hb.seek (Nat.le_trans hb.le hj)) fun _ =>
    (emitUnparsed start).bind fun _ => .ite (fun _ => pushPlain) fun _ => .pure fun _ hb => hb

theorem drop (start : Nat) : Runs G v (G.Waits i) Eq (Walk.giveUp start) := (giveUp start).of fun _ hb => hb.toHolds

/-! ## Headers -/

variable {start : Nat}

theorem pass : Runs G v G.Clear (Notes.Takes v start) (Walk.giveUp start) :=
  ((giveUp start).quiet fun _ => .passes).of fun _ hb => hb.toHolds

theorem openScope (kind : ScopeKind) (name : String) (params : List Param) (last : Nat) {single : Bool}
    (hsingle : G.whole.language = .ruby → single = false) (indent : Option Nat) :
    Runs G v G.Clear (Notes.Takes v start) (openScope kind name params start last single indent) := by
  refine .lastly (fun b hb => ⟨⟨hb.le, hb.depth, ?_⟩, hb.clear⟩) (fun _ _ => rfl) fun b => ?_
  · have hkinds : (b.openScope v kind name params (v.spanBetween start last) single indent).kinds = b.kinds ++ [kind] := by
      simp [Builder.kinds, Builder.openScope]
    rw [hkinds]
    exact (hb.stands.grow (List.prefix_append ..)).push hsingle fun i hi => by cases hi; simp [Builder.kinds]
  · have hopens : (b.openScope v kind name params (v.spanBetween start last) single indent).notes =
        ⟨[], b.notes.taken.push (v.spanBetween start last, b.notes.pending)⟩ :=
      congrArg (Notes.mk []) Array.map_push
    rw [hopens]
    exact .opens last

omit [G.Firm] in
theorem clearAnnotations : Runs G v G.Clear (Notes.Takes v start) clearAnnotations :=
  .lastly (fun _ hb => ⟨⟨hb.le, hb.depth, hb.stands⟩, hb.clear⟩) (fun _ _ => rfl) fun _ => .drops

omit [G.Firm] in
theorem dropWords : Runs G v G.Clear (Notes.Takes v start) (do Walk.clearModifiers; Walk.clearAnnotations) :=
  .keep Ground.Clear.keep (.words fun _ => []) clearAnnotations

variable (hv : G.Sees v)
include hv

theorem openBody (kind : ScopeKind) (name : String) (params : List Param) :
    Runs G v G.Clear (Notes.Takes v start) (openBody start kind name params) := by
  refine .view (.look (fun _ _ => rfl) fun b hb => ?_)
  split
  · next hstyle =>
    have hruby := hv.not_ruby (by simp [hstyle])
    split
    · exact pass
    · next body hbody =>
      have hle := Nat.le_trans hb.le (View.findOutside?_bounds hbody).1
      refine .move (Nat.le_succ_of_le hle) (.ite (fun _ => ?_) fun _ => openScope _ _ _ _ (fun h => (hruby h).elim) _)
      exact .keep Ground.Clear.keep (.words fun _ => []) (clearAnnotations.bind fun _ => finish)
  · next hstyle =>
    have hruby := hv.not_ruby (by simp [hstyle])
    split
    · exact pass
    · next colon hcolon =>
      have hle := Nat.le_trans hb.le (View.headerColon?_bounds hcolon).1
      refine .move (Nat.le_succ_of_le hle) (.ite (fun _ => ?_) fun _ => openScope _ _ _ _ (fun _ => rfl) _)
      exact openScope _ _ _ _ (fun h => (hruby h).elim) _
  · exact .move (hv.le_headerEnd hb.le) (.eatOp fun _ => openScope _ _ _ _ (fun _ => rfl) _)

theorem functionHeader (hstart : G.start ≤ start) :
    Runs G v G.Clear (Notes.Takes v start) (functionHeader start) := by
  refine .view ?_
  dsimp only
  have hgroup : G.start ≤ if v.language == .go then v.pastGroup "(" (start + 1) else start + 1 := by
    have := (v.ahead_pastGroup "(" (start + 1)).le
    split <;> omega
  generalize (if v.language == .go then v.pastGroup "(" (start + 1) else start + 1) = i at hgroup ⊢
  have hmark : G.start ≤ if v.isOpAt i "*" || v.isOpAt i "&" then i + 1 else i := by split <;> omega
  generalize (if v.isOpAt i "*" || v.isOpAt i "&" then i + 1 else i) = j at hmark ⊢
  have hname := Nat.le_trans hmark (v.le_functionName (v.limit - j) "" j)
  generalize v.functionName (v.limit - j) "" j = named at hname ⊢
  have hangle : G.start ≤ if v.isOpAt named.2 "<" then v.angleEnd named.2 else named.2 := by
    have := (v.ahead_angleEnd named.2).le
    split <;> omega
  generalize (if v.isOpAt named.2 "<" then v.angleEnd named.2 else named.2) = k at hangle ⊢
  have hparams : G.start ≤ if v.language == .go then v.pastGroup "[" k else k := by
    have := (v.ahead_pastGroup "[" k).le
    split <;> omega
  generalize (if v.language == .go then v.pastGroup "[" k else k) = l at hparams ⊢
  refine .ite (fun _ => ?_) fun _ => .ite (fun _ => ?_) fun _ => .move hparams (openBody hv _ _ _)
  · split
    · exact .move hparams pass
    · next close hclose =>
      exact .move (Nat.le_succ_of_le (Nat.le_trans hparams (Nat.le_of_lt (View.matching?_bounds hclose).1))) (openBody hv _ _ _)
  · exact .move (hv.le_headerEnd hparams) (openBody hv _ _ _)

theorem methodHeader {shape : View.MethodShape} (hshape : G.start ≤ shape.closer) :
    Runs G v G.Clear (Notes.Takes v start) (methodHeader start shape) :=
  .view (.move (Nat.le_succ_of_le hshape) (openBody hv _ _ _))

theorem typeHeader (hstart : G.start ≤ start) : Runs G v G.Clear (Notes.Takes v start) (typeHeader start) := by
  refine .view ?_
  dsimp only
  have hname : G.start ≤ if v.isIdentAt (start + 1) then start + 2 else start + 1 := by split <;> omega
  generalize (if v.isIdentAt (start + 1) then start + 2 else start + 1) = i at hname ⊢
  refine .move hname (.ite (fun _ => ?_) fun _ => openBody hv _ _ _)
  split
  · next body hbody =>
    refine .ite (fun _ => openBody hv _ _ _) fun _ => .move ?_ dropWords
    exact Nat.le_succ_of_le (Nat.le_trans hname (View.findOutside?_bounds hbody).1)
  · exact .skip (fun _ _ hb hj => hb.seek (Nat.le_trans hb.le hj)) fun _ => dropWords

end Firm
end Walk.Ends

/-! ## Statements that replay bodies -/

namespace Walk.Ends

section Replays

variable {G : Ground} {v : View} {r r' : Replay} (hr : Replay.Twins G.whole G.stop r r') (hv : G.Sees v) {i last : Nat}
include hv

theorem trailingConditions : Twin G.whole G.stop v (G.Waits i) Eq (fun _ => G.Reads i) trailingConditions trailingConditions :=
  .ask fun k => .parseList fun _ => .trailingConditions hv.cut.part k

theorem initialValue (ops : List String) :
    Twin G.whole G.stop v (G.Waits i) Eq (fun _ => G.Reads i) (initialValue ops) (initialValue ops) := by
  refine .ask fun _ => .ite (fun _ => .advance 1 ?_) fun _ => .pure fun _ hb => hb.reads
  refine .parse (fun _ => .expr hv.cut.part 0) fun _ j hj => .pure fun _ hb => ?_
  exact ⟨j, Nat.le_of_succ_le hj, hb⟩

theorem exprsIn {first stop : Nat} (hfirst : i ≤ first) (hle : first ≤ stop) (hstop : stop ≤ last) (hlast : last ≤ v.limit) :
    Twin G.whole G.stop v (G.Heads last i) Eq (fun _ => G.Heads last stop) (parseList (Parse.exprsIn first stop))
      (parseList (Parse.exprsIn first stop)) := by
  refine .parseHeads (fun _ => .exprsIn hv.cut.part hfirst hle (Nat.le_trans hstop hlast)) (.exprsIn hstop)
    fun _ d _ => .pure fun b hb => ?_
  rw [Parse.exprsIn_snd] at hb
  exact hb

theorem clauseParts (hlast : last ≤ v.limit) (n : Nat) {clause : Nat} (hi : i ≤ clause) :
    Twin G.whole G.stop v (G.Heads last i) Eq (fun _ b => ∃ j, G.Heads last j b) (clauseParts last n clause)
      (clauseParts last n clause) := by
  induction n generalizing i clause with
  | zero => exact .pure fun _ hb => ⟨i, hb⟩
  | succ n ih =>
    refine .ite (fun _ => .pure fun _ hb => ⟨i, hb⟩) fun hclause => .view ?_
    have hstop : clause ≤ (v.findOutside? clause last [";"]).getD last ∧
        (v.findOutside? clause last [";"]).getD last ≤ last := by
      cases hk : v.findOutside? clause last [";"] with
      | none => exact ⟨Nat.le_of_not_le hclause, Nat.le_refl last⟩
      | some k => exact ⟨(View.findOutside?_bounds hk).1, Nat.le_of_lt (View.findOutside?_bounds hk).2.1⟩
    generalize (v.findOutside? clause last [";"]).getD last = stop at hstop ⊢
    have hmore (operands : List ExprId) :
        Twin G.whole G.stop v (G.Heads last stop) Eq (fun _ b => ∃ j, G.Heads last j b)
          (do return operands ++ (← Walk.clauseParts last n (stop + 1)))
          (do return operands ++ (← Walk.clauseParts last n (stop + 1))) :=
      (ih (Nat.le_succ stop)).bind fun _ => .pure fun b hb => hb
    dsimp only
    split
    · rename_i k hk
      obtain ⟨hk, hlt, _⟩ := View.findOutside?_bounds hk
      refine (exprsIn hv (by omega) hlt hstop.2 hlast).bind fun values => ?_
      exact .keep Ground.Heads.keep (.emit v _ _ _ _ _) (hmore [])
    · exact (exprsIn hv hi hstop.1 hstop.2 hlast).bind hmore

include hr

/-- A header ends where it is told to, whatever bodies are replayed for it. -/
theorem headerParts (kind : ControlKind) (iterates : Bool) {first : Nat} (hfirst : i ≤ first)
    (hlast : first < last → last ≤ v.limit) :
    Twin G.whole G.stop v (G.Rests i) Eq (fun _ b => G.Clear b ∧ b.pos ≤ max i last) (headerParts r kind iterates first last)
      (headerParts r' kind iterates first last) := by
  refine .ite (fun _ => .pure fun _ hb => ⟨hb.toClear, hb.pos ▸ Nat.le_max_left _ _⟩) fun hlt => .view ?_
  have hlast : last ≤ v.limit := hlast (Nat.lt_of_not_le hlt)
  refine .given (fun b hb => hb.pos ▸ hb.le) fun hstart => ?_
  refine Twin.of (I := G.Heads last i) ?_ fun b hb => hb.heads last
  have hrest (parts : List String × List ExprId) :
      Twin G.whole G.stop v (fun b => ∃ j, G.Heads last j b) Eq (fun _ b => G.Clear b ∧ b.pos ≤ max i last)
        (do r (← takeDeferred); Walk.seek last; return parts) (do r' (← takeDeferred); Walk.seek last; return parts) := by
    refine .each fun j => .first (J := fun bodies c => (∀ a ∈ bodies, a.close < last) ∧ G.Taken j bodies c)
      (fun b hb => ?_) fun bodies => ?_
    · exact ⟨_, _, ⟨fun a ha => hb.ends a (Array.mem_toList_iff.mp ha), hb.take⟩, rfl, fun _ => rfl⟩
    · refine .replay hr hv (fun c hc => hc.2.ready hv) fun c d hc hd => ?_
      have hclear : G.Clear d := hc.2.toClear.replayed hd
      refine .seek (M := fun e => G.Clear e ∧ e.pos = last) (fun e he => ⟨he ▸ hclear.seek (by omega), rfl⟩) ?_
      exact .pure fun e he => ⟨⟨he.1, he.2 ▸ Nat.le_max_right _ _⟩, he.2 ▸ hc.1⟩
  have hclauses : Twin G.whole G.stop v (G.Heads last i) Eq (fun _ b => ∃ j, G.Heads last j b)
      (do return (([] : List String), ← Walk.clauseParts last (last - first) first))
      (do return ([], ← Walk.clauseParts last (last - first) first)) :=
    (clauseParts hv hlast (last - first) hfirst).bind fun _ => .pure fun _ hb => hb
  have hparsed {p : Parse (List String × List ExprId)}
      (hp : ∀ n, Parse.Tidy G.whole v (.only False) i i n Parse.Anything p) (hends : Parse.EndsBefore last v p) :=
    Twin.parseHeads hp hends fun parts d _ => (hrest (parts.getD ([], []))).of fun b hb => ⟨_, hb⟩
  dsimp only
  split
  · exact (hrest _).of fun b hb => ⟨i, hb⟩
  · split
    · rename_i separator hsep
      split at hsep
      · obtain ⟨hle, hlt, _⟩ := View.iterationSeparator?_bounds hsep
        exact hparsed (fun _ => .iterationParts hv.cut.part hfirst hle hlt hlast) (.iterationParts (Nat.le_of_lt hlt))
      · cases hsep
    · exact hclauses.bind hrest
  · exact hparsed (fun _ => .resourceParts hv.cut.part hlast _ hfirst) (.resourceParts _ _)
  · exact hparsed (fun _ => .resourceParts hv.cut.part hlast _ hfirst) (.resourceParts _ _)
  · exact hclauses.bind hrest

variable [G.Firm]

theorem complete (kind : StatementKind) (targets : List String) (compound : Bool) (operands : List ExprId)
    (start : Nat) :
    Ends G v (G.Waits i) Eq (complete r kind targets compound operands start)
      (complete r' kind targets compound operands start) := by
  refine .takeDeferred fun bodies => .look (fun _ _ => rfl) fun _ _ => ?_
  refine .keep Ground.Taken.keep (.emit v kind targets compound operands start) ?_
  refine .keep Ground.Taken.keep (.words fun _ => []) (.resume hr hv fun k => .raise _ ?_)
  exact .eatOp fun _ => finish

theorem completeWithBlock (kind : StatementKind) (targets : List String) (compound : Bool)
    (operands : List ExprId) (start : Nat) :
    Ends G v (G.Waits i) Eq (completeWithBlock r kind targets compound operands start)
      (completeWithBlock r' kind targets compound operands start) := by
  have hpos : ∀ b, G.Waits i b → b.pos = i := fun b hb => hb.pos
  refine .view (.here hpos (.ite (fun _ => ?_) fun _ => complete hr hv kind targets compound operands start))
  refine .look (fun _ _ => rfl) fun b _ => .here hpos ?_
  generalize b.pos = opener
  have hresume : i ≤ (v.blockParams (i + 1)).2 := Nat.le_of_succ_le (v.le_blockParams (i + 1))
  generalize v.blockParams (i + 1) = x at hresume ⊢
  obtain ⟨params, resume⟩ := x
  let rest (r : Replay) (sources : List ExprId) : Walk Unit := do
    let lambdas ← takeDeferred
    emit kind targets compound operands start
    Walk.seek resume
    Walk.clearModifiers
    r lambdas
    act fun _ b => b.seek (max b.pos resume)
    Walk.openControl .lambda params sources opener .block none
  have hrest (sources : List ExprId) : Ends G v (G.Waits i) Eq (rest r sources) (rest r' sources) := by
    refine .takeDeferred fun bodies => ?_
    refine .keep Ground.Taken.keep (.emit v kind targets compound operands start) ?_
    refine .seek (fun b hb => hb.seek hresume) ?_
    refine .keep Ground.Taken.keep (.words fun _ => []) (.resume hr hv fun k => .raise _ ?_)
    exact openControl _ _ _ _ (by simp) _
  cases operands with
  | nil => exact hrest []
  | cons first others =>
    refine Twin.bind (J := fun _ => G.Waits i) ?_ hrest
    exact .record (fun _ => .blockSources _) fun _ => .pure fun _ hb => hb

omit hr in
theorem withExpr (start : Nat) {f g : ExprId → Walk Unit}
    (h : ∀ id j, i ≤ j → Ends G v (G.Waits j) Eq (f id) (g id)) :
    Ends G v (G.Waits i) Eq (withExpr start f) (withExpr start g) := by
  refine .parse (fun _ => .expr hv.cut.part 0) fun value j hj => ?_
  cases value with
  | none => exact drop start
  | some id => exact h id j hj

theorem commandStatement (start : Nat) :
    Ends G v (G.Waits i) Eq (commandStatement r start) (commandStatement r' start) := by
  refine .ask fun callee => .advance 1 (.ask fun k => ?_)
  refine .parse (fun _ => .commandItems hv.cut.part k) fun args j _ => ?_
  cases args with
  | none => exact drop start
  | some args =>
    refine .ask fun _ => .ite (fun _ => ?_) fun _ => drop start
    exact (Twin.alloc _ start).bind fun call => complete hr hv _ _ _ _ _

theorem leadingStatement (start : Nat) :
    Ends G v (G.Rests i) Eq (leadingStatement r start) (leadingStatement r' start) := by
  refine .step 1 (.ask fun _ => .ite (fun _ => ?_) fun _ => ?_)
  · refine Twin.of ?_ fun b hb => hb.toClear
    exact .eatOp fun _ => clearModifiers.bind fun _ => finish
  · refine Twin.of (withExpr hv start fun value j _ => ?_) fun b hb => hb.waits
    refine (trailingConditions hv).bind fun conditions => .reads fun k _ => .ask fun _ => ?_
    exact .ite (fun _ => complete hr hv _ _ _ _ _) fun _ => drop start

theorem declarations (n start : Nat) :
    Ends G v (G.Waits i) Eq (declarations r n start) (declarations r' n start) := by
  induction n generalizing i start with
  | zero => exact drop start
  | succ n ih =>
    refine .here (fun b hb => hb.pos) ?_
    have hle := v.le_bindingPattern i
    generalize v.bindingPattern i = binding at hle ⊢
    obtain ⟨targets, j⟩ := binding
    refine .seek (fun b hb => hb.seek hle) (.ite (fun _ => drop start) fun _ => ?_)
    refine .here (fun b hb => hb.pos) (.seek (fun b hb => hb.seek (v.le_annotationEnd j)) ?_)
    refine (initialValue hv _).bind fun values => .reads fun k _ => ?_
    cases values with
    | none => exact drop start
    | some operands =>
      refine .ask fun _ => .ite (fun _ => .ask fun _ => .ite (fun _ => ?_) fun _ => drop start) fun _ => ?_
      · refine .keep Ground.Waits.keep (.emit v _ _ _ _ _) (.advance 1 (.look (fun _ _ => rfl) fun b _ => ?_))
        exact ih b.pos
      · refine .ask fun _ => .ask fun _ => .ite (fun _ => ?_) fun _ => drop start
        exact completeWithBlock hr hv _ _ _ _ _

theorem keywordDeclaration (start : Nat) :
    Ends G v (G.Rests i) Eq (keywordDeclaration r start) (keywordDeclaration r' start) := by
  refine .step 1 (.ask fun _ => .ite (fun _ => ?_) fun _ => ?_)
  · exact skipRest.of fun b hb => hb.toClear
  · exact .ask fun n => (declarations hr hv n start).of fun b hb => hb.waits

theorem typedDeclarations (n start : Nat) :
    Ends G v (G.Waits i) Eq (typedDeclarations r n start) (typedDeclarations r' n start) := by
  induction n generalizing i start with
  | zero => exact drop start
  | succ n ih =>
    refine .view (.pos (fun b hb => hb.pos) ?_)
    have hle : i ≤ v.emptyPairsEnd (v.limit - i) (i + 1) :=
      Nat.le_of_succ_le (v.ahead_emptyPairsEnd (v.limit - i) (i + 1)).le
    generalize v.emptyPairsEnd (v.limit - i) (i + 1) = j at hle ⊢
    have haccessors : i ≤ ((v.accessorEnd? j).map (· + 1)).getD j := by
      cases hk : v.accessorEnd? j with
      | none => exact hle
      | some k => exact Nat.le_succ_of_le (Nat.le_trans hle (Nat.le_of_lt (View.lt_accessorEnd? hk)))
    refine .seek (fun b hb => hb.seek haccessors) (.ask fun _ => .ite (fun _ => complete hr hv _ _ _ _ _) fun _ => ?_)
    refine (initialValue hv _).bind fun values => .reads fun k _ => ?_
    cases values with
    | none => exact drop start
    | some operands =>
      refine .ask fun _ => .ite (fun _ => ?_) fun _ => .ask fun _ => .ite (fun _ => ?_) fun _ => drop start
      · refine .keep Ground.Waits.keep (.emit v _ _ _ _ _) (.advance 1 (.look (fun _ _ => rfl) fun b _ => ?_))
        exact ih b.pos
      · exact complete hr hv _ _ _ _ _

omit hr hv [G.Firm] in
theorem assignmentTargets {I : Builder → Prop} (ids : List ExprId) :
    Twin G.whole G.stop v I Eq (fun _ => I) (assignmentTargets ids) (assignmentTargets ids) := by
  induction ids with
  | nil => exact .pure fun _ hb => hb
  | cons id ids ih =>
    refine .look (fun _ _ => rfl) fun _ _ => (Twin.ofExcept _).bind fun _ => ?_
    exact ih.bind fun _ => .pure fun _ hb => hb

theorem assignment (start : Nat) (op : String) (left : List ExprId) :
    Ends G v (G.Waits i) Eq (assignment r start op left) (assignment r' start op left) := by
  refine Twin.advance 1 (.parse (fun _ => .assignedValue hv.cut.part start) fun value j _ => ?_)
  cases value with
  | none => exact drop start
  | some value =>
    refine (assignmentTargets left).bind fun targets => ?_
    refine (trailingConditions hv).bind fun conditions => .reads fun k _ => ?_
    refine .ask fun _ => .ask fun _ => .ite (fun _ => ?_) fun _ => drop start
    exact completeWithBlock hr hv _ _ _ _ _

theorem expressionStatement (start : Nat) :
    Ends G v (G.Waits i) Eq (expressionStatement r start) (expressionStatement r' start) := by
  refine .view (.parse (fun _ => .leftSides hv.cut.part) fun sides j _ => ?_)
  rcases sides with _ | _ | ⟨first, rest⟩
  · exact drop start
  · exact drop start
  · refine .ask fun _ => Twin.of (I := G.Reads j) ?_ fun b hb => hb.reads
    refine .branch (.reads fun k _ => ?_) fun hrest => .reads fun k hk => ?_
    · refine .ask fun _ => .ite (fun _ => .ask fun op => assignment hr hv start op _) fun _ => ?_
      refine (trailingConditions hv).bind fun conditions => .reads fun l _ => .look (fun _ _ => rfl) fun _ _ => ?_
      refine (Twin.ofExcept _).bind fun expr => .ask fun _ => .ask fun _ => ?_
      exact .ite (fun _ => completeWithBlock hr hv _ _ _ _ _) fun _ => drop start
    · have hend := v.le_annotationEnd k
      refine .here (fun b hb => hb.pos) (.seek (fun b hb => hb.seek hend) (hrest.of fun b hb => ?_))
      exact ⟨_, Nat.le_trans hk hend, hb⟩

theorem bracesControl (hstyle : v.dialect.blockStyle = .braces) (start : Nat) (kind : ControlKind) (iterates : Bool) :
    Ends G v (G.Rests i) Eq (bracesControl r start kind iterates) (bracesControl r' start kind iterates) := by
  have hruby := hv.not_ruby (by simp [hstyle])
  refine .given (fun b hb => hb.pos ▸ hb.le) fun hstart => .view (.pos (fun b hb => hb.pos) ?_)
  dsimp only
  split
  · exact (giveUp start).of fun _ hb => hb.toHolds
  · rename_i first last after hrange
    have hbounds : i ≤ first ∧ (first < last → last ≤ v.limit) ∧ max i last ≤ after := by
      split at hrange
      · obtain ⟨brace, hbrace, heq⟩ := Option.map_eq_some_iff.mp hrange
        cases heq
        have := View.findOutside?_bounds hbrace
        omega
      · split at hrange
        · obtain ⟨close, hclose, heq⟩ := Option.map_eq_some_iff.mp hrange
          cases heq
          have := View.matching?_bounds hclose
          omega
        · cases hrange
          omega
    refine .headed (H := G) (Nat.le_trans hstart (Nat.le_max_left i last))
      (headerParts hr hv kind iterates hbounds.1 hbounds.2.1) fun parts => ?_
    refine .seek (fun b hb => hb.1.seekFrom hbounds.2.2) (.eatOp fun _ => .ite (fun _ => openControl _ _ _ _ (by simp) _) fun _ => ?_)
    refine .eatOp fun _ => .ite (fun _ => openControl _ _ _ _ (by simp) _) fun _ => .ask fun _ => ?_
    exact .ite (fun _ => openControl _ _ _ _ (by simp) _) fun _ => openControl (G := G.startAt (max i last)) _ _ _ _ (fun _ => hruby) _

theorem indentedControl (hstyle : v.dialect.blockStyle = .indentation) (start : Nat) (kind : ControlKind)
    (iterates : Bool) :
    Ends G v (G.Rests i) Eq (indentedControl r start kind iterates) (indentedControl r' start kind iterates) := by
  have hruby := hv.not_ruby (by simp [hstyle])
  refine .given (fun b hb => hb.pos ▸ hb.le) fun hstart => .view (.pos (fun b hb => hb.pos) ?_)
  split
  · exact (giveUp start).of fun _ hb => hb.toHolds
  · rename_i colon hcolon
    obtain ⟨hle, hlast⟩ := View.headerColon?_bounds hcolon
    refine .headed (H := G) (Nat.le_trans hstart (Nat.le_max_left i colon))
      (headerParts hr hv kind iterates (Nat.le_refl i) fun _ => Nat.le_of_lt hlast) fun parts => ?_
    have hnext : max i colon ≤ colon + 1 := by omega
    refine .seek (fun b hb => hb.1.seekFrom hnext) (.ite (fun _ => ?_) fun _ => openControl _ _ _ _ (by simp) _)
    exact openControl (G := G.startAt (max i colon)) _ _ _ _ (fun _ => hruby) _

/-- In place of the block around a body that a further branch closes it opens another one. -/
theorem endControl (hruby : G.whole.language = .ruby) (hi : i ≤ v.limit) (start : Nat) (kind : ControlKind)
    (iterates closesParent : Bool) :
    Ends G v ((G.allow (closesParent = false)).Rests i) Eq (endControl r start kind iterates closesParent)
      (endControl r' start kind iterates closesParent) := by
  refine .given (fun b hb => hb.pos ▸ hb.le) fun hstart => .view (.pos (fun b hb => hb.pos) ?_)
  have hend := v.headerEnd_bounds i
  let k := max i (v.headerEnd i)
  refine .headed (H := G.allow (closesParent = false)) (k := k) (Nat.le_trans hstart (Nat.le_max_left i _))
    (headerParts (G := G.allow (closesParent = false)) hr (hv.allow _) kind iterates (Nat.le_refl i) fun _ => hend.2) fun parts => ?_
  refine .seek (M := ((G.allow (closesParent = false)).startAt k).Clear) (fun b hb => hb.1.seekFrom ?_) ?_
  · split <;> omega
  refine Twin.bind (J := fun _ b => (G.startAt k).Clear b ∧ ∃ tag rest, b.blocks = { frame := .control tag } :: rest ∧
    (closesParent = true → (G.startAt k).Stands b.kinds rest)) ?_ fun _ => .ite (fun hparent => ?_) fun _ => ?_
  · have hcalm (b : Builder) := Builder.Calm.openControl v kind parts.1 parts.2 start .block none b
    refine .lastly (fun b hb => ?_) (fun b => (hcalm b).timed) fun b => (hcalm b).keeps.notes.symm
    have hkeeps := (hcalm b).keeps
    obtain ⟨tag, hblock, _⟩ := b.openControl_blocks v kind parts.1 parts.2 start none
    refine ⟨⟨⟨hb.le.trans_eq hkeeps.pos.symm, hkeeps.depth.trans hb.depth, ?_⟩, hkeeps.deferred.trans hb.clear⟩,
      tag, _, hblock, fun hparent => ?_⟩
    · rw [hblock, hkeeps.kinds]
      exact (hb.stands.cons (fun _ => rfl) (by simp) fun _ => ⟨rfl, rfl, rfl, .inr hruby⟩).loosen _ False.elim
    · rw [hkeeps.kinds]
      exact hb.stands.loosen _ fun h => by cases hparent.symm.trans h
  · refine .calm fun b hb => ?_
    obtain ⟨hb, tag, rest, hblocks, hrest⟩ := hb
    refine ⟨(.ok (), { b with blocks := { frame := .control tag, closesParent := true } :: rest }), fun t => ?_, rfl,
      fun _ _ => ?_⟩
    · obtain ⟨_, _, _, blocks, _⟩ := b
      cases hblocks
      rfl
    · exact ⟨⟨hb.le, hb.depth, (hrest hparent).push (fun _ => rfl) nofun⟩, hb.clear⟩
  · exact .pure fun _ hb => hb.1

omit hr hv in
theorem closeBranch : Twin G.whole G.stop v (G.Rests i) Eq (fun closesParent => (G.allow (closesParent = false)).Rests i)
    closeBranch closeBranch := by
  refine .calm fun b hb => ?_
  have hblocks (t : Countdown) : (b.timed t).blocks = b.blocks := rfl
  have hclose := Builder.Calm.closeTop v b
  have hsame (closesParent : Bool) : (G.allow (closesParent = false)).Rests i b :=
    ⟨hb.toClear.loosen _ fun h => (Ground.Firm.firm h).elim, hb.pos⟩
  unfold Walk.closeBranch
  simp only [hblocks]
  split
  · exact ⟨(.ok true, b), fun _ => rfl, rfl, fun a _ => hsame a⟩
  · next block rest hblocks' =>
    split
    · exact ⟨(.ok true, b), fun _ => rfl, rfl, fun a _ => hsame a⟩
    · refine ⟨(.ok _, b.closeTop v), fun t => congrArg (Prod.mk _) (hclose.timed t), hclose.keeps.notes.symm, ?_⟩
      intro a ha
      cases ha
      refine ⟨⟨⟨hb.le.trans_eq hclose.keeps.pos.symm, hclose.keeps.depth.trans hb.depth, ?_⟩,
        hclose.keeps.deferred.trans hb.clear⟩, hclose.keeps.pos.trans hb.pos⟩
      have hs := hb.stands
      rw [Builder.closeTop_blocks, hclose.keeps.kinds]
      rw [hblocks'] at hs ⊢
      exact hs.tail.loosen _ fun hg => hg.closesParent

theorem controlHeader (hi : i < v.limit) (start : Nat) (kind : ControlKind) :
    Ends G v (G.Rests i) Eq (controlHeader r start kind) (controlHeader r' start kind) := by
  refine .view (.ask fun word => .step 1 (.keep Ground.Rests.keep (.words fun _ => []) (.ite (fun h => ?_) fun _ => ?_)))
  · have hruby : G.whole.language = .ruby := hv.language ▸ by simpa using (Bool.and_eq_true_iff.mp h).1
    exact closeBranch.bind fun closesParent => endControl hr hv hruby hi start kind _ closesParent
  · split
    · next hstyle => exact bracesControl hr hv hstyle start kind _
    · next hstyle => exact indentedControl hr hv hstyle start kind _
    · next hstyle =>
      refine (endControl hr hv (G.ruby_iff.mpr (hv.cut.part.dialect ▸ hstyle)) hi start kind _ false).of fun b hb => ?_
      exact ⟨hb.toClear.loosen _ fun _ => rfl, hb.pos⟩

end Replays
end Walk.Ends

/-! ## Statements -/

theorem View.annotationAt?_eq_none {v : View} {start : Nat} (hat : v.isOpAt start "@" = false)
    (hbracket : v.isOpAt start "[" = false) (hhash : v.isOpAt start "#" = false) : v.annotationAt? start = none := by
  simp [annotationAt?, hat, hbracket, hhash]

theorem View.annotationAt?_of_kind {v : View} {start : Nat}
    (h : ∀ t, v.tok? start = some t → t.kind ≠ .operator) : v.annotationAt? start = none := by
  have hop (op : String) : v.isOpAt start op = false := by
    unfold isOpAt
    cases ht : v.tok? start with
    | none => rfl
    | some t => simp [Token.isOp, h t ht]
  exact annotationAt?_eq_none (hop _) (hop _) (hop _)

theorem View.CutOf.start {v whole : View} (hv : v.CutOf whole) (start : Nat) :
    View.CutOf { v with stmtStart := start } whole := by
  obtain ⟨limit, _, hle, rfl⟩ := hv
  exact ⟨limit, start, hle, rfl⟩

namespace Walk.Ends

section Statement

variable {G : Ground} [G.Firm] {v : View} {r r' : Replay} (hr : Replay.Twins G.whole G.stop r r') (hv : G.Sees v)

omit [G.Firm] in
/-- A word or a brace that ends a body. -/
theorem closing [G.Firm] {φ : View → Builder → Builder} (hφ : ∀ b, Builder.Calm (φ v) b)
    (hs : ∀ b, G.Stands b.kinds b.blocks → (G.allow True).Stands b.kinds (φ v b).blocks) :
    Completes G v (G.Rests G.start) Eq (do Walk.advance 1; act φ) (do Walk.advance 1; act φ) := by
  refine .step 1 (.lastly (fun b hb => ?_) (fun b => (hφ b).timed) fun b => (hφ b).keeps.notes.symm)
  have hkeeps := (hφ b).keeps
  refine ⟨⟨⟨hb.le.trans_eq hkeeps.pos.symm, hkeeps.depth.trans hb.depth, hkeeps.kinds.symm ▸ hs b hb.stands⟩,
    hkeeps.deferred.trans hb.clear⟩, ?_⟩
  intro h
  have := hkeeps.pos.trans hb.pos
  omega

include hr hv in
theorem declarationOrExpression {S : Notes → Notes → Prop} {i start : Nat} (hS : ∀ l, S l l)
    (hmethod : (v.methodShape? i).isSome = true → ∀ l m, Notes.Takes v start l m → S l m) :
    Ends G v (G.Rests i) S (declarationOrExpression r start) (declarationOrExpression r' start) := by
  refine .given (fun b hb => hb.pos ▸ hb.le) fun hi => ?_
  refine .view (.pos (fun b hb => hb.pos) (.look (fun _ _ => rfl) fun b _ => ?_))
  generalize (b.currentTag == 0 && b.scopeKind b.currentScope == .type) = inType
  cases hshape : if inType then v.methodShape? i else none with
  | some shape =>
    have hshape : v.methodShape? i = some shape := by
      split at hshape
      · exact hshape
      · cases hshape
    refine Twin.of (.mono (methodHeader hv (Nat.le_trans hi (View.le_methodShape? hshape))) fun b _ m => ?_)
      fun b hb => hb.toClear
    exact hmethod (hshape ▸ rfl) b.notes m
  | none =>
    refine Twin.of (I := G.Waits i) (.quiet ?_ hS) fun b hb => hb.waits
    cases hname : if v.dialect.typedDeclarations then v.typedName? i else none with
    | some name =>
      have hle : i ≤ name := by
        split at hname
        · exact View.le_typedName? hname
        · cases hname
      exact .seek (fun b hb => hb.seek hle) (typedDeclarations hr hv _ start)
    | none => exact expressionStatement hr hv start

variable (hnone : v.annotationAt? G.start = none)
include hnone

omit [G.Firm] in
theorem other {I : Builder → Prop} {p q : Walk Unit} (h : Ends G v I Eq p q) :
    Completes G v I (Notes.Step v G.start) p q := (h.quiet fun _ => .other hnone).imp fun _ _ hb => hb.ended

omit [G.Firm] in
theorem quietly {p q : Walk Unit} (h : Ends G v G.Clear Eq p q) :
    Completes G v (G.Rests G.start) (Notes.Step v G.start) p q := (other hnone h).of fun _ hb => hb.toClear

omit [G.Firm] in
theorem declares {p q : Walk Unit} (h : Ends G v G.Clear (Notes.Takes v G.start) p q)
    (hd : v.declaresAt G.start = true) : Completes G v (G.Rests G.start) (Notes.Step v G.start) p q :=
  ((h.mono fun _ _ _ => .declares hnone hd).imp fun _ _ hb => hb.ended).of fun _ hb => hb.toClear

include hr hv

/-- A resource is declared as from its second token on. -/
theorem importStatement : Completes G v (G.Rests G.start) (Notes.Step v G.start)
    (importStatement r G.start (v.textAt G.start)) (importStatement r' G.start (v.textAt G.start)) := by
  refine .view (.ite (fun hword => ?_) fun _ => quietly hnone inertStatement)
  have hident := (Bool.and_eq_true_iff.mp hword).2
  have hsees : (G.startAt (G.start + 1)).Sees { v with stmtStart := G.start + 1 } :=
    ⟨hv.cut.start _, rfl, Nat.lt_of_succ_lt (View.lt_limit_of_any hident), fun i hi => Nat.le_succ_of_le (hv.first i hi)⟩
  refine .step 1 (.within (Twin.of (I := (G.startAt (G.start + 1)).Rests (G.start + 1)) ?_ fun b hb => ?_))
  · refine Twin.imp (declarationOrExpression (G := G.startAt (G.start + 1)) hr hsees (fun _ => .other hnone)
      fun _ l m hm => ?_) fun _ _ hb => (hb.ofStart (Nat.le_succ _)).ended
    have hd : v.declaresAt G.start = true := by
      simp only [Bool.and_eq_true, beq_iff_eq] at hword
      simp [View.declaresAt, hword.1.2]
    refine .declares hnone hd ?_
    cases hm with
    | passes => exact .passes
    | opens last => exact .opens last
    | drops => exact .drops
  · exact ⟨hb.toClear.startAt (Nat.le_of_eq hb.pos.symm), hb.pos⟩

theorem otherStatement (keyword : Bool) (word : String) : Completes G v (G.Rests G.start) (Notes.Step v G.start)
    (otherStatement r G.start keyword word) (otherStatement r' G.start keyword word) := by
  refine .view (.ite (fun _ => other hnone (keywordDeclaration hr hv _)) fun _ => ?_)
  refine Twin.imp (declarationOrExpression hr hv (fun _ => .other hnone) fun h l m => .declares hnone ?_)
    fun _ _ hb => hb.ended
  simp [View.declaresAt, h]

theorem keywordStatement (word : String) : Completes G v (G.Rests G.start) (Notes.Step v G.start)
    ((keywordStatement? r G.start word v).getD (Walk.otherStatement r G.start true word))
    ((keywordStatement? r' G.start word v).getD (Walk.otherStatement r' G.start true word)) := by
  unfold keywordStatement?
  refine .choose (fun helse => ?_) fun _ => .choose (fun _ => other hnone (controlHeader hr hv hv.lt _ .branch)) fun _ => ?_
  · have hif : G.start + 1 < v.limit := View.lt_limit_of_any (Bool.and_eq_true_iff.mp helse).2
    exact other hnone (.step 1 (controlHeader hr hv hif _ .branch))
  cases v.dialect.control? word with
  | some kind => exact other hnone (controlHeader hr hv hv.lt _ kind)
  | none =>
    refine .choose (fun _ => (other hnone (commandStatement hr hv _)).of fun b hb => hb.waits) fun _ => ?_
    refine .choose (fun _ => quietly hnone inertStatement) fun _ => .choose (fun _ => ?_) fun _ => ?_
    · exact other hnone (leadingStatement hr hv _)
    · exact otherStatement hr hv hnone true word

omit hnone in
theorem wordStatement {t : Token} (ht : v.tok? G.start = some t) (hkind : t.kind ≠ .operator) {keyword : Bool}
    (hkeyword : keyword = true → t.kind = .keyword) : Completes G v (G.Rests G.start) (Notes.Step v G.start)
      (wordStatement r G.start keyword t.text) (wordStatement r' G.start keyword t.text) := by
  have hnone : v.annotationAt? G.start = none := View.annotationAt?_of_kind fun t' ht' => by
    cases ht.symm.trans ht'
    exact hkind
  have htext : v.textAt G.start = t.text := by simp [View.textAt, ht]
  have hruby {p : Bool} (h : (v.language == .ruby && p) = true) : G.whole.language = .ruby :=
    hv.language ▸ beq_iff_eq.mp (Bool.and_eq_true_iff.mp h).1
  refine .view (.ite (fun _ => ?_) fun _ => .ite (fun _ => ?_) fun _ => ?_)
  · exact (closing (.closing (·.atEnd)) fun b hs => hs.closeEnd v).quiet fun _ => .other hnone
  · exact .here (fun _ hb => hb.pos) (quietly hnone (seek (v.le_caseEnd G.start)))
  refine .ite (fun _ => htext ▸ importStatement hr hv hnone) fun _ => ?_
  refine .ite (fun _ => other hnone (controlHeader hr hv hv.lt _ .withBody)) fun _ => ?_
  refine .ite (fun h => quietly hnone (visibility (hruby h) _ t.text)) fun _ => .ite (fun _ => quietly hnone ?_) fun _ => ?_
  · exact .keep Ground.Clear.keep (.words (· ++ [t.text])) (advance 1)
  refine .ite (fun hfunction => .look (fun _ _ => rfl) fun _ _ => .ite (fun _ => ?_) fun _ => ?_) fun _ => ?_
  · obtain ⟨hk, hword⟩ := Bool.and_eq_true_iff.mp hfunction
    refine declares hnone (functionHeader hv (Nat.le_refl _)) ?_
    simp [View.declaresAt, ht, hkeyword hk, List.contains_iff_mem.mp hword]
  · exact (other hnone (expressionStatement hr hv _)).of fun b hb => hb.waits
  refine .ite (fun htype => ?_) fun _ => .ite (fun _ => quietly hnone skipRest) fun _ => ?_
  · obtain ⟨hk, hword⟩ := Bool.and_eq_true_iff.mp htype
    refine declares hnone (typeHeader hv (Nat.le_refl _)) ?_
    simp [View.declaresAt, ht, hkeyword hk, List.contains_iff_mem.mp hword]
  refine .ite (fun _ => keywordStatement hr hv hnone t.text) fun _ => ?_
  exact .ite (fun _ => quietly hnone skipRest) fun _ => otherStatement hr hv hnone false t.text

end Statement

section Annotation

variable {G : Ground} {v : View}

theorem reads {name : String} (h : v.annotationAt? G.start = some name) :
    Runs G v G.Clear (Notes.Step v G.start) (Walk.act fun _ b => { b with annotations := b.annotations ++ [name] }) :=
  .lastly (fun _ hb => ⟨⟨hb.le, hb.depth, hb.stands⟩, hb.clear⟩) (fun _ _ => rfl) fun _ => .reads h

theorem annotation (h : v.annotationAt? G.start =
      (some (v.annotationName (v.limit - G.start) (G.start + 1)).1).filter (!·.isEmpty)) :
    Runs G v G.Clear (Notes.Step v G.start) ( annotation G.start) := by
  refine .view ?_
  have hle := v.le_annotationName (v.limit - G.start) (G.start + 1)
  generalize v.annotationName (v.limit - G.start) (G.start + 1) = named at h hle ⊢
  refine .move (Nat.le_trans (Nat.le_of_succ_le hle) (v.ahead_pastGroup _ _).le) (.ite (fun hname => ?_) fun hname => ?_)
  · exact reads (h.trans (Option.filter_some_pos hname))
  · refine .quiet (.pure fun _ hb => hb) fun _ => .other ?_
    exact h.trans (Option.filter_some_neg (Bool.not_eq_true _ ▸ hname))

theorem attributeList {opener : Nat} (hopener : G.start ≤ opener)
    (h : v.annotationAt? G.start = (v.attributeAt? opener).filter (!·.isEmpty)) :
    Twin G.whole G.stop v (G.Rests G.start) (Notes.Step v G.start)
      (fun found b => G.Clear b ∧ (found = false → b.pos = G.start)) (attributeList opener) (attributeList opener) := by
  let J (found : Bool) (b : Builder) : Prop := G.Clear b ∧ (found = false → b.pos = G.start)
  have hpassed (hnone : v.annotationAt? G.start = none) :
      Twin G.whole G.stop v (G.Rests G.start) (Notes.Step v G.start) J (pure false) (pure false) :=
    Twin.quiet (.pure fun b hb => ⟨hb.toClear, fun _ => hb.pos⟩) fun _ => .other hnone
  have hseek {j : Nat} (hj : opener < j) :
      Twin G.whole G.stop v G.Clear Eq J (do Walk.seek (j + 1); return true) (do Walk.seek (j + 1); return true) :=
    .move (by omega) (.pure fun _ hb => ⟨hb, fun h => nomatch h⟩)
  refine .view ?_
  unfold View.attributeAt? at h
  split
  · next hmatch =>
    rw [hmatch] at h
    exact hpassed h
  · next close hmatch =>
    have hclose := (View.matching?_bounds hmatch).1
    rw [hmatch, Option.bind_some] at h
    refine .ite (fun hfollows => ?_) fun hfollows => ?_
    · rw [if_pos hfollows] at h
      refine Twin.of (.ite (fun hname => ?_) fun hname => ?_) fun b (hb : G.Rests G.start b) => hb.toClear
      · exact (reads (h.trans (Option.filter_some_pos hname))).bind fun _ => hseek hclose
      · exact (hseek hclose).quiet fun _ => .other (h.trans (Option.filter_some_neg (Bool.not_eq_true _ ▸ hname)))
    · rw [if_neg hfollows] at h
      exact hpassed h

variable [G.Firm] {r r' : Replay} (hr : Replay.Twins G.whole G.stop r r') (hv : G.Sees v)
include hr hv

theorem operatorStatement {t : Token} (ht : v.tok? G.start = some t) (hkind : t.kind = .operator) :
    Completes G v (G.Rests G.start) (Notes.Step v G.start) (operatorStatement r G.start t.text)
      (operatorStatement r' G.start t.text) := by
  have hop (op : String) : v.isOpAt G.start op = (t.text == op) := by simp [View.isOpAt, ht, Token.isOp, hkind]
  have hexpr : Ends G v (G.Rests G.start) Eq (Walk.expressionStatement r G.start) (Walk.expressionStatement r' G.start) :=
    (expressionStatement hr hv _).of fun b hb => hb.waits
  have hnone (h : t.text ∉ ["@", "[", "#"]) : v.annotationAt? G.start = none := by
    simp only [List.mem_cons, List.not_mem_nil, or_false, not_or] at h
    exact View.annotationAt?_eq_none (by simp [hop, h]) (by simp [hop, h]) (by simp [hop, h])
  have hclear {p q : Walk Unit} (hp : Ends G v G.Clear Eq p q) (h : t.text ∉ ["@", "[", "#"]) :=
    quietly (hnone h) hp
  have hunparsed : Runs G v G.Clear Eq (do Walk.advance 1; Walk.emitUnparsed G.start) :=
    (advance 1).bind fun _ => (emitUnparsed _).of fun _ hb => hb.toHolds
  have hattributes {opener : Nat} (hopener : G.start ≤ opener)
      (h : v.annotationAt? G.start = (v.attributeAt? opener).filter (!·.isEmpty)) {p q : Walk Unit}
      (hp : Ends G v (G.Rests G.start) Eq p q) :
      Completes G v (G.Rests G.start) (Notes.Step v G.start)
        (do if !(← Walk.attributeList opener) then p) (do if !(← Walk.attributeList opener) then q) := by
    refine (attributeList hopener h).bind fun found => ?_
    cases found with
    | false => exact (hp.imp fun _ _ hb => hb.ended).of fun b hb => ⟨hb.1, hb.2 rfl⟩
    | true => exact .pure fun b hb => hb.1.ended
  refine .view ?_
  split
  · next htext => exact hclear (advance 1) (by rw [htext]; decide)
  · next htext =>
    exact (closing (.closing (·.brace)) fun b hs => hs.closeBrace v).quiet fun _ => .other (hnone (by rw [htext]; decide))
  · next htext =>
    refine .ite (fun _ => hclear ?_ (by rw [htext]; decide)) fun _ => other (hnone (by rw [htext]; decide)) hexpr
    exact (advance 1).bind fun _ => clearModifiers.bind fun _ => pushPlain
  · next htext =>
    refine .ite (fun h => ?_) fun h => other (by simp [View.annotationAt?, hop, htext, h]) hexpr
    refine Twin.of (Twin.imp ( annotation ?_) fun _ _ hb => hb.ended) fun b hb => hb.toClear
    simp only [View.annotationAt?, hop, htext, beq_self_eq_true, if_pos, h]
  · next htext =>
    refine .ite (fun h => ?_) fun h => other (by simp [View.annotationAt?, hop, htext, h]) hexpr
    exact hattributes (Nat.le_refl _) (by simp [View.annotationAt?, hop, htext, h]) hexpr
  · next htext =>
    refine .ite (fun h => ?_) fun h => other (by simp [View.annotationAt?, hop, htext, h]) hexpr
    refine hattributes (Nat.le_succ _) (by simp [View.annotationAt?, hop, htext, h]) ?_
    exact (seek (Nat.le_succ _)).of fun b hb => hb.toClear
  · next htext => exact hclear hunparsed (by rw [htext]; decide)
  · next htext => exact hclear hunparsed (by rw [htext]; decide)
  · next htext => exact hclear hunparsed (by rw [htext]; decide)
  · next hat hbracket hhash _ _ _ =>
    refine other (hnone ?_) hexpr
    simp only [List.mem_cons, List.not_mem_nil, or_false, not_or]
    exact ⟨hat, hbracket, hhash⟩

end Annotation
end Walk.Ends

/-! ## Runs of statements -/

namespace Walk.Ends

section Loop

variable {G : Ground} [G.Firm] {limit i : Nat} {r r' : Replay} (hle : limit ≤ G.whole.limit)
include hle

theorem statement (hfirst : ∀ i ∈ G.stop, i.1 ≤ G.start) (hr : Replay.Twins G.whole G.stop r r') :
    Completes G (G.whole.cut limit i) (G.Rests G.start) (Notes.Step (G.whole.cut limit G.start) G.start) (statement r)
      (statement r') := by
  refine .pos (fun b hb => hb.pos) (.view (.within ?_))
  change Completes G (G.whole.cut limit G.start) _ _ _ _
  split
  · next hnone =>
    refine Twin.quiet (.pure fun b hb => hb.toClear.ended) fun _ => .other (View.annotationAt?_of_kind fun t ht => ?_)
    cases hnone.symm.trans ht
  · next t ht =>
    have ht : (G.whole.cut limit G.start).tok? G.start = some t := ht
    have hv : G.Sees (G.whole.cut limit G.start) := ⟨⟨limit, G.start, hle, rfl⟩, rfl, View.lt_limit_of_tok? ht, hfirst⟩
    have hother (hkind : t.kind ≠ .operator) : (G.whole.cut limit G.start).annotationAt? G.start = none :=
      View.annotationAt?_of_kind fun t' ht' => by
        cases ht.symm.trans ht'
        exact hkind
    refine .look (fun _ _ => rfl) fun _ _ => .branch ?_ fun hkinds => .keep Ground.Rests.keep (.dedent _ G.start) hkinds
    split
    · next hkind => exact quietly (hother (by simp [hkind])) (advance 1)
    · next hkind => exact quietly (hother (by simp [hkind])) (advance 1)
    · next hkind => exact operatorStatement hr hv ht hkind
    · next hkind => exact wordStatement hr hv ht (by simp [hkind]) fun _ => hkind
    · next hkind => exact wordStatement hr hv ht (by simp [hkind]) fun h => by cases h
    · next hkind => exact (other (hother (by simp [hkind])) (expressionStatement hr hv _)).of fun b hb => hb.waits

/-- The loop stops at the limit or when the block around the body is closed, if it may take a turn for each
token before the limit. -/
theorem statements (hstop : G.stop = none) (hr : Replay.Twins G.whole G.stop r r') {depth : Nat}
    (hlimit : limit = G.whole.limit ∨ 0 < depth) (hdepth : ∀ base ∈ G.base, base.blocks.length < depth) (n : Nat) {b : Builder}
    (hb : (G.allow True).Clear b) :
    Twin G.whole G.stop (G.whole.cut limit i) (· = b) Eq
      (fun _ c => (G.allow True).Clear c ∧ (limit ≤ b.pos + n → ¬(c.pos < limit ∧ depth ≤ c.blocks.length)))
      (statements r depth n) (statements r' depth n) := by
  induction n generalizing b with
  | zero =>
    refine .pure fun c hc => ?_
    cases hc
    exact ⟨hb, fun hle h => absurd h.1 (Nat.not_lt_of_le hle)⟩
  | succ n ih =>
    refine .look (fun _ _ => rfl) fun c hc => .look (fun _ _ => rfl) fun d hd => .view ?_
    cases hc
    cases hd
    refine .ite (fun hready => ?_) fun hready => .pure fun c hc => ?_
    · simp only [Bool.and_eq_true, decide_eq_true_eq] at hready
      let F := G.startAt b.pos
      have hfirm : G.Clear b := by
        refine ⟨⟨hb.le, hb.depth, hb.stands.firm fun base hbase => ?_⟩, hb.clear⟩
        exact Nat.lt_of_lt_of_le (hdepth base hbase) hready.2
      have hF : F.Clear b := hfirm.startAt (Nat.le_refl _)
      -- In a body that is replayed the loop only goes on under the block around it.
      have hreaches : G.whole.Reaches limit b := by
        refine ⟨hready.1, hle, hlimit.imp id fun hdepth hblocks => ?_⟩
        rw [hblocks] at hready
        exact absurd hready.2 (Nat.not_le_of_lt hdepth)
      have hnext {c : Builder} (hlt : b.pos < c.pos) (hc : (G.allow True).Clear c) :=
        (ih hc).imp fun _ d (hd : _ ∧ (_ → _)) => And.intro hd.1 fun (hle : limit ≤ b.pos + (n + 1)) => hd.2 (by omega)
      refine .checkpoint (fun c hc => hc ▸ hb.idle) fun e he => ?_
      rw [he]
      have hstatement := (statement (G := F) (i := i) hle (hstop ▸ fun _ h => absurd h (Option.not_mem_none _)) hr).of fun x (hx : x = { b with turns := b.turns + 1 }) =>
        show F.Rests b.pos x from hx ▸ ⟨⟨⟨hF.le, hF.depth, hF.stands⟩, hF.clear⟩, rfl⟩
      refine (hstatement.mono (R := fun _ => G.whole.Turn b) fun x hx m hm => ?_).chain hstop fun _ => .pointwise fun c hc => ?_
      · rw [hx] at hm
        exact ⟨limit, hreaches, hm⟩
      refine .look (fun _ _ => rfl) fun d hd => ?_
      cases hd
      refine .ite (fun hpos => ?_) fun hpos => ?_
      · have hclear := hc.unmoved (beq_iff_eq.mp hpos)
        let H := G.startAt (b.pos + 1)
        refine .act (M := H.Holds) (fun d hd => ?_) (fun _ _ => rfl) (fun _ => rfl) ?_
        · exact hd ▸ ⟨Nat.succ_le_succ hc.clear.le, hclear.depth, { hclear.stands with }⟩
        · refine (emitUnparsed (G := H) b.pos).bind fun _ => .pointwise fun d hd => hnext hd.le ?_
          exact (hd.ofStart (Nat.le_succ_of_le hb.le)).loosen True fun _ => trivial
      · refine hnext (Nat.lt_of_le_of_ne hc.clear.le fun h => hpos (beq_iff_eq.mpr h.symm)) ?_
        exact hc.clear.ofStart (G := G.allow True) hb.le
    · cases hc
      exact ⟨hb, fun _ h => hready (Bool.and_eq_true_iff.mpr ⟨decide_eq_true h.1, decide_eq_true h.2⟩)⟩

end Loop

/-! ## Replays -/

section Replays

variable {whole v : View} {r r' : Replay} {b : Builder}

theorem forM {f g : Deferred → Walk Unit} (hb : b.Idle whole)
    (h : ∀ {b : Builder} (body : Deferred), b.Idle whole →
      Twin whole none v (· = b) Eq (fun _ => b.Replayed whole [body]) (f body) (g body)) (bodies : List Deferred) :
    Twin whole none v (· = b) Eq (fun _ => b.Replayed whole bodies) (bodies.forM f) (bodies.forM g) := by
  induction bodies generalizing b with
  | nil =>
    refine .pure fun c hc => ?_
    cases hc
    exact ⟨hb.clear, rfl, List.prefix_rfl, .inl rfl, Nat.le_refl _, List.forall_mem_nil _⟩
  | cons body bodies ih =>
    refine (h body hb).chain rfl fun _ => .pointwise fun c hc => (ih (hb.replayed hc)).imp fun _ d hd => ?_
    refine ⟨hd.clear, hd.depth.trans hc.depth, hc.kinds.trans hd.kinds, hc.blocks.trans hb.toSound hc.kinds hd.blocks,
      Nat.le_trans hc.le hd.le, List.forall_mem_cons.mpr ⟨?_, hd.past⟩⟩
    exact Nat.lt_of_lt_of_le (hc.past body (List.mem_singleton_self body)) hd.le

theorem abandon (hb : b.Idle whole) (body : Deferred) :
    Twin whole none v (· = b) Eq (fun _ => b.Replayed whole [body]) (abandon body) (abandon body) := by
  have hpush (b : Builder) := Builder.Calm.push v.bound
    { kind := .unparsed, span := v.spanBetween body.start body.close, controlTag := b.currentTag } b
  refine .lastly (fun c hc => ?_) (fun b t => ?_) fun b => (hpush b).keeps.notes.symm
  · cases hc
    refine ⟨(hpush b).keeps.deferred.trans hb.clear, (hpush b).keeps.depth, ?_, .inl (b.push_blocks _ _), ?_, ?_⟩
    · exact (hpush b).keeps.kinds ▸ List.prefix_rfl
    · exact Nat.le_trans (Nat.le_of_eq (hpush b).keeps.pos.symm) (Nat.le_max_left _ _)
    · exact List.forall_mem_singleton.mpr (Nat.lt_of_lt_of_le (Nat.lt_succ_self _) (Nat.le_max_right _ _))
  · exact congrArg (fun x : Builder => x.seek (max x.pos (body.close + 1))) ((hpush b).timed t)

/-- The body of a lambda is read in the whole unit up to its end, with a block around it. -/
theorem replayBody (hfull : whole = whole.entire) (hr : Replay.Twins whole none r r') (hv : v.CutOf whole)
    (hb : b.Idle whole) (body : Deferred) :
    Twin whole none v (· = b) Eq (fun _ => b.Replayed whole [body]) (replayBody r body) (replayBody r' body) := by
  let G : Ground := ⟨whole, hfull, 0, b.draft.depth, some b, False, none⟩
  have : G.Firm := ⟨id⟩
  let Opened (blocks : List Block) (c : Builder) : Prop :=
    c.draft.depth = b.draft.depth ∧ c.draft.deferred = #[] ∧ c.kinds = b.kinds ∧ c.blocks = blocks
  obtain ⟨limit, start, _, rfl⟩ := hv
  refine .look (fun _ _ => rfl) fun c hc => .seek (M := Opened b.blocks) (fun d hd => ?_) ?_
  · cases hd
    exact ⟨rfl, hb.clear, rfl, rfl⟩
  cases hc
  have hopen (c : Builder) := Builder.Calm.openControl (whole.cut limit start) .lambda body.params body.sources body.start
    .block none c
  refine .act (M := fun c => ∃ tag, Opened ({ frame := .control tag } :: b.blocks) c) (fun c hc => ?_)
    (fun c => (hopen c).timed) (fun c => (hopen c).keeps.notes) ?_
  · obtain ⟨hdepth, hclear, hkinds, hblocks⟩ := hc
    obtain ⟨tag, hblock, _⟩ := c.openControl_blocks (whole.cut limit start) .lambda body.params body.sources body.start none
    have hkeeps := (hopen c).keeps
    exact ⟨tag, hkeeps.depth.trans hdepth, hkeeps.deferred.trans hclear, hkeeps.kinds.trans hkinds, hblocks ▸ hblock⟩
  refine .act (M := fun c => ∃ tag, Opened ({ frame := .control tag, deferred := true } :: b.blocks) c) (fun c hc => ?_)
    (fun c t => ?_) (fun c => ?_) ?_
  · obtain ⟨tag, hdepth, hclear, hkinds, hblocks⟩ := hc
    obtain ⟨_, _, _, _, _⟩ := c
    cases hblocks
    exact ⟨tag, hdepth, hclear, hkinds, rfl⟩
  · rcases c with ⟨_, _, _, _ | _, _⟩ <;> rfl
  · rcases c with ⟨_, _, _, _ | _, _⟩ <;> rfl
  refine .look (fun _ _ => rfl) fun c hc => ?_
  have hlen : c.blocks.length = b.blocks.length + 1 := by
    obtain ⟨tag, _, _, _, hblocks⟩ := hc
    rw [hblocks]
    rfl
  rw [hlen]
  have hbase : (G.allow True).Stands b.kinds b.blocks := by
    refine ⟨hb.toSound, fun base hbase => ?_, fun base hbase => ?_⟩
    · cases hbase
      exact ⟨hb.toSound, List.prefix_rfl⟩
    · cases hbase
      exact ⟨b.blocks, .inl rfl, .inl ⟨trivial, rfl⟩⟩
  refine .seek (M := (G.allow True).Clear) (fun d hd => ?_) ?_
  · obtain ⟨tag, hdepth, hclear, hkinds, hblocks⟩ := hd
    refine ⟨⟨Nat.zero_le _, hdepth, ?_⟩, hclear⟩
    change (G.allow True).Stands d.kinds d.blocks
    rw [hkinds, hblocks]
    exact (hbase.cons (fun _ => rfl) (by simp) fun _ => ⟨rfl, rfl, rfl, .inl rfl⟩).loosen True False.elim
  have hle : min (body.close + 1) whole.tokens.size ≤ whole.limit := by
    rw [hfull]
    exact Nat.min_le_right _ _
  refine Twin.chain (J := fun _ c => c.draft.depth = b.draft.depth ∧ c.draft.deferred = #[] ∧ b.kinds <+: c.kinds ∧
    b.Remarks whole c.blocks) rfl (Twin.within (.pointwise fun d hd => ?_)) fun _ => ?_
  · refine (statements (G := G) (i := start) hle rfl hr (.inr (Nat.succ_pos _)) (fun base hbase => ?_) _ hd).chain rfl
      fun _ => ?_
    · cases hbase
      exact Nat.lt_succ_self _
    · have hclose (e : Builder) := Builder.Calm.closing (v := whole.cut (min (body.close + 1) whole.tokens.size) start)
        (fun H => (H.above · b.blocks.length)) e
      refine .lastly (fun e he => ?_) (fun e => (hclose e).timed) fun e => (hclose e).keeps.notes.symm
      have hkeeps := (hclose e).keeps
      refine ⟨hkeeps.depth.trans he.1.depth, hkeeps.deferred.trans he.1.clear, ?_, ?_⟩
      · exact hkeeps.kinds ▸ (he.1.stands.known b rfl).2
      · unfold Builder.closeAbove
        rw [Builder.closeMany_blocks]
        exact he.1.stands.drop (Option.mem_some_self b)
  · refine .lastly (fun d hd => ⟨hd.2.1, hd.1, hd.2.2.1, hd.2.2.2, Nat.le_max_left _ _, ?_⟩) (fun _ _ => rfl) fun _ => rfl
    exact List.forall_mem_singleton.mpr (Nat.lt_of_lt_of_le (Nat.lt_succ_self _) (Nat.le_max_right _ _))

end Replays

end Walk.Ends

/-! ## Extractions -/

open Classical in
/-- Bodies are replayed if a condition holds for them in the state at hand; otherwise something else is
done. -/
noncomputable def Replay.checked (P : View → Builder → List Deferred → Prop) (other r : Replay) : Replay :=
  fun bodies v b => if P v b bodies then r bodies v b else other bodies v b

namespace Walk

/-- Replays bodies that may nest `n` deep, with a change to each replay. -/
def replayBy (change : Replay → Replay) : Nat → Replay
  | 0 => change fun bodies => bodies.forM abandon
  | n + 1 => change fun bodies => bodies.forM (replayBody (replayBy change n))

def unitBy (r : Replay) : Walk Unit := do
  statements r 0 (← view).limit
  act fun v b => b.closeAbove v 0

end Walk

theorem Replay.Twins.checked {whole : View} {stop : Option (Nat × Nat)} {r r' : Replay} {P : View → Builder → List Deferred → Prop}
    (other : Replay)
    (hP : ∀ {v : View} {b : Builder} {bodies : List Deferred}, b.Ready whole v bodies →
      (∀ i ∈ stop, i.1 ≤ v.stmtStart ∧ ∀ a ∈ bodies, a.close < i.2) → P v b bodies)
    (h : ∀ {v : View}, v.CutOf whole → ∀ {bodies : List Deferred} {b : Builder}, b.Ready whole v bodies →
      Walk.Twin whole none v (· = b) Eq (fun _ => b.Replayed whole bodies) (r bodies) (r' bodies)) :
    Twins whole stop r (.checked P other r') := by
  intro v hv bodies b hb
  have hrun := h hv hb
  refine ⟨hrun.alone, fun hstop t => ?_⟩
  have hready : (b.timed t).Ready whole v bodies := ⟨⟨hb.toSound, hb.clear⟩, hb.settles, hb.inside⟩
  unfold Replay.checked
  rw [if_pos (hP hready hstop)]
  exact hrun.same b rfl t

theorem Walk.twins_replay {whole : View} (hfull : whole = whole.entire) (other : Replay) (n : Nat) :
    Replay.Twins whole none (replay n)
      (replayBy (.checked (fun v b bodies => b.Settles whole v.stmtStart b.pos bodies) other) n) := by
  induction n with
  | zero =>
    refine Replay.Twins.checked other (fun hb _ => hb.settles) fun _ bodies _ hb => Ends.forM hb.toIdle (fun body hb => ?_) bodies
    exact Ends.abandon hb body
  | succ n ih =>
    refine Replay.Twins.checked other (fun hb _ => hb.settles) fun hv bodies _ hb => Ends.forM hb.toIdle (fun body hb => ?_) bodies
    exact Ends.replayBody hfull ih hv hb body

/-- A whole extraction checks the bodies that it replays, and its turns are those that the unit allows. -/
theorem Walk.unit_ends (whole : View) (hfull : whole = whole.entire) (other : Replay) (b : Builder) (hb : b = {}) :
    (∀ t, unit whole (b.timed t) = unitBy (replayBy
      (.checked (fun v b bodies => b.Settles whole v.stmtStart b.pos bodies) other) maxReplayDepth) whole (b.timed t)) ∧
    ∃ states x, Trace (unit whole) b states x ∧ Legs whole (Eq b.notes) states x.2 ∧ ∀ s ∈ states, s.Idle whole := by
  let G : Ground := ⟨whole, hfull, 0, b.draft.depth, none, False, none⟩
  have : G.Firm := ⟨id⟩
  have hidle : b.Idle whole := by
    cases hb
    exact ⟨⟨fun _ => List.forall_mem_nil _, fun _ h => absurd h List.not_mem_nil⟩, rfl⟩
  have hclear : (G.allow True).Clear b := ⟨⟨Nat.zero_le _, rfl, hidle.stands rfl⟩, hidle.clear⟩
  have hrun : Twin whole none whole (· = b) Eq (fun _ _ => True) unit (unitBy (replayBy
      (.checked (fun v b bodies => b.Settles whole v.stmtStart b.pos bodies) other) maxReplayDepth)) := by
    refine .view ((Ends.statements (G := G) (i := whole.stmtStart) (Nat.le_refl _) rfl (twins_replay hfull other _)
      (.inl rfl) (fun _ h => absurd h (Option.not_mem_none _)) _ hclear).chain rfl fun _ => ?_)
    exact .lastly (fun _ _ => trivial) (fun b => (Builder.Calm.closing (v := whole) (fun H => (H.above · 0)) b).timed)
      fun b => (Builder.Calm.closing (v := whole) (fun H => (H.above · 0)) b).keeps.notes.symm
  obtain ⟨states, x, htrace, hlegs, _, hidle, _⟩ := hrun b rfl
  exact ⟨hrun.same b rfl, states, x, htrace, hlegs, hidle⟩

namespace SourceUnit

def extractBy (r : Replay) (u : SourceUnit) (bound : Nat) (countdown : Countdown) :
    Except ExtractError ExtractedUnit × Countdown :=
  let tokens := Token.lex u.language u.content.toList
  let errors := tokens.filterMap (·.error?)
  match Walk.unitBy r (u.tokenView tokens bound) { countdown := countdown } with
  | (.error e, b) => (.error e, b.countdown)
  | (.ok _, b) =>
    (.ok
      { arena := b.draft.arena, scopes := b.scopes, errors := errors
        stats := ⟨b.statements, b.unparsed, errors.length, b.scopes.size⟩ },
      b.countdown)

/-- Whenever bodies are replayed in an extraction, they stand one behind the other, between the first token
of the statement that deferred them and the position behind it, or they are irregular: to check this and
to do anything else with bodies that fail the check changes no extraction. -/
theorem extract_checked (u : SourceUnit) (bound : Nat) (countdown : Countdown) (other : Replay) :
    let whole := u.tokenView (Token.lex u.language u.content.toList) bound
    let settled (v : View) (b : Builder) (bodies : List Deferred) := b.Settles whole v.stmtStart b.pos bodies
    u.extractBy (Walk.replayBy (.checked settled other) Walk.maxReplayDepth) bound countdown =
      u.extract bound countdown := by
  intro whole settled
  obtain ⟨heq, _⟩ := Walk.unit_ends whole rfl other {} rfl
  have hrun : Walk.unit whole { countdown := countdown } = _ := heq countdown
  unfold extractBy extract
  dsimp only
  rw [hrun]
  rfl

/-- The recorded calls of a unit, each with the tag of the block around it. -/
def calls (u : SourceUnit) : Option (List (Nat × Span)) :=
  (u.extract defaultStatementBound .never).1.toOption.map fun x => x.scopes.toList.flatMap fun scope =>
    (scope.statements.toList.filter (·.kind == .call)).map fun s => (s.controlTag, s.span)

/-- The call in the braces of a Ruby lambda is recorded in two blocks. -/
theorem calls_braced_arrow :
    calls { id := "a.rb", content := (Text.Utf8.encode "f = ->(x) \x7b sink(x) \x7d").toArray, language := .ruby } =
      some [(1, ⟨12, 19⟩), (2, ⟨12, 19⟩)] := by
  decide +kernel

-- A bracket behind the arguments of a constructor that does not close has the same effect.
example :
    calls { id := "a.java", content := (Text.Utf8.encode "f(a-new B(x->\x7bh();\x7d)\x7b)").toArray, language := .java } =
      some [(0, ⟨0, 22⟩), (1, ⟨14, 17⟩), (2, ⟨14, 17⟩)] := by
  decide +kernel

end SourceUnit
end TaintScan
