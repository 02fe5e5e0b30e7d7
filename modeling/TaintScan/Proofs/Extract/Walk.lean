import TaintScan.Proofs.Extract.Expression
import TaintScan.Extract.Unit

/-! # Two extractions side by side

A relation between the states of two extractions that is kept by each primitive change is a `Tracking`;
it is then kept by every step. What one extraction keeps is the case of two equal ones.
-/
namespace TaintScan

def StatementKind.isMarker : StatementKind → Bool
  | .controlOpen _ | .controlClose => true
  | _ => false

/-- Statements that are neither markers nor outside the grammar. -/
def StatementKind.isPlain : StatementKind → Bool
  | .controlOpen _ | .controlClose | .unparsed => false
  | _ => true

theorem StatementKind.isMarker_of_isPlain {kind : StatementKind} (h : kind.isPlain = true) :
    kind.isMarker = false := by
  cases kind <;> first | rfl | cases h

theorem StatementKind.ne_unparsed_of_isPlain {kind : StatementKind} (h : kind.isPlain = true) :
    kind ≠ .unparsed := by
  rintro rfl
  cases h

structure Statement.Alike (S : Span → Span → Prop) (r : ExprArena) (s t : Statement) : Prop where
  kind : t.kind = s.kind
  targets : t.targets = s.targets
  compound : t.compound = s.compound
  operands : KnownAll maxOperandHeight r s.operands t.operands
  span : S s.span t.span
  controlTag : t.controlTag = s.controlTag

def Statement.Idle (s : Statement) : Prop := s.targets = [] ∧ s.operands = []

theorem Builder.markPrivate_congr {b c : Builder} (on : Bool) {blocks : List Block}
    (h : ∀ i, .scope i ∈ blocks.map (·.frame) → c.scopeKind i = b.scopeKind i) :
    c.markPrivate on blocks = b.markPrivate on blocks := by
  induction blocks with
  | nil => rfl
  | cons block rest ih =>
    unfold markPrivate
    rw [ih fun i hi => h i (List.mem_cons_of_mem _ hi)]
    split
    · next i hframe => rw [h i (hframe ▸ List.mem_cons_self)]
    · rfl

theorem Builder.markPrivate_cons (b : Builder) (on : Bool) (block : Block) (rest : List Block) :
    b.markPrivate on (block :: rest) = { block with privateSection := on } :: rest ∨
      b.markPrivate on (block :: rest) = block :: b.markPrivate on rest := by
  rw [markPrivate]
  split
  · split
    · exact .inl rfl
    · exact .inr rfl
  · exact .inr rfl

theorem Builder.map_markPrivate {α : Type} {f : Block → α} (hf : ∀ block on, f { block with privateSection := on } = f block)
    (b : Builder) (on : Bool) (blocks : List Block) : (b.markPrivate on blocks).map f = blocks.map f := by
  induction blocks with
  | nil => rfl
  | cons block rest ih =>
    rcases b.markPrivate_cons on block rest with h | h
    · rw [h, List.map_cons, List.map_cons, hf]
    · rw [h, List.map_cons, List.map_cons, ih]

/-- What every decision of an extraction depends on. -/
structure Builder.Alike (S : Span → Span → Prop) (b c : Builder) : Prop where
  draft : b.draft.Alike S c.draft
  blocks : c.blocks = b.blocks
  kinds : c.scopes.map (·.kind) = b.scopes.map (·.kind)
  modifiers : c.modifiers = b.modifiers
  annotations : c.annotations = b.annotations

namespace Builder.Alike

variable {S : Span → Span → Prop} {b c : Builder} (h : b.Alike S c)
include h

theorem pos : c.pos = b.pos := h.draft.pos

theorem currentScope : c.currentScope = b.currentScope := by
  unfold Builder.currentScope
  rw [h.blocks]

theorem currentTag : c.currentTag = b.currentTag := by
  unfold Builder.currentTag
  rw [h.blocks]

theorem scopeKind (i : Nat) : c.scopeKind i = b.scopeKind i := by
  have hk : c.scopes[i]?.map (·.kind) = b.scopes[i]?.map (·.kind) := by
    rw [← Array.getElem?_map, ← Array.getElem?_map, h.kinds]
  unfold Builder.scopeKind
  rw [hk]

theorem inPrivateSection : c.inPrivateSection = b.inPrivateSection := by
  unfold Builder.inPrivateSection
  rw [h.blocks]
  congr 2
  funext block
  cases block.frame with
  | scope i => simp only [h.scopeKind]
  | control tag => rfl
  | plain => rfl

theorem markPrivate (on : Bool) (blocks : List Block) : c.markPrivate on blocks = b.markPrivate on blocks :=
  Builder.markPrivate_congr on fun i _ => h.scopeKind i

end Builder.Alike

namespace Builder

def fitted (b : Builder) (bound : Nat) (s : Statement) : Statement :=
  if bound ≤ (b.scopes[b.currentScope]?.map (·.statements.size)).getD 0 && s.kind != .unparsed then
    s.masked
  else s

variable (b : Builder) (v : View) (bound : Nat) (s : Statement) (kind : ControlKind) (targets : List String)
variable (operands : List ExprId) (start : Nat)

theorem push_eq :
    ∃ statements unparsed, b.push bound s =
      { b with
        scopes := b.scopes.modify b.currentScope (·.push (b.fitted bound s))
        statements := statements, unparsed := unparsed } := by
  change ∃ statements unparsed, (if (b.fitted bound s).kind == .unparsed then
    ({ b with
      scopes := b.scopes.modify b.currentScope (·.push (b.fitted bound s))
      unparsed := b.unparsed + 1 } : Builder)
    else { b with
      scopes := b.scopes.modify b.currentScope (·.push (b.fitted bound s))
      statements := b.statements + 1 }) = _
  split
  · exact ⟨_, _, rfl⟩
  · exact ⟨_, _, rfl⟩

theorem push_scope (i : Nat) :
    (b.push bound s).scopes[i]? =
      if b.currentScope = i then b.scopes[i]?.map (·.push (b.fitted bound s)) else b.scopes[i]? := by
  obtain ⟨_, _, hpush⟩ := b.push_eq bound s
  rw [hpush]
  exact Array.getElem?_modify

theorem push_draft : (b.push bound s).draft = b.draft := by
  obtain ⟨_, _, hpush⟩ := b.push_eq bound s
  rw [hpush]

theorem push_blocks : (b.push bound s).blocks = b.blocks := by
  obtain ⟨_, _, hpush⟩ := b.push_eq bound s
  rw [hpush]

theorem push_countdown : (b.push bound s).countdown = b.countdown := by
  obtain ⟨_, _, hpush⟩ := b.push_eq bound s
  rw [hpush]

theorem push_turns : (b.push bound s).turns = b.turns := by
  obtain ⟨_, _, hpush⟩ := b.push_eq bound s
  rw [hpush]

/-- What neither a recorded statement nor the properties change is not changed by emitting. -/
theorem emit_keeps {α : Type} {f : Builder → α} (hpush : ∀ b bound s, f (push bound s b) = f b)
    (hclear : ∀ b : Builder, f { b with draft.properties := #[] } = f b) (kind : StatementKind) (compound : Bool) :
    f (b.emit v kind targets compound operands start) = f b := by
  have hfold (owner : Option String) (tag : Nat) (ps : List Property) (x : Builder) :
      f (ps.foldl (fun x p => x.push v.bound (propertyStatement owner tag p)) x) = f x := by
    induction ps generalizing x with
    | nil => rfl
    | cons p rest ih => exact (ih _).trans (hpush _ _ _)
  unfold emit
  dsimp only
  rw [← Array.foldl_toList, hfold, hpush, hclear]

theorem emit_pos (kind : StatementKind) (compound : Bool) :
    (b.emit v kind targets compound operands start).pos = b.pos :=
  b.emit_keeps v _ _ _ (fun b bound s => congrArg Draft.pos (b.push_draft bound s)) (fun _ => rfl) kind compound

theorem emit_blocks (kind : StatementKind) (compound : Bool) :
    (b.emit v kind targets compound operands start).blocks = b.blocks :=
  b.emit_keeps v _ _ _ push_blocks (fun _ => rfl) kind compound

/-- What neither a recorded statement nor the blocks change is not changed by the end of a block. -/
theorem closeTop_keeps {α : Type} {f : Builder → α} (hpush : ∀ b bound s, f (push bound s b) = f b)
    (hblocks : ∀ b blocks, f { b with blocks := blocks } = f b) : f (b.closeTop v) = f b := by
  unfold closeTop
  split
  · rfl
  · dsimp only
    split
    · rw [hpush, hblocks]
    · rw [hblocks]

theorem closeTop_draft : (b.closeTop v).draft = b.draft := b.closeTop_keeps v push_draft fun _ _ => rfl

theorem closeTop_turns : (b.closeTop v).turns = b.turns := b.closeTop_keeps v push_turns fun _ _ => rfl

theorem closeTop_countdown : (b.closeTop v).countdown = b.countdown := b.closeTop_keeps v push_countdown fun _ _ => rfl

theorem closeTop_blocks : (b.closeTop v).blocks = b.blocks.tail := by
  unfold closeTop
  split
  · next hb => rw [hb]; rfl
  · next hb =>
    rw [hb]
    dsimp only
    split
    · rw [push_blocks]
      rfl
    · rfl

theorem closeMany_blocks (k : Nat) : (b.closeMany v k).blocks = b.blocks.drop k := by
  induction k generalizing b with
  | zero => rfl
  | succ k ih =>
    change ((b.closeTop v).closeMany v k).blocks = _
    rw [ih, closeTop_blocks, List.drop_tail]

/-- A relation between two states that is kept when both close a block. -/
structure Closing (v w : View) (P : Builder → Builder → Prop) : Prop where
  blocks : ∀ {b c}, P b c → c.blocks = b.blocks
  top : ∀ {b c}, P b c → P (b.closeTop v) (c.closeTop w)

namespace Closing

variable {v w : View} {P : Builder → Builder → Prop} {b c : Builder} (H : Closing v w P) (h : P b c)
include H h

theorem whileFrom (p : Block → Bool) (blocks : List Block) : P (b.closeWhileFrom v p blocks) (c.closeWhileFrom w p blocks) := by
  induction blocks generalizing b c with
  | nil => exact h
  | cons block rest ih =>
    simp only [closeWhileFrom]
    split
    · exact ih (H.top h)
    · exact h

theorem finish : P (b.finish v) (c.finish w) := by
  unfold Builder.finish closeWhile
  rw [H.blocks h]
  exact H.whileFrom h _ _

theorem many (k : Nat) : P (b.closeMany v k) (c.closeMany w k) := by
  induction k generalizing b c with
  | zero => exact h
  | succ k ih => exact ih (H.top h)

theorem above (depth : Nat) : P (b.closeAbove v depth) (c.closeAbove w depth) := by
  unfold closeAbove
  rw [H.blocks h]
  exact H.many h _

theorem brace : P (b.closeBrace v) (c.closeBrace w) := by
  unfold closeBrace
  rw [H.blocks h]
  split
  · exact h
  · split
    · exact H.top h
    · exact H.finish (H.top h)

theorem endFrom (blocks : List Block) : P (b.closeEndFrom v blocks) (c.closeEndFrom w blocks) := by
  induction blocks generalizing b c with
  | nil => exact h
  | cons block rest ih =>
    simp only [closeEndFrom]
    split
    · exact ih (H.top h)
    · split
      · exact H.top h
      · exact H.finish (H.top h)

theorem atEnd : P (b.closeEnd v) (c.closeEnd w) := by
  unfold closeEnd
  rw [H.blocks h]
  exact H.endFrom h _

theorem dedent {i : Nat} (hindent : w.indentOf i = v.indentOf i) : P (b.dedent v i) (c.dedent w i) := by
  unfold Builder.dedent closeWhile
  rw [H.blocks h, hindent]
  have hclosed := H.whileFrom h (fun block => block.indent.any fun level => v.indentOf i ≤ level) b.blocks
  dsimp only
  rw [H.blocks hclosed]
  split
  · exact H.finish hclosed
  · exact hclosed

end Closing

theorem openControl_draft :
    (b.openControl v kind targets operands start .block none).draft = { b.draft with properties := #[] } := by
  unfold openControl
  dsimp only
  rw [push_draft]

theorem openControl_turns : (b.openControl v kind targets operands start .block none).turns = b.turns := by
  unfold openControl
  dsimp only
  rw [push_turns]

theorem openControl_countdown :
    (b.openControl v kind targets operands start .block none).countdown = b.countdown := by
  unfold openControl
  dsimp only
  rw [push_countdown]

end Builder

def Builder.turn (b : Builder) : Builder :=
  { b with countdown := b.countdown.poll.2, turns := b.turns + 1 }

/-- What the countdowns of two extractions may answer: both stop them, both let them go on, or only the
first one is stopped; then the second one goes on like a third one. -/
inductive Builder.Polls (rel : Builder → Builder → Prop) (mayStop : Prop)
    (runsOut : Builder → Builder → Prop) (b c : Builder) : Prop
  | stop (hb : b.countdown.poll.1 = true) (hc : c.countdown.poll.1 = true) (h : mayStop)
  | go (hb : b.countdown.poll.1 = false) (hc : c.countdown.poll.1 = false) (h : rel b.turn c.turn)
  | runOut {third : Builder} (hb : b.countdown.poll.1 = true) (hc : c.countdown.poll.1 = false)
    (h : runsOut { b with countdown := b.countdown.poll.2 } third) (hd : third.draft = b.draft)
    (hthird : rel third c.turn)

/-- A relation between the states of two extractions that every primitive change keeps. -/
structure Tracking (C : Correspondence) where
  rel : Builder → Builder → Prop
  /-- The countdowns may run out. -/
  mayStop : Prop
  /-- The first countdown may run out in a state, and the second one go on like a third one. -/
  runsOut : Builder → Builder → Prop
  alike : ∀ {b c : Builder}, rel b c → b.Alike C.span c
  withDraft : ∀ {b c : Builder} {d e : Draft}, rel b c → d.Alike C.span e →
    b.draft.arena ≤ d.arena → rel { b with draft := d } { c with draft := e }
  withWords : ∀ {b c : Builder}, rel b c → ∀ modifiers annotations,
    rel { b with modifiers, annotations } { c with modifiers, annotations }
  /-- Blocks may change in everything but their frames. -/
  withBlocks : ∀ {b c : Builder}, rel b c → ∀ blocks : List Block,
    blocks.map (·.frame) = b.blocks.map (·.frame) → rel { b with blocks } { c with blocks }
  pushPlain : ∀ {b c : Builder}, rel b c →
    rel { b with blocks := { frame := .plain } :: b.blocks }
      { c with blocks := { frame := .plain } :: c.blocks }
  closeTop : ∀ {v w : View} {b c : Builder}, C.view v w → rel b c → rel (b.closeTop v) (c.closeTop w)
  openControl : ∀ {v w : View} {b c : Builder}, C.view v w → rel b c →
    ∀ kind targets {operands : List ExprId} {start}, start < v.tokens.size →
    (∀ id ∈ operands, b.draft.arena.Fits maxOperandHeight id) →
    rel (b.openControl v kind targets operands start .block none)
      (c.openControl w kind targets operands start .block none)
  openScope : ∀ {v w : View} {b c : Builder}, C.view v w → rel b c →
    ∀ kind name {params params' : List Param} {s t : Span},
    List.Forall₂ (Param.Alike C.span) params params' → (∀ p ∈ params, v.Declares p) → C.span s t →
    rel (b.openScope v kind name params s false none) (c.openScope w kind name params' t false none)
  push : ∀ {v w : View} {b c : Builder}, C.view v w → rel b c → ∀ {s t : Statement},
    s.Alike C.span b.draft.arena t → s.kind.isMarker = false → (s.kind = .unparsed → s.Idle) →
    s.controlTag = b.currentTag → rel (b.push v.bound s) (c.push w.bound t)
  poll : ∀ {b c : Builder}, rel b c → b.Polls rel mayStop runsOut c

/-- Every deferred body starts at one of the first `size` tokens. -/
def Builder.Started (size : Nat) (b : Builder) : Prop := ∀ lambda ∈ b.draft.deferred, lambda.start < size

namespace Tracking

variable {C : Correspondence} (R : Tracking C)

/-- Both extractions went on in their turn, nothing that was recorded is lost, and nothing more is
deferred. -/
structure Reach (b b' c' : Builder) : Prop where
  rel : R.rel b' c'
  arena : b.draft.arena ≤ b'.draft.arena
  deferred : ∀ lambda ∈ b'.draft.deferred, lambda ∈ b.draft.deferred
  turns : b'.turns = b.turns

variable {R} {v w : View} {b c : Builder} {start : Nat}

theorem Reach.refl (h : R.rel b c) : R.Reach b b c := ⟨h, le_refl _, fun _ hl => hl, rfl⟩

theorem Reach.of_draft_eq {b' c' : Builder} (h : R.rel b' c') (hd : b'.draft = b.draft)
    (ht : b'.turns = b.turns) : R.Reach b b' c' :=
  ⟨h, le_of_eq (congrArg (·.arena) hd.symm), fun _ hl => hd ▸ hl, ht⟩

theorem Reach.trans {b' b'' c' c'' : Builder} (h : R.Reach b b' c') (h' : R.Reach b' b'' c'') :
    R.Reach b b'' c'' :=
  ⟨h'.rel, le_trans h.arena h'.arena, fun lambda hl => h.deferred lambda (h'.deferred lambda hl),
    h'.turns.trans h.turns⟩

theorem withModifiers (h : R.rel b c) (modifiers : List String) :
    R.rel { b with modifiers := modifiers } { c with modifiers := modifiers } := by
  have hc : ({ c with modifiers := modifiers } : Builder) =
      { c with modifiers := modifiers, annotations := b.annotations } := by
    rw [← (R.alike h).annotations]
  rw [hc]
  exact R.withWords h modifiers b.annotations

theorem withAnnotations (h : R.rel b c) (annotations : List String) :
    R.rel { b with annotations := annotations } { c with annotations := annotations } := by
  have hc : ({ c with annotations := annotations } : Builder) =
      { c with modifiers := b.modifiers, annotations := annotations } := by
    rw [← (R.alike h).modifiers]
  rw [hc]
  exact R.withWords h b.modifiers annotations

/-! ## Opening and closing blocks -/

theorem reach_modifyTop (f : Block → Block) (hf : ∀ block, (f block).frame = block.frame) (h : R.rel b c) :
    R.Reach b
      (match b.blocks with
        | [] => b
        | block :: rest => { b with blocks := f block :: rest })
      (match c.blocks with
        | [] => c
        | block :: rest => { c with blocks := f block :: rest }) := by
  rw [(R.alike h).blocks]
  rcases hb : b.blocks with _ | ⟨block, rest⟩
  · exact .refl h
  · refine .of_draft_eq (R.withBlocks h (f block :: rest) ?_) rfl rfl
    rw [hb, List.map_cons, List.map_cons, hf]

variable (hv : C.view v w)
include hv

theorem reach_closeTop (h : R.rel b c) : R.Reach b (b.closeTop v) (c.closeTop w) :=
  .of_draft_eq (R.closeTop hv h) (b.closeTop_draft v) (b.closeTop_turns v)

theorem closing (a : Builder) : Builder.Closing v w (R.Reach a) :=
  ⟨fun h => (R.alike h.1).blocks, fun h => h.trans (reach_closeTop hv h.1)⟩

theorem reach_openControl (kind : ControlKind) (targets : List String) {operands : List ExprId}
    (ho : ∀ id ∈ operands, b.draft.arena.Fits maxOperandHeight id) (hstart : start < v.tokens.size) (body : Body)
    (indent : Option Nat) (h : R.rel b c) :
    R.Reach b (b.openControl v kind targets operands start body indent)
      (c.openControl w kind targets operands start body indent) := by
  have hopen : R.Reach b (b.openControl v kind targets operands start .block none)
      (c.openControl w kind targets operands start .block none) := by
    have hdraft := b.openControl_draft v kind targets operands start
    refine ⟨R.openControl hv h kind targets hstart ho, ?_, fun lambda hl => ?_, ?_⟩
    · exact le_of_eq (by rw [hdraft])
    · rw [hdraft] at hl
      exact hl
    · exact b.openControl_turns v kind targets operands start
  cases body with
  | empty =>
    exact (closing hv b).finish ((closing hv b).top hopen)
  | block =>
    exact hopen.trans (reach_modifyTop (fun block => { block with indent := indent })
      (fun _ => rfl) hopen.1)
  | single =>
    exact hopen.trans (reach_modifyTop (fun block => { block with single := true, indent := indent })
      (fun _ => rfl) hopen.1)

theorem reach_openScope (kind : ScopeKind) (name : String)
    {params params' : List Param} (hp : List.Forall₂ (Param.Alike C.span) params params')
    (hd : ∀ p ∈ params, v.Declares p) {s t : Span} (hs : C.span s t) (single : Bool) (indent : Option Nat) (h : R.rel b c) :
    R.Reach b (b.openScope v kind name params s single indent)
      (c.openScope w kind name params' t single indent) :=
  have hopen : R.Reach b (b.openScope v kind name params s false none)
      (c.openScope w kind name params' t false none) :=
    .of_draft_eq (R.openScope hv h kind name hp hd hs) rfl rfl
  hopen.trans (reach_modifyTop (fun block => { block with single := single, indent := indent })
    (fun _ => rfl) hopen.1)

/-! ## Recording statements -/

theorem reach_push {s t : Statement} (hs : s.Alike C.span b.draft.arena t)
    (hk : s.kind.isMarker = false) (hu : s.kind = .unparsed → s.Idle)
    (ht : s.controlTag = b.currentTag) (h : R.rel b c) : R.Reach b (b.push v.bound s) (c.push w.bound t) :=
  .of_draft_eq (R.push hv h hs hk hu ht) (b.push_draft v.bound s) (b.push_turns v.bound s)

theorem reach_properties (owner : Option String) {tag : Nat} (ht : tag = b.currentTag) {ps qs : List Property}
    (hp : List.Forall₂ (Property.Alike C.span b.draft.arena) ps qs) (h : R.rel b c) :
    R.Reach b (ps.foldl (fun x p => x.push v.bound (Builder.propertyStatement owner tag p)) b)
      (qs.foldl (fun x p => x.push w.bound (Builder.propertyStatement owner tag p)) c) := by
  generalize hsize : b.draft.arena = r at hp
  induction hp generalizing b c with
  | nil => exact .refl h
  | @cons p q ps qs hpq _ ih =>
    have hstatement : (Builder.propertyStatement owner tag p).Alike C.span b.draft.arena
        (Builder.propertyStatement owner tag q) := by
      refine ⟨rfl, ?_, rfl, .cons (hsize ▸ hpq.value) .nil, hpq.span, rfl⟩
      simp only [Builder.propertyStatement, hpq.key]
    have hpush := reach_push hv hstatement rfl (fun hu => nomatch hu) ht h
    refine hpush.trans (ih ?_ hpush.1 ?_)
    · unfold Builder.currentTag
      rw [Builder.push_blocks]
      exact ht
    · rw [Builder.push_draft, hsize]

theorem reach_emit {kind : StatementKind} (hk : kind.isMarker = false) {targets : List String}
    (compound : Bool) {operands : List ExprId} (hu : kind = .unparsed → targets = [] ∧ operands = [])
    (ho : ∀ id ∈ operands, b.draft.arena.Fits maxOperandHeight id) (hstart : start < v.tokens.size) (h : R.rel b c) :
    R.Reach b (b.emit v kind targets compound operands start)
      (c.emit w kind targets compound operands start) := by
  have ha := R.alike h
  have hclear : R.Reach b { b with draft.properties := #[] } { c with draft.properties := #[] } :=
    ⟨R.withDraft h (ha.draft.withProperties .nil) (le_refl _), le_refl _, fun _ hl => hl, rfl⟩
  have hspan : C.span (v.spanSince start b.pos) (w.spanSince start c.pos) := by
    rw [ha.pos]
    exact C.spanBetween hv _ _ hstart
  have hpush := reach_push (b := { b with draft.properties := #[] })
    (s := ⟨kind, targets, compound, operands, v.spanSince start b.pos, b.currentTag⟩)
    (t := ⟨kind, targets, compound, operands, w.spanSince start c.pos, b.currentTag⟩) hv
    ⟨rfl, rfl, rfl, ⟨rfl, ho⟩, hspan, rfl⟩ hk hu rfl hclear.rel
  unfold Builder.emit
  dsimp only
  rw [ha.currentTag, ← Array.foldl_toList, ← Array.foldl_toList]
  refine hclear.trans (hpush.trans (reach_properties hv _ ?_ ?_ hpush.1))
  · unfold Builder.currentTag
    rw [Builder.push_blocks]
  · rw [Builder.push_draft]
    exact ha.draft.properties

theorem reach_emitUnparsed (hstart : start < v.tokens.size) (h : R.rel b c) :
    R.Reach b (b.emitUnparsed v start) (c.emitUnparsed w start) := by
  have ha := R.alike h
  have hclear : R.rel { b with draft.deferred := #[], draft.properties := #[] }
      { c with draft.deferred := #[], draft.properties := #[] } := by
    refine R.withDraft h ?_ (le_refl _)
    exact ha.draft.clearDeferred.withProperties .nil
  have hplain : StatementKind.isMarker .unparsed = false := rfl
  have hemit := reach_emit hv hplain false (fun _ => ⟨rfl, rfl⟩) (List.forall_mem_nil _) hstart hclear
  have hwords := R.withModifiers hemit.1 []
  have hreach : R.Reach b _ _ := ⟨hwords, hemit.arena, fun lambda hl =>
    absurd (hemit.deferred lambda hl) (Array.not_mem_empty _), hemit.turns⟩
  exact (closing hv b).finish hreach

end Tracking

/-! ## Steps that agree -/

/-- Both extractions went on, nothing that was recorded is lost, and what is deferred starts at one of
the first `size` tokens. -/
structure Tracking.Goes {C : Correspondence} (R : Tracking C) (size : Nat) (b b' c' : Builder) :
    Prop where
  rel : R.rel b' c'
  arena : b.draft.arena ≤ b'.draft.arena
  started : b'.Started size
  turns : b.turns ≤ b'.turns

theorem Tracking.Goes.trans {C : Correspondence} {R : Tracking C} {size : Nat}
    {b b' b'' c' c'' : Builder} (h : R.Goes size b b' c') (h' : R.Goes size b' b'' c'') :
    R.Goes size b b'' c'' :=
  ⟨h'.rel, le_trans h.arena h'.arena, h'.started, Nat.le_trans h.turns h'.turns⟩

theorem Tracking.Reach.goes {C : Correspondence} {R : Tracking C} {size : Nat} {b b' c' : Builder}
    (h : R.Reach b b' c') (hs : b.Started size) : R.Goes size b b' c' :=
  ⟨h.rel, h.arena, fun lambda hl => hs lambda (h.deferred lambda hl), Nat.le_of_eq h.turns.symm⟩

/-- How two steps that started in tracked states end: both answer, and alike, or both are cancelled, or
the first one is, and the second one ends as a third one does. -/
inductive Tracking.Meets {C : Correspondence} (R : Tracking C) (size : Nat) {α : Type}
    (A : ExprArena → α → α → Prop) :
    Builder → Except ExtractError α × Builder → Except ExtractError α × Builder → Prop
  | ok {a a' : α} {b b' c' : Builder} (h : A b'.draft.arena a a') (hgoes : R.Goes size b b' c') :
    Meets R size A b (.ok a, b') (.ok a', c')
  | cancelled {id id' : String} {k k' : Nat} {b b' c' : Builder} (h : R.mayStop) :
    Meets R size A b (.error (.cancelled id k), b') (.error (.cancelled id' k'), c')
  | runOut {id : String} {k : Nat} {b b' third : Builder} {x y : Except ExtractError α × Builder}
    (h : R.runsOut b' third) (harena : b.draft.arena ≤ third.draft.arena)
    (hthird : Meets R size A third x y) : Meets R size A b (.error (.cancelled id k), b') y

def Walk.next {α β : Type} (f : α → Walk β) (v : View) :
    Except ExtractError α × Builder → Except ExtractError β × Builder
  | (.ok a, b) => f a v b
  | (.error e, b) => (.error e, b)

theorem Walk.bind_apply {α β : Type} (p : Walk α) (f : α → Walk β) (v : View) (b : Builder) :
    (p >>= f) v b = next f v (p v b) := rfl

namespace Tracking.Meets

variable {C : Correspondence} {R : Tracking C} {size : Nat} {b b' c' : Builder} {α β : Type}
variable {A : ExprArena → α → α → Prop} {B : ExprArena → β → β → Prop} {x y : Except ExtractError α × Builder}

theorem of_goes (hgoes : R.Goes size b b' c') (h : R.Meets size A b' x y) : R.Meets size A b x y := by
  cases h with
  | ok ha h => exact .ok ha (hgoes.trans h)
  | cancelled h => exact .cancelled h
  | runOut h harena hthird => exact .runOut h (le_trans hgoes.arena harena) hthird

theorem next {v w : View} {r : ExprArena} {f g : α → Walk β} (h : R.Meets size A b x y)
    (hsize : r ≤ b.draft.arena)
    (hf : ∀ {a a' b' c'}, A b'.draft.arena a a' → r ≤ b'.draft.arena → R.rel b' c' →
      b'.Started size → R.Meets size B b' (f a v b') (g a' w c')) :
    R.Meets size B b (Walk.next f v x) (Walk.next g w y) := by
  induction h with
  | ok ha hgoes => exact .of_goes hgoes (hf ha (le_trans hsize hgoes.arena) hgoes.rel hgoes.started)
  | cancelled h => exact .cancelled h
  | runOut h harena _ ih => exact .runOut h harena (ih (le_trans hsize harena))

end Tracking.Meets

/-- Two steps, taken under two views, lead from tracked states in which at least an arena is recorded
to tracked states, and answer alike. -/
def Walk.Agree {C : Correspondence} (R : Tracking C) (v w : View) (r : ExprArena) {α : Type}
    (A : ExprArena → α → α → Prop) (p q : Walk α) : Prop :=
  ∀ b c, R.rel b c → b.Started v.tokens.size → r ≤ b.draft.arena →
    R.Meets v.tokens.size A b (p v b) (q w c)

abbrev Walk.Agrees {C : Correspondence} (R : Tracking C) (v w : View) (r : ExprArena) {α : Type}
    (A : ExprArena → α → α → Prop) (p : Walk α) : Prop := Agree R v w r A p p

theorem Walk.checkpoint_of_stop (v : View) {b : Builder} (h : b.countdown.poll.1 = true) :
    checkpoint v b =
      (.error (.cancelled v.unit.id b.statements), { b with countdown := b.countdown.poll.2 }) := by
  unfold checkpoint
  split
  · next heq => rw [heq]
  · next heq =>
    rw [heq] at h
    cases h

theorem Walk.checkpoint_of_go (v : View) {b : Builder} (h : b.countdown.poll.1 = false) :
    checkpoint v b = (.ok (), b.turn) := by
  unfold checkpoint Builder.turn
  split
  · next heq =>
    rw [heq] at h
    cases h
  · next heq => rw [heq]

namespace Walk.Agree

variable {C : Correspondence} {R : Tracking C} {v w : View} {r : ExprArena} {α β : Type}
variable {A : ExprArena → α → α → Prop} {B : ExprArena → β → β → Prop} {p q p' q' : Walk α} {i k start : Nat}

theorem weaken (h : Agree R v w r A p q) {m : ExprArena} (hm : r ≤ m) : Agree R v w m A p q :=
  fun b c hb hs hsize => h b c hb hs (le_trans hm hsize)

theorem pure {a a' : α} (h : ∀ m, r ≤ m → A m a a') : Agree R v w r A (pure a) (pure a') :=
  fun _ _ hb hs hsize => .ok (h _ hsize) ((Tracking.Reach.refl hb).goes hs)

theorem bind {f g : α → Walk β} (hp : Agree R v w r A p q)
    (hf : ∀ m a a', r ≤ m → A m a a' → Agree R v w m B (f a) (g a')) :
    Agree R v w r B (p >>= f) (q >>= g) := by
  intro b c hb hs hsize
  rw [bind_apply, bind_apply]
  refine (hp b c hb hs hsize).next hsize fun {a a' b' c'} ha hsize' hrel hstarted => ?_
  exact hf _ _ _ hsize' ha b' c' hrel hstarted (le_refl _)

theorem same {f g : α → Walk β} (hp : Agree R v w r Same p q) (hf : ∀ a, Agree R v w r B (f a) (g a)) :
    Agree R v w r B (p >>= f) (q >>= g) :=
  hp.bind fun _ a a' hm ha => by
    cases ha
    exact (hf a).weaken hm

theorem ite {c : Prop} [Decidable c] (ht : c → Agree R v w r A p q) (he : ¬c → Agree R v w r A p' q') :
    Agree R v w r A (if c then p else p') (if c then q else q') := by
  split
  · next hc => exact ht hc
  · next hc => exact he hc

theorem branch {c : Prop} [Decidable c] (hrest : Agree R v w r A p' q')
    (hp : Agree R v w r A p' q' → Agree R v w r A p q) :
    Agree R v w r A (if c then p else p') (if c then q else q') :=
  ite (fun _ => hp hrest) fun _ => hrest

theorem step {c : Prop} [Decidable c] {p q : Walk Unit} {f g : Unit → Walk β}
    (hp : Agree R v w r Same p q) (hf : Agree R v w r B (f ()) (g ())) :
    Agree R v w r B (if c then p >>= f else f ()) (if c then q >>= g else g ()) :=
  branch hf fun hf => hp.same fun _ => hf

theorem optional {c : Prop} [Decidable c] {p q : Walk Unit} (hp : Agree R v w r Same p q) :
    Agree R v w r Same (if c then p else Pure.pure ()) (if c then q else Pure.pure ()) :=
  ite (fun _ => hp) fun _ => pure fun _ _ => rfl

theorem within {change change' : View → View} (ht : (change v).tokens = v.tokens)
    (h : Agree R (change v) (change' w) r A p q) : Agree R v w r A (within change p) (within change' q) := by
  unfold Walk.Agree at h
  rw [ht] at h
  exact h

theorem view {f g : View → Walk β} (h : Agree R v w r B (f v) (g w)) :
    Agree R v w r B (Walk.view >>= f) (Walk.view >>= g) := h

theorem look {f g : Builder → α} (h : ∀ {b c : Builder}, R.rel b c → A b.draft.arena (f b) (g c)) :
    Agree R v w r A (look f) (look g) :=
  fun _ _ hb hs _ => .ok (h hb) ((Tracking.Reach.refl hb).goes hs)

theorem act {f g : View → Builder → Builder}
    (h : ∀ {b c : Builder}, R.rel b c → r ≤ b.draft.arena → R.Reach b (f v b) (g w c)) :
    Agree R v w r Same (act f) (act g) :=
  fun _ _ hb hs hsize => .ok rfl ((h hb hsize).goes hs)

theorem hereWith {G : α → α → Prop} {f : View → Nat → α} (h : ∀ i, G (f v i) (f w i)) :
    Agrees R v w r (fun _ => G) (here f) := by
  intro b c hb hs _
  refine .ok ?_ ((Tracking.Reach.refl hb).goes hs)
  rw [(R.alike hb).pos]
  exact h _

theorem here {f : View → Nat → α} (h : ∀ i, f w i = f v i) : Agrees R v w r Same (Walk.here f) :=
  hereWith (G := Eq) fun i => (h i).symm

/-- Two steps agree where they start at an index. -/
def From (R : Tracking C) (v w : View) (r : ExprArena) (i : Nat) {α : Type} (A : ExprArena → α → α → Prop)
    (p q : Walk α) : Prop :=
  ∀ b c, R.rel b c → b.Started v.tokens.size → r ≤ b.draft.arena → b.pos = i →
    R.Meets v.tokens.size A b (p v b) (q w c)

theorem fromAny (h : Agree R v w r A p q) (i : Nat) : From R v w r i A p q :=
  fun b c hb hs hsize _ => h b c hb hs hsize

theorem seen {φ : View → Nat → Bool} (hφ : ∀ i, φ w i = φ v i) {f g : Bool → Walk α}
    (h : ∀ i, From R v w r i A (f (φ v i)) (g (φ v i))) :
    Agree R v w r A (Walk.here φ >>= f) (Walk.here φ >>= g) := by
  intro b c hb hs hsize
  have hrun {f : Bool → Walk α} {v : View} {b : Builder} :
      (Walk.here φ >>= f) v b = f (φ v b.pos) v b := rfl
  rw [hrun, hrun, (R.alike hb).pos, hφ]
  exact h b.pos b c hb hs hsize rfl

theorem From.ite {c : Prop} [Decidable c] (ht : c → From R v w r i A p q) (he : ¬c → From R v w r i A p' q') :
    From R v w r i A (if c then p else p') (if c then q else q') := by
  split
  · next hc => exact ht hc
  · next hc => exact he hc

theorem From.pos {f g : Nat → Walk α} (h : From R v w r i A (f i) (g i)) :
    From R v w r i A (Walk.pos >>= f) (Walk.pos >>= g) := by
  intro b c hb hs hsize hi
  have hrun {f : Nat → Walk α} {v : View} {b : Builder} : (Walk.pos >>= f) v b = f b.pos v b := rfl
  rw [hrun, hrun, (R.alike hb).pos, hi]
  exact h b c hb hs hsize hi

theorem From.move {p q : View → Builder → Builder} {f g : Unit → Walk β}
    (hp : Agree R v w r Same (Walk.act p) (Walk.act q)) (hpos : ∀ b, (p v b).pos = b.pos + k)
    (hf : From R v w r (i + k) B (f ()) (g ())) : From R v w r i B (Walk.act p >>= f) (Walk.act q >>= g) := by
  intro b c hb hs hsize hi
  have hmeets : R.Meets v.tokens.size Same b (.ok (), p v b) (.ok (), q w c) := hp b c hb hs hsize
  cases hmeets with
  | ok _ hgoes =>
    refine .of_goes hgoes (hf _ _ hgoes.rel hgoes.started (le_trans hsize hgoes.arena) ?_)
    rw [hpos, hi]

theorem parse {p q : Parse α} (hp : Parse.Agree C v w r A p q) :
    Agree R v w r (fun m => Option.Rel (A m)) (parse p) (parse q) := by
  intro b c hb hs hsize
  obtain ⟨hr, hd, hle⟩ := hp b.draft c.draft (R.alike hb).draft hsize
  have hrel : R.rel { b with draft := (p v b.draft).2 } { c with draft := (q w c.draft).2 } :=
    R.withDraft hb hd hle.arena
  refine .ok hr ⟨hrel, hle.arena, fun lambda hl => ?_, Nat.le_refl _⟩
  obtain ⟨added, hadded, hstarts⟩ := hle.deferred
  have hl : lambda ∈ (p v b.draft).2.deferred.toList := Array.mem_toList_iff.mpr hl
  rw [hadded] at hl
  rcases List.mem_append.mp hl with hl | hl
  · exact hs lambda (Array.mem_toList_iff.mp hl)
  · exact hstarts lambda hl

theorem parseList {p q : Parse (List ExprId)} (hp : Parse.Agree C v w r (KnownAll k) p q) :
    Agree R v w r (KnownAll k) (parseList p) (parseList q) := by
  refine (parse hp).bind fun m x y _ hx => pure fun k hk => ?_
  cases hx with
  | none => exact .nil
  | some hx => exact hx.mono hk

theorem pos : Agrees R v w r Same pos := look fun hb => (R.alike hb).pos.symm

theorem alloc (hv : C.view v w) {kind : ExprKind} (hstart : start < v.tokens.size)
    (hc : ∀ child ∈ Expr.children ⟨kind, ⟨0, 0⟩⟩, r.Fits k child) :
    Agrees R v w r (Known (k + 1)) (alloc kind start) := by
  intro b c hb hs hsize
  have ha := R.alike hb
  have hspan : C.span (v.spanSince start b.pos) (w.spanSince start c.pos) := by
    rw [ha.pos]
    exact C.spanBetween hv _ _ hstart
  obtain ⟨hr, hd, hle⟩ := Parse.Agree.alloc (C := C) (v := v) (w := w) (s := v.spanSince start b.pos)
    hc hspan b.draft c.draft ha.draft hsize
  have hrel : R.rel { b with draft := (Parse.alloc kind (v.spanSince start b.pos) v b.draft).2 }
      { c with draft := (Parse.alloc kind (w.spanSince start c.pos) w c.draft).2 } :=
    R.withDraft hb hd hle.arena
  refine .ok ?_ ⟨hrel, hle.arena, hs, Nat.le_refl _⟩
  cases hr with
  | some hr => exact hr

theorem seek (i : Nat) : Agrees R v w r Same (seek i) :=
  act fun hb _ =>
    ⟨R.withDraft hb ((R.alike hb).draft.withPos i) (le_refl _), le_refl _, fun _ hl => hl, rfl⟩

theorem advance (k : Nat) : Agrees R v w r Same (advance k) :=
  act fun {b c} hb _ => by
    rw [(R.alike hb).pos]
    exact ⟨R.withDraft hb ((R.alike hb).draft.withPos (b.pos + k)) (le_refl _), le_refl _,
      fun _ hl => hl, rfl⟩

theorem resume (i : Nat) : Agrees R v w r Same (Walk.act fun _ b => b.seek (max b.pos i)) :=
  act fun {b c} hb _ => by
    rw [(R.alike hb).pos]
    exact ⟨R.withDraft hb ((R.alike hb).draft.withPos (max b.pos i)) (le_refl _), le_refl _,
      fun _ hl => hl, rfl⟩

theorem isOp (ha : v.Alike w) (op : String) : Agrees R v w r Same (isOp op) :=
  here fun i => ha.isOpAt i op

theorem isKeyword (ha : v.Alike w) (word : String) : Agrees R v w r Same (isKeyword word) :=
  here fun i => ha.isKeywordAt i word

theorem atBoundary (ha : v.Alike w) : Agrees R v w r Same atBoundary := here ha.atBoundary

theorem eatOp (ha : v.Alike w) (op : String) : Agrees R v w r Same (eatOp op) := by
  intro b c hb hs _
  unfold Walk.eatOp
  rw [(R.alike hb).pos, ha.isOpAt]
  split
  · exact .ok rfl
      ⟨R.withDraft hb ((R.alike hb).draft.withPos _) (le_refl _), le_refl _, hs, Nat.le_refl _⟩
  · exact .ok rfl ((Tracking.Reach.refl hb).goes hs)

theorem finish (hv : C.view v w) : Agrees R v w r Same finish :=
  act fun hb _ => (R.closing hv _).finish (.refl hb)

theorem clearModifiers : Agrees R v w r Same clearModifiers :=
  act fun hb _ => .of_draft_eq (R.withModifiers hb []) rfl rfl

theorem addModifier (word : String) :
    Agrees R v w r Same (Walk.act fun _ b => { b with modifiers := b.modifiers ++ [word] }) :=
  act fun hb _ => by
    rw [(R.alike hb).modifiers]
    exact .of_draft_eq (R.withModifiers hb _) rfl rfl

theorem clearAnnotations : Agrees R v w r Same clearAnnotations :=
  act fun hb _ => .of_draft_eq (R.withAnnotations hb []) rfl rfl

theorem addAnnotation (name : String) :
    Agrees R v w r Same (Walk.act fun _ b => { b with annotations := b.annotations ++ [name] }) :=
  act fun hb _ => by
    rw [(R.alike hb).annotations]
    exact .of_draft_eq (R.withAnnotations hb _) rfl rfl

theorem pushPlain : Agrees R v w r Same (pushBlock { frame := .plain }) :=
  act fun hb _ => .of_draft_eq (R.pushPlain hb) rfl rfl

theorem emit (hv : C.view v w) {kind : StatementKind} (hk : kind.isPlain = true) (targets : List String)
    (compound : Bool) {operands : List ExprId} (ho : ∀ id ∈ operands, r.Fits maxOperandHeight id)
    (hstart : start < v.tokens.size) : Agrees R v w r Same (emit kind targets compound operands start) :=
  act fun hb hsize => Tracking.reach_emit hv (StatementKind.isMarker_of_isPlain hk) compound
    (fun hu => absurd hu (StatementKind.ne_unparsed_of_isPlain hk))
    (fun id hid => (ho id hid).mono hsize) hstart hb

theorem emitUnparsed (hv : C.view v w) (hstart : start < v.tokens.size) : Agrees R v w r Same (emitUnparsed start) :=
  act fun hb _ => Tracking.reach_emitUnparsed hv hstart hb

theorem openControl (hv : C.view v w) (kind : ControlKind) (targets : List String) {operands : List ExprId}
    (ho : ∀ id ∈ operands, r.Fits maxOperandHeight id) (hstart : start < v.tokens.size) (body : Body)
    (indent : Option Nat) : Agrees R v w r Same (openControl kind targets operands start body indent) :=
  act fun hb hsize => Tracking.reach_openControl hv kind targets
    (fun id hid => (ho id hid).mono hsize) hstart body indent hb

def KnownBodies (size : Nat) (r : ExprArena) (x y : List Deferred) : Prop :=
  x = y ∧ ∀ l ∈ x, l.start < size ∧ ∀ id ∈ l.sources, r.Fits maxOperandHeight id

theorem takeDeferred : Agrees R v w r (KnownBodies v.tokens.size) takeDeferred := by
  intro b c hb hs _
  have ha := R.alike hb
  refine .ok ⟨?_, fun l hl => ?_⟩ ⟨R.withDraft hb ha.draft.clearDeferred (le_refl _),
    le_refl _, fun _ hl => absurd hl (Array.not_mem_empty _), Nat.le_refl _⟩
  · rw [ha.draft.deferred]
  · have hl := Array.mem_toList_iff.mp hl
    exact ⟨hs l hl, ha.draft.sources l hl⟩

theorem checkpoint : Agrees R v w r Same checkpoint := by
  intro b c hb hs _
  cases R.poll hb with
  | stop hb' hc h =>
    rw [checkpoint_of_stop v hb', checkpoint_of_stop w hc]
    exact .cancelled h
  | go hb' hc h =>
    rw [checkpoint_of_go v hb', checkpoint_of_go w hc]
    exact .ok rfl ⟨h, le_refl _, hs, Nat.le_succ _⟩
  | @runOut third hb' hc h hd hthird =>
    rw [checkpoint_of_stop v hb', checkpoint_of_go w hc]
    refine .runOut h (le_of_eq ?_) (.ok rfl ⟨hthird, le_refl _, ?_, Nat.le_refl _⟩)
    · rw [hd]
    · intro lambda hl
      rw [hd] at hl
      exact hs lambda hl

end Walk.Agree
end TaintScan
