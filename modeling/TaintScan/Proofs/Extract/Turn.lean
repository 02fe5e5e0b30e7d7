import TaintScan.Proofs.Extract.Countdown

/-! # Turns

The states before the turns of the statement loop are those in which a step ends under shorter
countdowns. `Walk.Trace` lists them, and `Walk.Legs` says what becomes of the annotations from one to
the next.
-/
namespace TaintScan

/-! ## Annotations in a state -/

/-- The annotations that wait for a declaration, and the header of each scope with those that it has taken. -/
structure Notes where
  pending : List String
  taken : Array (Span × List String)

def Builder.notes (b : Builder) : Notes :=
  ⟨b.annotations, b.scopes.map fun s => (s.headerSpan, s.annotations)⟩

namespace View

/-- The name of the attribute list that opens at an index, if a declaration follows it. -/
def attributeAt? (v : View) (opener : Nat) : Option String :=
  (v.matching? opener).bind fun close =>
    if v.declarationFollows close then some (v.attributeName (opener + 1) close) else none

/-- The name of the annotation, decorator or attribute list that starts at an index. -/
def annotationAt? (v : View) (start : Nat) : Option String :=
  let name? :=
    if v.isOpAt start "@" then
      if v.language != .php && v.isIdentAt (start + 1) then
        some (v.annotationName (v.limit - start) (start + 1)).1
      else none
    else if v.isOpAt start "[" then
      if v.language == .csharp && v.isIdentAt (start + 1) then v.attributeAt? start else none
    else if v.isOpAt start "#" then
      if v.language == .php && v.isOpAt (start + 1) "[" then v.attributeAt? (start + 1) else none
    else none
  name?.filter (!·.isEmpty)

/-- A function or a type may be declared at an index: a keyword of one stands there, or what has the shape
of a method, or the word before a resource. -/
def declaresAt (v : View) (start : Nat) : Bool :=
  ((v.tok? start).any fun t => t.kind == .keyword &&
    (v.dialect.functionKeywords.contains t.text || v.dialect.typeKeywords.contains t.text)) ||
    (v.methodShape? start).isSome || v.textAt start == "using"

end View

/-- What a header that starts at an index does to the annotations that wait. -/
inductive Notes.Takes (v : View) (start : Nat) (l : Notes) : Notes → Prop
  /-- It is given up. -/
  | passes : Takes v start l l
  /-- A scope takes them. -/
  | opens (last : Nat) : Takes v start l ⟨[], l.taken.push (v.spanBetween start last, l.pending)⟩
  /-- They are dropped with a declaration that has no body. -/
  | drops : Takes v start l { l with pending := [] }

/-- What the statement that starts at an index does to the annotations. -/
inductive Notes.Step (v : View) (start : Nat) (l : Notes) : Notes → Prop
  | reads {name : String} (h : v.annotationAt? start = some name) :
    Step v start l { l with pending := l.pending ++ [name] }
  | declares (h : v.annotationAt? start = none) (hd : v.declaresAt start = true) {m : Notes} (ht : l.Takes v start m) :
    Step v start l m
  | other (h : v.annotationAt? start = none) : Step v start l l

/-- In a state, tokens are read up to a limit: the one of the unit, or the end of a body that is being
replayed, around which a block is open. -/
structure View.Reaches (whole : View) (limit : Nat) (b : Builder) : Prop where
  lt : b.pos < limit
  le : limit ≤ whole.limit
  whole : limit = whole.limit ∨ b.blocks ≠ []

/-- The view in which a statement that starts at an index is read up to a limit. -/
def View.cut (whole : View) (limit start : Nat) : View := { whole with limit := limit, stmtStart := start }

/-- A turn that starts in a state leaves these annotations. -/
def View.Turn (whole : View) (b : Builder) (l : Notes) : Prop :=
  ∃ limit, whole.Reaches limit b ∧ b.notes.Step (whole.cut limit b.pos) b.pos l

/-! ## Calm changes -/

def Builder.kinds (b : Builder) : List ScopeKind := (b.scopes.map (·.kind)).toList

/-- The annotations, the scopes and what the bodies to be replayed depend on are the same in two states. -/
structure Builder.Keeps (b c : Builder) : Prop where
  notes : c.notes = b.notes
  kinds : c.kinds = b.kinds
  pos : c.pos = b.pos
  arena : c.draft.arena = b.draft.arena
  deferred : c.draft.deferred = b.draft.deferred
  depth : c.draft.depth = b.draft.depth

theorem Builder.Keeps.refl (b : Builder) : b.Keeps b := ⟨rfl, rfl, rfl, rfl, rfl, rfl⟩

theorem Builder.Keeps.trans {a b c : Builder} (h : a.Keeps b) (h' : b.Keeps c) : a.Keeps c :=
  ⟨h'.notes.trans h.notes, h'.kinds.trans h.kinds, h'.pos.trans h.pos, h'.arena.trans h.arena,
    h'.deferred.trans h.deferred, h'.depth.trans h.depth⟩

/-- A change of the state that does not look at the countdown and leaves the annotations and the bodies
where they are. -/
structure Builder.Calm (φ : Builder → Builder) (b : Builder) : Prop where
  timed : ∀ t, φ (b.timed t) = (φ b).timed t
  keeps : b.Keeps (φ b)

namespace Builder.Calm

variable {φ ψ : Builder → Builder} {b : Builder}

theorem comp (h : Calm φ b) (h' : Calm ψ (φ b)) : Calm (fun b => ψ (φ b)) b := by
  refine ⟨fun t => ?_, h.keeps.trans h'.keeps⟩
  rw [h.timed, h'.timed]

theorem push (bound : Nat) (s : Statement) (b : Builder) : Calm (Builder.push bound s) b := by
  refine ⟨fun t => b.push_timed t bound s, ?_⟩
  have hmap {α : Type} {f : Scope → α} (hf : ∀ scope s, f (scope.push s) = f scope) :
      (b.push bound s).scopes.map f = b.scopes.map f := by
    refine Array.ext_getElem? fun i => ?_
    rw [Array.getElem?_map, Array.getElem?_map, push_scope]
    split
    · simp [Function.comp_def, hf]
    · rfl
  have hnotes := hmap (f := fun s => (s.headerSpan, s.annotations)) fun _ _ => rfl
  have hkinds := hmap (f := (·.kind)) fun _ _ => rfl
  obtain ⟨_, _, hpush⟩ := b.push_eq bound s
  rw [hpush] at hnotes hkinds ⊢
  exact ⟨congrArg (Notes.mk b.annotations) hnotes, congrArg Array.toList hkinds, rfl, rfl, rfl, rfl⟩

theorem closeTop (v : View) (b : Builder) : Calm (Builder.closeTop v) b := by
  refine ⟨fun t => b.closeTop_timed t v, ?_⟩
  unfold Builder.closeTop
  split
  · exact .refl b
  · next rest _ =>
    dsimp only
    split
    · exact Keeps.trans (b := { b with blocks := rest }) ⟨rfl, rfl, rfl, rfl, rfl, rfl⟩ (push _ _ _).keeps
    · exact ⟨rfl, rfl, rfl, rfl, rfl, rfl⟩

theorem closing {v : View} (h : ∀ {P}, Closing v v P → ∀ {b c}, P b c → P (φ b) (φ c)) (b : Builder) : Calm φ b := by
  have hclosing (t : Countdown) : Closing v v fun x y => y = x.timed t ∧ b.Keeps x := by
    refine ⟨?_, ?_⟩
    · rintro x _ ⟨rfl, _⟩
      rfl
    · rintro x _ ⟨rfl, hx⟩
      exact ⟨x.closeTop_timed t v, hx.trans (closeTop v x).keeps⟩
  exact ⟨fun t => (h (hclosing t) ⟨rfl, .refl b⟩).1, (h (hclosing .never) ⟨rfl, .refl b⟩).2⟩

theorem openControl (v : View) (kind : ControlKind) (targets : List String) (operands : List ExprId) (start : Nat)
    (body : Body) (indent : Option Nat) (b : Builder) :
    Calm (Builder.openControl v kind targets operands start body indent) b := by
  let tag := b.tags.getD b.currentScope 0 + 1
  let marker : Statement :=
    { kind := .controlOpen kind, targets := targets, operands := operands, span := v.spanSince start b.pos
      controlTag := tag }
  have hmarked : Calm (fun b => Builder.push v.bound marker
      { b with tags := b.tags.modify b.currentScope (· + 1), draft.properties := #[] }) b :=
    comp ⟨fun _ => rfl, ⟨rfl, rfl, rfl, rfl, rfl, rfl⟩⟩ (push _ _ _)
  have hopened (block : Block) :=
    hmarked.comp (ψ := fun x => { x with blocks := block :: x.blocks }) ⟨fun _ => rfl, ⟨rfl, rfl, rfl, rfl, rfl, rfl⟩⟩
  cases body with
  | block => exact ⟨(hopened { frame := .control tag, indent := indent }).timed, (hopened _).keeps⟩
  | single => exact ⟨(hopened { frame := .control tag, single := true, indent := indent }).timed, (hopened _).keeps⟩
  | empty =>
    have hclosed := (hopened { frame := .control tag }).comp ((closeTop v _).comp (closing (v := v) (·.finish) _))
    exact ⟨hclosed.timed, hclosed.keeps⟩

theorem emit (v : View) (kind : StatementKind) (targets : List String) (compound : Bool) (operands : List ExprId)
    (start : Nat) (b : Builder) : Calm (Builder.emit v kind targets compound operands start) b := by
  have hfold (owner : Option String) (tag : Nat) (ps : List Property) (x : Builder) :
      Calm (fun x => ps.foldl (fun x p => x.push v.bound (propertyStatement owner tag p)) x) x := by
    induction ps generalizing x with
    | nil => exact ⟨fun _ => rfl, .refl x⟩
    | cons p rest ih => exact (push _ _ x).comp (ih _)
  let s : Statement :=
    { kind := kind, targets := targets, compound := compound, operands := operands, span := v.spanSince start b.pos
      controlTag := b.currentTag }
  have hpushed : Calm (fun b => Builder.push v.bound s { b with draft.properties := #[] }) b :=
    comp ⟨fun _ => rfl, ⟨rfl, rfl, rfl, rfl, rfl, rfl⟩⟩ (push _ _ _)
  have hall (owner : Option String) := hpushed.comp (hfold owner b.currentTag b.draft.properties.toList _)
  constructor
  · intro t
    unfold Builder.emit
    dsimp only
    rw [← Array.foldl_toList, ← Array.foldl_toList]
    exact (hall _).timed t
  · unfold Builder.emit
    dsimp only
    rw [← Array.foldl_toList]
    exact (hall _).keeps

theorem setPrivateSection (on : Bool) (b : Builder) : Calm (Builder.setPrivateSection on) b := by
  refine ⟨fun t => ?_, ⟨rfl, rfl, rfl, rfl, rfl, rfl⟩⟩
  have hmark : (b.timed t).markPrivate on b.blocks = b.markPrivate on b.blocks := markPrivate_congr on fun _ _ => rfl
  exact congrArg (fun blocks => { b.timed t with blocks := blocks }) hmark

end Builder.Calm

/-! ## States between turns -/

/-- A countdown with some answers more. -/
def Countdown.more (t : Countdown) (n : Nat) : Countdown := ⟨t.left.map (· + n)⟩

theorem Countdown.after_more (n k : Nat) : (after n).more k = after (n + k) := rfl

namespace Walk

variable {α β : Type} {whole v : View} {b c : Builder}

/-- The states before the turns of a run that starts in `b`, and what it ends with if it is not cancelled. -/
structure Trace (run : Builder → Except ExtractError α × Builder) (b : Builder) (states : List Builder)
    (x : Except ExtractError α × Builder) : Prop where
  stops : ∀ n s, states[n]? = some s → ∃ e, run (b.timed (.after n)) = (.error e, s.timed (.after 0))
  goes : ∀ t : Countdown, run (b.timed (t.more states.length)) = (x.1, x.2.timed t)

namespace Trace

variable {run : Builder → Except ExtractError α × Builder} {p : Walk α} {f : α → Walk β} {states later : List Builder}

theorem of_calm {x : Except ExtractError α × Builder} (h : ∀ t, run (b.timed t) = (x.1, x.2.timed t)) :
    Trace run b [] x := by
  constructor
  · intro n s hs
    cases hs
  · rintro ⟨_ | n⟩
    · exact h .never
    · exact h (.after n)

theorem under {x : Except ExtractError α × Builder} (h : Trace run b states x) (t : Countdown) :
    (∃ e s, run (b.timed t) = (.error e, s)) ∨ ∃ t', run (b.timed t) = (x.1, x.2.timed t') := by
  rcases t with ⟨_ | n⟩
  · exact .inr ⟨.never, h.goes .never⟩
  · rcases Nat.lt_or_ge n states.length with hn | hn
    · obtain ⟨e, hrun⟩ := h.stops n _ (List.getElem?_eq_getElem hn)
      exact .inl ⟨e, _, hrun⟩
    · have hgoes := h.goes (.after (n - states.length))
      rw [Countdown.after_more, Nat.sub_add_cancel hn] at hgoes
      exact .inr ⟨_, hgoes⟩

theorem bind_of_error {e : ExtractError} (h : p v b = (.error e, c)) : (p >>= f) v b = (.error e, c) := by
  rw [bind_apply, h]
  rfl

theorem bind_error {e : ExtractError} (h : Trace (p v) b states (.error e, c)) :
    Trace ((p >>= f) v) b states (.error e, c) := by
  constructor
  · intro n s hs
    obtain ⟨e', hrun⟩ := h.stops n s hs
    exact ⟨e', bind_of_error hrun⟩
  · intro t
    exact bind_of_error (h.goes t)

theorem bind_ok {a : α} {x : Except ExtractError β × Builder} (h : Trace (p v) b states (.ok a, c))
    (h' : Trace (f a v) c later x) : Trace ((p >>= f) v) b (states ++ later) x := by
  constructor
  · intro n s hs
    rcases Nat.lt_or_ge n states.length with hn | hn
    · rw [List.getElem?_append_left hn] at hs
      obtain ⟨e, hrun⟩ := h.stops n s hs
      exact ⟨e, bind_of_error hrun⟩
    · rw [List.getElem?_append_right hn] at hs
      obtain ⟨e, hrun⟩ := h'.stops _ s hs
      have hgoes := h.goes (.after (n - states.length))
      rw [Countdown.after_more, Nat.sub_add_cancel hn] at hgoes
      exact ⟨e, by rw [bind_apply, hgoes]; exact hrun⟩
  · intro t
    have hmore : t.more (states ++ later).length = (t.more later.length).more states.length := by
      rcases t with ⟨_ | n⟩
      · rfl
      · rw [List.length_append, Nat.add_comm]
        exact congrArg Countdown.after (Nat.add_assoc ..).symm
    rw [hmore, bind_apply, h.goes]
    exact h'.goes t

end Trace

/-- What becomes of the annotations up to the first turn satisfies a condition, and every turn is one that
the unit allows. -/
def Legs (whole : View) (P : Notes → Prop) : List Builder → Builder → Prop
  | [], c => P c.notes
  | s :: states, c => P s.notes ∧ Legs whole (whole.Turn s) states c

namespace Legs

variable {P Q : Notes → Prop} {states later : List Builder}

theorem mono (h : Legs whole P states c) (hPQ : ∀ l, P l → Q l) : Legs whole Q states c := by
  cases states with
  | nil => exact hPQ _ h
  | cons s states => exact ⟨hPQ _ h.1, h.2⟩

theorem append {d : Builder} (h : Legs whole P states c) (h' : Legs whole (Eq c.notes) later d) :
    Legs whole P (states ++ later) d := by
  induction states generalizing P with
  | nil => exact h'.mono fun _ hl => hl ▸ h
  | cons s states ih => exact ⟨h.1, ih h.2⟩

end Legs
end Walk
end TaintScan
