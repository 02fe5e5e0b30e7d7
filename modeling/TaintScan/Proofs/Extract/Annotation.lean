import TaintScan.Flow.Track
import TaintScan.Proofs.Extract.Settled

/-! # Annotations and the scopes that take them

Annotations are read one by one, and all that wait are taken by the next scope that is opened, or
dropped with a declaration that has no body. No other statement ends their wait.
-/
namespace TaintScan

/-! ## Turns of an extraction -/

namespace Walk.Legs

variable {whole : View} {P : Notes → Prop} {states : List Builder} {c s s' : Builder} {n : Nat}

theorem first (h : Legs whole P states c) (hs : (states ++ [c])[0]? = some s) : P s.notes := by
  cases states with
  | nil =>
    cases hs
    exact h
  | cons s states =>
    cases hs
    exact h.1

theorem turn (h : Legs whole P states c) (hs : states[n]? = some s) (hs' : (states ++ [c])[n + 1]? = some s') :
    whole.Turn s s'.notes := by
  induction states generalizing P n with
  | nil => cases hs
  | cons _ states ih =>
    cases n with
    | zero =>
      cases hs
      exact first h.2 hs'
    | succ n => exact ih h.2 hs hs'

end Walk.Legs

namespace SourceUnit

def wholeView (u : SourceUnit) (bound : Nat) : View := u.tokenView (Token.lex u.language u.content.toList) bound

/-- The state before a turn of the statement loop, or the last one if there are no more turns. -/
def stateAt (u : SourceUnit) (bound n : Nat) : Builder := (Walk.unit (u.wholeView bound) { countdown := .after n }).2

theorem extract_of_error {u : SourceUnit} {bound : Nat} {countdown : Countdown} {e : ExtractError} {b : Builder}
    (h : Walk.unit (u.wholeView bound) { countdown := countdown } = (.error e, b)) :
    (u.extract bound countdown).1 = .error e := by
  unfold extract
  unfold wholeView at h
  dsimp only
  rw [h]

theorem extract_of_ok {u : SourceUnit} {bound : Nat} {countdown : Countdown} {a : Unit} {b : Builder}
    (h : Walk.unit (u.wholeView bound) { countdown := countdown } = (.ok a, b)) :
    ∃ x, (u.extract bound countdown).1 = .ok x ∧ x.scopes = b.scopes := by
  unfold extract
  unfold wholeView at h
  dsimp only
  rw [h]
  exact ⟨_, rfl, rfl⟩

section Trace

variable {u : SourceUnit} {bound : Nat} {states : List Builder} {result : Except ExtractError Unit} {c : Builder}
  (h : Walk.Trace (Walk.unit (u.wholeView bound)) {} states (result, c))
include h

theorem turns_of_trace :
    states.length = u.turns bound ∧ ∃ x, (u.extract bound .never).1 = .ok x ∧ x.scopes = c.scopes := by
  obtain ⟨x, hx⟩ := u.extract_never bound
  have hlast : (u.extract bound (.after (u.turns bound))).1 = .ok x := by
    obtain ⟨_, hextract⟩ | ⟨hlt, _⟩ := u.extract_after bound (u.turns bound)
    · rw [hextract, hx]
    · exact absurd hlt (Nat.lt_irrefl _)
  have hle : states.length ≤ u.turns bound := by
    by_contra hlt
    obtain ⟨e, hrun⟩ := h.stops _ _ (List.getElem?_eq_getElem (Nat.lt_of_not_le hlt))
    cases (extract_of_error hrun).symm.trans hlast
  obtain ⟨k, hk⟩ := Nat.exists_eq_add_of_le' hle
  have hrun := h.goes (.after k)
  rw [Countdown.after_more, ← hk] at hrun
  cases result with
  | error e => cases (extract_of_error hrun).symm.trans hlast
  | ok a =>
    obtain ⟨y, hy, hscopes⟩ := extract_of_ok hrun
    cases hy.symm.trans hlast
    refine ⟨?_, x, by rw [hx], hscopes⟩
    obtain ⟨hge, _⟩ | ⟨_, id, m, hcancelled⟩ := u.extract_after bound states.length
    · exact Nat.le_antisymm hle hge
    · obtain ⟨z, hz, _⟩ := extract_of_ok (h.goes (.after 0))
      rw [Countdown.after_more, Nat.zero_add, hcancelled] at hz
      cases hz

theorem stateAt_of_trace {n : Nat} {s : Builder} (hs : (states ++ [c])[n]? = some s) :
    ∃ t, u.stateAt bound n = s.timed t := by
  rcases Nat.lt_or_ge n states.length with hn | hn
  · rw [List.getElem?_append_left hn] at hs
    obtain ⟨e, hrun⟩ := h.stops n s hs
    exact ⟨_, congrArg Prod.snd hrun⟩
  · rw [List.getElem?_append_right hn, List.getElem?_singleton] at hs
    split at hs
    · cases hs
      obtain rfl : n = states.length := by omega
      have hlast := congrArg Prod.snd (h.goes (.after 0))
      rw [Countdown.after_more, Nat.zero_add] at hlast
      exact ⟨_, hlast⟩
    · cases hs

end Trace

theorem exists_trace (u : SourceUnit) (bound : Nat) :
    ∃ states result c, Walk.Trace (Walk.unit (u.wholeView bound)) {} states (result, c) ∧
      Walk.Legs (u.wholeView bound) (Eq (Builder.notes {})) states c := by
  obtain ⟨_, states, x, htrace, hlegs, _⟩ :=
    Walk.unit_ends (u.wholeView bound) rfl (fun _ => pure ()) {} rfl
  exact ⟨states, x.1, x.2, htrace, hlegs⟩

theorem turn_stateAt (u : SourceUnit) (bound : Nat) {n : Nat} (hn : n < u.turns bound) :
    (u.wholeView bound).Turn (u.stateAt bound n) (u.stateAt bound (n + 1)).notes := by
  obtain ⟨states, _, c, htrace, hlegs⟩ := u.exists_trace bound
  rw [← (turns_of_trace htrace).1] at hn
  have hs : states[n]? = some (states.get ⟨n, hn⟩) := List.getElem?_eq_getElem hn
  have hnext : n + 1 < (states ++ [c]).length := by simpa using hn
  have hs' := List.getElem?_eq_getElem hnext
  obtain ⟨t, hstate⟩ := stateAt_of_trace htrace ((List.getElem?_append_left hn).trans hs)
  obtain ⟨t', hstate'⟩ := stateAt_of_trace htrace hs'
  obtain ⟨limit, ⟨hlt, hle, hwhole⟩, hstep⟩ := hlegs.turn hs hs'
  rw [hstate, hstate']
  exact ⟨limit, ⟨hlt, hle, hwhole⟩, hstep⟩

theorem notes_stateAt_zero (u : SourceUnit) (bound : Nat) : (u.stateAt bound 0).notes = Builder.notes {} := by
  obtain ⟨states, _, c, htrace, hlegs⟩ := u.exists_trace bound
  have hs := List.getElem?_eq_getElem (l := states ++ [c]) (i := 0) (by simp)
  obtain ⟨t, hstate⟩ := stateAt_of_trace htrace hs
  have hfirst := hlegs.first hs
  rw [hstate]
  exact hfirst.symm

theorem extract_scopes (u : SourceUnit) (bound : Nat) :
    ∃ x, (u.extract bound .never).1 = .ok x ∧ x.scopes = (u.stateAt bound (u.turns bound)).scopes := by
  obtain ⟨states, _, c, htrace, _⟩ := u.exists_trace bound
  obtain ⟨hturns, x, hx, hscopes⟩ := turns_of_trace htrace
  have hlast : (states ++ [c])[states.length]? = some c := by simp
  obtain ⟨t, hstate⟩ := stateAt_of_trace htrace hlast
  rw [← hturns, hstate]
  exact ⟨x, hx, hscopes⟩

/-! ## Scopes -/

end SourceUnit

/-- An annotation is written where a turn starts. -/
def View.Writes (whole : View) (b : Builder) (name : String) : Prop :=
  ∃ limit, whole.Reaches limit b ∧ (whole.cut limit b.pos).annotationAt? b.pos = some name

/-- A function or a type may be declared where a turn starts. -/
def View.Heads (whole : View) (b : Builder) : Prop :=
  ∃ limit, whole.Reaches limit b ∧ (whole.cut limit b.pos).declaresAt b.pos = true

namespace SourceUnit

/-- The names of the annotations read from one turn to another, if nothing else is done to annotations then. -/
inductive Gathers (u : SourceUnit) (bound first : Nat) : Nat → List String → Prop
  | start : Gathers u bound first first []
  | reads {n : Nat} {names : List String} {name : String} (h : Gathers u bound first n names)
    (hwrites : (u.wholeView bound).Writes (u.stateAt bound n) name)
    (hnotes : (u.stateAt bound (n + 1)).notes =
      { (u.stateAt bound n).notes with pending := (u.stateAt bound n).notes.pending ++ [name] }) :
    Gathers u bound first (n + 1) (names ++ [name])
  | passes {n : Nat} {names : List String} (h : Gathers u bound first n names)
    (hnotes : (u.stateAt bound (n + 1)).notes = (u.stateAt bound n).notes) :
    Gathers u bound first (n + 1) names

/-- No annotation waits before a turn: it is the first one, or the one before it declares something that
takes all annotations or drops them. -/
def Fresh (u : SourceUnit) (bound first : Nat) : Prop :=
  first = 0 ∨ ∃ n, first = n + 1 ∧ (u.wholeView bound).Heads (u.stateAt bound n) ∧
    (u.stateAt bound first).notes.pending = []

/-- A scope with an index, a header and annotations is opened in a turn, after those annotations have been
read. -/
structure Opened (u : SourceUnit) (bound first last k : Nat) (header : Span) (names : List String) : Prop where
  lt : last < u.turns bound
  fresh : u.Fresh bound first
  gathers : u.Gathers bound first last names
  heads : (u.wholeView bound).Heads (u.stateAt bound last)
  span : ∃ stop, header = (u.wholeView bound).spanBetween (u.stateAt bound last).pos stop
  size : (u.stateAt bound last).notes.taken.size = k
  opens : (u.stateAt bound (last + 1)).notes = ⟨[], (u.stateAt bound last).notes.taken.push (header, names)⟩

/-- What is known about annotations before a turn: where those that wait and those of each scope were read. -/
structure Traced (u : SourceUnit) (bound n : Nat) : Prop where
  pending : ∃ first, u.Fresh bound first ∧ u.Gathers bound first n (u.stateAt bound n).notes.pending
  taken : ∀ k header names, (u.stateAt bound n).notes.taken[k]? = some (header, names) →
    (k = 0 ∧ names = []) ∨ ∃ first last, u.Opened bound first last k header names

theorem traced_zero (u : SourceUnit) (bound : Nat) : u.Traced bound 0 := by
  have hnotes := u.notes_stateAt_zero bound
  constructor
  · rw [hnotes]
    exact ⟨0, .inl rfl, .start⟩
  · rw [hnotes]
    intro k header names hk
    unfold Builder.notes at hk
    rw [Array.getElem?_map, Array.getElem?_singleton] at hk
    split at hk
    · next hzero =>
      cases hk
      exact .inl ⟨hzero, rfl⟩
    · cases hk

theorem Traced.succ {u : SourceUnit} {bound n : Nat} (h : u.Traced bound n) (hn : n < u.turns bound) :
    u.Traced bound (n + 1) := by
  obtain ⟨limit, hreaches, hstep⟩ := u.turn_stateAt bound hn
  obtain ⟨first, hfresh, hgathers⟩ := h.pending
  generalize hnext : (u.stateAt bound (n + 1)).notes = next at hstep
  have hpasses (hsame : next = (u.stateAt bound n).notes) : u.Traced bound (n + 1) := by
    rw [hsame] at hnext
    constructor
    · rw [hnext]
      exact ⟨first, hfresh, hgathers.passes hnext⟩
    · rw [hnext]
      exact h.taken
  cases hstep with
  | reads hname =>
    constructor
    · rw [hnext]
      exact ⟨first, hfresh, hgathers.reads ⟨limit, hreaches, hname⟩ hnext⟩
    · rw [hnext]
      exact h.taken
  | declares _ hd htakes =>
    have hheads : (u.wholeView bound).Heads (u.stateAt bound n) := ⟨limit, hreaches, hd⟩
    have hstarts (hempty : next.pending = []) :
        ∃ first, u.Fresh bound first ∧ u.Gathers bound first (n + 1) (u.stateAt bound (n + 1)).notes.pending := by
      rw [hnext, hempty]
      exact ⟨n + 1, .inr ⟨n, rfl, hheads, by rw [hnext, hempty]⟩, .start⟩
    cases htakes with
    | passes => exact hpasses rfl
    | opens stop =>
      refine ⟨hstarts rfl, fun k header names hk => ?_⟩
      rw [hnext, Array.getElem?_push] at hk
      split at hk
      · next hsize =>
        cases hk
        exact .inr ⟨first, n, hn, hfresh, hgathers, hheads, ⟨stop, rfl⟩, hsize.symm, hnext⟩
      · exact h.taken k header names hk
    | drops =>
      refine ⟨hstarts rfl, ?_⟩
      rw [hnext]
      exact h.taken
  | other _ => exact hpasses rfl

theorem traced (u : SourceUnit) (bound : Nat) {n : Nat} (hn : n ≤ u.turns bound) : u.Traced bound n := by
  induction n with
  | zero => exact u.traced_zero bound
  | succ n ih => exact (ih (Nat.le_of_succ_le hn)).succ hn

/-- Every turn of an extraction reads one annotation, opens one scope with all annotations that wait, drops
them, or leaves them. So the annotations of a scope are those read since the last turn before it that opened
a scope or dropped annotations, whatever else is recorded in between. -/
theorem annotations_gathered (u : SourceUnit) (bound : Nat) :
    (∀ n < u.turns bound, (u.wholeView bound).Turn (u.stateAt bound n) (u.stateAt bound (n + 1)).notes) ∧
    ∃ x, (u.extract bound .never).1 = .ok x ∧ ∀ k s, x.scopes[k]? = some s →
      (k = 0 ∧ s.annotations = []) ∨ ∃ first last, u.Opened bound first last k s.headerSpan s.annotations := by
  obtain ⟨x, hx, hscopes⟩ := u.extract_scopes bound
  refine ⟨fun n hn => u.turn_stateAt bound hn, x, hx, fun k s hs => ?_⟩
  apply (u.traced bound (Nat.le_refl _)).taken k s.headerSpan s.annotations
  rw [hscopes] at hs
  change ((u.stateAt bound (u.turns bound)).scopes.map _)[k]? = _
  rw [Array.getElem?_map, hs]
  rfl

/-- What decides about a scope whether its parameters are untrusted, with the statements recorded in it. -/
structure Outline where
  header : Span
  modifiers : List String
  annotations : List String
  isEntryPoint : Bool
  statements : List Span
  deriving DecidableEq

def outline (u : SourceUnit) : Option (List Outline) :=
  (u.extract defaultStatementBound .never).1.toOption.map fun x => x.scopes.toList.map fun s =>
    ⟨s.headerSpan, s.modifiers, s.annotations, s.isEntryPoint u.language, s.statements.toList.map (·.span)⟩

/-- A class with an annotated field before a private method. -/
def annotatedField : SourceUnit where
  id := "A.java"
  content := (Text.Utf8.encode "class A \x7b @GET String x; private void f(String p) \x7b \x7d \x7d").toArray
  language := .java

/-- The annotation of the field is taken by the method, although the field has been recorded since, and makes
it an entry point. -/
theorem outline_annotatedField :
    annotatedField.outline =
      some [⟨⟨0, 0⟩, [], [], false, []⟩, ⟨⟨0, 9⟩, [], [], false, [⟨15, 23⟩]⟩,
        ⟨⟨33, 51⟩, ["private"], ["GET"], true, []⟩] := by
  decide +kernel

theorem annotatedField_gathered :
    ∃ first last, annotatedField.Opened defaultStatementBound first last 2 ⟨33, 51⟩ ["GET"] := by
  obtain ⟨_, x, hx, hscopes⟩ := annotations_gathered annotatedField defaultStatementBound
  have hmethod : ((annotatedField.extract defaultStatementBound .never).1.toOption.bind (·.scopes[2]?)).map
      (fun s => (s.headerSpan, s.annotations)) = some (⟨33, 51⟩, ["GET"]) := by decide +kernel
  rw [hx] at hmethod
  obtain ⟨s, hs, hnotes⟩ := Option.map_eq_some_iff.mp hmethod
  obtain ⟨hspan, hnames⟩ := Prod.mk.inj hnotes
  obtain ⟨hzero, _⟩ | hopened := hscopes 2 s hs
  · exact absurd hzero (by decide)
  · rw [hspan, hnames] at hopened
    exact hopened

-- The marker that closes a block ends the wait of an annotation in it no more than a statement does.
example :
    outline { id := "a.py", content := (Text.Utf8.encode "if x:\n    @A\ndef f(): pass").toArray
              language := .python } =
      some [⟨⟨0, 0⟩, [], [], false, [⟨0, 5⟩, ⟨12, 12⟩]⟩, ⟨⟨13, 21⟩, [], ["A"], true, []⟩] := by
  decide +kernel

end SourceUnit
end TaintScan
