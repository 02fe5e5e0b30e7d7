import TaintScan.Proofs.Extract.Statement

/-! # What one extraction keeps

A property of the state that every primitive change keeps holds when an extraction ends. In
particular every operand of every statement is recorded and not higher than expressions may be, so an
extraction that is not cancelled gives scopes over a sound arena.
-/
namespace TaintScan

/-! ## Alike with equal spans -/

theorem ExprArena.Alike.eq {a b : ExprArena} (h : a.Alike Eq b) : b = a := by
  obtain ⟨exprs, heights⟩ := a
  obtain ⟨exprs', heights'⟩ := b
  have hexprs : exprs.toList = exprs'.toList := by
    refine List.forall₂_eq_eq_eq ▸ h.exprs.imp fun e f hef => ?_
    obtain ⟨hkind, hspan⟩ := hef
    cases e
    cases f
    cases hkind
    cases hspan
    rfl
  cases h.heights
  rw [Array.toList_inj.mp hexprs]

theorem Draft.Alike.eq {d e : Draft} (h : d.Alike Eq e) : e = d := by
  have hproperties : d.properties.toList = e.properties.toList := by
    refine List.forall₂_eq_eq_eq ▸ h.properties.imp fun p q hpq => ?_
    obtain ⟨hkey, hvalue, hspan⟩ := hpq
    cases p
    cases q
    cases hkey
    cases hvalue.1
    cases hspan
    rfl
  have harray : d.properties = e.properties := Array.toList_inj.mp hproperties
  cases d
  cases e
  cases h.pos
  cases h.depth
  cases h.arena.eq
  cases h.lvalues
  cases h.deferred
  cases harray
  rfl

theorem Statement.Alike.eq {r : ExprArena} {s t : Statement} (h : s.Alike Eq r t) : t = s := by
  obtain ⟨hkind, htargets, hcompound, hoperands, hspan, htag⟩ := h
  cases s
  cases t
  cases hkind
  cases htargets
  cases hcompound
  cases hoperands.1
  cases hspan
  cases htag
  rfl

theorem Param.eq_of_alike {ps qs : List Param} (h : List.Forall₂ (Param.Alike Eq) ps qs) : ps = qs := by
  refine List.forall₂_eq_eq_eq ▸ h.imp fun p q hpq => ?_
  obtain ⟨hname, hspan⟩ := hpq
  cases p
  cases q
  cases hname
  cases hspan
  rfl

/-! ## Invariants -/

/-- A property of the state of an extraction under a bound that every primitive change keeps. -/
structure Builder.Invariant (bound : Nat) where
  holds : Builder → Prop
  /-- The countdown may run out. -/
  mayStop : Prop
  withDraft : ∀ {b : Builder} {d : Draft}, holds b → b.draft.arena ≤ d.arena →
    holds { b with draft := d }
  withWords : ∀ {b : Builder}, holds b → ∀ modifiers annotations, holds { b with modifiers, annotations }
  withBlocks : ∀ {b : Builder}, holds b → ∀ blocks : List Block,
    blocks.map (·.frame) = b.blocks.map (·.frame) → holds { b with blocks }
  pushPlain : ∀ {b : Builder}, holds b → holds { b with blocks := { frame := .plain } :: b.blocks }
  closeTop : ∀ {v : View} {b : Builder}, v.bound = bound → holds b → holds (b.closeTop v)
  openControl : ∀ {v : View} {b : Builder}, v.bound = bound → holds b →
    ∀ kind targets {operands : List ExprId} start,
    (∀ id ∈ operands, b.draft.arena.Fits maxOperandHeight id) →
    holds (b.openControl v kind targets operands start .block none)
  openScope : ∀ {v : View} {b : Builder}, holds b → ∀ kind name params header,
    holds (b.openScope v kind name params header false none)
  push : ∀ {b : Builder}, holds b → ∀ {s : Statement},
    (∀ id ∈ s.operands, b.draft.arena.Fits maxOperandHeight id) →
    s.kind.isMarker = false → (s.kind = .unparsed → s.Idle) → s.controlTag = b.currentTag →
    holds (b.push bound s)
  poll : ∀ {b : Builder}, holds b → (b.countdown.poll.1 = true → mayStop) ∧ holds b.turn

namespace Builder.Invariant

variable {bound : Nat} (I : Builder.Invariant bound)

def tracking : Tracking (.same bound) where
  rel b c := b = c ∧ b.draft.Alike Eq b.draft ∧ I.holds b
  mayStop := I.mayStop
  runsOut _ _ := False
  alike := by
    rintro b _ ⟨rfl, hd, _⟩
    exact ⟨hd, rfl, rfl, rfl, rfl⟩
  withDraft := by
    rintro b _ d e ⟨rfl, _, hb⟩ hde hsize
    cases Draft.Alike.eq hde
    exact ⟨rfl, hde, I.withDraft hb hsize⟩
  withWords := by
    rintro b _ ⟨rfl, hd, hb⟩ modifiers annotations
    exact ⟨rfl, hd, I.withWords hb _ _⟩
  withBlocks := by
    rintro b _ ⟨rfl, hd, hb⟩ blocks hblocks
    exact ⟨rfl, hd, I.withBlocks hb _ hblocks⟩
  pushPlain := by
    rintro b _ ⟨rfl, hd, hb⟩
    exact ⟨rfl, hd, I.pushPlain hb⟩
  closeTop := by
    rintro v _ b _ ⟨rfl, hv⟩ ⟨rfl, hd, hb⟩
    refine ⟨rfl, ?_, I.closeTop hv hb⟩
    rw [Builder.closeTop_draft]
    exact hd
  openControl := by
    rintro v _ b _ ⟨rfl, hv⟩ ⟨rfl, hd, hb⟩ kind targets operands start _ ho
    refine ⟨rfl, ?_, I.openControl hv hb kind targets start ho⟩
    rw [Builder.openControl_draft]
    exact hd.withProperties .nil
  openScope := by
    rintro v _ b _ ⟨rfl, hv⟩ ⟨rfl, hd, hb⟩ kind name params params' s t hp _ hs
    cases Param.eq_of_alike hp
    cases hs
    exact ⟨rfl, hd, I.openScope hb kind name params s⟩
  push := by
    rintro v _ b _ ⟨rfl, hv⟩ ⟨rfl, hd, hb⟩ s t hs hk hu ht
    cases Statement.Alike.eq hs
    refine ⟨rfl, ?_, ?_⟩
    · rw [Builder.push_draft]
      exact hd
    · rw [hv]
      exact I.push hb hs.operands.2 hk hu ht
  poll := by
    rintro b _ ⟨rfl, hd, hb⟩
    obtain ⟨hstop, hturn⟩ := I.poll hb
    cases hpoll : b.countdown.poll.1 with
    | true => exact .stop hpoll hpoll (hstop hpoll)
    | false => exact .go hpoll hpoll ⟨rfl, hd, hturn⟩

end Builder.Invariant

theorem Walk.unit_blocks {v : View} {b b' : Builder} {x : Unit} (h : Walk.unit v b = (.ok x, b')) :
    b'.blocks = [] := by
  change (Walk.statements (Walk.replay Walk.maxReplayDepth) 0 v.limit >>=
    fun _ => Walk.act fun v b => b.closeAbove v 0) v b = _ at h
  rw [Walk.bind_apply] at h
  unfold Walk.next at h
  split at h
  · next c _ =>
    cases h
    change (c.closeMany v (c.blocks.length - 0)).blocks = []
    rw [Builder.closeMany_blocks, Nat.sub_zero, List.drop_length]
  · cases h

theorem Draft.alike_start : Draft.Alike Eq {} {} where
  pos := rfl
  depth := rfl
  arena := ⟨⟨rfl, by simp, by simp⟩, rfl, .nil⟩
  lvalues := rfl
  deferred := rfl
  sources := by simp
  properties := .nil

theorem SourceUnit.at_tokenView (u : SourceUnit) (bound : Nat) :
    (Correspondence.same bound).At {} (u.tokenView (Token.lex u.language u.content.toList) bound)
      (u.tokenView (Token.lex u.language u.content.toList) bound) :=
  ⟨⟨rfl, rfl⟩, (fun _ h => nomatch h), Nat.le_refl _⟩

/-- An extraction ends with all blocks closed in a state that satisfies the invariant, or it is
cancelled. -/
theorem SourceUnit.extract_invariant (u : SourceUnit) {bound : Nat} (I : Builder.Invariant bound)
    {countdown : Countdown} (h : I.holds { countdown := countdown }) :
    (∃ b x, u.extract bound countdown = (.ok x, b.countdown) ∧ x.arena = b.draft.arena ∧
      x.scopes = b.scopes ∧ b.draft.arena.Sound ∧ b.blocks = [] ∧ I.holds b) ∨
    (I.mayStop ∧ ∃ id k c, u.extract bound countdown = (.error (.cancelled id k), c)) := by
  have hmeets := Walk.unit_agree I.tracking (u.at_tokenView bound) { countdown := countdown }
    { countdown := countdown } ⟨rfl, Draft.alike_start, h⟩ (fun _ hl => absurd hl (Array.not_mem_empty _))
    (le_refl _)
  rcases hr : Walk.unit (u.tokenView (Token.lex u.language u.content.toList) bound)
    { countdown := countdown } with ⟨result, b⟩
  rw [hr] at hmeets
  unfold SourceUnit.extract
  dsimp only
  rw [hr]
  cases hmeets with
  | ok _ hgoes =>
    obtain ⟨_, hdraft, hb⟩ := hgoes.rel
    exact Or.inl ⟨b, _, rfl, rfl, rfl, hdraft.arena.sound, Walk.unit_blocks hr, hb⟩
  | cancelled hstop => exact Or.inr ⟨hstop, _, _, _, rfl⟩
  | runOut hfalse => exact hfalse.elim

/-! ## Recorded operands -/

/-- Every operand of every statement is recorded, and not higher than operands may be. -/
def Builder.Recorded (b : Builder) : Prop :=
  ∀ (i : Nat) (scope : Scope), b.scopes[i]? = some scope → ∀ s ∈ scope.statements, ∀ id ∈ s.operands,
    b.draft.arena.Fits maxOperandHeight id

namespace Builder.Recorded

variable {b : Builder} (h : b.Recorded)
include h

theorem push (bound : Nat) {s : Statement} (hs : ∀ id ∈ s.operands, b.draft.arena.Fits maxOperandHeight id) :
    (b.push bound s).Recorded := by
  have hfitted : ∀ id ∈ (b.fitted bound s).operands, b.draft.arena.Fits maxOperandHeight id := by
    unfold Builder.fitted
    split
    · exact fun _ hid => nomatch hid
    · exact hs
  intro i scope hscope t ht
  rw [Builder.push_scope] at hscope
  rw [Builder.push_draft]
  split at hscope
  · obtain ⟨old, hold, rfl⟩ := Option.map_eq_some_iff.mp hscope
    rcases Array.mem_push.mp ht with ht | rfl
    · exact h i old hold t ht
    · exact hfitted
  · exact h i scope hscope t ht

theorem closeTop (v : View) : (b.closeTop v).Recorded := by
  unfold Builder.closeTop
  split
  · exact h
  · next block rest _ =>
    have hrest : Recorded { b with blocks := rest } := h
    dsimp only
    split
    · exact hrest.push _ (List.forall_mem_nil _)
    · exact hrest

theorem openControl {v : View} (kind : ControlKind) (targets : List String) {operands : List ExprId}
    (ho : ∀ id ∈ operands, b.draft.arena.Fits maxOperandHeight id) (start : Nat) :
    (b.openControl v kind targets operands start .block none).Recorded := by
  have hclear : Recorded { b with
      tags := b.tags.modify b.currentScope (· + 1), draft.properties := #[] } := h
  exact hclear.push v.bound
    (s := { kind := .controlOpen kind, targets := targets, operands := operands
            span := v.spanSince start b.pos, controlTag := b.tags.getD b.currentScope 0 + 1 }) ho

theorem openScope {v : View} (kind : ScopeKind) (name : String) (params : List Param) (header : Span) :
    (b.openScope v kind name params header false none).Recorded := by
  intro i scope hscope s hs
  change (b.scopes.push _)[i]? = _ at hscope
  rw [Array.getElem?_push] at hscope
  split at hscope
  · cases hscope
    exact absurd hs (Array.not_mem_empty _)
  · exact h i scope hscope s hs

end Builder.Recorded

def Builder.recorded (bound : Nat) : Builder.Invariant bound where
  holds b := b.Recorded
  mayStop := True
  withDraft h hle := fun i scope hscope s hs id hid => (h i scope hscope s hs id hid).mono hle
  withWords h _ _ := h
  withBlocks h _ _ := h
  pushPlain h := h
  closeTop _ h := h.closeTop _
  openControl _ h kind targets _ start ho := h.openControl kind targets ho start
  openScope h kind name params header := h.openScope kind name params header
  push h _ hs _ _ _ := h.push _ hs
  poll h := ⟨fun _ => trivial, h⟩

/-- The expressions of a unit are sound, and every operand of every statement is one of them. -/
structure ExtractedUnit.Recorded (x : ExtractedUnit) : Prop where
  sound : x.arena.Sound
  operand_lt : ∀ scope ∈ x.scopes, ∀ s ∈ scope.statements, ∀ id ∈ s.operands, id < x.arena.size

theorem SourceUnit.extract_fits {u : SourceUnit} {bound : Nat} {countdown c : Countdown}
    {x : ExtractedUnit} (h : u.extract bound countdown = (.ok x, c)) :
    x.arena.Sound ∧ ∀ scope ∈ x.scopes, ∀ s ∈ scope.statements, ∀ id ∈ s.operands,
      x.arena.Fits maxOperandHeight id := by
  have hstart : Builder.Recorded { countdown := countdown } := by
    intro i scope hscope s hs
    have hscope : scope ∈ (#[_] : Array Scope) := Array.mem_of_getElem? hscope
    cases Array.mem_singleton.mp hscope
    exact absurd hs (Array.not_mem_empty _)
  obtain ⟨b, x', hx, harena, hscopes, hsound, _, hb⟩ | ⟨_, id, k, c', hx⟩ :=
    u.extract_invariant (Builder.recorded bound) hstart
  · cases h.symm.trans hx
    refine ⟨harena ▸ hsound, fun scope hscope => ?_⟩
    rw [hscopes] at hscope
    rw [harena]
    obtain ⟨i, hi⟩ := Array.getElem?_of_mem hscope
    exact hb i scope hi
  · cases h.symm.trans hx

theorem SourceUnit.extract_recorded {u : SourceUnit} {bound : Nat} {countdown c : Countdown}
    {x : ExtractedUnit} (h : u.extract bound countdown = (.ok x, c)) : x.Recorded := by
  obtain ⟨hsound, hfits⟩ := extract_fits h
  exact ⟨hsound, fun scope hscope s hs id hid => (hfits scope hscope s hs id hid).1⟩

/-! ## The countdown -/

def Builder.unhurried (bound : Nat) : Builder.Invariant bound where
  holds b := b.countdown = .never
  mayStop := False
  withDraft h _ := h
  withWords h _ _ := h
  withBlocks h _ _ := h
  pushPlain h := h
  closeTop _ h := by rw [Builder.closeTop_countdown]; exact h
  openControl _ h _ _ _ _ _ := by rw [Builder.openControl_countdown]; exact h
  openScope h _ _ _ _ := h
  push h _ _ _ _ _ := by rw [Builder.push_countdown]; exact h
  poll {b} h := by
    have hpoll : b.countdown.poll = (false, .never) := by
      rw [h]
      rfl
    unfold Builder.turn
    rw [hpoll]
    exact ⟨Bool.false_ne_true, rfl⟩

theorem SourceUnit.extract_never (u : SourceUnit) (bound : Nat) :
    ∃ x, u.extract bound .never = (.ok x, .never) := by
  have hstart : (Builder.unhurried bound).holds { countdown := .never } := rfl
  obtain ⟨b, x, hx, _, _, _, _, hnever⟩ | ⟨hfalse, _⟩ := u.extract_invariant _ hstart
  · have hnever : b.countdown = .never := hnever
    exact ⟨x, by rw [hx, hnever]⟩
  · exact hfalse.elim

end TaintScan
