import TaintScan.Proofs.Extract.Unit

/-! # Cancelled extractions

A countdown decides when an extraction ends and nothing else. So it is cancelled if and only if there
are more turns than answers, and else it leaves the answers that it did not need.
-/
namespace TaintScan

namespace Countdown

theorem poll_never : never.poll = (false, never) := rfl

theorem poll_after_zero : (after 0).poll = (true, after 0) := rfl

theorem poll_after_succ (n : Nat) : (after (n + 1)).poll = (false, after n) := rfl

end Countdown

namespace Builder

def timed (b : Builder) (c : Countdown) : Builder := { b with countdown := c }

theorem push_timed (b : Builder) (c : Countdown) (bound : Nat) (s : Statement) :
    (b.timed c).push bound s = (b.push bound s).timed c := by
  have hfitted : (b.timed c).fitted bound s = b.fitted bound s := rfl
  change (if ((b.timed c).fitted bound s).kind == .unparsed then _ else _) =
    timed (if (b.fitted bound s).kind == .unparsed then _ else _) c
  rw [hfitted]
  split
  · rfl
  · rfl

theorem closeTop_timed (b : Builder) (c : Countdown) (v : View) :
    (b.timed c).closeTop v = (b.closeTop v).timed c := by
  have hblocks : (b.timed c).blocks = b.blocks := rfl
  unfold closeTop
  rw [hblocks]
  split
  · rfl
  · next block rest _ =>
    dsimp only
    split
    · next tag _ =>
      exact push_timed { b with blocks := rest } c v.bound
        { kind := .controlClose, span := closingSpan v b.pos, controlTag := tag }
    · rfl

theorem openControl_timed (b : Builder) (c : Countdown) (v : View) (kind : ControlKind)
    (targets : List String) (operands : List ExprId) (start : Nat) :
    (b.timed c).openControl v kind targets operands start .block none =
      (b.openControl v kind targets operands start .block none).timed c := by
  have hpush := push_timed
    { b with tags := b.tags.modify b.currentScope (· + 1), draft.properties := #[] } c v.bound
    { kind := .controlOpen kind, targets := targets, operands := operands
      span := v.spanSince start b.pos, controlTag := b.tags.getD b.currentScope 0 + 1 }
  exact congrArg (fun x : Builder =>
    { x with blocks := { frame := .control (b.tags.getD b.currentScope 0 + 1) } :: x.blocks }) hpush

/-- The second extraction is the first one without its countdown, which had `n` answers. -/
structure Untimed (n : Nat) (b c : Builder) : Prop where
  eq : c = b.timed .never
  draft : b.draft.Alike Eq b.draft
  countdown : b.turns ≤ n ∧ b.countdown = .after (n - b.turns) ∨ b.countdown = .never

theorem Untimed.of_eq {n : Nat} {b b' c c' : Builder} (h : b.Untimed n c) (heq : c' = b'.timed .never)
    (hdraft : b'.draft.Alike Eq b'.draft) (hturns : b'.turns = b.turns)
    (hcountdown : b'.countdown = b.countdown) : b'.Untimed n c' := by
  refine ⟨heq, hdraft, ?_⟩
  rw [hturns, hcountdown]
  exact h.countdown

/-- The extraction without a countdown is related to the one under it as long as there are answers, and
to itself from then on. -/
theorem Untimed.poll {n : Nat} {b c : Builder} (h : b.Untimed n c) :
    b.Polls (Untimed n) False (fun b third => b.countdown = .after 0 ∧ n < third.turns) c := by
  obtain ⟨rfl, hdraft, hcountdown⟩ := h
  have hsecond : (b.timed .never).countdown.poll.1 = false := rfl
  rcases hcountdown with ⟨hle, hcountdown⟩ | hcountdown
  · by_cases hturns : b.turns < n
    · have hleft : n - b.turns = n - (b.turns + 1) + 1 := by omega
      rw [hleft] at hcountdown
      have hpoll : b.countdown.poll = (false, .after (n - (b.turns + 1))) := by
        rw [hcountdown, Countdown.poll_after_succ]
      refine .go (by rw [hpoll]) hsecond ⟨rfl, hdraft, Or.inl ⟨hturns, ?_⟩⟩
      change b.countdown.poll.2 = _
      rw [hpoll]
      rfl
    · have hleft : n - b.turns = 0 := by omega
      rw [hleft] at hcountdown
      have hpoll : b.countdown.poll = (true, .after 0) := by rw [hcountdown, Countdown.poll_after_zero]
      have hthird : Untimed n (b.timed .never).turn (b.timed .never).turn := ⟨rfl, hdraft, Or.inr rfl⟩
      have hdraft' : (b.timed .never).turn.draft = b.draft := rfl
      refine .runOut (by rw [hpoll]) hsecond ⟨?_, ?_⟩ hdraft' hthird
      · change b.countdown.poll.2 = _
        rw [hpoll]
      · change n < b.turns + 1
        omega
  · have hpoll : b.countdown.poll = (false, .never) := by rw [hcountdown, Countdown.poll_never]
    refine .go (by rw [hpoll]) hsecond ⟨rfl, hdraft, Or.inr ?_⟩
    change b.countdown.poll.2 = _
    rw [hpoll]

def untimed (n bound : Nat) : Tracking (.same bound) where
  rel b c := b.Untimed n c
  mayStop := False
  runsOut b third := b.countdown = .after 0 ∧ n < third.turns
  alike := by
    rintro b _ ⟨rfl, hd, _⟩
    exact ⟨hd, rfl, rfl, rfl, rfl⟩
  withDraft := by
    intro b c d e h hde _
    cases Draft.Alike.eq hde
    refine h.of_eq ?_ hde rfl rfl
    rw [h.eq]
    rfl
  withWords h modifiers annotations := by
    refine h.of_eq ?_ h.draft rfl rfl
    rw [h.eq]
    rfl
  withBlocks h blocks _ := by
    refine h.of_eq ?_ h.draft rfl rfl
    rw [h.eq]
    rfl
  pushPlain h := by
    refine h.of_eq ?_ h.draft rfl rfl
    rw [h.eq]
    rfl
  closeTop := by
    rintro v _ b c ⟨rfl, _⟩ h
    refine h.of_eq ?_ ?_ (b.closeTop_turns v) (b.closeTop_countdown v)
    · rw [h.eq, closeTop_timed]
    · rw [closeTop_draft]
      exact h.draft
  openControl := by
    rintro v _ b c ⟨rfl, _⟩ h kind targets operands start _ _
    refine h.of_eq ?_ ?_ (b.openControl_turns v kind targets operands start)
      (b.openControl_countdown v kind targets operands start)
    · rw [h.eq, openControl_timed]
    · rw [openControl_draft]
      exact h.draft.withProperties .nil
  openScope := by
    rintro v _ b c ⟨rfl, _⟩ h kind name params params' s t hp _ hs
    cases Param.eq_of_alike hp
    cases hs
    refine h.of_eq ?_ h.draft rfl rfl
    rw [h.eq]
    rfl
  push := by
    rintro v _ b c ⟨rfl, _⟩ h s t hs _ _ _
    cases Statement.Alike.eq hs
    refine h.of_eq ?_ ?_ (b.push_turns v.bound s) (b.push_countdown v.bound s)
    · rw [h.eq, push_timed]
    · rw [push_draft]
      exact h.draft
  poll h := h.poll

def hurried (bound : Nat) : Builder.Invariant bound where
  holds b := b.countdown ≠ .never
  mayStop := True
  withDraft h _ := h
  withWords h _ _ := h
  withBlocks h _ _ := h
  pushPlain h := h
  closeTop _ h := by rw [closeTop_countdown]; exact h
  openControl _ h _ _ _ _ _ := by rw [openControl_countdown]; exact h
  openScope h _ _ _ _ := h
  push h _ _ _ _ _ := by rw [push_countdown]; exact h
  poll {b} h := by
    refine ⟨fun _ => trivial, ?_⟩
    change b.countdown.poll.2 ≠ .never
    rcases hleft : b.countdown with ⟨_ | _ | k⟩
    · exact absurd hleft h
    · exact fun hnever => nomatch hnever
    · exact fun hnever => nomatch hnever

end Builder

theorem Tracking.Meets.lt_turns {n bound size : Nat} {α : Type} {A : ExprArena → α → α → Prop} {third : Builder}
    {x y : Except ExtractError α × Builder}
    (h : (Builder.untimed n bound).Meets size A third x y) (hthird : n < third.turns) : n < y.2.turns := by
  induction h with
  | ok _ hgoes =>
    have heq : _ = Builder.timed _ _ := hgoes.rel.eq
    rw [heq]
    exact Nat.lt_of_lt_of_le hthird hgoes.turns
  | cancelled h => exact h.elim
  | runOut h _ _ ih => exact ih h.2

namespace SourceUnit

/-- The turns of the statement loop in an extraction that is not cancelled. -/
def turns (u : SourceUnit) (bound : Nat) : Nat :=
  (Walk.unit (u.tokenView (Token.lex u.language u.content.toList) bound) {}).2.turns

/-- An extraction is cancelled if it has more turns than the countdown has answers; else it gives what it
gives without a countdown. -/
theorem extract_after (u : SourceUnit) (bound n : Nat) :
    (u.turns bound ≤ n ∧
      u.extract bound (.after n) = ((u.extract bound .never).1, .after (n - u.turns bound))) ∨
    (n < u.turns bound ∧ ∃ id k, u.extract bound (.after n) = (.error (.cancelled id k), .after 0)) := by
  have hmeets := Walk.unit_agree (Builder.untimed n bound) (u.at_tokenView bound)
    { countdown := .after n } {} ⟨rfl, Draft.alike_start, Or.inl ⟨Nat.zero_le _, rfl⟩⟩
    (fun _ hl => absurd hl (Array.not_mem_empty _)) (le_refl _)
  have hafter : (Builder.hurried bound).holds { countdown := .after n } := fun hnever => nomatch hnever
  have hhurried := u.extract_invariant (Builder.hurried bound) hafter
  unfold turns
  unfold extract at hhurried ⊢
  dsimp only at hhurried ⊢
  rcases hb : Walk.unit (u.tokenView (Token.lex u.language u.content.toList) bound)
    { countdown := .after n } with ⟨result, b⟩
  rcases hc : Walk.unit (u.tokenView (Token.lex u.language u.content.toList) bound) {} with ⟨result', c⟩
  rw [hb, hc] at hmeets
  rw [hb] at hhurried
  cases hmeets with
  | ok _ hgoes =>
    obtain ⟨rfl, _, hcountdown⟩ : b.Untimed n c := hgoes.rel
    have hnever : b.countdown ≠ .never := by
      obtain ⟨b', x, hx, _, _, _, _, hb'⟩ | ⟨_, id, k, c, hx⟩ := hhurried
      · obtain ⟨_, heq⟩ := Prod.mk.inj hx
        rw [heq]
        exact hb'
      · cases hx
    obtain ⟨hle, hcountdown⟩ := hcountdown.resolve_right hnever
    refine Or.inl ⟨hle, ?_⟩
    dsimp only
    rw [hcountdown]
    rfl
  | cancelled h => exact h.elim
  | runOut h _ hthird => exact Or.inr ⟨hthird.lt_turns h.2, _, _, Prod.ext rfl h.1⟩

end SourceUnit
end TaintScan
