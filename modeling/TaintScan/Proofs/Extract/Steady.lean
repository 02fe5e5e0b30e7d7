import TaintScan.Proofs.Extract.Annotation

/-! # Statements restore what they change

A statement that is read to its end does not move the position back, leaves the level of nesting as
it was and no body that waits, and what it replays lies between its first token and the position at
its end. A replayed body leaves the open blocks below it as they were, but for the private section
of a type in Ruby.
-/
namespace TaintScan

/-- What is left by statements that are read to their end. -/
structure Builder.Restored (whole : View) (b c : Builder) : Prop extends c.Idle whole where
  le : b.pos ≤ c.pos
  depth : c.draft.depth = b.draft.depth

/-- Bodies are replayed when no others wait, and stand between two indices. -/
noncomputable def Replay.inside (whole : View) (first last : Nat) : Replay → Replay → Replay :=
  .checked fun _ b bodies => b.Idle whole ∧ ∀ a ∈ bodies, first < a.body ∧ a.close < last

namespace Walk

theorem Twin.ends {whole v : View} {stop : Option (Nat × Nat)} {I : Builder → Prop} {S : Notes → Notes → Prop}
    {J : Unit → Builder → Prop} {p q : Walk Unit} (h : Twin whole stop v I S J p q) {b c : Builder} (hb : I b)
    (hrun : p v b = (.ok (), c)) :
    (∃ d t, c = d.timed t ∧ J () d) ∧ ((∀ i ∈ stop, c.pos ≤ i.2) → q v b = (.ok (), c)) := by
  obtain ⟨states, x, htrace, _, hJ, _, hsame⟩ := h b hb
  obtain ⟨e, s, herror⟩ | ⟨t, hends⟩ := htrace.under b.countdown
  · cases hrun.symm.trans herror
  · obtain ⟨hx, rfl⟩ := Prod.mk.inj (hrun.symm.trans hends)
    refine ⟨⟨x.2, t, rfl, hJ () hx.symm⟩, fun hstop => ?_⟩
    exact (hsame (fun i hi => ⟨⟨(), hx.symm⟩, hstop i hi⟩) b.countdown).symm.trans hrun

section Restored

variable {whole v : View} {n : Nat} {b c : Builder} (hfull : whole = whole.entire) (hv : v.CutOf whole) (hb : b.Idle whole)
include hfull hv hb

theorem statement_restored (hrun : statement (replay n) v b = (.ok (), c)) :
    b.Restored whole c ∧ ∀ other, statement (.inside whole b.pos c.pos other (replay n)) v b = (.ok (), c) := by
  let G : Ground := ⟨whole, hfull, b.pos, b.draft.depth, none, False, some (b.pos, c.pos)⟩
  have : G.Firm := ⟨id⟩
  have hrests : G.Rests G.start b := ⟨⟨⟨Nat.le_refl _, rfl, hb.stands rfl⟩, hb.clear⟩, rfl⟩
  have htwins (other : Replay) : Replay.Twins whole G.stop (replay n) (.inside whole b.pos c.pos other (replay n)) := by
    refine Replay.Twins.checked other (fun hd hstop => ⟨hd.toIdle, fun a ha => ?_⟩)
      fun hw _ _ hd => (twins_replay hfull other n hw hd).1
    obtain ⟨hfirst, hlast⟩ := hstop _ rfl
    exact ⟨Nat.lt_of_le_of_lt hfirst (hd.inside a ha), hlast a ha⟩
  obtain ⟨limit, i, hle, rfl⟩ := hv
  have hends (other : Replay) := (Ends.statement (G := G) (i := i) hle
    (fun i hi => by cases hi; exact Nat.le_refl _) (htwins other)).ends hrests hrun
  refine ⟨?_, fun other => (hends other).2 fun i hi => by cases hi; exact Nat.le_refl _⟩
  obtain ⟨⟨d, t, rfl, hd⟩, _⟩ := hends fun _ => pure ()
  exact ⟨⟨hd.clear.idle.toSound, hd.clear.clear⟩, hd.clear.le, hd.clear.depth⟩

theorem replayBody_restored {body : Deferred} (hrun : replayBody (replay n) body v b = (.ok (), c)) :
    b.Restored whole c ∧ body.close < c.pos ∧ b.Remarks whole c.blocks := by
  obtain ⟨⟨d, t, rfl, hd⟩, _⟩ :=
    (Ends.replayBody hfull (twins_replay hfull (fun _ => pure ()) n) hv hb body).ends rfl hrun
  exact ⟨⟨⟨(hb.replayed hd).toSound, hd.clear⟩, hd.le, hd.depth⟩, hd.past body (List.mem_singleton_self body), hd.blocks⟩

theorem statements_restored {depth fuel : Nat} (hlimit : v.limit = whole.limit ∨ 0 < depth)
    (hrun : statements (replay n) depth fuel v b = (.ok (), c)) :
    b.Restored whole c ∧ (v.limit ≤ b.pos + fuel → ¬(c.pos < v.limit ∧ depth ≤ c.blocks.length)) := by
  let G : Ground := ⟨whole, hfull, b.pos, b.draft.depth, none, False, none⟩
  have : G.Firm := ⟨id⟩
  have hclear : (G.allow True).Clear b := ⟨⟨Nat.le_refl _, rfl, hb.stands rfl⟩, hb.clear⟩
  obtain ⟨limit, i, hle, rfl⟩ := hv
  obtain ⟨⟨d, t, rfl, hd, htest⟩, _⟩ := (Ends.statements (G := G) (i := i) hle rfl (twins_replay hfull (fun _ => pure ()) n)
    hlimit (fun _ h => absurd h (Option.not_mem_none _)) fuel hclear).ends rfl hrun
  exact ⟨⟨⟨hd.idle.toSound, hd.clear⟩, hd.le, hd.depth⟩, htest⟩

end Restored
end Walk

namespace SourceUnit

theorem idle_stateAt (u : SourceUnit) (bound : Nat) {k : Nat} (hk : k < u.turns bound) :
    (u.stateAt bound k).Idle (u.wholeView bound) := by
  obtain ⟨_, states, x, htrace, _, hidle⟩ := Walk.unit_ends (u.wholeView bound) rfl (fun _ => pure ()) {} rfl
  rw [← (turns_of_trace htrace).1] at hk
  obtain ⟨t, hstate⟩ := stateAt_of_trace htrace ((List.getElem?_append_left hk).trans (List.getElem?_eq_getElem hk))
  have hs := hidle _ (List.getElem_mem hk)
  rw [hstate]
  exact ⟨hs.toSound, hs.clear⟩

/-- A block in the body of a class, with a visibility word among its statements. -/
def privateInBlock : SourceUnit where
  id := "a.rb"
  content := (Text.Utf8.encode "class A\n  f \x7b x\n private\n y \x7d\n  def b\n  end\nend\n").toArray
  language := .ruby

end SourceUnit
end TaintScan
