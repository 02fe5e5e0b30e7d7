import TaintScan.Proofs.Extract.Deferring
import TaintScan.Proofs.Extract.Unit

/-! # Shallow expressions

The parsers of expressions count the levels around them. Something is put behind a left operand only
while its tree is not too high, so that the trees in the operands of statements stay low, whatever
suffixes, conditionals, strings or lambdas they are made of.
-/
namespace TaintScan

theorem Parse.Tidy.depth_eq {whole v : View} {failure : Failure} {first : Nat} {α : Type} {A : Nat → α → Prop}
    {p : Parse α} {d : Draft} (h : Tidy whole v failure first d.pos 0 A p) : (p v d).2.depth = d.depth :=
  (h d rfl (Nat.zero_le _)).grown.depth

namespace Level

/-- The parsers of a level come back to the depth they started at, and parse nothing at the deepest one. -/
structure Balanced (sub : Level) : Prop where
  pending : ∀ power v d, (sub.pending power v d).2.depth = d.depth
  primary : ∀ v d, (sub.primary v d).2.depth = d.depth
  pending_last : ∀ power v d, d.depth = Fin.last maxParseDepth → sub.pending power v d = (none, d)
  primary_last : ∀ v d, d.depth = Fin.last maxParseDepth → sub.primary v d = (none, d)

theorem balanced_nested (n : Nat) : (nested n).Balanced := by
  have htidy := tidy_nested n
  have hlast {d : Draft} (h : d.depth = Fin.last maxParseDepth) : ¬d.depth < maxParseDepth := by
    rw [h]
    exact Nat.lt_irrefl _
  constructor
  · intro power v d
    exact (htidy.pending (.refl v) d.pos 0 power).depth_eq
  · intro v d
    exact (htidy.primary (.refl v) d.pos 0).depth_eq
  · intro power v d h
    cases n with
    | zero => rfl
    | succ n => exact Parse.deeper_of_not_lt (p := (nested n).climb power) (hlast h)
  · intro v d h
    cases n with
    | zero => rfl
    | succ n => exact Parse.deeper_of_not_lt (p := (nested n).operand) (hlast h)

end Level

/-- Every unit is extracted unless the countdown runs out, and the operands of its statements are recorded
trees no way down which is longer than `maxTreeHeight + 1`. The levels around a parser are never more than
`maxParseDepth`, and after every expression, parsed or not, they are as many as before it. -/
theorem SourceUnit.extract_shallow (u : SourceUnit) (bound : Nat) :
    (∃ x, u.extract bound .never = (.ok x, .never)) ∧
    (∀ {countdown c : Countdown} {x : ExtractedUnit}, u.extract bound countdown = (.ok x, c) →
      ∀ scope ∈ x.scopes, ∀ s ∈ scope.statements, ∀ id ∈ s.operands,
        id < x.arena.size ∧ x.arena.height id ≤ Parse.maxTreeHeight + 1 ∧
        ∀ n, x.arena.Descent id n → n ≤ Parse.maxTreeHeight + 1) ∧
    (∀ (power : Nat) (v : View) (d : Draft),
      d.depth ≤ maxParseDepth ∧ (Parse.expr power v d).2.depth = d.depth) ∧
    ∀ n, (Level.nested n).Balanced := by
  refine ⟨u.extract_never bound, ?_, ?_, Level.balanced_nested⟩
  · intro countdown c x hx scope hscope s hs id hid
    obtain ⟨hsound, hfits⟩ := extract_fits hx
    obtain ⟨hlt, hheight⟩ := hfits scope hscope s hs id hid
    exact ⟨hlt, hheight, fun n hn => Nat.le_trans (hsound.descent_le hn) hheight⟩
  · intro power v d
    exact ⟨Nat.le_of_lt_succ d.depth.isLt, (Parse.Tidy.expr (.refl v) power).depth_eq⟩

namespace CalledBlock

def unit : SourceUnit where
  id := "a.rb"
  language := .ruby
  content := (Text.Utf8.encode "f(a + b) \x7b |x| h(x) if g(x) \x7d").toArray

/-- A block takes its operand from the call it is given to, and a statement in it has a condition. -/
theorem extract_shallow_block :
    ∃ x, unit.extract 20 .never = (.ok x, .never) ∧
      (x.scopes.toList.flatMap fun scope => scope.statements.toList.map fun s =>
        s.operands.map x.arena.height) = [[3], [3], [2, 2], []] ∧
      ∀ scope ∈ x.scopes, ∀ s ∈ scope.statements, ∀ id ∈ s.operands,
        id < x.arena.size ∧ x.arena.height id ≤ Parse.maxTreeHeight + 1 ∧
        ∀ n, x.arena.Descent id n → n ≤ Parse.maxTreeHeight + 1 := by
  obtain ⟨⟨x, hx⟩, hshallow, _⟩ := unit.extract_shallow 20
  have hheights : ((unit.extract 20 .never).1.toOption.map fun x =>
      x.scopes.toList.flatMap fun scope => scope.statements.toList.map fun s =>
        s.operands.map x.arena.height) = some [[3], [3], [2, 2], []] := by
    decide +kernel
  rw [hx] at hheights
  exact ⟨x, hx, Option.some.inj hheights, hshallow hx⟩

end CalledBlock
end TaintScan
