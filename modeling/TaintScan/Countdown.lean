/-! # Cancellation

A scan asks a countdown before each step whether to stop. The countdown answers no a fixed number of
times and yes from then on, or it never answers yes.
-/
namespace TaintScan

structure Countdown where
  /-- How often the answer is still no; `none` stands for always. -/
  left : Option Nat := none
  deriving DecidableEq, Repr

namespace Countdown

def never : Countdown := ⟨none⟩

def after (n : Nat) : Countdown := ⟨some n⟩

def poll (c : Countdown) : Bool × Countdown :=
  match c.left with
  | none => (false, c)
  | some 0 => (true, c)
  | some (n + 1) => (false, ⟨some n⟩)

end Countdown
end TaintScan
