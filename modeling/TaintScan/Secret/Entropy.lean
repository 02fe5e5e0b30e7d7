import TaintScan.Text.Utf8

/-! # Entropy of a text

The Shannon entropy of the bytes of a text, in bits per byte. With `n` bytes of which each value
occurs `c` times it is `(n · log2 n - Σ c · log2 c) / n`. Logarithms are binary fixed-point numbers,
computed digit by digit: squaring a number between one and two doubles its logarithm, and the next
binary digit is one exactly if the square has reached two.
-/
namespace TaintScan.Entropy

def places : Nat := 64

def precision : Nat := 192

/-- Appends the next digits of the logarithm of `x / 2 ^ precision`, which lies between one and two. -/
def logDigits : Nat → Nat → Nat → Nat
  | 0, _, digits => digits
  | left + 1, x, digits =>
    let square := x * x / Nat.pow 2 precision
    if Nat.pow 2 (precision + 1) ≤ square then logDigits left (square / 2) (2 * digits + 1)
    else logDigits left square (2 * digits)

def log2 (n : Nat) : Nat :=
  let whole := Nat.log2 n
  logDigits places (n * Nat.pow 2 precision / Nat.pow 2 whole) whole

def counts (bytes : List UInt8) : List Nat := bytes.eraseDups.map (bytes.count ·)

structure Fraction where
  num : Nat
  den : Nat
  deriving DecidableEq, Repr

def ofText (s : String) : Fraction :=
  let bytes := Text.Utf8.encode s
  let n := bytes.length
  if n == 0 then ⟨0, 1⟩
  else
    let terms := (counts bytes).foldl (fun total c => total + c * log2 c) 0
    ⟨n * log2 n - terms, n * Nat.pow 2 places⟩

namespace Fraction

/-- The nearest multiple of `1 / scale`, as a count of these; a tie goes to the even neighbour. -/
def rounded (f : Fraction) (scale : Nat) : Nat :=
  let whole := f.num * scale / f.den
  let rest := f.num * scale % f.den
  if f.den < 2 * rest || (f.den == 2 * rest && whole % 2 == 1) then whole + 1 else whole

def decimals (f : Fraction) : String :=
  let n := f.rounded 1000000
  let fraction := toString (n % 1000000)
  toString (n / 1000000) ++ "." ++ "".pushn '0' (6 - fraction.length) ++ fraction

end Fraction

/-- The entropy of a text as it is shown. A sum of negated zeros keeps their sign; the empty text gives
the empty sum, which has none. -/
def shown (s : String) : String :=
  let entropy := ofText s
  (if !s.isEmpty && entropy.num == 0 then "-" else "") ++ entropy.decimals

end TaintScan.Entropy
