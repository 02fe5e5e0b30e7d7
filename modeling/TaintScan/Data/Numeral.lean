/-! # Numerals written without quotes

Which unquoted words of a document are numbers. An integer has an optional sign and decimal digits, or
the base marks `0x`, `0o` and `0b`; a decimal numeral with a leading zero is a word, not a number.
-/
namespace TaintScan.Numeral

def digit? (base : Nat) (c : Char) : Option Nat :=
  let value :=
    if c.isDigit then c.toNat - '0'.toNat
    else if 'a' ≤ c && c ≤ 'f' then c.toNat - 'a'.toNat + 10
    else if 'A' ≤ c && c ≤ 'F' then c.toNat - 'A'.toNat + 10
    else base
  if value < base then some value else none

def digits? (base : Nat) (cs : List Char) : Option Nat :=
  if cs.isEmpty then none
  else cs.foldlM (fun n c => (digit? base c).map (n * base + ·)) 0

def isZeroLed (cs : List Char) : Bool :=
  cs.length > 1 && cs.head? == some '0' && cs.all Char.isDigit

def magnitude? : List Char → Option Nat
  | '0' :: 'x' :: rest => digits? 16 rest
  | '0' :: 'o' :: rest => digits? 8 rest
  | '0' :: 'b' :: rest => digits? 2 rest
  | cs => if isZeroLed cs then none else digits? 10 cs

/-- A natural number; a plus sign is allowed. -/
def nat? (s : String) : Option Nat :=
  match s.toList with
  | '+' :: rest => magnitude? rest
  | cs => magnitude? cs

def int? (s : String) : Option Int :=
  match s.toList with
  | '-' :: rest => (magnitude? rest).map fun n => -(n : Int)
  | _ => (nat? s).map Int.ofNat

/-- An exponent mark, an optional sign and digits; nothing stands for exponent zero. -/
def exponent? : List Char → Option Int
  | [] => some 0
  | c :: rest =>
    if c == 'e' || c == 'E' then
      match rest with
      | '-' :: ds => (digits? 10 ds).map fun n => -(n : Int)
      | '+' :: ds => (digits? 10 ds).map Int.ofNat
      | ds => (digits? 10 ds).map Int.ofNat
    else none

/-- The numbers from here on round to infinity. -/
def overflow : Nat := Nat.pow 2 1024 - Nat.pow 2 970

/-- `mantissa · 10 ^ exponent` stays below `overflow`. The number of digits settles all but the values
of three hundred and nine digits. -/
def isFinite (mantissa : Nat) (exponent : Int) : Bool :=
  let width := (Nat.toDigits 10 mantissa).length + exponent
  mantissa == 0 || width < 309 ||
    (width == 309 &&
      (if exponent < 0 then mantissa / Nat.pow 10 exponent.natAbs
        else mantissa * Nat.pow 10 exponent.natAbs) < overflow)

def isUnsignedDecimal (cs : List Char) : Bool :=
  let whole := cs.takeWhile Char.isDigit
  let rest := cs.dropWhile Char.isDigit
  let (fraction, tail) :=
    match rest with
    | '.' :: r => (r.takeWhile Char.isDigit, r.dropWhile Char.isDigit)
    | r => ([], r)
  match digits? 10 (whole ++ fraction), exponent? tail with
  | some m, some e => isFinite m (e - fraction.length)
  | _, _ => false

def isDecimal (s : String) : Bool :=
  match s.toList with
  | '+' :: rest | '-' :: rest => isUnsignedDecimal rest && !isZeroLed rest
  | cs => isUnsignedDecimal cs && !isZeroLed cs

def isSpecial (s : String) : Bool :=
  [".inf", ".Inf", ".INF", "+.inf", "+.Inf", "+.INF", "-.inf", "-.Inf", "-.INF", ".nan", ".NaN",
    ".NAN"].contains s

end TaintScan.Numeral
