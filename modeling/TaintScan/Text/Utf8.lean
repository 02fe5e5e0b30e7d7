/-! # UTF-8

`decodeChar` reads one scalar value off the front of a byte list and says how many bytes it took.
`decode?` reads a whole list and refuses malformed input; `decodeLossy` writes one U+FFFD for each
maximal malformed part instead.
-/
namespace TaintScan.Text.Utf8

abbrev Bytes := List UInt8

def isContinuation (b : UInt8) : Bool := 0x80 ≤ b && b ≤ 0xBF

/-- The bytes that may stand second after a leading byte of a sequence of three or four bytes: no
overlong form, no surrogate, nothing above U+10FFFF. -/
def secondAllowed (lead b : UInt8) : Bool :=
  if lead == 0xE0 then 0xA0 ≤ b && b ≤ 0xBF
  else if lead == 0xED then 0x80 ≤ b && b ≤ 0x9F
  else if lead == 0xF0 then 0x90 ≤ b && b ≤ 0xBF
  else if lead == 0xF4 then 0x80 ≤ b && b ≤ 0x8F
  else isContinuation b

def payload (b : UInt8) : Nat := b.toNat % 64

def decodeChar : Bytes → Option (Char × Nat)
  | [] => none
  | a :: rest =>
    if a ≤ 0x7F then some (Char.ofNat a.toNat, 1)
    else if 0xC2 ≤ a && a ≤ 0xDF then
      match rest with
      | b :: _ =>
        if isContinuation b then some (Char.ofNat (a.toNat % 32 * 64 + payload b), 2) else none
      | _ => none
    else if 0xE0 ≤ a && a ≤ 0xEF then
      match rest with
      | b :: c :: _ =>
        if secondAllowed a b && isContinuation c then
          some (Char.ofNat ((a.toNat % 16 * 64 + payload b) * 64 + payload c), 3)
        else none
      | _ => none
    else if 0xF0 ≤ a && a ≤ 0xF4 then
      match rest with
      | b :: c :: d :: _ =>
        if secondAllowed a b && isContinuation c && isContinuation d then
          some (Char.ofNat (((a.toNat % 8 * 64 + payload b) * 64 + payload c) * 64 + payload d), 4)
        else none
      | _ => none
    else none

/-- The width of the malformed part at the front of a list that starts with no well-formed
sequence: a leading byte with the continuation bytes that could still follow it, or one byte. -/
def malformedWidth : Bytes → Nat
  | [] => 0
  | a :: rest =>
    if 0xE0 ≤ a && a ≤ 0xEF then
      match rest with
      | b :: _ => if secondAllowed a b then 2 else 1
      | _ => 1
    else if 0xF0 ≤ a && a ≤ 0xF4 then
      match rest with
      | b :: c :: _ => if secondAllowed a b then (if isContinuation c then 3 else 2) else 1
      | [b] => if secondAllowed a b then 2 else 1
      | _ => 1
    else 1

/-- The characters of a well-formed list; `skip` counts the bytes that belong to a character already
read. -/
def decodeFrom (skip : Nat) : Bytes → Option (List Char)
  | [] => some []
  | a :: rest =>
    match skip with
    | k + 1 => decodeFrom k rest
    | 0 =>
      match decodeChar (a :: rest) with
      | some (c, n) => (decodeFrom (n - 1) rest).map (c :: ·)
      | none => none

def decode? (bytes : Bytes) : Option String := (decodeFrom 0 bytes).map String.ofList

def isValid (bytes : Bytes) : Bool := (decodeFrom 0 bytes).isSome

def lossyFrom (skip : Nat) : Bytes → List Char
  | [] => []
  | a :: rest =>
    match skip with
    | k + 1 => lossyFrom k rest
    | 0 =>
      match decodeChar (a :: rest) with
      | some (c, n) => c :: lossyFrom (n - 1) rest
      | none => '\uFFFD' :: lossyFrom (malformedWidth (a :: rest) - 1) rest

def decodeLossy (bytes : Bytes) : String := String.ofList (lossyFrom 0 bytes)

def encodeChar (c : Char) : Bytes :=
  let n := c.toNat
  if n < 0x80 then [n.toUInt8]
  else if n < 0x800 then [(0xC0 + n / 64).toUInt8, (0x80 + n % 64).toUInt8]
  else if n < 0x10000 then
    [(0xE0 + n / 4096).toUInt8, (0x80 + n / 64 % 64).toUInt8, (0x80 + n % 64).toUInt8]
  else
    [(0xF0 + n / 262144).toUInt8, (0x80 + n / 4096 % 64).toUInt8, (0x80 + n / 64 % 64).toUInt8,
      (0x80 + n % 64).toUInt8]

def encode (s : String) : Bytes := s.toList.flatMap encodeChar

def width (s : String) : Nat := (encode s).length

end TaintScan.Text.Utf8
