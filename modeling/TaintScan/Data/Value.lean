import TaintScan.Data.Numeral

/-! # Structured values

Rule files, rule parameters and configuration are read as structured values first and typed afterwards.
A scalar that a document holds without quotes stays `plain`, because what is asked of it decides whether
it is a word, a number, a truth value or nothing.
-/
namespace TaintScan

inductive Value where
  | null
  | bool (b : Bool)
  | int (n : Int)
  | decimal (digits : String)
  | text (s : String)
  | plain (s : String)
  | list (items : List Value)
  | map (fields : List (String × Value))
  /-- A map with a list or a map among its keys, of which nothing can be read. -/
  | irregular
  deriving Repr, Inhabited

namespace Value

def isNullWord (s : String) : Bool := ["", "~", "null", "Null", "NULL"].contains s

def boolWord? (s : String) : Option Bool :=
  if ["true", "True", "TRUE"].contains s then some true
  else if ["false", "False", "FALSE"].contains s then some false
  else none

def isNull : Value → Bool
  | null => true
  | plain s => isNullWord s
  | _ => false

def text? : Value → Option String
  | text s | plain s => some s
  | _ => none

def bool? : Value → Option Bool
  | bool b => some b
  | plain s => boolWord? s
  | _ => none

def maxNat : Nat := Nat.pow 2 64 - 1

def nat? : Value → Option Nat
  | int (.ofNat n) => if n ≤ maxNat then some n else none
  | plain s => (Numeral.nat? s).filter (· ≤ maxNat)
  | _ => none

/-- An empty plain scalar stands for the empty list. -/
def list? : Value → Option (List Value)
  | list items => some items
  | plain "" => some []
  | _ => none

/-- An empty plain scalar stands for the empty map. -/
def fields? : Value → Option (List (String × Value))
  | map fields => some fields
  | plain "" => some []
  | _ => none

def listOf? (item? : Value → Option α) (v : Value) : Option (List α) := v.list? >>= (·.mapM item?)

/-- A null value is an absent one. -/
def optional? (item? : Value → Option α) (v : Value) : Option (Option α) :=
  if v.isNull then some none else (item? v).map some

/-- The word that names one case of an enumeration: a text, or a map from the name to null. -/
def word? : Value → Option String
  | text s | plain s => some s
  | map [(name, null)] => some name
  | _ => none

def isScalar : Value → Bool
  | list _ | map _ | irregular => false
  | _ => true

def isFlat : Value → Bool
  | list items => items.all isScalar
  | v => v.isScalar

mutual

def depth : Value → Nat
  | list items => depthOfItems items + 1
  | map fields => depthOfFields fields + 1
  | _ => 0

def depthOfItems : List Value → Nat
  | [] => 0
  | v :: rest => max (depth v) (depthOfItems rest)

def depthOfFields : List (String × Value) → Nat
  | [] => 0
  | (_, v) :: rest => max (depth v) (depthOfFields rest)

end

def distinctKeys (fields : List (String × Value)) : Bool :=
  match fields with
  | [] => true
  | (key, _) :: rest => !rest.any (·.1 == key) && distinctKeys rest

/-- The fields of a record: a map with these names only, each at most once, or a list that gives the
first of them in order. -/
def record? (names : List String) : Value → Option (List (String × Value))
  | list items => if items.length ≤ names.length then some (names.zip items) else none
  | v => v.fields?.filter fun fields => fields.all (names.contains ·.1) && distinctKeys fields

/-- Keeps the last value of each key, at the place of the key's first occurrence. -/
def setField (fields : List (String × α)) (key : String) (v : α) : List (String × α) :=
  match fields with
  | [] => [(key, v)]
  | f :: rest => if f.1 == key then (key, v) :: rest else f :: setField rest key v

def ofWord (s : String) : Value :=
  if Numeral.isSpecial s then null
  else if Numeral.isDecimal s then decimal s
  else text s

def fitsWord (bits : Nat) (n : Int) : Bool :=
  -(Nat.pow 2 (bits - 1) : Int) ≤ n && n < (Nat.pow 2 bits : Int)

/-- Settles what an unquoted scalar is. An integer must fit a signed or unsigned 64-bit word; one
beyond the 128-bit words is read as a decimal. -/
def ofPlain? (s : String) : Option Value :=
  if isNullWord s then some null
  else
    match boolWord? s, Numeral.int? s with
    | some b, _ => some (bool b)
    | none, some n =>
      if fitsWord 64 n then some (int n)
      else if fitsWord 128 n then none
      else some (ofWord s)
    | none, none => some (ofWord s)

mutual

/-- Settles every unquoted scalar; of a repeated key the last value stays. -/
def resolve? : Value → Option Value
  | plain s => ofPlain? s
  | list items => (resolveAll? items).map list
  | map fields => (resolveFields? fields []).map map
  | irregular => none
  | v => some v

def resolveAll? : List Value → Option (List Value)
  | [] => some []
  | v :: rest =>
    match resolve? v, resolveAll? rest with
    | some v, some rest => some (v :: rest)
    | _, _ => none

def resolveFields? : List (String × Value) → List (String × Value) → Option (List (String × Value))
  | [], done => some done
  | (key, v) :: rest, done =>
    match resolve? v with
    | some v => resolveFields? rest (setField done key v)
    | none => none

end

end Value

/-- Reads one field of a record; `missing` is the result if the record has no such field. -/
def readField? (fields : List (String × Value)) (name : String) (missing : Option α)
    (value? : Value → Option α) : Option α :=
  match fields.lookup name with
  | some v => value? v
  | none => missing

end TaintScan
