import TaintScan.Data.Value

/-! # Writing a value as indented JSON

Two spaces per level, one entry per line, a space behind each colon, and nothing between the brackets
of an empty list or map. Fields stand in the order of the value. Only quotes, backslashes and control
characters are escaped.
-/
namespace TaintScan.Json

def hexDigit (n : Nat) : Char := (Nat.digitChar n)

def escape (c : Char) : List Char :=
  if c == '"' then ['\\', '"']
  else if c == '\\' then ['\\', '\\']
  else if c == '\x08' then ['\\', 'b']
  else if c == '\t' then ['\\', 't']
  else if c == '\n' then ['\\', 'n']
  else if c == '\x0c' then ['\\', 'f']
  else if c == '\r' then ['\\', 'r']
  else if c.toNat < 0x20 then ['\\', 'u', '0', '0', hexDigit (c.toNat / 16), hexDigit (c.toNat % 16)]
  else [c]

def quoted (s : String) : String := "\"" ++ String.ofList (s.toList.flatMap escape) ++ "\""

def indent (level : Nat) : String := "".pushn ' ' (2 * level)

mutual

def pretty (level : Nat) : Value → String
  | .null | .irregular => "null"
  | .bool b => if b then "true" else "false"
  | .int n => toString n
  | .decimal digits => digits
  | .text s | .plain s => quoted s
  | .list [] => "[]"
  | .list (v :: rest) =>
    "[\n" ++ indent (level + 1) ++ pretty (level + 1) v ++ prettyRest (level + 1) rest ++ "\n" ++
      indent level ++ "]"
  | .map [] => "\x7b\x7d"
  | .map ((key, v) :: rest) =>
    "\x7b\n" ++ indent (level + 1) ++ quoted key ++ ": " ++ pretty (level + 1) v ++
      prettyFields (level + 1) rest ++ "\n" ++ indent level ++ "\x7d"

def prettyRest (level : Nat) : List Value → String
  | [] => ""
  | v :: rest => ",\n" ++ indent level ++ pretty level v ++ prettyRest level rest

def prettyFields (level : Nat) : List (String × Value) → String
  | [] => ""
  | (key, v) :: rest =>
    ",\n" ++ indent level ++ quoted key ++ ": " ++ pretty level v ++ prettyFields level rest

end

end TaintScan.Json
