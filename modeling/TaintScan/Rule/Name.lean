import TaintScan.Text.Blank

/-! # Name patterns

A callee pattern matches a callee that equals it or ends with it behind a dot. A path pattern matches
a path that holds its dotted segments side by side. A callee pattern written `new Name` matches
constructor calls only, whether they are written `new Name(…)` or `Name.new(…)`.
-/
namespace TaintScan

def calleeMatches (pattern callee : String) : Bool :=
  callee == pattern || Text.endsWith ("." ++ pattern) callee

def hasRun (want : List String) : List String → Bool
  | [] => want.isEmpty
  | s :: rest => want.isPrefixOf (s :: rest) || hasRun want rest

/-- An empty pattern matches nothing. -/
def pathMatches (pattern path : String) : Bool :=
  pattern != "" && hasRun (Text.splitOn '.' pattern) (Text.splitOn '.' path)

structure CalleePattern where
  name : String
  constructs : Bool := false
  deriving DecidableEq, Repr

namespace CalleePattern

/-- Reads a pattern; blanks around the parts count for nothing. -/
def ofText (text : String) : CalleePattern :=
  match Text.dropHead? "new " (Text.trim text) with
  | some rest => ⟨Text.trim rest, true⟩
  | none => ⟨Text.trim text, false⟩

def text (p : CalleePattern) : String := if p.constructs then "new " ++ p.name else p.name

def isMatch (p : CalleePattern) (callee : String) (constructs : Bool) : Bool :=
  if p.constructs then
    constructs && calleeMatches p.name ((Text.dropTail? ".new" callee).getD callee)
  else calleeMatches p.name callee

end CalleePattern

def anyMatch (patterns : List CalleePattern) (callee : String) (constructs : Bool) : Bool :=
  patterns.any (·.isMatch callee constructs)

end TaintScan
