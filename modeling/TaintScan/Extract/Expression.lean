import TaintScan.Extract.Operand

/-! # Expressions

Binary operators are read by how tightly they bind. A run of operators of the same kind, string
building or not, becomes one flat node. Parsing nests at most `maxParseDepth` levels deep, and
expressions whose trees reach `maxTreeHeight` are given up.
-/
namespace TaintScan

namespace Pending

def isChain : Pending → Bool
  | chain .. => true
  | _ => false

end Pending

namespace Parse

def skipCast : Parse Bool := do
  let v ← view
  let i ← pos
  if (v.language == .typescript || v.language == .csharp) && v.textAt i == "as" &&
      !(v.tok? i).any (·.kind == .operator) then
    seek (v.typeEnd (i + 1))
    return true
  else return false

/-- An operator builds a string: it concatenates, it adds to a string, or it fills in a literal
template. -/
def buildsString (op : String) (left : Pending) (right : ExprId) : Parse Bool := do
  match op with
  | "." => return true
  | "+" =>
    if ← isStringy right then return true
    else
      match left with
      | .chain concat .. => return concat
      | .done id => isStringy id
      | _ => return false
  | "%" =>
    match left with
    | .done id =>
      if (← view).dialect.formatOperator == some "%" then isStringLiteral id else return false
    | _ => return false
  | _ => return false

def chainOf (concat : Bool) : Pending → Parse (List ExprId × Nat)
  | .chain kind parts height span => do
    if kind == concat then return (parts, height)
    else
      let id ← materialize (.chain kind parts height span)
      return (← operandsOf concat id, (← Parse.height id) + 1)
  | left => do
    let id ← materialize left
    return (← operandsOf concat id, (← height id) + 1)

def binary (op : String) (left : Pending) (right : ExprId) (start : Nat) : Parse Pending := do
  let span ← spanSince start
  let concat ← buildsString op left right
  let (parts, h) ← chainOf concat left
  let last ← operandsOf concat right
  return .chain concat (parts ++ last) (max h ((← height right) + 1)) span

end Parse

namespace Level

open Parse

def conditional (sub : Level) (op : String) (left : ExprId) (start : Nat) : Parse ExprId := do
  let second ← sub.expr (if op == "?" then 1 else 2)
  let more ← if op == "?" then eatOp ":" else do
    if ← isKeyword "else" then
      advance 1
      pure true
    else pure false
  let third ← if more then attempt (sub.expr 1) else pure none
  compound (left :: second :: third.toList) start

/-- Goes on with an operator that stands here. The operand is answered beside whether the operator
was taken; if not, the position stays before it. -/
def operator (sub : Level) (op : String) (power start : Nat) (left : Pending) :
    Parse (Pending × Bool) := do
  let i ← pos
  advance 1
  if op == "not" || (op == "is" && (← isKeyword "not")) then advance 1
  if op == "?" || op == "if" then
    let first ← materialize left
    match ← attempt (sub.conditional op first start) with
    | some id => return (.done id, true)
    | none =>
      seek i
      return (.done first, false)
  else
    match ← attempt (sub.expr power) with
    | some right => return (← binary op left right start, true)
    | none =>
      seek i
      return (left, false)

def climbFrom (sub : Level) (power start : Nat) : Nat → Pending → Parse Pending
  | 0, left => return left
  | n + 1, left => do
    if (← tooDeep left) || (← atBoundary) then return left
    else
      let before ← pos
      let left ← if left.isChain then pure left else sub.suffix left start
      if before < (← pos) then climbFrom sub power start n left
      else if ← skipCast then climbFrom sub power start n left
      else
        match ← here View.bindingPower? with
        | none => return left
        | some (leftPower, rightPower) =>
          if leftPower < power then return left
          else
            let op ← here View.textAt
            let (left, taken) ← sub.operator op rightPower start left
            if taken then climbFrom sub power start n left else return left

def climb (sub : Level) (power : Nat) : Parse Pending := do
  let start ← pos
  let first ← sub.primary
  let left ← sub.climbFrom power start ((← here fun v i => v.limit - i) + 1) first
  if ← tooDeep left then fail else return left

def nested : Nat → Level
  | 0 => ⟨fun _ => fail, fail⟩
  | n + 1 =>
    let sub := nested n
    ⟨fun power => deeper (sub.climb power), deeper sub.operand⟩

/-- The parsers outside all expressions. They have one level more than can be entered. -/
def outermost : Level := nested (maxParseDepth + 1)

end Level

namespace Parse

def expr (power : Nat) : Parse ExprId := Level.outermost.expr power

def group (opener : Nat) : Parse (List ExprId) := Level.outermost.group opener

end Parse
end TaintScan
