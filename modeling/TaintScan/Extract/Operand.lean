import TaintScan.Extract.Suffix

/-! # Operands

Literals, paths, constructors, collections, bracketed expressions and lambdas. The body of a lambda
is deferred; what is recorded in its place is a literal, or a compound around an expression body.
-/
namespace TaintScan

namespace View

def constructorName (v : View) : Nat → Nat → String × Nat
  | 0, i => ("", i)
  | n + 1, i =>
    let i := if v.isOpAt i "\\" then i + 1 else i
    if v.isWordAt i then
      if v.isAnyOpAt (i + 1) [".", "::", "\\"] then
        let (rest, j) := constructorName v n (i + 2)
        (v.textAt i ++ "." ++ rest, j)
      else (v.textAt i, i + 1)
    else ("", i)

inductive FunctionBody where
  | braced (opener : Nat)
  | arrow (i : Nat)
  deriving DecidableEq, Repr

def functionBody? (v : View) : Nat → Int → Nat → Option FunctionBody
  | 0, _, _ => none
  | n + 1, depth, i =>
    match v.tok? i with
    | none => none
    | some t =>
      if t.kind == .operator then
        match t.text with
        | "\x7b" => if depth == 0 then some (.braced i) else functionBody? v n depth (i + 1)
        | "=>" => if depth == 0 then some (.arrow i) else functionBody? v n depth (i + 1)
        | "(" | "[" => functionBody? v n (depth + 1) (i + 1)
        | ")" | "]" => functionBody? v n (depth - 1) (i + 1)
        | ";" | "," | "\x7d" => none
        | _ => functionBody? v n depth (i + 1)
      else functionBody? v n depth (i + 1)

/-- The token at an index is a lambda arrow of the dialect; in PHP an arrow behind a name or a
bracket only separates a key from its value. -/
def isArrowAt (v : View) (i : Nat) : Bool :=
  v.language != .php && (v.tok? i).any fun t => v.dialect.lambdaArrows.contains t.text

end View

namespace Parse

def deferBody (params : List String) (start body close : Nat) : Parse Unit := do
  defer ⟨params, start, body, close, (← view).receiver.toList⟩

def lambdaLiteral (start : Nat) : Parse Pending := do
  return .done (← literal .other "lambda" (← spanSince start))

def bracedLambda (params : List String) (start opener : Nat) : Parse Pending := do
  let close ← ofOption ((← view).matching? opener)
  deferBody params start (opener + 1) close
  seek (close + 1)
  lambdaLiteral start

def bracketedParams : Parse (List String) := do
  if ← isOp "(" then
    let v ← view
    let i ← pos
    let close ← ofOption (v.matching? i)
    seek (close + 1)
    return v.paramNames (i + 1) close
  else return []

def skipType : Parse Unit := do seek (← here View.typeEnd)

end Parse

namespace Level

open Parse

/-- The body behind a lambda's arrow or colon. An expression body is replayed as one statement, and
in place of the bodies inside it. -/
def lambdaBody (sub : Level) (params : List String) (start : Nat) : Parse Pending := do
  let first ← pos
  if (← isOp "\x7b") && (← view).language != .python then bracedLambda params start first
  else
    let mark ← deferredCount
    let body ← sub.expr 1
    dropDeferred mark
    let stop ← pos
    if first < stop then deferBody params start first (stop - 1)
    return .done (← compound [body] start)

def anonymousFunction (sub : Level) (start : Nat) : Parse Pending := do
  seek (start + 1)
  if !(← eatOp "*") then let _ ← eatOp "&"
  if ← here View.isIdentAt then advance 1
  let params ← bracketedParams
  if ← here fun v i => v.language == .php && v.textAt i == "use" && v.isOpAt (i + 1) "(" then
    seek ((← ofOption ((← view).matching? ((← pos) + 1))) + 1)
  match ← here fun v i => v.functionBody? (v.limit - i) 0 i with
  | some (.braced opener) => bracedLambda params start opener
  | some (.arrow i) =>
    seek (i + 1)
    sub.lambdaBody params start
  | none => fail

def groups (sub : Level) : Nat → Parse (List ExprId)
  | 0 => return []
  | n + 1 => do
    if ← isOp "[" then
      let items ← sub.group (← pos)
      return items ++ (← groups sub n)
    else return []

def bracedItems (sub : Level) : Parse (List ExprId) := do
  if ← isOp "\x7b" then sub.group (← pos) else return []

def constructor (sub : Level) (start : Nat) : Parse Pending := do
  let v ← view
  let (name, i) := v.constructorName (v.limit - start) (start + 1)
  seek (if v.isOpAt i "<" then v.angleEnd i else i)
  if ← isOp "[" then
    let sizes ← sub.groups v.limit
    let items ← sub.bracedItems
    return .done (← compound (sizes ++ items) start)
  else
    let args ← if ← isOp "(" then sub.group (← pos) else pure []
    let items ←
      if v.language == .java then do
        if ← isOp "\x7b" then seek ((← ofOption (v.matching? (← pos))) + 1)
        pure []
      else sub.bracedItems
    return .done (← alloc (.call name none (args ++ items) true) (← spanSince start))

def collection (sub : Level) (start : Nat) : Parse Pending := do
  if (← isOp "\x7b") || (← isOp "(") then
    let items ← sub.group (← pos)
    return .done (← compound items start)
  else fail

def bracketed (sub : Level) (opener : Nat) : Parse Pending := do
  let v ← view
  let close ← ofOption (v.matching? opener)
  if v.isArrowAt (close + 1) then
    seek (close + 2)
    sub.lambdaBody (v.paramNames (opener + 1) close) opener
  else if v.isCast opener close then
    seek (close + 1)
    sub.pending 9
  else
    match ← sub.group opener with
    | [single] => return .done single
    | [] => return .done (← literal .other "()" (← spanSince opener))
    | items => return .done (← compound items opener)

def unary (sub : Level) (start : Nat) : Parse Pending := do
  advance 1
  let operand ← sub.expr 9
  return .done (← compound [operand] start)

def keywordOperand (sub : Level) (start : Nat) (t : Token) : Parse Pending := do
  let v ← view
  if v.dialect.constants.contains t.text then
    advance 1
    return .done (← literal .constant t.text t.span)
  else
    match t.text with
    | "this" | "self" | "super" | "base" =>
      advance 1
      return .path t.text t.span
    | "new" => sub.constructor start
    | "function" | "func" => sub.anonymousFunction start
    | "lambda" =>
      if v.language == .python then
        let colon ← ofOption (v.colonAfter? (start + 1))
        seek (colon + 1)
        sub.lambdaBody (v.paramNames (start + 1) colon) start
      else fail
    | "async" =>
      advance 1
      sub.primary
    | "await" | "yield" =>
      advance 1
      if ← isKeyword "from" then advance 1
      if ← atBoundary then return .done (← literal .constant "" t.span) else sub.pending 9
    | "not" | "typeof" | "delete" | "void" => sub.unary start
    | "map" | "chan" =>
      if v.language == .go then
        advance 1
        if ← isOp "[" then seek ((← ofOption (v.matching? (← pos))) + 1)
        skipType
        sub.collection start
      else fail
    | _ => fail

/-- A Ruby lambda. Its braces stay ahead and are read as a block behind it. -/
def arrowLambda (start : Nat) : Parse Pending := do
  advance 1
  let params ← bracketedParams
  if ← isOp "\x7b" then
    let opener ← pos
    let close ← ofOption ((← view).matching? opener)
    deferBody params start (opener + 1) close
    lambdaLiteral start
  else fail

def operatorOperand (sub : Level) (start : Nat) (t : Token) : Parse Pending := do
  let v ← view
  match t.text with
  | "(" => sub.bracketed start
  | "[" =>
    if v.language == .go && v.isOpAt (start + 1) "]" then
      advance 2
      let _ ← eatOp "*"
      skipType
      sub.collection start
    else return .done (← compound (← sub.group start) start)
  | "\x7b" => return .done (← compound (← sub.group start) start)
  | "!" | "-" | "+" | "~" | "++" | "--" => sub.unary start
  | "@" | "&" | "*" | "**" | "..." | "<-" =>
    advance 1
    sub.pending 9
  | "\\" | "::" =>
    advance 1
    sub.primary
  | "->" => if v.language == .ruby then arrowLambda start else fail
  | _ => fail

def literalOperand (sub : Level) (t : Token) (kind : LiteralKind) : Parse Pending := do
  advance 1
  match kind with
  | .interpolatedString => return .done (← sub.interpolated t kind)
  | .command =>
    let inner ← sub.interpolated t kind
    return .done (← alloc (.call "backtick" none [inner] false) t.span)
  | .string => return .done (← literal kind (Literal.value t.text) t.span)
  | _ => return .done (← literal kind t.text t.span)

def nameOperand (sub : Level) (start : Nat) (t : Token) : Parse Pending := do
  let v ← view
  if v.language == .php && t.text == "fn" && v.isOpAt (start + 1) "(" then
    sub.anonymousFunction start
  else if v.isArrowAt (start + 1) then
    advance 2
    sub.lambdaBody [t.text] start
  else
    advance 1
    return .path t.text t.span

def operand (sub : Level) : Parse Pending := do
  let start ← pos
  let t ← ofOption ((← view).tok? start)
  match t.kind with
  | .literal kind => sub.literalOperand t kind
  | .identifier => sub.nameOperand start t
  | .keyword => sub.keywordOperand start t
  | .operator => sub.operatorOperand start t
  | _ => fail

end Level
end TaintScan
