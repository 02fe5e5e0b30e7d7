import TaintScan.Extract.Group

/-! # Member accesses, calls and indexes

What may follow an operand directly. Calls of formatting functions with a literal template, and of
functions that join path segments, build strings. A block behind a call is deferred.
-/
namespace TaintScan

def formatCalls : List String :=
  ["format", "Format", "sprintf", "Sprintf", "vsprintf", "Sprint", "Sprintln"]

def pathJoins : List String :=
  ["os.path.join", "path.join", "path.resolve", "Path.Combine", "filepath.Join", "path.Join",
    "Paths.get", "Path.of", "File.join"]

namespace Parse

def operandsOf (concat : Bool) (id : ExprId) : Parse (List ExprId) := do
  match ← kindOf id with
  | some (.concat parts) => return if concat then parts else [id]
  | _ => return [id]

def concat (ids : List ExprId) (span : Span) : Parse ExprId := do
  alloc (.concat (← ids.mapM (operandsOf true)).flatten) span

def calleeOf : Pending → Parse (String × Option ExprId)
  | .path path span =>
    match Text.splitLast? '.' path with
    | some (receiver, _) => do return (path, some (← alloc (.variable receiver) span))
    | none => return (path, none)
  | .member base name _ => do return ((← baseName base) ++ "." ++ name, some base)
  | left => do return (← baseName (← materialize left), none)

def makeCall (callee : String) (receiver : Option ExprId) (args : List ExprId) (start : Nat) :
    Parse ExprId := do
  let span ← spanSince start
  let method := Text.afterLast '.' callee
  let onLiteral ← receiver.elim (return false) isStringLiteral
  let template ← args.head?.elim (return false) isStringLiteral
  if (formatCalls.contains method && (onLiteral || template)) || (method == "join" && onLiteral) then
    concat ((if onLiteral then receiver.toList else []) ++ args) span
  else if pathJoins.contains callee then concat args span
  else
    let constructs := (← view).language == .ruby && method == "new"
    alloc (.call callee receiver args constructs) span

/-- The values that a block receives: the receiver of its call, and the call itself. -/
def blockSources (id : ExprId) : Parse (List ExprId) := do
  match ← exprOf id with
  | some ⟨.call _ (some receiver) _ _, _⟩ => return [receiver, id]
  | some ⟨.variable path, span⟩ =>
    match Text.splitLast? '.' path with
    | some (receiver, _) => return [← alloc (.variable receiver) span, id]
    | none => return [id]
  | _ => return [id]

def member (left : Pending) (start : Nat) : Parse Pending := do
  let v ← view
  let i ← pos
  if v.isWordAt (i + 1) then
    let name := v.textAt (i + 1)
    seek (i + 2)
    let span ← spanSince start
    match left with
    | .path path _ => return .path (path ++ "." ++ name) span
    | .member base inner _ => return .member base (inner ++ "." ++ name) span
    | left => return .member (← materialize left) name span
  else if v.language == .go && v.isOpAt (i + 1) "(" then
    match v.matching? (i + 1) with
    | some close =>
      seek (close + 1)
      return left
    | none => return left
  else return left

def braceBlock (left : Pending) (start : Nat) : Parse Pending := do
  let opener ← pos
  match (← view).matching? opener with
  | none => return left
  | some close =>
    let call ← match left with
      | .path .. | .member .. => do
        let (callee, receiver) ← calleeOf left
        makeCall callee receiver [] start
      | other => materialize other
    let (params, body) := (← view).blockParams (opener + 1)
    let sources ← blockSources call
    defer ⟨params, opener, body, close, sources⟩
    seek (close + 1)
    return .done call

end Parse

namespace Level

open Parse

/-- The arguments of a call; unbalanced brackets leave its receiver, or a read of the callee. -/
def call (sub : Level) (left : Pending) (start : Nat) : Parse Pending := do
  let (callee, receiver) ← calleeOf left
  match ← attempt (within (fun v => { v with receiver := receiver }) (sub.group (← pos))) with
  | some args => return .done (← makeCall callee receiver args start)
  | none =>
    match receiver with
    | some id => return .done id
    | none => return .done (← alloc (.variable callee) (← spanSince start))

def index (sub : Level) (left : ExprId) (start : Nat) : Parse Pending := do
  let base ← baseName left
  match ← attempt (sub.group (← pos)) with
  | some keys =>
    let id ← compound (left :: keys) start
    setLValue id (.index base)
    return .done id
  | none => return .done left

def commandArgs (sub : Level) : Nat → Parse (List ExprId)
  | 0 => return []
  | n + 1 => do
    if ← here fun v i => v.isIdentAt i && v.isOpAt (i + 1) ":" then advance 2
    match ← attempt (sub.expr 0) with
    | none => return []
    | some arg =>
      if ← eatOp "," then return arg :: (← commandArgs sub n) else return [arg]

def startsCommand (v : View) (i : Nat) : Bool :=
  !v.newlineBefore i &&
    (v.tok? i).any fun t =>
      t.kind != .keyword || ["self", "nil", "true", "false"].contains t.text

def commandCall (sub : Level) (left : Pending) (start : Nat) : Parse Pending := do
  if ← here startsCommand then
    let (callee, receiver) ← calleeOf left
    let args ← within (fun v => { v with receiver := receiver })
      (sub.commandArgs (← view).limit)
    return .done (← makeCall callee receiver args start)
  else return left

def adjacent (sub : Level) (left : ExprId) (start : Nat) : Parse Pending := do
  if ← isStringy left then
    match ← attempt sub.primary with
    | some next =>
      let right ← materialize next
      return .done (← concat [left, right] (← spanSince start))
    | none => return .done left
  else return .done left

def suffixOperator (sub : Level) (t : Token) (left : Pending) (start : Nat) : Parse Pending := do
  let v ← view
  let i ← pos
  if v.dialect.memberOperators.contains t.text then member left start
  else
    match t.text with
    | "(" => sub.call left start
    | "[" => sub.index (← materialize left) start
    | "++" | "--" =>
      advance 1
      return left
    | "!" =>
      if v.language == .typescript && 0 < i && v.tokens[i - 1]?.any (·.span.stop == t.span.start) &&
          !v.isOpAt (i + 1) "=" then
        advance 1
      return left
    | "<" =>
      if (v.language == .java || v.language == .csharp || v.language == .typescript) &&
          v.genericCallAhead i then
        seek (v.angleEnd i)
      return left
    | "\x7b" =>
      match v.language, left with
      | .ruby, left => braceBlock left start
      | .go, .path path span =>
        match ← attempt (sub.group i) with
        | some items => return .done (← compound items start)
        | none => return .path path span
      | _, left => return left
    | _ => return left

/-- What follows an operand directly. Where nothing does, the position does not move. -/
def suffix (sub : Level) (left : Pending) (start : Nat) : Parse Pending := do
  let v ← view
  match v.tok? (← pos) with
  | none => return left
  | some t =>
    match t.kind, left with
    | .operator, left => sub.suffixOperator t left start
    | .literal _, .path .. | .identifier, .path .. | .keyword, .path .. =>
      if v.dialect.parenLessCalls then sub.commandCall left start else return left
    | .literal .string, .done id | .literal .interpolatedString, .done id =>
      if v.language == .python || v.language == .ruby then sub.adjacent id start else return left
    | _, left => return left

end Level
end TaintScan
