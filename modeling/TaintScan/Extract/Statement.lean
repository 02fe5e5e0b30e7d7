import TaintScan.Extract.Header

/-! # Statements

Each statement is recognised by its first tokens. What is not recognised, or does not end where a
statement may end, is passed over up to the end of the statement and recorded as unparsed.
-/
namespace TaintScan

def inertWords : List String :=
  ["break", "continue", "pass", "next", "redo", "retry", "fallthrough", "goto", "global",
    "nonlocal", "undef", "alias"]

def leadingWords : List String := ["return", "throw", "raise", "yield", "assert", "del", "delete"]

def assignOperators : List String :=
  ["=", ":=", "+=", "-=", "*=", "/=", "%=", ".=", "|=", "&=", "^=", "<<=", ">>=", ">>>=", "**=",
    "??=", "||=", "&&="]

def trailingWords : List String := ["if", "unless", "while", "until", "rescue"]

namespace Parse

def moreItems : Nat → Parse (List ExprId)
  | 0 => return []
  | n + 1 => do
    if ← eatOp "," then
      let item ← expr 0
      return item :: (← moreItems n)
    else return []

def trailingConditions : Nat → Parse (List ExprId)
  | 0 => return []
  | n + 1 => do
    let ahead ← here fun v i =>
      v.language == .ruby && !v.newlineBefore i &&
        (v.tok? i).any fun t => t.kind == .keyword && trailingWords.contains t.text
    if ahead then
      advance 1
      let condition ← attempt (expr 0)
      return condition.toList ++ (← trailingConditions n)
    else return []

def commandItems : Nat → Parse (List ExprId)
  | 0 => return []
  | n + 1 => do
    if ← atBoundary then return []
    else
      let item ← expr 0
      if ← eatOp "," then return item :: (← commandItems n) else return [item]

end Parse

namespace View

def plainBinding (v : View) : Nat → Nat → List String × Nat
  | 0, i => ([], i)
  | n + 1, i =>
    if v.isIdentAt i then
      if v.language == .go && v.isOpAt (i + 1) "," && v.isIdentAt (i + 2) then
        let (names, j) := plainBinding v n (i + 2)
        (v.textAt i :: names, j)
      else ([v.textAt i], i + 1)
    else ([], i)

def bindingPattern (v : View) (i : Nat) : List String × Nat :=
  if v.isOpAt i "\x7b" || v.isOpAt i "[" then
    match v.matching? i with
    | none => ([], i)
    | some close =>
      (v.names ((List.range' (i + 1) (close - (i + 1))).filter fun j =>
        v.isIdentAt j && !v.isOpAt (j + 1) ":"), close + 1)
  else v.plainBinding (v.limit - i) i

def declarationFollows (v : View) (close : Nat) : Bool :=
  v.isWordAt (close + 1) || v.isAnyOpAt (close + 1) ["[", "#"]

end View

namespace Draft

def targetsOf (d : Draft) (id : ExprId) : Except UnknownExpr (List String × Bool) := do
  match d.lvalues[id]? with
  | some (.member name) => return ([name], false)
  | some (.index base) => return ([base], true)
  | none =>
    match (← d.arena.get? id).kind with
    | .variable path => return ([path], false)
    | .compound parts =>
      let names ← parts.mapM fun part => do
        match (← d.arena.get? part).kind with
        | .variable path => return [path]
        | _ => return []
      return (names.flatten, false)
    | _ => return ([], false)

end Draft

namespace Walk

def withExpr (start : Nat) (next : ExprId → Walk Unit) : Walk Unit := do
  match ← parse (Parse.expr 0) with
  | some id => next id
  | none => giveUp start

def trailingConditions : Walk (List ExprId) := do
  parseList (Parse.trailingConditions (← here fun v i => v.limit - i))

def annotation (start : Nat) : Walk Unit := do
  let v ← view
  let (name, i) := v.annotationName (v.limit - start) (start + 1)
  seek (v.pastGroup "(" i)
  if !name.isEmpty then act fun _ b => { b with annotations := b.annotations ++ [name] }

def attributeList (opener : Nat) : Walk Bool := do
  let v ← view
  match v.matching? opener with
  | none => return false
  | some close =>
    if v.declarationFollows close then
      let name := v.attributeName (opener + 1) close
      if !name.isEmpty then act fun _ b => { b with annotations := b.annotations ++ [name] }
      seek (close + 1)
      return true
    else return false

def commandStatement (replay : Replay) (start : Nat) : Walk Unit := do
  let callee ← here View.textAt
  advance 1
  match ← parse (Parse.commandItems (← here fun v i => v.limit - i)) with
  | none => giveUp start
  | some args =>
    if ← atBoundary then
      let call ← alloc (.call callee none args false) start
      complete replay .call [] false [call] start
    else giveUp start

def leadingStatement (replay : Replay) (start : Nat) : Walk Unit := do
  advance 1
  if ← atBoundary then
    let _ ← eatOp ";"
    clearModifiers
    finish
  else
    withExpr start fun value => do
      let conditions ← trailingConditions
      if ← atBoundary then complete replay .expression [] false (value :: conditions) start
      else giveUp start

/-- The value behind an equals sign, if one stands here; `none` where it does not parse. -/
def initialValue (ops : List String) : Walk (Option (List ExprId)) := do
  if ← here fun v i => v.isAnyOpAt i ops then
    advance 1
    return (← parse (Parse.expr 0)).map ([·])
  else return some []

def declarations (replay : Replay) : Nat → Nat → Walk Unit
  | 0, start => giveUp start
  | n + 1, start => do
    let (targets, i) ← here View.bindingPattern
    seek i
    if targets.isEmpty then giveUp start
    else
      seek (← here View.annotationEnd)
      match ← initialValue ["=", ":="] with
      | none => giveUp start
      | some operands =>
        if ← isOp "," then
          if ← here fun v i => v.isIdentAt (i + 1) then
            emit .declaration targets false operands start
            advance 1
            declarations replay n (← pos)
          else giveUp start
        else if (← atBoundary) || (← isKeyword "do") then
          completeWithBlock replay .declaration targets false operands start
        else giveUp start

def keywordDeclaration (replay : Replay) (start : Nat) : Walk Unit := do
  advance 1
  if ← isOp "(" then
    let _ ← skipStatement
  else declarations replay (← here fun v i => v.limit - i + 1) start

def typedDeclarations (replay : Replay) : Nat → Nat → Walk Unit
  | 0, start => giveUp start
  | n + 1, start => do
    let v ← view
    let i ← pos
    let target := v.textAt i
    let i := v.emptyPairsEnd (v.limit - i) (i + 1)
    let accessors := v.accessorEnd? i
    seek ((accessors.map (· + 1)).getD i)
    if accessors.isSome && !(← isOp "=") then complete replay .declaration [target] false [] start
    else
      match ← initialValue ["="] with
      | none => giveUp start
      | some operands =>
        if ← here fun v i => v.isOpAt i "," && v.isIdentAt (i + 1) then
          emit .declaration [target] false operands start
          advance 1
          typedDeclarations replay n (← pos)
        else if ← atBoundary then complete replay .declaration [target] false operands start
        else giveUp start

def leftSides : Parse (List ExprId) := do
  let first ← Parse.within (fun v => { v with stopAtAppend := v.language == .ruby }) (Parse.expr 0)
  if (← Parse.isOp ",") && (← Parse.here View.assignmentAhead) then
    return first :: (← Parse.moreItems (← Parse.here fun v i => v.limit - i))
  else return [first]

/-- The value of an assignment; several values are one compound where the language has tuples. -/
def assignedValue (start : Nat) : Parse ExprId := do
  let value ← Parse.expr 0
  let language := (← Parse.view).language
  if (language == .python || language == .go || language == .ruby) && (← Parse.isOp ",") then
    let more ← Parse.moreItems (← Parse.here fun v i => v.limit - i)
    Parse.compound (value :: more) start
  else return value

def plainKind : ExprKind → StatementKind
  | .call .. => .call
  | _ => .expression

def assignmentTargets : List ExprId → Walk (List String × List ExprId)
  | [] => return ([], [])
  | id :: rest => do
    let (names, container) ← ofExcept ((← look (·.draft)).targetsOf id)
    let (moreNames, moreContainers) ← assignmentTargets rest
    return (names ++ moreNames, if container then id :: moreContainers else moreContainers)

def assignment (replay : Replay) (start : Nat) (op : String) (left : List ExprId) : Walk Unit := do
  advance 1
  match ← parse (assignedValue start) with
  | none => giveUp start
  | some value =>
    let (targets, containers) ← assignmentTargets left
    let conditions ← trailingConditions
    if (← atBoundary) || (← isKeyword "do") then
      completeWithBlock replay (if op == ":=" then .declaration else .assignment) targets
        (!containers.isEmpty || (op != "=" && op != ":=")) (value :: containers ++ conditions) start
    else giveUp start

def expressionStatement (replay : Replay) (start : Nat) : Walk Unit := do
  let v ← view
  match ← parse leftSides with
  | none | some [] => giveUp start
  | some (first :: rest) =>
    if (v.language == .python || v.language == .typescript) && (← isOp ":") then
      seek (← here View.annotationEnd)
    let assigns ← here fun v i =>
      v.isAnyOpAt i assignOperators || (v.language == .ruby && v.isOpAt i "<<")
    if assigns then assignment replay start (← here View.textAt) (first :: rest)
    else
      let conditions ← trailingConditions
      let kind := (← ofExcept ((← look (·.draft.arena)).get? first)).kind
      if (← atBoundary) || (← isKeyword "do") then
        completeWithBlock replay (plainKind kind) [] false (first :: rest ++ conditions) start
      else giveUp start

def declarationOrExpression (replay : Replay) (start : Nat) : Walk Unit := do
  let v ← view
  let i ← pos
  let inType ← look fun b => b.currentTag == 0 && b.scopeKind b.currentScope == .type
  match if inType then v.methodShape? i else none with
  | some shape => methodHeader start shape
  | none =>
    match if v.dialect.typedDeclarations then v.typedName? i else none with
    | some name =>
      seek name
      typedDeclarations replay (v.limit - name + 1) start
    | none => expressionStatement replay start

def visibility (start : Nat) (word : String) : Walk Unit := do
  let v ← view
  if v.isKeywordAt (start + 1) "def" && !v.newlineBefore (start + 1) then
    act fun _ b => { b with modifiers := b.modifiers ++ [word] }
    advance 1
  else if v.limit ≤ start + 1 || v.newlineBefore (start + 1) then
    act fun _ b => b.setPrivateSection (word != "public")
    advance 1
  else
    let _ ← skipStatement

def inertStatement : Walk Unit := do
  let _ ← skipStatement
  clearModifiers

/-- An import is passed over; a C# resource declaration behind the same word is not. -/
def importStatement (replay : Replay) (start : Nat) (word : String) : Walk Unit := do
  let v ← view
  if v.language == .csharp && word == "using" && v.isIdentAt (start + 2) then
    advance 1
    within (fun v => { v with stmtStart := start + 1 }) (declarationOrExpression replay start)
  else inertStatement

def keywordStatement? (replay : Replay) (start : Nat) (word : String) (v : View) :
    Option (Walk Unit) :=
  if word == "else" && v.isKeywordAt (start + 1) "if" then
    some do
      advance 1
      controlHeader replay start .branch
  else if v.language == .ruby && word == "when" then some (controlHeader replay start .branch)
  else
    match v.dialect.control? word with
    | some kind => some (controlHeader replay start kind)
    | none =>
      if v.dialect.commandKeywords.contains word then some (commandStatement replay start)
      else if inertWords.contains word then some inertStatement
      else if leadingWords.contains word then some (leadingStatement replay start)
      else none

def otherStatement (replay : Replay) (start : Nat) (keyword : Bool) (word : String) : Walk Unit := do
  let v ← view
  if v.dialect.declarationKeywords.contains word && (keyword || v.isIdentAt (start + 1)) &&
      !v.isOpAt (start + 1) "(" then
    keywordDeclaration replay start
  else declarationOrExpression replay start

def isCaseLabel (v : View) (start : Nat) (word : String) : Bool :=
  v.dialect.blockStyle == .braces &&
    (word == "case" ||
      (word == "default" && (v.isOpAt (start + 1) ":" || v.isOpAt (start + 1) "->")))

def wordStatement (replay : Replay) (start : Nat) (keyword : Bool) (word : String) : Walk Unit := do
  let v ← view
  let d := v.dialect
  if keyword && v.language == .ruby && word == "end" then
    advance 1
    act fun v b => b.closeEnd v
  else if keyword && isCaseLabel v start word then seek (← here View.caseEnd)
  else if d.importKeywords.contains word && !v.isOpAt (start + 1) "(" then
    importStatement replay start word
  else if v.language == .csharp && word == "using" then controlHeader replay start .withBody
  else if v.language == .ruby && ["private", "protected", "public"].contains word then
    visibility start word
  else if d.modifiers.contains word && v.modifierPosition start then
    act fun _ b => { b with modifiers := b.modifiers ++ [word] }
    advance 1
  else if keyword && d.functionKeywords.contains word then
    if ← look (v.isNamedFunction · start) then functionHeader start
    else expressionStatement replay start
  else if keyword && d.typeKeywords.contains word then typeHeader start
  else if keyword && v.language.isEcmascript && word == "type" then
    let _ ← skipStatement
  else if keyword then
    (keywordStatement? replay start word v).getD (otherStatement replay start true word)
  else if v.language == .python && inertWords.contains word then
    let _ ← skipStatement
  else otherStatement replay start false word

def operatorStatement (replay : Replay) (start : Nat) (op : String) : Walk Unit := do
  let v ← view
  match op with
  | ";" => advance 1
  | "\x7d" =>
    advance 1
    act fun v b => b.closeBrace v
  | "\x7b" =>
    if v.dialect.blockStyle == .braces then
      advance 1
      clearModifiers
      pushBlock { frame := .plain }
    else expressionStatement replay start
  | "@" =>
    if v.language != .php && v.isIdentAt (start + 1) then annotation start
    else expressionStatement replay start
  | "[" =>
    if v.language == .csharp && v.isIdentAt (start + 1) then
      if !(← attributeList start) then expressionStatement replay start
    else expressionStatement replay start
  | "#" =>
    if v.language == .php && v.isOpAt (start + 1) "[" then
      if !(← attributeList (start + 1)) then seek (start + 1)
    else expressionStatement replay start
  | ")" | "]" | "," =>
    advance 1
    emitUnparsed start
  | _ => expressionStatement replay start

def startsLine (v : View) (i : Nat) : Bool :=
  i == 0 ||
    match v.tokens[i - 1]?, v.tokens[i]? with
    | some previous, some next => previous.endLine < next.line
    | _, _ => false

def statement (replay : Replay) : Walk Unit := do
  let start ← pos
  let v ← view
  within (fun v => { v with stmtStart := start }) do
    match v.tok? start with
    | none => return ()
    | some t =>
      let dedents ← look fun b =>
        v.dialect.blockStyle == .indentation && b.modifiers.isEmpty && startsLine v start
      if dedents then act fun v b => b.dedent v start
      match t.kind with
      | .error _ | .comment => advance 1
      | .operator => operatorStatement replay start t.text
      | .keyword => wordStatement replay start true t.text
      | .identifier => wordStatement replay start false t.text
      | .literal _ => expressionStatement replay start

/-- Statements up to the limit, or until fewer than `depth` blocks are open. Each of them passes at
least one token. -/
def statements (replay : Replay) (depth : Nat) : Nat → Walk Unit
  | 0 => return ()
  | n + 1 => do
    let before ← pos
    let ready ← look fun b => decide (depth ≤ b.blocks.length)
    if before < (← view).limit && ready then
      checkpoint
      statement replay
      if (← pos) == before then
        advance 1
        emitUnparsed before
      statements replay depth n
    else return ()

def abandon (lambda : Deferred) : Walk Unit :=
  act fun v b =>
    let b := b.push v.bound
      { kind := .unparsed, span := v.spanBetween lambda.start lambda.close
        controlTag := b.currentTag }
    b.seek (max b.pos (lambda.close + 1))

def replayBody (replay : Replay) (lambda : Deferred) : Walk Unit := do
  let resume ← pos
  seek lambda.start
  openControl .lambda lambda.params lambda.sources lambda.start .block none
  act fun _ b =>
    match b.blocks with
    | [] => b
    | block :: rest => { b with blocks := { block with deferred := true } :: rest }
  let depth ← look (·.blocks.length)
  seek lambda.body
  within (fun v => { v with limit := min (lambda.close + 1) v.tokens.size }) do
    statements replay depth (lambda.close + 1 - lambda.body)
    act fun v b => b.closeAbove v (depth - 1)
  seek (max resume (lambda.close + 1))

def replay : Nat → Replay
  | 0 => fun lambdas => lambdas.forM abandon
  | n + 1 => fun lambdas => lambdas.forM (replayBody (replay n))

def maxReplayDepth : Nat := 32

def unit : Walk Unit := do
  statements (replay maxReplayDepth) 0 (← view).limit
  act fun v b => b.closeAbove v 0

end Walk
end TaintScan
