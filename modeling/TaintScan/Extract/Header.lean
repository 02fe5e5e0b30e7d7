import TaintScan.Extract.Walk

/-! # Headers

Function and type headers open scopes, control headers open flattened blocks. The assignments in the
clauses of a control header are recorded before its block opens, and so are the bodies deferred in it.
-/
namespace TaintScan

namespace Parse

def exprsIn (first last : Nat) : Parse (List ExprId) := do
  seek first
  let items ← within (fun v => { v with limit := min last v.limit, nesting := v.nesting + 1 })
    (Level.outermost.looseItems (last - first))
  seek last
  return items

/-- The names and the values of resources, each bound by `as` or by an equals sign, or not at all. -/
def resourceParts (last : Nat) : Nat → Nat → Parse (List String × List ExprId)
  | 0, _ => return ([], [])
  | n + 1, item => do
    if last ≤ item then return ([], [])
    else
      let v ← view
      let stop := (v.findOutside? item last [",", ";"]).getD last
      let (targets, operands) ←
        match v.findOutside? item stop ["as"] with
        | some i => do
          let operands ← exprsIn item i
          pure (v.names (v.identsIn (i + 1) stop), operands)
        | none =>
          match v.findOutside? item stop ["="] with
          | some i => do
            let operands ← exprsIn (i + 1) stop
            pure (v.names (View.lastOnly (v.identsIn item i)), operands)
          | none => do
            let operands ← exprsIn item stop
            pure ([], operands)
      let (moreTargets, moreOperands) ← resourceParts last n (stop + 1)
      return (targets ++ moreTargets, operands ++ moreOperands)

def iterationParts (first separator last : Nat) : Parse (List String × List ExprId) := do
  let v ← view
  match v.language with
  | .php => return (v.names (v.identsIn (separator + 1) last), ← exprsIn first separator)
  | .java | .csharp =>
    return (v.names (View.lastOnly (v.identsIn first separator)), ← exprsIn (separator + 1) last)
  | _ => return (v.names (v.identsIn first separator), ← exprsIn (separator + 1) last)

end Parse

namespace View

def isNamedFunction (v : View) (b : Builder) (i : Nat) : Bool :=
  match v.language with
  | .python | .ruby => true
  | .go =>
    v.isIdentAt (i + 1) ||
      (v.isOpAt (i + 1) "(" && b.currentScope == 0 && b.currentTag == 0 &&
        (v.matching? (i + 1)).any fun close => v.isIdentAt (close + 1))
  | _ => v.isIdentAt (if v.isOpAt (i + 1) "*" || v.isOpAt (i + 1) "&" then i + 2 else i + 1)

/-- The name of a function at an index, and the index behind it. Of a dotted name only the last part
counts, and an operator is a name in Ruby. -/
def functionName (v : View) : Nat → String → Nat → String × Nat
  | 0, name, i => (name, i)
  | n + 1, name, i =>
    let ruby := v.language == .ruby
    if v.isWordAt i then
      if ruby && v.isOpAt (i + 1) "." && (v.tok? (i + 2)).isSome then
        functionName v n (v.textAt i) (i + 2)
      else if ruby && v.isOpAt (i + 1) "=" && v.isOpAt (i + 2) "(" then (v.textAt i ++ "=", i + 2)
      else (v.textAt i, i + 1)
    else if ruby && (v.tok? i).any (fun t => t.kind == .operator && t.text != "(") &&
        !v.newlineBefore i then
      if v.isOpAt i "[" && v.isOpAt (i + 1) "]" then ("[]", i + 2) else (v.textAt i, i + 1)
    else (name, i)

def pastGroup (v : View) (opener : String) (i : Nat) : Nat :=
  if v.isOpAt i opener then ((v.matching? i).map (· + 1)).getD i else i

def bodySearchEnd (v : View) (i : Nat) : Nat :=
  if v.dialect.newlineTerminates then v.lineEnd i else v.limit

def sameLine (v : View) (i : Nat) : Bool := i < v.limit && !v.newlineBefore i

end View

namespace Walk

def openScope (kind : ScopeKind) (name : String) (params : List Param) (start last : Nat)
    (single : Bool) (indent : Option Nat) : Walk Unit :=
  act fun v b => b.openScope v kind name params (v.spanBetween start last) single indent

def openBody (start : Nat) (kind : ScopeKind) (name : String) (params : List Param) : Walk Unit := do
  let v ← view
  let i ← pos
  match v.dialect.blockStyle with
  | .braces =>
    match v.findOutside? i (v.bodySearchEnd i) ["\x7b", ";", "=>"] with
    | none => giveUp start
    | some body =>
      seek (body + 1)
      if v.isOpAt body ";" then
        clearModifiers
        clearAnnotations
        finish
      else openScope kind name params start body (!v.isOpAt body "\x7b") none
  | .indentation =>
    match v.headerColon? i with
    | none => giveUp start
    | some colon =>
      seek (colon + 1)
      if v.sameLine (colon + 1) then openScope kind name params start colon true none
      else openScope kind name params start colon false (some (v.lineIndent start))
  | .endKeyword =>
    let stop := v.headerEnd i
    seek stop
    let _ ← eatOp ";"
    openScope kind name params start (max (stop - 1) start) false none

def functionHeader (start : Nat) : Walk Unit := do
  let v ← view
  let i := if v.language == .go then v.pastGroup "(" (start + 1) else start + 1
  let i := if v.isOpAt i "*" || v.isOpAt i "&" then i + 1 else i
  let (name, i) := v.functionName (v.limit - i) "" i
  let i := if v.isOpAt i "<" then v.angleEnd i else i
  let i := if v.language == .go then v.pastGroup "[" i else i
  if v.isOpAt i "(" then
    match v.matching? i with
    | none =>
      seek i
      giveUp start
    | some close =>
      seek (close + 1)
      openBody start .function name (v.paramsIn (i + 1) close)
  else if v.language == .ruby then
    seek (v.headerEnd i)
    openBody start .function name (v.paramsIn i (v.headerEnd i))
  else
    seek i
    openBody start .function name []

def methodHeader (start : Nat) (shape : View.MethodShape) : Walk Unit := do
  let v ← view
  seek (shape.closer + 1)
  openBody start .function (v.textAt shape.name) (v.paramsIn (shape.opener + 1) shape.closer)

def typeHeader (start : Nat) : Walk Unit := do
  let v ← view
  let named := v.isIdentAt (start + 1)
  let name := if named then v.textAt (start + 1) else ""
  let i := if named then start + 2 else start + 1
  seek i
  if v.dialect.blockStyle == .braces then
    match v.findOutside? i (v.bodySearchEnd i) ["\x7b", ";"] with
    | some body =>
      if v.isOpAt body "\x7b" then openBody start .type name []
      else
        seek (body + 1)
        clearModifiers
        clearAnnotations
    | none =>
      let _ ← skipStatement
      clearModifiers
      clearAnnotations
  else openBody start .type name []

/-- The operands of the clauses of a header. An assignment in a clause is recorded as a declaration;
it binds all its names in Go, and its last one elsewhere. -/
def clauseParts (last : Nat) : Nat → Nat → Walk (List ExprId)
  | 0, _ => return []
  | n + 1, clause => do
    if last ≤ clause then return []
    else
      let v ← view
      let stop := (v.findOutside? clause last [";"]).getD last
      let operands ←
        match v.findOutside? clause stop ["=", ":="] with
        | some i => do
          let idents := v.identsIn clause i
          let values ← parseList (Parse.exprsIn (i + 1) stop)
          emit .declaration (v.names (if v.language == .go then idents else View.lastOnly idents))
            false values clause
          pure []
        | none => parseList (Parse.exprsIn clause stop)
      return operands ++ (← clauseParts last n (stop + 1))

def headerParts (replay : Replay) (kind : ControlKind) (iterates : Bool) (first last : Nat) :
    Walk (List String × List ExprId) := do
  if last ≤ first then return ([], [])
  else
    let v ← view
    let clauses : Walk (List String × List ExprId) := do
      return ([], ← clauseParts last (last - first) first)
    let parsed (p : Parse (List String × List ExprId)) : Walk (List String × List ExprId) := do
      return (← parse p).getD ([], [])
    let parts ←
      match kind with
      | .catchBody => pure (v.catchBinding first last, [])
      | .loop =>
        match if iterates then v.iterationSeparator? first last else none with
        | some separator => parsed (Parse.iterationParts first separator last)
        | none => clauses
      | .withBody | .tryBody => parsed (Parse.resourceParts last (last - first) first)
      | _ => clauses
    replay (← takeDeferred)
    seek last
    return parts

def bracesControl (replay : Replay) (start : Nat) (kind : ControlKind) (iterates : Bool) :
    Walk Unit := do
  let v ← view
  let i ← pos
  let range :=
    if v.language == .go then
      (v.findOutside? i (v.lineEnd i) ["\x7b"]).map fun brace => (i, brace, brace)
    else if v.isOpAt i "(" then (v.matching? i).map fun close => (i + 1, close, close + 1)
    else some (i, i, i)
  match range with
  | none => giveUp start
  | some (first, last, after) =>
    let (targets, operands) ← headerParts replay kind iterates first last
    seek after
    if ← eatOp "\x7b" then openControl kind targets operands start .block none
    else if ← eatOp ";" then openControl kind targets operands start .empty none
    else if (← here View.tok?).isNone then openControl kind targets operands start .empty none
    else openControl kind targets operands start .single none

def indentedControl (replay : Replay) (start : Nat) (kind : ControlKind) (iterates : Bool) :
    Walk Unit := do
  let v ← view
  let i ← pos
  match v.headerColon? i with
  | none => giveUp start
  | some colon =>
    let (targets, operands) ← headerParts replay kind iterates i colon
    seek (colon + 1)
    if v.sameLine (colon + 1) then openControl kind targets operands start .single none
    else openControl kind targets operands start .block (some (v.lineIndent start))

def endControl (replay : Replay) (start : Nat) (kind : ControlKind) (iterates closesParent : Bool) :
    Walk Unit := do
  let v ← view
  let i ← pos
  let stop := v.headerEnd i
  let (targets, operands) ← headerParts replay kind iterates i stop
  seek (if v.isKeywordAt stop "then" || v.isKeywordAt stop "do" || v.isOpAt stop ";" then stop + 1
    else stop)
  openControl kind targets operands start .block none
  if closesParent then
    act fun _ b =>
      match b.blocks with
      | [] => b
      | block :: rest => { b with blocks := { block with closesParent := true } :: rest }

/-- Closes the branch that a further branch takes the place of. Answers whether the word that closes
the new branch closes the block around it too, as it does in the body of a function. -/
def closeBranch : Walk Bool := fun v b =>
  match b.blocks with
  | [] => (.ok true, b)
  | block :: _ =>
    match block.frame with
    | .scope _ => (.ok true, b)
    | _ => (.ok block.closesParent, b.closeTop v)

def controlHeader (replay : Replay) (start : Nat) (kind : ControlKind) : Walk Unit := do
  let v ← view
  let word ← here View.textAt
  let iterates := word == "for" || word == "foreach"
  advance 1
  clearModifiers
  if v.language == .ruby && ["else", "elsif", "when", "rescue", "ensure"].contains word then
    let closesParent ← closeBranch
    endControl replay start kind iterates closesParent
  else
    match v.dialect.blockStyle with
    | .braces => bracesControl replay start kind iterates
    | .indentation => indentedControl replay start kind iterates
    | .endKeyword => endControl replay start kind iterates false

end Walk
end TaintScan
