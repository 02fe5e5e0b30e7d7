import TaintScan.Token.Lexer

/-! # The token view

A view is the token array of a unit, or of an expression embedded in a string, with the limit up to
which it may be read and the circumstances of the statement being parsed. The searches run over the
indices below the limit; the number of steps left is their first argument.
-/
namespace TaintScan

structure View where
  unit : SourceUnit
  dialect : Dialect
  tokens : Array Token
  limit : Nat
  /-- The number of brackets, headers and strings around the expression being parsed. -/
  nesting : Nat := 0
  stmtStart : Nat := 0
  /-- The receiver of the innermost call whose arguments are being parsed. -/
  receiver : Option ExprId := none
  /-- An append operator outside all brackets ends the expression. -/
  stopAtAppend : Bool := false
  bound : Nat

namespace View

def language (v : View) : Language := v.dialect.language

def tok? (v : View) (i : Nat) : Option Token := if i < v.limit then v.tokens[i]? else none

def textAt (v : View) (i : Nat) : String := ((v.tok? i).map (·.text)).getD ""

def isOpAt (v : View) (i : Nat) (op : String) : Bool := (v.tok? i).any (·.isOp op)

def isKeywordAt (v : View) (i : Nat) (word : String) : Bool := (v.tok? i).any (·.isKeyword word)

def isIdentAt (v : View) (i : Nat) : Bool := (v.tok? i).any (·.kind == .identifier)

def isWordAt (v : View) (i : Nat) : Bool :=
  (v.tok? i).any fun t => t.kind == .identifier || t.kind == .keyword

def isAnyOpAt (v : View) (i : Nat) (ops : List String) : Bool :=
  (v.tok? i).any fun t => t.kind == .operator && ops.contains t.text

end View

def Token.bracketStep (t : Token) : Int :=
  if t.kind == .operator then
    if ["(", "[", "\x7b"].contains t.text then 1
    else if [")", "]", "\x7d"].contains t.text then -1
    else 0
  else 0

def Token.angleStep (t : Token) : Int :=
  if t.kind == .operator then
    match t.text with
    | "<" => 1
    | ">" => -1
    | ">>" => -2
    | ">>>" => -3
    | _ => 0
  else 0

namespace View

/-! ## Brackets and spans -/

def closer? : String → Option String
  | "(" => some ")"
  | "[" => some "]"
  | "\x7b" => some "\x7d"
  | _ => none

def closeFrom (v : View) (opener closer : String) : Nat → Nat → Nat → Option Nat
  | 0, _, _ => none
  | n + 1, depth, i =>
    if v.isOpAt i opener then closeFrom v opener closer n (depth + 1) (i + 1)
    else if v.isOpAt i closer then
      if depth ≤ 1 then some i else closeFrom v opener closer n (depth - 1) (i + 1)
    else closeFrom v opener closer n depth (i + 1)

/-- The index of the token that closes the bracket at index `i`; only brackets of its kind count. -/
def matching? (v : View) (i : Nat) : Option Nat :=
  (closer? (v.textAt i)).bind fun closer => v.closeFrom (v.textAt i) closer (v.limit - i) 0 i

def spanBetween (v : View) (first last : Nat) : Span :=
  let start := (v.tokens[first]?.map (·.span.start)).getD 0
  .clamped start ((v.tokens[last]?.map (·.span.stop)).getD start)

def spanSince (v : View) (first pos : Nat) : Span := v.spanBetween first (max (pos - 1) first)

/-! ## Lines -/

def closers : List String := [")", "]", "\x7d", "++", "--", ";"]

/-- The statement goes on over a line end between the two tokens. -/
def joins (language : Language) (previous next : Token) : Bool :=
  let python := language == .python
  (previous.kind == .operator && !closers.contains previous.text &&
      !(python && previous.text == ":") && !(language == .ruby && previous.text == "|")) ||
    (previous.kind == .keyword && ["and", "or", "not", "in"].contains previous.text) ||
    (!python && next.kind == .operator &&
      [".", "?.", "&.", "&&", "||", "?", ":", "+", "??"].contains next.text)

/-- A line end separates the token from the one before it and may end a statement. -/
def newlineBefore (v : View) (i : Nat) : Bool :=
  v.dialect.newlineTerminates && i != 0 &&
    match v.tokens[i - 1]?, v.tokens[i]? with
    | some previous, some next => previous.endLine < next.line && !joins v.language previous next
    | _, _ => false

def terminators : List String := ["end", "else", "elsif", "when", "then", "do", "ensure"]

def atBoundary (v : View) (i : Nat) : Bool :=
  match v.tok? i with
  | none => true
  | some t =>
    (t.kind == .operator && (t.text == ";" || t.text == "\x7d")) ||
      (v.language == .ruby && t.kind == .keyword && terminators.contains t.text) ||
      (v.nesting == 0 && v.stmtStart < i && v.newlineBefore i)

def lineEndFrom (v : View) (first : Nat) : Nat → Int → Nat → Nat
  | 0, _, _ => v.limit
  | n + 1, depth, i =>
    if first < i && depth ≤ 0 && v.newlineBefore i then i
    else lineEndFrom v first n (depth + ((v.tok? i).map (·.bracketStep)).getD 0) (i + 1)

def lineEnd (v : View) (first : Nat) : Nat := v.lineEndFrom first (v.limit - first) 0 first

def offsetOf (v : View) (i : Nat) : Nat := (v.tokens[i]?.map (·.span.start)).getD 0

def indentOf (v : View) (i : Nat) : Nat := (v.unit.lines.position (v.offsetOf i)).2 - 1

def lineIndent (v : View) (i : Nat) : Nat :=
  let line := (v.unit.lines.position (v.offsetOf i)).1
  let start := (v.unit.lines.lineStart? line).getD 0
  let stop := (v.unit.lines.lineStart? (line + 1)).getD v.unit.size
  ((v.unit.slice ⟨start, stop⟩).takeWhile fun b => b == 32 || b == 9).length

/-! ## Searches -/

def findOutsideFrom (v : View) (ops : List String) : Nat → Int → Nat → Option Nat
  | 0, _, _ => none
  | n + 1, depth, i =>
    match v.tok? i with
    | none => none
    | some t =>
      if t.kind == .operator || t.kind == .keyword then
        if ["(", "[", "\x7b"].contains t.text && (0 < depth || !ops.contains t.text) then
          findOutsideFrom v ops n (depth + 1) (i + 1)
        else if [")", "]", "\x7d"].contains t.text then findOutsideFrom v ops n (depth - 1) (i + 1)
        else if depth == 0 && ops.contains t.text then some i
        else findOutsideFrom v ops n depth (i + 1)
      else findOutsideFrom v ops n depth (i + 1)

def findOutside? (v : View) (first last : Nat) (ops : List String) : Option Nat :=
  v.findOutsideFrom ops (min last v.limit - first) 0 first

def headerEndFrom (v : View) : Nat → Int → Nat → Nat
  | 0, _, _ => v.limit
  | n + 1, depth, i =>
    if depth ≤ 0 && v.newlineBefore i then i
    else if depth ≤ 0 && v.isOpAt i ";" then i
    else if depth ≤ 0 && (v.isKeywordAt i "then" || v.isKeywordAt i "do") then i
    else headerEndFrom v n (depth + ((v.tok? i).map (·.bracketStep)).getD 0) (i + 1)

/-- The end of a header that no brace closes: a line end, a semicolon, `then` or `do`. -/
def headerEnd (v : View) (first : Nat) : Nat := v.headerEndFrom (v.limit - first) 0 first

def headerColonFrom (v : View) (first : Nat) : Nat → Int → Nat → Nat → Option Nat
  | 0, _, _, _ => none
  | n + 1, depth, lambdas, i =>
    if depth ≤ 0 && first < i && v.newlineBefore i then none
    else if depth ≤ 0 && v.isKeywordAt i "lambda" then
      headerColonFrom v first n depth (lambdas + 1) (i + 1)
    else if depth ≤ 0 && v.isOpAt i ":" then
      if 0 < lambdas then headerColonFrom v first n depth (lambdas - 1) (i + 1) else some i
    else
      headerColonFrom v first n (depth + ((v.tok? i).map (·.bracketStep)).getD 0) lambdas (i + 1)

/-- The colon that ends a Python header; each `lambda` has one of its own. -/
def headerColon? (v : View) (first : Nat) : Option Nat :=
  v.headerColonFrom first (v.limit - first) 0 0 first

def colonFrom (v : View) : Nat → Int → Nat → Option Nat
  | 0, _, _ => none
  | n + 1, depth, i =>
    if depth == 0 && v.isOpAt i ":" then some i
    else colonFrom v n (depth + ((v.tok? i).map (·.bracketStep)).getD 0) (i + 1)

def colonAfter? (v : View) (first : Nat) : Option Nat := v.colonFrom (v.limit - first) 0 first

def assignmentFrom (v : View) (first : Nat) : Nat → Int → Nat → Bool
  | 0, _, _ => false
  | n + 1, depth, i =>
    match v.tok? i with
    | none => false
    | some t =>
      if depth ≤ 0 && first < i && v.newlineBefore i then false
      else if depth + t.bracketStep < 0 && t.bracketStep < 0 then false
      else if t.isOp ";" then false
      else if depth == 0 && (t.isOp "=" || t.isOp ":=") then true
      else assignmentFrom v first n (depth + t.bracketStep) (i + 1)

def assignmentAhead (v : View) (first : Nat) : Bool :=
  v.assignmentFrom first (v.limit - first) 0 first

def genericCallFrom (v : View) : Nat → Int → Nat → Bool
  | 0, _, _ => false
  | n + 1, depth, i =>
    match v.tok? i with
    | none => false
    | some t =>
      if t.kind == .identifier ||
          (t.kind == .operator && ["<", ">", ">>", ",", ".", "[", "]", "?"].contains t.text) then
        let depth := depth + t.angleStep
        if depth ≤ 0 then v.isOpAt (i + 1) "(" else genericCallFrom v n depth (i + 1)
      else false

def genericCallAhead (v : View) (i : Nat) : Bool := v.genericCallFrom (v.limit - i) 0 i

def angleEndFrom (v : View) : Nat → Int → Nat → Nat
  | 0, _, i => i
  | n + 1, depth, i =>
    match v.tok? i with
    | none => i
    | some t =>
      if t.kind == .operator && ["(", ")", "\x7b", "\x7d", ";", "="].contains t.text then i
      else
        let depth := depth + t.angleStep
        if depth ≤ 0 then i + 1 else angleEndFrom v n depth (i + 1)

def angleEnd (v : View) (i : Nat) : Nat := v.angleEndFrom (v.limit - i) 0 i

def emptyPairsEnd (v : View) : Nat → Nat → Nat
  | 0, i => i
  | n + 1, i => if v.isOpAt i "[" && v.isOpAt (i + 1) "]" then emptyPairsEnd v n (i + 2) else i

def typeEndFrom (v : View) : Nat → Nat → Nat
  | 0, i => i
  | n + 1, i =>
    if v.isWordAt i then
      let j := i + 1
      let j := if v.isOpAt j "<" then v.angleEnd j else j
      let j := v.emptyPairsEnd (v.limit - j) j
      let j := if v.isOpAt j "?" then j + 1 else j
      if v.isOpAt j "." then typeEndFrom v n (j + 1) else j
    else i

def typeEnd (v : View) (i : Nat) : Nat := v.typeEndFrom (v.limit - i) i

def annotationEndFrom (v : View) : Nat → Int → Nat → Nat
  | 0, _, i => i
  | n + 1, depth, i =>
    match v.tok? i with
    | none => i
    | some t =>
      if depth ≤ 0 && v.newlineBefore i then i
      else if depth ≤ 0 && (t.isOp "=" || t.isOp ";" || t.isOp ",") then i
      else
        let angle := if t.isOp ">>>" then 0 else t.angleStep
        annotationEndFrom v n (depth + t.bracketStep + angle) (i + 1)

def annotationEnd (v : View) (i : Nat) : Nat :=
  if v.isOpAt i ":" || (v.language == .go && !v.isOpAt i "=" && !v.atBoundary i) then
    v.annotationEndFrom (v.limit - i) 0 i
  else i

def caseEndFrom (v : View) : Nat → Int → Nat → Nat
  | 0, _, i => i
  | n + 1, depth, i =>
    match v.tok? i with
    | none => i
    | some t =>
      if depth ≤ 0 && (t.isOp ":" || t.isOp "->" || t.isOp "=>") then i + 1
      else caseEndFrom v n (depth + t.bracketStep) (i + 1)

def caseEnd (v : View) (i : Nat) : Nat := v.caseEndFrom (v.limit - i) 0 i

def blockParamsFrom (v : View) : Nat → Nat → List String × Nat
  | 0, i => ([], i)
  | n + 1, i =>
    match v.tok? i with
    | none => ([], i)
    | some t =>
      if t.isOp "|" then ([], i + 1)
      else
        let (names, j) := blockParamsFrom v n (i + 1)
        (if t.kind == .identifier then t.text :: names else names, j)

def blockParams (v : View) (i : Nat) : List String × Nat :=
  if v.isOpAt i "|" then v.blockParamsFrom (v.limit - i) (i + 1) else ([], i)

def selfNames : List String := ["self", "cls", "this", "_"]

def identsIn (v : View) (first last : Nat) : List Nat :=
  (List.range' first (min last v.limit - first)).filter fun i =>
    v.isIdentAt i && !selfNames.contains (v.textAt i)

def names (v : View) (indices : List Nat) : List String := indices.map v.textAt

def lastOnly (indices : List Nat) : List Nat := indices.getLast?.toList

end View
end TaintScan
