import TaintScan.Extract.Param

/-! # Declarations recognised by shape

Methods and typed declarations have no keyword of their own. They are told from expressions by the
tokens around the declared name.
-/
namespace TaintScan.View

structure MethodShape where
  name : Nat
  opener : Nat
  closer : Nat
  deriving DecidableEq, Repr

/-- The index of the bracket that opens the parameters, behind a return type and a name. -/
def methodOpener? (v : View) : Nat → Int → Nat → Option Nat
  | 0, _, _ => none
  | n + 1, angle, i =>
    match v.tok? i with
    | none => none
    | some t =>
      if t.kind == .identifier then methodOpener? v n angle (i + 1)
      else if t.kind == .operator then
        if t.text == "(" && angle == 0 then some i
        else if ["<", ">", ">>", "[", "]", "?", ".", "*", "#"].contains t.text ||
            (t.text == "," && 0 < angle) then
          methodOpener? v n (angle + t.angleStep) (i + 1)
        else none
      else none

def methodShape? (v : View) (first : Nat) : Option MethodShape :=
  if v.language == .java || v.language == .csharp || v.language.isEcmascript then
    match v.methodOpener? (v.limit - first) 0 first with
    | some opener =>
      if opener == first || !v.isIdentAt (opener - 1) then none
      else
        match v.matching? opener with
        | some closer =>
          if v.isAnyOpAt (closer + 1) ["\x7b", "=>", ":", ";"] ||
              (v.isWordAt (closer + 1) && ["throws", "where"].contains (v.textAt (closer + 1))) then
            some ⟨opener - 1, opener, closer⟩
          else none
        | none => none
    | none => none
  else none

def isAccessorToken (t : Token) : Bool :=
  (t.kind == .identifier && ["get", "set", "init"].contains t.text) ||
    (t.kind == .keyword && ["private", "protected", "internal"].contains t.text) || t.isOp ";"

def accessorEnd? (v : View) (i : Nat) : Option Nat :=
  if v.language == .csharp && v.isOpAt i "\x7b" then
    match v.matching? i with
    | some close =>
      let inner := List.range' (i + 1) (close - (i + 1))
      if inner.all (fun j => (v.tok? j).any isAccessorToken) && inner.any v.isIdentAt then some close
      else none
    | none => none
  else none

def qualifiedEnd (v : View) : Nat → Nat → Nat
  | 0, i => i
  | n + 1, i => if v.isOpAt i "." && v.isIdentAt (i + 1) then qualifiedEnd v n (i + 2) else i

def typeArgsEnd? (v : View) : Nat → Int → Nat → Option Nat
  | 0, _, _ => none
  | n + 1, depth, i =>
    match v.tok? i with
    | none => none
    | some t =>
      if t.kind == .identifier || (t.kind == .keyword && ["extends", "super"].contains t.text) ||
          (t.kind == .operator &&
            ["<", ">", ">>", ">>>", ",", ".", "?", "[", "]"].contains t.text) then
        if depth + t.angleStep ≤ 0 then some (i + 1)
        else typeArgsEnd? v n (depth + t.angleStep) (i + 1)
      else none

def typeMarksEnd (v : View) : Nat → Nat → Nat
  | 0, i => i
  | n + 1, i =>
    if v.isOpAt i "[" && v.isOpAt (i + 1) "]" then typeMarksEnd v n (i + 2)
    else if v.isOpAt i "?" then typeMarksEnd v n (i + 1)
    else i

/-- The index of the declared name where a type and a name stand before a value, the end of the
statement, another name or an accessor list. -/
def typedName? (v : View) (first : Nat) : Option Nat :=
  if v.isIdentAt first then
    let i := v.qualifiedEnd (v.limit - first) (first + 1)
    match if v.isOpAt i "<" then v.typeArgsEnd? (v.limit - i) 0 i else some i with
    | none => none
    | some i =>
      let i := v.typeMarksEnd (v.limit - i) i
      if v.isIdentAt i then
        if (v.tok? (i + 1)).isNone || v.isAnyOpAt (i + 1) ["=", ";", ","] then some i
        else (v.accessorEnd? (i + 1)).map fun _ => i
      else none
  else none

/-- A word in front of a declaration is a modifier unless it is used as a value. -/
def modifierPosition (v : View) (i : Nat) : Bool :=
  match v.tok? (i + 1) with
  | none => false
  | some next =>
    !(next.kind == .operator &&
      ["(", "=", ".", ":", ",", ")", ";", "->", "?.", "["].contains next.text)

def primitiveTypes : List String :=
  ["int", "long", "short", "byte", "char", "float", "double", "boolean", "bool", "string", "object"]

def startsOperand (t : Token) : Bool :=
  match t.kind with
  | .identifier | .literal _ => true
  | .keyword => ["new", "this", "base", "super"].contains t.text
  | .operator => t.text == "("
  | _ => false

def isCast (v : View) (opener closer : Nat) : Bool :=
  (v.language == .java || v.language == .csharp) && opener + 1 < closer &&
    (List.range' (opener + 1) (closer - (opener + 1))).all (fun i =>
      v.isIdentAt i || v.isAnyOpAt i [".", "<", ">", ",", "[", "]", "?"]) &&
    ((v.textAt (opener + 1)).toList.head?.any Char.isUpper ||
      primitiveTypes.contains (v.textAt (opener + 1))) &&
    (v.tok? (closer + 1)).any startsOperand

def catchBinding (v : View) (first last : Nat) : List String :=
  match v.language with
  | .python =>
    ((v.findOutside? first last ["as"]).map fun i => v.names (v.identsIn (i + 1) last)).getD []
  | .ruby =>
    ((v.findOutside? first last ["=>"]).map fun i => v.names (v.identsIn (i + 1) last)).getD []
  | language =>
    let idents := v.identsIn first last
    let alone := language.isEcmascript ||
      idents.head?.any fun i => Text.startsWith "$" (v.textAt i)
    if idents.length ≤ 1 && !alone then [] else v.names (lastOnly idents)

def iterationWords : Language → List String
  | .java => [":"]
  | .csharp | .javascript | .typescript => ["in", "of"]
  | .python | .ruby => ["in"]
  | .php => ["as"]
  | .go => ["range"]

/-- Where a header that runs over a collection separates its two sides; a header of three clauses
never does. -/
def iterationSeparator? (v : View) (first last : Nat) : Option Nat :=
  if (v.findOutside? first last [";"]).isSome then none
  else v.findOutside? first last (iterationWords v.language)

def annotationName (v : View) : Nat → Nat → String × Nat
  | 0, i => ("", i)
  | n + 1, i =>
    if v.isWordAt i then
      if v.isOpAt (i + 1) "." && (v.tok? (i + 2)).isSome then
        let (rest, j) := annotationName v n (i + 2)
        (v.textAt i ++ "." ++ rest, j)
      else (v.textAt i, i + 1)
    else ("", i)

def attributeName (v : View) (first last : Nat) : String :=
  String.join (((List.range' first (last - first)).takeWhile fun i =>
    v.isIdentAt i || v.isOpAt i ".").map v.textAt)

/-- The operators and powers of binary expressions: how tightly an operator binds to its left, and
the least power of its right operand. -/
def bindingPower? (v : View) (i : Nat) : Option (Nat × Nat) :=
  match v.tok? i with
  | none => none
  | some t =>
    match t.kind with
    | .operator =>
      match t.text with
      | "?" => if v.language != .python then some (1, 1) else none
      | "??" | "||" => some (2, 3)
      | "&&" => some (3, 4)
      | "|" | "^" | "&" => some (4, 5)
      | "==" | "!=" | "===" | "!==" | "<" | ">" | "<=" | ">=" | "<=>" | "=~" | "!~" => some (5, 6)
      | ".." | "..." => if v.language == .ruby then some (5, 6) else none
      | "<<" => if v.stopAtAppend && v.nesting == 0 then none else some (6, 7)
      | ">>" | ">>>" => some (6, 7)
      | "+" | "-" => some (7, 8)
      | "." => if v.language == .php then some (7, 8) else none
      | "*" | "/" | "%" | "//" => some (8, 9)
      | "**" => some (8, 8)
      | _ => none
    | .keyword =>
      match t.text with
      | "if" => if v.language == .python then some (1, 2) else none
      | "or" => some (2, 3)
      | "and" => some (3, 4)
      | "instanceof" | "in" | "is" => some (5, 6)
      | "not" => if v.isKeywordAt (i + 1) "in" then some (5, 6) else none
      | _ => none
    | _ => none

end TaintScan.View
