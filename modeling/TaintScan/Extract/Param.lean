import TaintScan.Extract.View

/-! # Parameter lists

Parameters are separated by commas outside all brackets. Each one is read by shape: leading
annotations are passed over, a default value and a type behind a colon are cut off, and what is left
names the parameter by its first identifier, its last one, or the one with a sigil.
-/
namespace TaintScan.View

def dottedEnd (v : View) : Nat → Nat → Nat
  | 0, i => i
  | n + 1, i =>
    if v.isWordAt i then
      if v.isOpAt (i + 1) "." then dottedEnd v n (i + 2) else i + 1
    else i

def paramStart (v : View) (last : Nat) : Nat → Nat → Nat
  | 0, i => i
  | n + 1, i =>
    if last ≤ i then i
    else if v.isOpAt i "@" && v.language != .php then
      let j := v.dottedEnd (v.limit - i) (i + 1)
      let j := if v.isOpAt j "(" then ((v.matching? j).map (· + 1)).getD last else j
      paramStart v last n j
    else
      let opener :=
        if v.language == .csharp && v.isOpAt i "[" then some i
        else if v.language == .php && v.isOpAt i "#" && v.isOpAt (i + 1) "[" then some (i + 1)
        else none
      match opener.bind v.matching? with
      | some close => paramStart v last n (close + 1)
      | none => i

def paramEnd (v : View) (last : Nat) : Nat → Int → Nat → Nat
  | 0, _, _ => last
  | n + 1, depth, i =>
    match v.tok? i with
    | none => last
    | some t =>
      if depth == 0 && (t.isOp "=" || (t.isOp ":" && v.dialect.nameBeforeType)) then i
      else paramEnd v last n (depth + t.bracketStep) (i + 1)

def paramName? (v : View) (idents : List Nat) : Option Nat :=
  if v.language == .php then idents.find? fun i => Text.startsWith "$" (v.textAt i)
  else if v.dialect.nameBeforeType then idents.head?
  else idents.getLast?

/-- The parameters of one segment; a pattern binds each name in it that is no key. -/
def paramSegment (v : View) (first last : Nat) : List Param :=
  let i := v.paramStart last (last - first) first
  let stop := v.paramEnd last (last - i) 0 i
  let span := v.spanBetween first (max (last - 1) first)
  if v.isOpAt i "\x7b" || v.isOpAt i "[" then
    ((v.identsIn i stop).filter fun j => !v.isOpAt (j + 1) ":").map fun j => ⟨v.textAt j, span⟩
  else
    let idents := (v.identsIn i stop).filter fun j => !v.dialect.modifiers.contains (v.textAt j)
    ((v.paramName? idents).map fun j => ⟨v.textAt j, span⟩).toList

def anglesNest (v : View) : Bool :=
  v.language == .java || v.language == .csharp || v.language == .typescript

def paramStep (v : View) (t : Token) : Int :=
  t.bracketStep + if v.anglesNest && !t.isOp ">>>" then t.angleStep else 0

def paramsFrom (v : View) (last : Nat) : Nat → Int → Nat → Nat → List Param
  | 0, _, _, _ => []
  | n + 1, depth, segment, i =>
    if i == last || (depth == 0 && v.isOpAt i ",") then
      (if segment < i then v.paramSegment segment i else []) ++
        paramsFrom v last n depth (i + 1) (i + 1)
    else
      match v.tok? i with
      | none => []
      | some t => paramsFrom v last n (depth + v.paramStep t) segment (i + 1)

def paramsIn (v : View) (first last : Nat) : List Param :=
  v.paramsFrom last (last + 1 - first) 0 first first

def paramNames (v : View) (first last : Nat) : List String := (v.paramsIn first last).map (·.name)

end TaintScan.View
