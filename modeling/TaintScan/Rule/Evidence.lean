import Std.Data.HashSet
import TaintScan.Rule.Basic
import TaintScan.Rule.Words
import TaintScan.Scope

/-! # Evidence in one statement

Matches shape rules, and sinks that fire without a label, against a statement. The calls of a statement
are collected first, each once and from the outside in; this settles that every expression below the
operands is recorded.
-/
namespace TaintScan

structure ShapeContext where
  isClean : String → Bool
  isUnresolved : String → Bool
  scopeName : String

structure CallSite where
  span : Span
  callee : String
  args : List ExprId
  constructs : Bool
  deriving DecidableEq, Repr

structure ShapeMatch where
  rule : Rule
  span : Span
  bindings : Bindings
  confidence : Confidence
  deriving DecidableEq, Repr

def Expr.callSite? (e : Expr) : Option CallSite :=
  match e.kind with
  | .call callee _ args constructs => some ⟨e.span, callee, args, constructs⟩
  | _ => none

/-- The expressions that a search has met, and the calls among them, last one first. -/
structure CallSearch where
  seen : Std.HashSet ExprId := {}
  calls : List CallSite := []

namespace ExprArena

/-- Visits an expression and what it is built from, each expression once. The depth of the visit is
bounded by the number of expressions. -/
def visit (a : ExprArena) : Nat → CallSearch → ExprId → Except UnknownExpr CallSearch
  | 0, search, _ => .ok search
  | fuel + 1, search, id =>
    if search.seen.contains id then .ok search
    else
      match a.get? id with
      | .error e => .error e
      | .ok e =>
        e.children.foldlM (visit a fuel)
          { seen := search.seen.insert id, calls := e.callSite?.toList ++ search.calls }

/-- The calls below some expressions, each once, a call before those inside it. -/
def callsIn (a : ExprArena) (operands : List ExprId) : Except UnknownExpr (List CallSite) :=
  match operands.foldlM (a.visit (a.size + 1)) {} with
  | .ok search => .ok search.calls.reverse
  | .error e => .error e

def kind? (a : ExprArena) (id : ExprId) : Option ExprKind := a.exprs[id]?.map (·.kind)

def referencePath? (a : ExprArena) (id : ExprId) : Option String :=
  match a.kind? id with
  | some (.variable path) => some path
  | some (.compound (base :: _)) =>
    match a.kind? base with
    | some (.variable path) => some path
    | _ => none
  | _ => none

def stringLiteral? (a : ExprArena) (id : ExprId) : Option String :=
  match a.kind? id with
  | some (.literal .string value) => some value
  | _ => none

end ExprArena

namespace Shape

def matchesIn (shape : Shape) (r : Rule) (s : Statement) (a : ExprArena) (calls : List CallSite)
    (context : ShapeContext) : List ShapeMatch :=
  let hit (span : Span) (pairs : List (String × String)) : ShapeMatch :=
    ⟨r, span, .ofList pairs, r.confidence⟩
  let among (callees : List CalleePattern) : List CallSite :=
    calls.filter fun c => anyMatch callees c.callee c.constructs
  match shape with
  | weakAlgorithm callees algorithms =>
    (among callees).filterMap fun c =>
      (c.args.findSome? fun arg => a.stringLiteral? arg >>= (weakAlgorithm? · algorithms)).map fun name =>
        hit c.span [("callee", c.callee), ("algorithm", name)]
  | forbiddenCall callees => (among callees).map fun c => hit c.span [("callee", c.callee)]
  | insecureRandom callees words =>
    let inContext (name : String) : Bool :=
      words.any fun w => Text.contains (Text.lowerAscii name) (Text.lowerAscii w)
    match (s.targets ++ [context.scopeName]).find? inContext with
    | some why => (among callees).map fun c => hit c.span [("callee", c.callee), ("context", why)]
    | none => []
  | hardcodedSecret names =>
    if (s.kind == .assignment || s.kind == .declaration) && !s.compound then
      match s.operands.head? >>= a.stringLiteral?, s.targets.find? (isSecretName · names) with
      | some value, some target =>
        if Text.isBlankText value then []
        else [hit s.span [("target", target), ("value", value)]]
      | _, _ => []
    else []

end Shape

namespace SinkSpec

def argEvidence? (spec : SinkSpec) (a : ExprArena) (context : ShapeContext) (arg : ExprId) :
    Option (String × String) :=
  match a.kind? arg with
  | some (.concat parts) =>
    if spec.concatenation then
      (parts.findSome? fun part => (a.referencePath? part).filter (!context.isClean ·)).map
        (·, "concatenation")
    else none
  | some (.variable path) =>
    if spec.bareUnresolved && context.isUnresolved path then some (path, "unresolved") else none
  | _ => none

def checkedArgs (spec : SinkSpec) (args : List ExprId) : List ExprId :=
  (args.zipIdx.filter fun p => spec.checksArg p.2).map (·.1)

def evidenceIn (spec : SinkSpec) (r : Rule) (a : ExprArena) (calls : List CallSite)
    (context : ShapeContext) : List ShapeMatch :=
  (calls.filter fun c => spec.matchesCall c.callee c.constructs).filterMap fun c =>
    ((spec.checkedArgs c.args).findSome? (spec.argEvidence? a context)).map fun e =>
      ⟨r, c.span, .ofList [("callee", c.callee), ("name", e.1), ("evidence", e.2)], .medium⟩

end SinkSpec

def Rule.matchesIn (r : Rule) (s : Statement) (a : ExprArena) (calls : List CallSite)
    (context : ShapeContext) : List ShapeMatch :=
  match r.matcher with
  | .syntactic shape => shape.matchesIn r s a calls context
  | .sink spec => if spec.hasTrigger then spec.evidenceIn r a calls context else []
  | _ => []

def matchStatement (rules : List Rule) (s : Statement) (a : ExprArena) (context : ShapeContext) :
    Except UnknownExpr (List ShapeMatch) :=
  if s.kind == .unparsed || s.kind == .controlClose then .ok []
  else
    match a.callsIn s.operands with
    | .error e => .error e
    | .ok calls => .ok (rules.flatMap fun r => r.matchesIn s a calls context)

end TaintScan
