import TaintScan.Expr

/-! # Statements and scopes

Each scope owns one linear statement sequence. The bodies of branches, loops and lambdas are
flattened into it between an opening and a closing marker; every statement carries the tag of the
innermost marker that is open around it.
-/
namespace TaintScan

inductive ControlKind where
  | branch
  | loop
  | tryBody
  | catchBody
  | withBody
  | lambda
  | block
  deriving DecidableEq, Repr

namespace ControlKind

def all : List ControlKind := [branch, loop, tryBody, catchBody, withBody, lambda, block]

def code : ControlKind → String
  | branch => "branch"
  | loop => "loop"
  | tryBody => "try"
  | catchBody => "catch"
  | withBody => "with"
  | lambda => "lambda"
  | block => "block"

def ofCode? (text : String) : Option ControlKind := all.find? (·.code == text)

end ControlKind

inductive StatementKind where
  | call
  | assignment
  | declaration
  | expression
  /-- Opens a flattened block; the targets are what the block binds. -/
  | controlOpen (kind : ControlKind)
  | controlClose
  /-- A construct outside the recognised grammar; no rule looks at it. -/
  | unparsed
  deriving DecidableEq, Repr

structure Statement where
  kind : StatementKind
  targets : List String := []
  /-- The targets keep their previous value and gain the new one. -/
  compound : Bool := false
  /-- Operands in source order; the value of an assignment comes first. -/
  operands : List ExprId := []
  span : Span
  /-- The innermost open control block of the scope, zero for the scope's own body. -/
  controlTag : Nat
  deriving DecidableEq, Repr

inductive ScopeKind where
  | module
  | type
  | function
  deriving DecidableEq, Repr

namespace ScopeKind

def all : List ScopeKind := [module, type, function]

def code : ScopeKind → String
  | module => "module"
  | type => "type"
  | function => "function"

def ofCode? (text : String) : Option ScopeKind := all.find? (·.code == text)

end ScopeKind

structure Param where
  name : String
  span : Span
  deriving DecidableEq, Repr

structure Scope where
  kind : ScopeKind
  name : String
  parent : Option Nat := none
  parentKind : Option ScopeKind := none
  params : List Param := []
  modifiers : List String := []
  annotations : List String := []
  headerSpan : Span
  statements : Array Statement := #[]
  deriving DecidableEq, Repr

namespace Scope

def hasModifier (s : Scope) (modifier : String) : Bool := s.modifiers.contains modifier

def push (s : Scope) (st : Statement) : Scope :=
  let statements := s.statements
  let s := { s with statements := #[] }
  { s with statements := statements.push st }

end Scope

end TaintScan
