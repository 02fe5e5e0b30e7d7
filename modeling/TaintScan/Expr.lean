import TaintScan.Source

/-! # Expressions and their arena

Expressions are recorded in one arena per unit and addressed by their index. A child is recorded
before its parent, so every child of a recorded expression has a smaller index. Beside each
expression the arena keeps the height of its tree.
-/
namespace TaintScan

inductive LiteralKind where
  | string
  | interpolatedString
  | command
  | number
  | constant
  | symbol
  | other
  deriving DecidableEq, Repr

namespace LiteralKind

def all : List LiteralKind :=
  [string, interpolatedString, command, number, constant, symbol, other]

def code : LiteralKind → String
  | string => "string"
  | interpolatedString => "interpolated_string"
  | command => "command"
  | number => "number"
  | constant => "constant"
  | symbol => "symbol"
  | other => "other"

def ofCode? (text : String) : Option LiteralKind := all.find? (·.code == text)

end LiteralKind

abbrev ExprId := Nat

inductive ExprKind where
  /-- A fixed value; `value` is the text between the delimiters. -/
  | literal (kind : LiteralKind) (value : String)
  | variable (path : String)
  /-- A call; the callee is qualified by its receiver where that has a name. -/
  | call (callee : String) (receiver : Option ExprId) (args : List ExprId) (constructs : Bool)
  | concat (parts : List ExprId)
  | compound (parts : List ExprId)
  deriving DecidableEq, Repr

structure Expr where
  kind : ExprKind
  span : Span
  deriving DecidableEq, Repr

namespace Expr

/-- The expressions that this one is built from, in evaluation order. -/
def children (e : Expr) : List ExprId :=
  match e.kind with
  | .literal .. | .variable _ => []
  | .call _ receiver args _ => receiver.toList ++ args
  | .concat parts | .compound parts => parts

def isStringy (e : Expr) : Bool :=
  match e.kind with
  | .literal .string _ | .literal .interpolatedString _ | .concat _ => true
  | _ => false

end Expr

structure UnknownExpr where
  id : ExprId
  size : Nat
  deriving DecidableEq, Repr

def UnknownExpr.message (e : UnknownExpr) : String :=
  "expression #" ++ toString e.id ++ " is not recorded in the arena (len " ++ toString e.size ++ ")"

structure ExprArena where
  exprs : Array Expr := #[]
  /-- The height of each expression's tree; a leaf has height one. -/
  heights : Array Nat := #[]
  deriving DecidableEq, Repr

namespace ExprArena

/-- The height of a recorded expression's tree, and zero for any other identifier. -/
def height (a : ExprArena) (id : ExprId) : Nat := a.heights.getD id 0

def size (a : ExprArena) : Nat := a.exprs.size

def isEmpty (a : ExprArena) : Bool := a.exprs.isEmpty

def maxHeight (a : ExprArena) (ids : List ExprId) : Nat := ids.foldl (fun m id => max m (a.height id)) 0

def alloc (a : ExprArena) (kind : ExprKind) (span : Span) : ExprId × ExprArena :=
  let e : Expr := ⟨kind, span⟩
  let height := 1 + a.maxHeight e.children
  match a with
  | ⟨exprs, heights⟩ => (exprs.size, ⟨exprs.push e, heights.push height⟩)

def get? (a : ExprArena) (id : ExprId) : Except UnknownExpr Expr :=
  match a.exprs[id]? with
  | some e => .ok e
  | none => .error ⟨id, a.exprs.size⟩

end ExprArena
end TaintScan
