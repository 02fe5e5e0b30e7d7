import Std.Data.HashMap
import TaintScan.Extract.Shape

/-! # The expression parser's state

A parser reads tokens through a view and may fail; what it recorded and how far it came is kept in
either case, because the order in which expressions are recorded is part of the result.
-/
namespace TaintScan

/-- A lambda, closure or block body seen in an expression. It is replayed behind the statement that
holds it. The indices are those of the first token, of the first token of the body, and of the last
token. -/
structure Deferred where
  params : List String
  start : Nat
  body : Nat
  close : Nat
  sources : List ExprId
  deriving DecidableEq, Repr

/-- A string stored under a key of a literal; it is recorded behind its statement as an assignment to
the key. -/
structure Property where
  key : String
  value : ExprId
  span : Span
  deriving DecidableEq, Repr

inductive LValue where
  | member (name : String)
  /-- An element: the write goes into the whole container. -/
  | index (base : String)
  deriving DecidableEq, Repr

def LValue.name : LValue → String
  | member name | index name => name

def maxParseDepth : Nat := 128

structure Draft where
  pos : Nat := 0
  /-- The operands and expressions around the position. -/
  depth : Fin (maxParseDepth + 1) := ⟨0, Nat.succ_pos _⟩
  arena : ExprArena := {}
  lvalues : Std.HashMap ExprId LValue := {}
  deferred : Array Deferred := #[]
  properties : Array Property := #[]

def Draft.enter (d : Draft) (h : d.depth < maxParseDepth) : Draft :=
  { d with depth := ⟨d.depth + 1, Nat.succ_lt_succ h⟩ }

def Draft.leave (d : Draft) : Draft :=
  { d with depth := ⟨d.depth - 1, Nat.lt_of_le_of_lt (Nat.sub_le ..) d.depth.isLt⟩ }

/-- A parser over a view. Failure keeps the draft. -/
def Parse (α : Type) : Type := View → Draft → Option α × Draft

namespace Parse

instance : Monad Parse where
  pure a := fun _ d => (some a, d)
  bind p f := fun v d =>
    match p v d with
    | (some a, d) => f a v d
    | (none, d) => (none, d)

def fail {α : Type} : Parse α := fun _ d => (none, d)

def attempt {α : Type} (p : Parse α) : Parse (Option α) := fun v d =>
  match p v d with
  | (r, d) => (some r, d)

def ofOption {α : Type} (x : Option α) : Parse α := fun _ d => (x, d)

def deeper {α : Type} (p : Parse α) : Parse α := fun v d =>
  if h : d.depth < maxParseDepth then
    match p v (d.enter h) with
    | (r, e) => (r, e.leave)
  else (none, d)

def within {α : Type} (change : View → View) (p : Parse α) : Parse α := fun v d => p (change v) d

def view : Parse View := fun v d => (some v, d)

def pos : Parse Nat := fun _ d => (some d.pos, d)

def seek (i : Nat) : Parse Unit := fun _ d => (some (), { d with pos := i })

def advance (n : Nat) : Parse Unit := fun _ d => (some (), { d with pos := d.pos + n })

/-- Moves on by one token if nothing was passed since `before`. -/
def progress (before : Nat) : Parse Unit := fun _ d =>
  (some (), if d.pos == before then { d with pos := d.pos + 1 } else d)

def here {α : Type} (f : View → Nat → α) : Parse α := fun v d => (some (f v d.pos), d)

def isOp (op : String) : Parse Bool := here fun v i => v.isOpAt i op

def isKeyword (word : String) : Parse Bool := here fun v i => v.isKeywordAt i word

def atBoundary : Parse Bool := here View.atBoundary

def eatOp (op : String) : Parse Bool := fun v d =>
  if v.isOpAt d.pos op then (some true, { d with pos := d.pos + 1 }) else (some false, d)

def spanSince (start : Nat) : Parse Span := here fun v i => v.spanSince start i

def alloc (kind : ExprKind) (span : Span) : Parse ExprId := fun _ d =>
  let arena := d.arena
  let d := { d with arena := {} }
  match arena.alloc kind span with
  | (id, arena) => (some id, { d with arena := arena })

def literal (kind : LiteralKind) (value : String) (span : Span) : Parse ExprId :=
  alloc (.literal kind value) span

def compound (parts : List ExprId) (start : Nat) : Parse ExprId := do
  alloc (.compound parts) (← spanSince start)

def setLValue (id : ExprId) (lvalue : LValue) : Parse Unit := fun _ d =>
  (some (), { d with lvalues := d.lvalues.insert id lvalue })

def defer (lambda : Deferred) : Parse Unit := fun _ d =>
  (some (), { d with deferred := d.deferred.push lambda })

def deferredCount : Parse Nat := fun _ d => (some d.deferred.size, d)

def dropDeferred (n : Nat) : Parse Unit := fun _ d =>
  (some (), { d with deferred := d.deferred.take n })

def addProperty (p : Property) : Parse Unit := fun _ d =>
  (some (), { d with properties := d.properties.push p })

def exprOf (id : ExprId) : Parse (Option Expr) := fun _ d => (some d.arena.exprs[id]?, d)

def kindOf (id : ExprId) : Parse (Option ExprKind) := fun _ d =>
  (some (d.arena.exprs[id]?.map (·.kind)), d)

def isStringy (id : ExprId) : Parse Bool := fun _ d =>
  (some (d.arena.exprs[id]?.any (·.isStringy)), d)

def isStringLiteral (id : ExprId) : Parse Bool := do
  match ← kindOf id with
  | some (.literal .string _) | some (.literal .interpolatedString _) => return true
  | _ => return false

def height (id : ExprId) : Parse Nat := fun _ d => (some (d.arena.height id), d)

def baseName (id : ExprId) : Parse String := fun _ d =>
  let name :=
    match d.lvalues[id]? with
    | some lvalue => lvalue.name
    | none =>
      match d.arena.exprs[id]?.map (·.kind) with
      | some (ExprKind.variable path) => path
      | some (ExprKind.call callee ..) => callee ++ "()"
      | some (ExprKind.literal ..) => "<literal>"
      | _ => "<expr>"
  (some name, d)

end Parse

/-- A left operand under construction. Paths and members stay symbolic until something needs them
recorded. -/
inductive Pending where
  | done (id : ExprId)
  | path (path : String) (span : Span)
  | member (base : ExprId) (name : String) (span : Span)
  /-- Operands joined by binary operators, with the height that the recorded tree will have. -/
  | chain (concat : Bool) (parts : List ExprId) (height : Nat) (span : Span)
  deriving DecidableEq, Repr

namespace Parse

def materialize : Pending → Parse ExprId
  | .done id => return id
  | .path path span => alloc (.variable path) span
  | .member base name span => do
    let full := (← baseName base) ++ "." ++ name
    let id ← alloc (.compound [base]) span
    setLValue id (.member full)
    return id
  | .chain true parts _ span => alloc (.concat parts) span
  | .chain false parts _ span => alloc (.compound parts) span

/-- Trees from this height on are not recorded. -/
def maxTreeHeight : Nat := 96

def tooDeep : Pending → Parse Bool
  | .done id | .member id .. => do return maxTreeHeight ≤ (← height id)
  | .chain _ _ height _ => return maxTreeHeight ≤ height
  | .path .. => return false

end Parse

structure Level where
  /-- An operand and the operators behind it that bind at least as tightly as the given power. -/
  pending : Nat → Parse Pending
  primary : Parse Pending

def Level.expr (sub : Level) (power : Nat) : Parse ExprId := do
  Parse.materialize (← sub.pending power)

end TaintScan
