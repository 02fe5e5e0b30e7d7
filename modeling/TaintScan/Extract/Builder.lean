import TaintScan.Countdown
import TaintScan.Extract.Expression

/-! # Scopes under construction

The blocks that are open around the next statement, innermost first, and the scopes recorded so far.
Statements go to the innermost scope block; control blocks leave a marker where they open and one
where they close.
-/
namespace TaintScan

inductive Frame where
  | scope (index : Nat)
  | control (tag : Nat)
  | plain
  deriving DecidableEq, Repr

structure Block where
  frame : Frame
  /-- The indentation of the header, for a block delimited by it. -/
  indent : Option Nat := none
  single : Bool := false
  /-- A body replayed behind its statement; its end completes nothing. -/
  deferred : Bool := false
  /-- The word that closes this block closes the one around it too. -/
  closesParent : Bool := false
  privateSection : Bool := false
  deriving DecidableEq, Repr

inductive Body where
  | block
  | single
  | empty
  deriving DecidableEq, Repr

structure Builder where
  draft : Draft := {}
  /-- The scopes; the first one is the module. -/
  scopes : Array Scope := #[{ kind := .module, name := "", headerSpan := ⟨0, 0⟩ }]
  tags : Array Nat := #[0]
  blocks : List Block := []
  modifiers : List String := []
  annotations : List String := []
  /-- The number of recognised statements, markers included. -/
  statements : Nat := 0
  unparsed : Nat := 0
  turns : Nat := 0
  countdown : Countdown := .never

def Statement.masked (s : Statement) : Statement :=
  { kind := .unparsed, span := s.span, controlTag := s.controlTag }

namespace Builder

def pos (b : Builder) : Nat := b.draft.pos

def seek (i : Nat) (b : Builder) : Builder := { b with draft.pos := i }

def currentScope (b : Builder) : Nat :=
  (b.blocks.findSome? fun block =>
    match block.frame with
    | .scope i => some i
    | _ => none).getD 0

def tagOf : List Block → Nat
  | [] => 0
  | block :: rest =>
    match block.frame with
    | .control tag => tag
    | .scope _ => 0
    | .plain => tagOf rest

def currentTag (b : Builder) : Nat := tagOf b.blocks

def scopeKind (b : Builder) (i : Nat) : ScopeKind := (b.scopes[i]?.map (·.kind)).getD .module

/-- Records a statement in the current scope. The scopes are taken out of the builder first, so that
they can be changed in place. -/
def push (bound : Nat) (s : Statement) (b : Builder) : Builder :=
  let i := b.currentScope
  let full := bound ≤ (b.scopes[i]?.map (·.statements.size)).getD 0
  let s := if full && s.kind != .unparsed then s.masked else s
  let scopes := b.scopes
  let b := { b with scopes := #[] }
  let scopes := scopes.modify i (·.push s)
  if s.kind == .unparsed then { b with scopes := scopes, unparsed := b.unparsed + 1 }
  else { b with scopes := scopes, statements := b.statements + 1 }

def closingSpan (v : View) (i : Nat) : Span :=
  (v.tokens[i - 1]?.map fun t => ⟨t.span.stop, t.span.stop⟩).getD ⟨0, 0⟩

def closeTop (v : View) (b : Builder) : Builder :=
  match b.blocks with
  | [] => b
  | block :: rest =>
    let b := { b with blocks := rest }
    match block.frame with
    | .control tag =>
      b.push v.bound { kind := .controlClose, span := closingSpan v b.pos, controlTag := tag }
    | _ => b

def closeWhileFrom (v : View) (p : Block → Bool) : List Block → Builder → Builder
  | [], b => b
  | block :: rest, b => if p block then closeWhileFrom v p rest (b.closeTop v) else b

def closeWhile (v : View) (p : Block → Bool) (b : Builder) : Builder :=
  closeWhileFrom v p b.blocks b

def closeMany (v : View) : Nat → Builder → Builder
  | 0, b => b
  | n + 1, b => closeMany v n (b.closeTop v)

def closeAbove (v : View) (depth : Nat) (b : Builder) : Builder :=
  b.closeMany v (b.blocks.length - depth)

def finish (v : View) (b : Builder) : Builder := b.closeWhile v (·.single)

def closeBrace (v : View) (b : Builder) : Builder :=
  match b.blocks with
  | [] => b
  | block :: _ => if block.deferred then b.closeTop v else (b.closeTop v).finish v

def closeEndFrom (v : View) : List Block → Builder → Builder
  | [], b => b
  | block :: rest, b =>
    let b := b.closeTop v
    if block.closesParent then closeEndFrom v rest b
    else if block.deferred then b
    else b.finish v

/-- Closes a block at its closing word, and the blocks that it closes with it. -/
def closeEnd (v : View) (b : Builder) : Builder := closeEndFrom v b.blocks b

/-- Closes the blocks that are indented at least as deeply as the token at an index. -/
def dedent (v : View) (i : Nat) (b : Builder) : Builder :=
  let indent := v.indentOf i
  let closed := b.closeWhile v fun block => block.indent.any fun level => indent ≤ level
  if closed.blocks.length < b.blocks.length then closed.finish v else closed

def openControl (v : View) (kind : ControlKind) (targets : List String) (operands : List ExprId)
    (start : Nat) (body : Body) (indent : Option Nat) (b : Builder) : Builder :=
  let i := b.currentScope
  let tag := b.tags.getD i 0 + 1
  let b := { b with tags := b.tags.modify i (· + 1), draft.properties := #[] }
  let b := b.push v.bound
    { kind := .controlOpen kind, targets := targets, operands := operands
      span := v.spanSince start b.pos, controlTag := tag }
  let block : Block := { frame := .control tag }
  match body with
  | .empty => ({ b with blocks := block :: b.blocks }.closeTop v).finish v
  | .single => { b with blocks := { block with single := true, indent := indent } :: b.blocks }
  | .block => { b with blocks := { block with indent := indent } :: b.blocks }

def inPrivateSection (b : Builder) : Bool :=
  (b.blocks.find? fun block =>
    match block.frame with
    | .scope i => b.scopeKind i == .type
    | _ => false).any (·.privateSection)

/-- Starts or ends a private section in the innermost type body among some blocks. -/
def markPrivate (b : Builder) (on : Bool) : List Block → List Block
  | [] => []
  | block :: rest =>
    match block.frame with
    | .scope i =>
      if b.scopeKind i == .type then { block with privateSection := on } :: rest
      else block :: markPrivate b on rest
    | _ => block :: markPrivate b on rest

def setPrivateSection (on : Bool) (b : Builder) : Builder :=
  { b with blocks := b.markPrivate on b.blocks }

/-- Records a scope under the modifiers and annotations read before it, and opens its body. -/
def openScope (v : View) (kind : ScopeKind) (name : String) (params : List Param) (header : Span)
    (single : Bool) (indent : Option Nat) (b : Builder) : Builder :=
  let parent := b.currentScope
  let hidden := v.language == .ruby && kind == .function && b.inPrivateSection
  let scope : Scope :=
    { kind := kind, name := name, parent := some parent, parentKind := some (b.scopeKind parent)
      params := params, modifiers := b.modifiers ++ (if hidden then ["private"] else [])
      annotations := b.annotations, headerSpan := header }
  { b with
    scopes := b.scopes.push scope, tags := b.tags.push 0, modifiers := [], annotations := []
    blocks := { frame := .scope b.scopes.size, single := single, indent := indent } :: b.blocks }

/-- The statement that stands for a string under a key; keys without an owner stay off the names of
variables. -/
def propertyStatement (owner : Option String) (tag : Nat) (p : Property) : Statement :=
  { kind := .assignment, targets := [owner.getD "<object>" ++ "." ++ p.key], operands := [p.value]
    span := p.span, controlTag := tag }

def emit (v : View) (kind : StatementKind) (targets : List String) (compound : Bool)
    (operands : List ExprId) (start : Nat) (b : Builder) : Builder :=
  let tag := b.currentTag
  let owner := match targets with
    | [target] => some target
    | _ => none
  let properties := b.draft.properties
  let b := { b with draft.properties := #[] }
  let b := b.push v.bound
    { kind := kind, targets := targets, compound := compound, operands := operands
      span := v.spanSince start b.pos, controlTag := tag }
  properties.foldl (fun b p => b.push v.bound (propertyStatement owner tag p)) b

def emitUnparsed (v : View) (start : Nat) (b : Builder) : Builder :=
  let b := { b with draft.deferred := #[], draft.properties := #[] }
  let b := b.emit v .unparsed [] false [] start
  { b with modifiers := [] }.finish v

end Builder
end TaintScan
