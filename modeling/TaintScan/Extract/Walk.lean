import TaintScan.Extract.Builder

/-! # Steps of the extraction

A step reads tokens through a view, changes the scopes under construction and may end the extraction
with an error. The state is kept when it does, so that the countdown of a cancelled extraction goes
on in the next one.
-/
namespace TaintScan

inductive ExtractError where
  | cancelled (unitId : String) (statements : Nat)
  | unknownExpr (cause : UnknownExpr)
  deriving DecidableEq, Repr

def ExtractError.message : ExtractError → String
  | cancelled unitId statements =>
    "extraction of '" ++ unitId ++ "' cancelled after " ++ toString statements ++ " statements"
  | unknownExpr cause => cause.message

def Walk (α : Type) : Type := View → Builder → Except ExtractError α × Builder

namespace Walk

instance : Monad Walk where
  pure a := fun _ b => (.ok a, b)
  bind w f := fun v b =>
    match w v b with
    | (.ok a, b) => f a v b
    | (.error e, b) => (.error e, b)

def view : Walk View := fun v b => (.ok v, b)

def look {α : Type} (f : Builder → α) : Walk α := fun _ b => (.ok (f b), b)

def act (f : View → Builder → Builder) : Walk Unit := fun v b => (.ok (), f v b)

def here {α : Type} (f : View → Nat → α) : Walk α := fun v b => (.ok (f v b.pos), b)

def within {α : Type} (change : View → View) (w : Walk α) : Walk α := fun v b => w (change v) b

def ofExcept {α : Type} (x : Except UnknownExpr α) : Walk α := fun _ b =>
  (x.mapError .unknownExpr, b)

def parse {α : Type} (p : Parse α) : Walk (Option α) := fun v b =>
  let draft := b.draft
  let b := { b with draft := {} }
  match p v draft with
  | (r, d) => (.ok r, { b with draft := d })

def parseList {α : Type} (p : Parse (List α)) : Walk (List α) := do
  return (← parse p).getD []

def pos : Walk Nat := look (·.pos)

def alloc (kind : ExprKind) (start : Nat) : Walk ExprId := fun v b =>
  let span := v.spanSince start b.pos
  let arena := b.draft.arena
  let b := { b with draft.arena := {} }
  match arena.alloc kind span with
  | (id, arena) => (.ok id, { b with draft.arena := arena })

def seek (i : Nat) : Walk Unit := act fun _ b => b.seek i

def advance (n : Nat) : Walk Unit := act fun _ b => b.seek (b.pos + n)

def isOp (op : String) : Walk Bool := here fun v i => v.isOpAt i op

def isKeyword (word : String) : Walk Bool := here fun v i => v.isKeywordAt i word

def atBoundary : Walk Bool := here View.atBoundary

def eatOp (op : String) : Walk Bool := fun v b =>
  if v.isOpAt b.pos op then (.ok true, b.seek (b.pos + 1)) else (.ok false, b)

def finish : Walk Unit := act fun v b => b.finish v

def clearModifiers : Walk Unit := act fun _ b => { b with modifiers := [] }

def clearAnnotations : Walk Unit := act fun _ b => { b with annotations := [] }

def pushBlock (block : Block) : Walk Unit := act fun _ b => { b with blocks := block :: b.blocks }

def emit (kind : StatementKind) (targets : List String) (compound : Bool) (operands : List ExprId)
    (start : Nat) : Walk Unit :=
  act fun v b => b.emit v kind targets compound operands start

def emitUnparsed (start : Nat) : Walk Unit := act fun v b => b.emitUnparsed v start

def openControl (kind : ControlKind) (targets : List String) (operands : List ExprId) (start : Nat)
    (body : Body) (indent : Option Nat) : Walk Unit :=
  act fun v b => b.openControl v kind targets operands start body indent

def takeDeferred : Walk (List Deferred) := fun _ b =>
  (.ok b.draft.deferred.toList, { b with draft.deferred := #[] })

/-- Starts a turn of the statement loop, or ends the extraction if the countdown has run out. -/
def checkpoint : Walk Unit := fun v b =>
  match b.countdown.poll with
  | (true, c) => (.error (.cancelled v.unit.id b.statements), { b with countdown := c })
  | (false, c) => (.ok (), { b with countdown := c, turns := b.turns + 1 })

end Walk

namespace View

def skipFrom (v : View) : Nat → Int → Nat → Bool × Nat
  | 0, _, i => (false, i)
  | n + 1, depth, i =>
    match v.tok? i with
    | none => (false, i)
    | some t =>
      if depth ≤ 0 && v.stmtStart < i && v.newlineBefore i then (false, i)
      else if t.kind == .operator then
        match t.text with
        | "(" | "[" => skipFrom v n (depth + 1) (i + 1)
        | ")" | "]" => skipFrom v n (depth - 1) (i + 1)
        | "\x7b" =>
          if depth ≤ 0 && v.dialect.blockStyle == .braces then (true, i + 1)
          else skipFrom v n (depth + 1) (i + 1)
        | "\x7d" => if depth ≤ 0 then (false, i) else skipFrom v n (depth - 1) (i + 1)
        | ";" => if depth ≤ 0 then (false, i + 1) else skipFrom v n depth (i + 1)
        | _ => skipFrom v n depth (i + 1)
      else if t.kind == .keyword && v.language == .ruby && depth ≤ 0 then
        if t.text == "do" then (true, (v.blockParams (i + 1)).2)
        else if terminators.contains t.text && v.stmtStart < i then (false, i)
        else skipFrom v n depth (i + 1)
      else skipFrom v n depth (i + 1)

def statementEnd (v : View) (i : Nat) : Bool × Nat := v.skipFrom (v.limit - i) 0 i

end View

namespace Walk

def skipStatement : Walk Bool := do
  let (opens, i) ← here View.statementEnd
  seek i
  return opens

def giveUp (start : Nat) : Walk Unit := do
  let opens ← skipStatement
  emitUnparsed start
  if opens then pushBlock { frame := .plain }

end Walk

abbrev Replay := List Deferred → Walk Unit

namespace Walk

def complete (replay : Replay) (kind : StatementKind) (targets : List String) (compound : Bool)
    (operands : List ExprId) (start : Nat) : Walk Unit := do
  let lambdas ← takeDeferred
  let resume ← pos
  emit kind targets compound operands start
  clearModifiers
  replay lambdas
  act fun _ b => b.seek (max b.pos resume)
  let _ ← eatOp ";"
  finish

/-- Records a statement that ends here, or before a block whose parameters are bound to it. -/
def completeWithBlock (replay : Replay) (kind : StatementKind) (targets : List String)
    (compound : Bool) (operands : List ExprId) (start : Nat) : Walk Unit := do
  if (← view).language == .ruby && (← isKeyword "do") then
    let i ← pos
    let (params, resume) ← here fun v i => v.blockParams (i + 1)
    let sources ← match operands with
      | first :: _ => parseList (Parse.blockSources first)
      | [] => pure []
    let lambdas ← takeDeferred
    emit kind targets compound operands start
    seek resume
    clearModifiers
    replay lambdas
    act fun _ b => b.seek (max b.pos resume)
    openControl .lambda params sources i .block none
  else complete replay kind targets compound operands start

end Walk
end TaintScan
