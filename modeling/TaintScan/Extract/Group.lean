import TaintScan.Extract.Draft

/-! # Bracketed groups and embedded expressions

The items of a bracketed group are expressions; whatever else stands between them is passed over one
token at a time. An expression embedded in a string is lexed again and parsed in a view of its own, from
which only the recorded expressions come back.
-/
namespace TaintScan

/-- The key of an entry at an index: a name before a colon or an equals sign, or a quoted text before
a colon inside braces or before a double arrow. -/
def View.groupKey? (v : View) (object : Bool) (i : Nat) : Option String :=
  match v.tok? i with
  | none => none
  | some t =>
    match t.kind with
    | .identifier | .keyword =>
      if v.isOpAt (i + 1) ":" || v.isOpAt (i + 1) "=" then some t.text else none
    | .literal .string =>
      if (object && v.isOpAt (i + 1) ":") ||
          ((v.language == .php || v.language == .ruby) && v.isOpAt (i + 1) "=>") then
        some (Literal.value t.text)
      else none
    | _ => none

def Token.isParsed (t : Token) : Bool :=
  match t.kind with
  | .comment | .error _ => false
  | _ => true

namespace Level

open Parse

def keep (key : Option (String × Nat)) (item : Option ExprId) : Parse Unit := do
  match key, item with
  | some (name, i), some id =>
    if ← isStringLiteral id then
      addProperty ⟨name, id, ← here fun v stop => v.spanBetween i (stop - 1)⟩
    else return ()
  | _, _ => return ()

/-- The items up to the limit. The key of the next item and its index are kept until it is read. -/
def groupItems (sub : Level) (object : Bool) : Nat → Option (String × Nat) → Parse (List ExprId)
  | 0, _ => return []
  | n + 1, key => do
    let i ← pos
    if (← view).limit ≤ i then return []
    else
      match ← here fun v i => v.groupKey? object i with
      | some name =>
        let marked ← here fun v i => object || v.isOpAt (i + 1) "=>"
        advance 2
        groupItems sub object n (if marked then some (name, i) else key)
      | none =>
        let item ← attempt (sub.expr 0)
        keep key item
        progress i
        return item.toList ++ (← groupItems sub object n none)

/-- The items of the group that opens at an index; the position moves behind its closing bracket. An
unbalanced group fails and moves nothing. -/
def group (sub : Level) (opener : Nat) : Parse (List ExprId) := do
  let close ← ofOption ((← view).matching? opener)
  let object := (← view).isOpAt opener "\x7b"
  seek (opener + 1)
  let items ← within (fun v => { v with limit := close, nesting := v.nesting + 1 })
    (sub.groupItems object (close - opener) none)
  seek (close + 1)
  return items

def looseItems (sub : Level) : Nat → Parse (List ExprId)
  | 0 => return []
  | n + 1 => do
    let i ← pos
    if (← view).limit ≤ i then return []
    else
      let item ← attempt (sub.expr 0)
      progress i
      return item.toList ++ (← looseItems sub n)

/-- The expressions in a span of a string token. Bodies inside it are not replayed. -/
def embedded (sub : Level) (t : Token) (segment : Span) : Parse (List ExprId) := fun v d =>
  let tokens := ((Token.lexSpan v.language v.unit.content segment t.line).filter (·.isParsed)).toArray
  let inner := { v with tokens := tokens, limit := tokens.size, nesting := v.nesting + 1 }
  match sub.looseItems tokens.size inner { d with pos := 0 } with
  | (items, e) => (items, { e with pos := d.pos, deferred := e.deferred.take d.deferred.size })

def interpolated (sub : Level) (t : Token) (kind : LiteralKind) : Parse ExprId := do
  let v ← view
  let first ← literal kind (Literal.value t.text) t.span
  let rest ← (t.segments v.dialect (v.unit.slice t.span)).mapM (sub.embedded t)
  match rest.flatten with
  | [] => return first
  | parts => alloc (.concat (first :: parts)) t.span

end Level
end TaintScan
