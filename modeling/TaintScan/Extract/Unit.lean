import TaintScan.Extract.Statement

/-! # Extraction

`SourceUnit.extract` turns the bytes of a unit into scopes over one arena. Malformed text is never an
error: it is recorded as error spans and as statements outside the grammar.
-/
namespace TaintScan

structure ExtractStats where
  statements : Nat := 0
  unparsed : Nat := 0
  errorTokens : Nat := 0
  scopes : Nat := 0
  deriving DecidableEq, Repr

structure ExtractedUnit where
  arena : ExprArena
  scopes : Array Scope
  stats : ExtractStats := {}
  errors : List (Span × LexError) := []
  deriving DecidableEq, Repr

def ExtractedUnit.operands (u : ExtractedUnit) : List ExprId :=
  u.scopes.toList.flatMap fun scope => scope.statements.toList.flatMap (·.operands)

def ExtractedUnit.height (u : ExtractedUnit) : Nat := u.arena.maxHeight u.operands

def defaultStatementBound : Nat := 20000

def Token.error? (t : Token) : Option (Span × LexError) :=
  match t.kind with
  | .error cause => some (t.span, cause)
  | _ => none

namespace SourceUnit

def tokenView (u : SourceUnit) (tokens : List Token) (bound : Nat) : View :=
  let kept := (tokens.filter (·.kind != .comment)).toArray
  { unit := u, dialect := .of u.language, tokens := kept, limit := kept.size, bound := bound }

def extract (u : SourceUnit) (bound : Nat) (countdown : Countdown) :
    Except ExtractError ExtractedUnit × Countdown :=
  let tokens := Token.lex u.language u.content.toList
  let errors := tokens.filterMap (·.error?)
  match Walk.unit (u.tokenView tokens bound) { countdown := countdown } with
  | (.error e, b) => (.error e, b.countdown)
  | (.ok _, b) =>
    (.ok
      { arena := b.draft.arena, scopes := b.scopes, errors := errors
        stats := ⟨b.statements, b.unparsed, errors.length, b.scopes.size⟩ },
      b.countdown)

end SourceUnit
end TaintScan
