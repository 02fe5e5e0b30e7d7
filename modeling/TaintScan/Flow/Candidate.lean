import TaintScan.Rule.Evidence
import TaintScan.Secret.Evidence

/-! # Candidates

A candidate is one match of a rule in a unit. `merge` keeps one candidate for each rule and span, the
first with the longest path, and gathers the details of the others into it. `Rule.rank` gives the
severity of what is kept.
-/
namespace TaintScan

structure Candidate where
  rule : Rule
  span : Span
  /-- The way of the label, origin first; empty for a match that needs no label. -/
  path : List Span := []
  confidence : Confidence
  adjacent : Bool := false
  bindings : Bindings
  detail : List String := []
  deriving DecidableEq, Repr

namespace Candidate

def message (c : Candidate) : String :=
  let base := c.rule.renderMessage c.bindings
  if c.detail.isEmpty then base else base ++ " (" ++ Text.joinWith "; " c.detail ++ ")"

/-- The value of a hard-coded secret grades the match and is not shown. -/
def ofSecret (m : ShapeMatch) : Candidate :=
  let value := (m.bindings.lookup "value").getD ""
  { rule := m.rule
    span := m.span
    confidence := Secret.confidence m.confidence value
    bindings := m.bindings.erase "value"
    detail := ((Secret.format? value).map fun f => s!"value matches the {f} format").toList }

def ofEvidence (m : ShapeMatch) : Candidate :=
  let detail :=
    match m.bindings.lookup "evidence" with
    | some "concatenation" => ["built by concatenation"]
    | some _ => ["argument is never defined in this scope"]
    | none => []
  { rule := m.rule, span := m.span, confidence := m.confidence,
    bindings := m.bindings.erase "evidence", detail }

def ofShape (m : ShapeMatch) : Candidate :=
  match m.rule.matcher with
  | .syntactic (.hardcodedSecret _) => ofSecret m
  | _ => ofEvidence m

def before (a b : Candidate) : Bool :=
  a.span.start < b.span.start ||
    (a.span.start == b.span.start &&
      (a.span.stop < b.span.stop || (a.span.stop == b.span.stop && decide (a.rule.id < b.rule.id))))

def sameKey (a b : Candidate) : Bool := a.span == b.span && a.rule.id == b.rule.id

def absorb (winner loser : Candidate) : Candidate :=
  { winner with
    detail := loser.detail.foldl (fun d line => if d.contains line then d else d ++ [line]) winner.detail
    adjacent := winner.adjacent || loser.adjacent }

/-- Of two candidates with one key the later one stays only if its path is longer. -/
def combine (kept next : Candidate) : Candidate :=
  if kept.path.length < next.path.length then next.absorb kept else kept.absorb next

def combineRuns (kept : Candidate) : List Candidate → List Candidate
  | [] => [kept]
  | c :: rest =>
    if kept.sameKey c then combineRuns (kept.combine c) rest else kept :: combineRuns c rest

def merge (candidates : List Candidate) : List Candidate :=
  match candidates.mergeSort fun a b => !b.before a with
  | [] => []
  | c :: rest => combineRuns c rest

end Candidate

def multiHop : Nat := 2

/-- The severity of a match: one level up for a long path, then one level down, but not below the
floor, if a partial sanitizer touched the value. -/
def Rule.rank (r : Rule) (pathLength : Nat) (adjacent escalate : Bool) : Severity :=
  let severity := if escalate && multiHop ≤ pathLength then r.severity.escalated else r.severity
  if adjacent then severity.lowered r.severityFloor else severity

end TaintScan
