import TaintScan.Finding.Basic
import TaintScan.Flow.Track

/-! # Findings of a unit

The candidates of a unit are merged, ranked and built into findings, which come in their order.
-/
namespace TaintScan

inductive UnitFault where
  | analysis (cause : AnalysisError)
  | finding (cause : FindingError)
  deriving DecidableEq, Repr

def UnitFault.message : UnitFault → String
  | analysis cause => cause.message
  | finding cause => cause.message

/-- What is told beside the message: the name and base severity of the rule, the length of a path, and
whether a partial sanitizer touched the value. -/
def Candidate.metadata (c : Candidate) : List (String × Value) :=
  let always := [("ruleName", Value.text c.rule.name), ("baseSeverity", .text c.rule.severity.code)]
  let length := if c.path.isEmpty then [] else [("pathLength", Value.int c.path.length)]
  let adjacent := if c.adjacent then [("sanitizerAdjacent", Value.bool true)] else []
  Keyed.ofList (always ++ length ++ adjacent)

def Candidate.toFinding (c : Candidate) (u : SourceUnit) (options : AnalysisOptions) :
    Except FindingError Finding :=
  FindingDraft.build
    { ruleId := some c.rule.id
      category := c.rule.category
      severity := some (c.rule.rank c.path.length c.adjacent options.escalateMultiHop)
      unitId := some u.id
      location := some (.resolve u c.span)
      path := c.path.map (Location.resolve u)
      confidence := some (if c.adjacent then c.confidence.lowered else c.confidence)
      cweId := c.rule.cweId
      owaspCategory := c.rule.owaspCategory
      message := some c.message
      remediation := some c.rule.remediation
      snippet := some (u.linesAround c.span maxSnippetLines)
      metadata := c.metadata }

def buildFindings (u : SourceUnit) (options : AnalysisOptions) (candidates : List Candidate) :
    Except FindingError (List Finding) := do
  return Finding.sort (← candidates.mapM (·.toFinding u options))

def SourceUnit.analyze (u : SourceUnit) (x : ExtractedUnit) (registry : Registry)
    (options : AnalysisOptions) (countdown : Countdown) :
    Except UnitFault (List Finding) × Countdown :=
  match u.track x registry options countdown with
  | (.error e, c) => (.error (.analysis e), c)
  | (.ok candidates, c) =>
    ((buildFindings u options (Candidate.merge candidates)).mapError .finding, c)

end TaintScan
