import TaintScan.Data.Json
import TaintScan.Finding.Analysis

/-! # Scans and reports

The result of scanning one unit, the report on many units, and their written form. A failed unit is
reported and does not stop the others.
-/
namespace TaintScan

structure Diagnostic where
  unitId : String
  location : Option Location := none
  message : String
  deriving DecidableEq, Repr

inductive UnitError where
  | cancelled (unitId : String)
  | extraction (unitId : String) (cause : ExtractError)
  | analysis (cause : UnitFault)
  deriving DecidableEq, Repr

namespace UnitError

def message : UnitError → String
  | cancelled unitId => s!"scan of '{unitId}' cancelled"
  | extraction unitId cause => s!"extraction of '{unitId}' failed: " ++ cause.message
  | analysis cause => cause.message

def kind : UnitError → String
  | cancelled _ => "cancelled"
  | extraction .. => "extraction"
  | analysis _ => "invariant"

def ofExtract (unitId : String) : ExtractError → UnitError
  | .cancelled .. => cancelled unitId
  | cause => extraction unitId cause

def ofFault (unitId : String) : UnitFault → UnitError
  | .analysis (.cancelled ..) => cancelled unitId
  | cause => analysis cause

end UnitError

structure UnitScan where
  findings : List Finding := []
  diagnostics : List Diagnostic := []
  skipped : Bool := false
  statements : Nat := 0
  unparsed : Nat := 0
  errorTokens : Nat := 0

structure UnitFailure where
  unitId : String
  kind : String
  message : String
  deriving DecidableEq, Repr

structure ScanStats where
  unitsScanned : Nat := 0
  unitsSkipped : Nat := 0
  unitsFailed : Nat := 0
  statements : Nat := 0
  unparsed : Nat := 0
  errorTokens : Nat := 0
  findings : Nat := 0
  deriving DecidableEq, Repr

structure ScanReport where
  findings : List Finding := []
  errors : List UnitFailure := []
  diagnostics : List Diagnostic := []
  stats : ScanStats := {}

namespace ScanReport

def add (r : ScanReport) (unitId : String) : Except UnitError UnitScan → ScanReport
  | .ok scan =>
    { r with
      findings := r.findings ++ scan.findings
      diagnostics := r.diagnostics ++ scan.diagnostics
      stats :=
        { r.stats with
          unitsScanned := r.stats.unitsScanned + if scan.skipped then 0 else 1
          unitsSkipped := r.stats.unitsSkipped + if scan.skipped then 1 else 0
          statements := r.stats.statements + scan.statements
          unparsed := r.stats.unparsed + scan.unparsed
          errorTokens := r.stats.errorTokens + scan.errorTokens } }
  | .error e =>
    { r with
      errors := r.errors ++ [⟨unitId, e.kind, e.message⟩]
      stats := { r.stats with unitsFailed := r.stats.unitsFailed + 1 } }

def finish (r : ScanReport) : ScanReport :=
  { r with
    findings := Finding.sort r.findings
    stats := { r.stats with findings := r.findings.length } }

def ofScans (scans : List (String × Except UnitError UnitScan)) : ScanReport :=
  (scans.foldl (fun (r : ScanReport) p => r.add p.1 p.2) {}).finish

end ScanReport

def fieldOf? (name : String) (v : Option Value) : List (String × Value) :=
  (v.map fun v => (name, v)).toList

def listField? (name : String) (items : List Value) : List (String × Value) :=
  if items.isEmpty then [] else [(name, .list items)]

def Value.ofNat (n : Nat) : Value := .int (.ofNat n)

def Location.toValue (l : Location) : Value :=
  .map [("startOffset", .ofNat l.startOffset), ("endOffset", .ofNat l.stopOffset),
    ("startLine", .ofNat l.startLine), ("startCol", .ofNat l.startCol), ("endLine", .ofNat l.stopLine),
    ("endCol", .ofNat l.stopCol)]

def Finding.toValue (f : Finding) : Value :=
  .map ([("fingerprint", .text f.fingerprint), ("pathHash", .text f.pathHash),
      ("ruleId", .text f.ruleId), ("category", .text f.category.code),
      ("severity", .text f.severity.code), ("sourceUnitId", .text f.unitId),
      ("span", f.location.toValue)] ++
    listField? "taintPath" (f.path.map (·.toValue)) ++
    [("confidence", .text f.confidence.code)] ++
    fieldOf? "cweId" (f.cweId.map .text) ++ fieldOf? "owaspCategory" (f.owaspCategory.map .text) ++
    [("message", .text f.message), ("remediation", .text f.remediation), ("snippet", .text f.snippet)] ++
    (if f.metadata.isEmpty then [] else [("metadata", .map f.metadata)]))

def Diagnostic.toValue (d : Diagnostic) : Value :=
  .map ([("sourceUnitId", .text d.unitId)] ++ fieldOf? "span" (d.location.map (·.toValue)) ++
    [("message", .text d.message)])

def UnitFailure.toValue (f : UnitFailure) : Value :=
  .map [("sourceUnitId", .text f.unitId), ("kind", .text f.kind), ("message", .text f.message)]

def ScanStats.toValue (s : ScanStats) : Value :=
  .map [("unitsScanned", .ofNat s.unitsScanned), ("unitsSkipped", .ofNat s.unitsSkipped),
    ("unitsFailed", .ofNat s.unitsFailed), ("statements", .ofNat s.statements),
    ("unparsed", .ofNat s.unparsed), ("errorTokens", .ofNat s.errorTokens),
    ("findings", .ofNat s.findings)]

namespace ScanReport

def toValue (r : ScanReport) : Value :=
  .map ([("findings", .list (r.findings.map (·.toValue)))] ++
    listField? "errors" (r.errors.map (·.toValue)) ++
    listField? "diagnostics" (r.diagnostics.map (·.toValue)) ++ [("stats", r.stats.toValue)])

def json (r : ScanReport) : String := Json.pretty 0 r.toValue

end ScanReport
end TaintScan
