import TaintScan.Rule.Builtin
import TaintScan.Scan.Config
import TaintScan.Scan.Report

/-! # Scanning

A scanner has a registry and the settings of a scan. It scans one unit, or several units one after
the other; one countdown runs through all of them.
-/
namespace TaintScan

structure Scanner where
  registry : Registry
  options : AnalysisOptions := {}
  statementBound : Nat := defaultStatementBound
  maxUnitSizeKb : Nat := 1024

namespace Scanner

def ofConfig (registry : Registry) (config : Config) : Scanner :=
  { registry
    options := config.analysis.options
    statementBound := config.analysis.maxStatementsPerScope
    maxUnitSizeKb := config.scan.maxUnitSizeKb }

def skip (s : Scanner) (u : SourceUnit) : UnitScan :=
  { skipped := true
    diagnostics :=
      [{ unitId := u.id
         message := "skipped: " ++ toString u.size ++ " bytes exceeds the " ++
          toString s.maxUnitSizeKb ++ " KiB limit" }] }

def lexNotes (u : SourceUnit) (x : ExtractedUnit) : List Diagnostic :=
  x.errors.map fun e =>
    { unitId := u.id, location := some (.resolve u e.1), message := e.2.message }

def scanUnit (s : Scanner) (u : SourceUnit) (countdown : Countdown) :
    Except UnitError UnitScan × Countdown :=
  if s.maxUnitSizeKb * 1024 < u.size then (.ok (s.skip u), countdown)
  else
    match u.extract s.statementBound countdown with
    | (.error e, c) => (.error (.ofExtract u.id e), c)
    | (.ok x, c) =>
      match u.analyze x s.registry s.options c with
      | (.error e, c) => (.error (.ofFault u.id e), c)
      | (.ok findings, c) =>
        (.ok
          { findings
            diagnostics := lexNotes u x
            statements := x.stats.statements
            unparsed := x.stats.unparsed
            errorTokens := x.stats.errorTokens }, c)

def scanEach (s : Scanner) : List SourceUnit → Countdown → List (String × Except UnitError UnitScan)
  | [], _ => []
  | u :: rest, countdown =>
    match s.scanUnit u countdown with
    | (result, c) => (u.id, result) :: s.scanEach rest c

def scanUnits (s : Scanner) (units : List SourceUnit) (countdown : Countdown) : ScanReport :=
  .ofScans (s.scanEach units countdown)

end Scanner
end TaintScan
