import TaintScan.Data.Keyed
import TaintScan.Data.Value
import TaintScan.Finding.Digest
import TaintScan.Rule.Scale
import TaintScan.Source
import TaintScan.Text.Utf8

/-! # Findings

A finding is what a scan reports: a rule, a place and its text. Its fingerprint depends on the rule,
the unit and the text alone, so it stays the same when lines move; its path hash depends on the
offsets of the path. Findings are ordered by unit, place, rule and path hash.
-/
namespace TaintScan

def maxSnippetLines : Nat := 10

structure Finding where
  fingerprint : String
  pathHash : String
  ruleId : String
  category : Category
  severity : Severity
  unitId : String
  location : Location
  /-- The way of the label, origin first; the sink is not part of it. -/
  path : List Location := []
  confidence : Confidence
  cweId : Option String := none
  owaspCategory : Option String := none
  message : String
  remediation : String
  snippet : String
  metadata : List (String × Value) := []

def normalSnippet (snippet : String) : String :=
  Text.trim (Text.joinWith "\n"
    ((Text.lines (Text.replace snippet "\r\n" "\n")).map Text.trim))

namespace Finding

/-- The bytes that the fingerprint is taken of: rule, unit and snippet, with zeros between them. -/
def fingerprintBytes (ruleId unitId snippet : String) : List UInt8 :=
  Text.Utf8.encode ruleId ++ 0 :: Text.Utf8.encode unitId ++ 0 ::
    Text.Utf8.encode (normalSnippet snippet)

def offsetBytes (offset : Nat) : List UInt8 := (Digest.bigEndian 4 offset).reverse

def pathBytes (path : List Location) : List UInt8 :=
  path.flatMap fun l => offsetBytes l.startOffset ++ offsetBytes l.stopOffset

def fingerprintOf (ruleId unitId snippet : String) : String :=
  Digest.hex (Digest.sha256 (fingerprintBytes ruleId unitId snippet))

def pathHashOf (path : List Location) : String := Digest.hex (Digest.sha256 (pathBytes path))

/-- The order of findings: unit, start, stop, rule, path hash. -/
def compare (a b : Finding) : Ordering :=
  (compareOfLessAndEq a.unitId b.unitId).then
    ((Ord.compare a.location.startOffset b.location.startOffset).then
      ((Ord.compare a.location.stopOffset b.location.stopOffset).then
        ((compareOfLessAndEq a.ruleId b.ruleId).then (compareOfLessAndEq a.pathHash b.pathHash))))

def sort (findings : List Finding) : List Finding := findings.mergeSort fun a b => (a.compare b).isLE

def text (f : Finding) : String :=
  "[" ++ f.severity.code ++ "] " ++ f.ruleId ++ " " ++ f.unitId ++ ":" ++ f.location.text ++ " -- " ++
    f.message

end Finding

inductive FindingError where
  | missingField (name : String)
  | snippetTooLong (lines : Nat)
  deriving DecidableEq, Repr

def FindingError.message : FindingError → String
  | missingField name => s!"missing required field: {name}"
  | snippetTooLong lines =>
    "snippet exceeds maximum of " ++ toString maxSnippetLines ++ s!" lines (got {lines})"

structure FindingDraft where
  ruleId : Option String := none
  category : Option Category := none
  severity : Option Severity := none
  unitId : Option String := none
  location : Option Location := none
  path : List Location := []
  confidence : Option Confidence := none
  cweId : Option String := none
  owaspCategory : Option String := none
  message : Option String := none
  remediation : Option String := none
  snippet : Option String := none
  metadata : List (String × Value) := []

namespace FindingDraft

def required (name : String) (field : Option α) : Except FindingError α :=
  match field with
  | some a => .ok a
  | none => .error (.missingField name)

def build (d : FindingDraft) : Except FindingError Finding := do
  let ruleId ← required "rule_id" d.ruleId
  let category ← required "category" d.category
  let severity ← required "severity" d.severity
  let unitId ← required "source_unit_id" d.unitId
  let location ← required "span" d.location
  let confidence ← required "confidence" d.confidence
  let message ← required "message" d.message
  let remediation ← required "remediation" d.remediation
  let snippet ← required "snippet" d.snippet
  let lines := (Text.lines snippet).length
  if maxSnippetLines < lines then throw (.snippetTooLong lines)
  Except.ok
    { fingerprint := Finding.fingerprintOf ruleId unitId snippet
      pathHash := Finding.pathHashOf d.path
      ruleId, category, severity, unitId, location
      path := d.path
      confidence
      cweId := d.cweId
      owaspCategory := d.owaspCategory
      message, remediation, snippet
      metadata := d.metadata }

end FindingDraft
end TaintScan
