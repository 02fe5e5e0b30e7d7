import TaintScan.Data.Yaml.Document
import TaintScan.Rule.Params

/-! # Rule files

A rule file is a list of entries. An entry is decoded field by field, its matcher is typed, absent
fields take their defaults, and the finished rule is validated. Loading stops at the first entry that
is not a rule; a file may not repeat an identifier.
-/
namespace TaintScan

structure RuleEntry where
  id : String
  name : Option String := none
  category : Option Category := none
  severity : Option Severity := none
  severityFloor : Option Severity := none
  matcherKind : String
  parameters : Value := .null
  message : String := ""
  cweId : Option String := none
  owaspCategory : Option String := none
  remediation : String := ""
  confidence : Option Confidence := none
  languages : List Language := []

namespace Value

def severity? (v : Value) : Option Severity := v.word? >>= Severity.ofCode?

def confidence? (v : Value) : Option Confidence := v.word? >>= Confidence.ofCode?

def category? (v : Value) : Option Category := v.word? >>= Category.ofCode?

def language? (v : Value) : Option Language := v.word? >>= Language.ofCode?

end Value

namespace RuleEntry

def fieldNames : List String :=
  ["id", "name", "category", "severity", "severity_floor", "matcher_kind", "parameters", "message",
    "cwe_id", "owasp_category", "remediation", "confidence", "languages"]

def ofValue? (v : Value) : Option RuleEntry := do
  let fields ← v.record? fieldNames
  let id ← readField? fields "id" none Value.text?
  let name ← readField? fields "name" (some none) (Value.optional? Value.text?)
  let category ← readField? fields "category" (some none) (Value.optional? Value.category?)
  let severity ← readField? fields "severity" (some none) (Value.optional? Value.severity?)
  let floor ← readField? fields "severity_floor" (some none) (Value.optional? Value.severity?)
  let kind ← readField? fields "matcher_kind" none Value.text?
  let parameters ← readField? fields "parameters" (some .null) Value.resolve?
  let message ← readField? fields "message" (some "") Value.text?
  let cweId ← readField? fields "cwe_id" (some none) (Value.optional? Value.text?)
  let owasp ← readField? fields "owasp_category" (some none) (Value.optional? Value.text?)
  let remediation ← readField? fields "remediation" (some "") Value.text?
  let confidence ← readField? fields "confidence" (some none) (Value.optional? Value.confidence?)
  let languages ← readField? fields "languages" (some []) (Value.listOf? Value.language?)
  return ⟨id, name, category, severity, floor, kind, parameters, message, cweId, owasp, remediation,
    confidence, languages⟩

/-- A rule file nests at most 128 lists and maps, of which the file and the entry are two. -/
def maxParameterDepth : Nat := 126

/-- Decodes an entry of a document, where a record is a map and only the parameters may hold maps. -/
def ofDocument? (v : Value) : Option RuleEntry := do
  let fields ← v.fields?
  let fits (f : String × Value) : Bool :=
    if f.1 == "parameters" then f.2.depth ≤ maxParameterDepth else f.2.isFlat
  if fields.all fits then ofValue? (.map fields) else none

def toRule (e : RuleEntry) : Except RuleError Rule :=
  if Text.isBlankText e.id then .error .emptyId
  else
    match Matcher.ofParameters e.id e.matcherKind e.parameters with
    | .error error => .error error
    | .ok matcher =>
      let rule : Rule :=
        { id := e.id
          name := e.name.getD e.id
          category := e.category
          severity := e.severity.getD .medium
          severityFloor := e.severityFloor.getD .low
          matcher
          confidence := e.confidence.getD .medium
          message := e.message
          cweId := e.cweId
          owaspCategory := e.owaspCategory.filter fun c => !Text.isBlankText c
          remediation := e.remediation
          languages := e.languages }
      match rule.validate with
      | .error error => .error error
      | .ok _ => .ok rule

end RuleEntry

inductive LoadError where
  | unreadable (path : String)
  | malformed (origin : String)
  | invalid (origin : String) (error : RuleError)
  | duplicateId (id : String)
  deriving DecidableEq, Repr

def LoadError.message : LoadError → String
  | unreadable path => s!"I/O error reading rules from '{path}'"
  | malformed origin => s!"YAML parse error in '{origin}'"
  | invalid origin error => s!"invalid rule in '{origin}': " ++ error.message
  | duplicateId id => s!"duplicate rule id '{id}'"

namespace Rule

def repeatedId? (seen : List String) : List Rule → Option String
  | [] => none
  | r :: rest => if seen.contains r.id then some r.id else repeatedId? (r.id :: seen) rest

def checkDistinct (rules : List Rule) : Except LoadError Unit :=
  match repeatedId? [] rules with
  | some id => .error (.duplicateId id)
  | none => .ok ()

def isBlankFile (text : String) : Bool :=
  (Text.lines text).all fun line =>
    let line := Text.trim line
    line == "" || Text.startsWith "#" line

def load (text origin : String) : Except LoadError (List Rule) :=
  if isBlankFile text then .ok []
  else
    match Yaml.document? text >>= Value.listOf? RuleEntry.ofDocument? with
    | none => .error (.malformed origin)
    | some entries => do
      let rules ← entries.mapM fun e =>
        match e.toRule with
        | .ok rule => .ok rule
        | .error error => .error (.invalid origin error)
      checkDistinct rules
      return rules

end Rule
end TaintScan
