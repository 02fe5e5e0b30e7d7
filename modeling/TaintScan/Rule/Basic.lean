import TaintScan.Data.Keyed
import TaintScan.Language
import TaintScan.Rule.Matcher
import TaintScan.Rule.Scale

/-! # Rules

A rule says what to match and how to report it. A valid rule has an identifier, a floor that is not
above its severity, and, if its matches are reported, a category, a message and a weakness number.
-/
namespace TaintScan

inductive ShapeKind where
  | weakAlgorithm
  | forbiddenCall
  | insecureRandom
  | hardcodedSecret
  deriving DecidableEq, Repr

namespace ShapeKind

def all : List ShapeKind := [weakAlgorithm, forbiddenCall, insecureRandom, hardcodedSecret]

def code : ShapeKind → String
  | weakAlgorithm => "weak_algorithm"
  | forbiddenCall => "forbidden_call"
  | insecureRandom => "insecure_random"
  | hardcodedSecret => "hardcoded_secret"

def ofCode? (text : String) : Option ShapeKind := all.find? (·.code == text)

def listNames : ShapeKind → List String
  | weakAlgorithm => ["callees", "algorithms"]
  | forbiddenCall => ["callees"]
  | insecureRandom => ["callees", "context"]
  | hardcodedSecret => ["names"]

end ShapeKind

inductive ParameterFault where
  /-- A value of the wrong form, an unknown field or no shape. -/
  | undecodable
  | noTrigger
  | removesNothing
  | listNeeded (shape : ShapeKind)
  | foreignList (shape : ShapeKind)
  deriving DecidableEq, Repr

def ParameterFault.reason : ParameterFault → String
  | undecodable => "a value does not have the expected form"
  | noTrigger => "sink requires no label and has no syntactic trigger"
  | removesNothing => "sanitizer removes no label"
  | listNeeded shape =>
    shape.code ++ " needs a non-empty '" ++ shape.listNames.getLastD "" ++ "' list"
  | foreignList shape =>
    shape.code ++ " takes only " ++
      Text.joinWith " and " (shape.listNames.map fun name => "'" ++ name ++ "'")

inductive RuleError where
  | emptyId
  | unknownKind (rule kind : String)
  | invalidParameters (rule : String) (kind : MatcherKind) (fault : ParameterFault)
  | emptyCallees (rule : String)
  | floorAboveSeverity (rule : String) (floor severity : Severity)
  | missingField (rule field : String)
  deriving DecidableEq, Repr

def RuleError.message : RuleError → String
  | emptyId => "rule id must not be empty"
  | unknownKind rule kind => s!"unknown matcher kind '{kind}' for rule '{rule}'"
  | invalidParameters rule kind fault =>
    "invalid parameters for " ++ kind.code ++ " rule '" ++ rule ++ "': " ++ fault.reason
  | emptyCallees rule => s!"rule '{rule}' declares no callees"
  | floorAboveSeverity rule floor severity =>
    "severity floor " ++ floor.code ++ " is above base severity " ++ severity.code ++
      s!" for rule '{rule}'"
  | missingField rule field => s!"reportable rule '{rule}' is missing '{field}'"

/-- Names with their texts, each name once and in increasing order. -/
abbrev Bindings := List (String × String)

namespace Bindings

def ofList (pairs : List (String × String)) : Bindings := Keyed.ofList pairs

def erase (key : String) (bindings : Bindings) : Bindings := bindings.filter (·.1 != key)

def fill (bindings : Bindings) (template : String) : String :=
  bindings.foldl (fun out b => Text.replace out ("\x7b" ++ b.1 ++ "\x7d") b.2) template

end Bindings

structure Rule where
  id : String
  name : String
  category : Option Category := none
  severity : Severity := .medium
  severityFloor : Severity := .low
  matcher : Matcher
  confidence : Confidence := .medium
  message : String := ""
  cweId : Option String := none
  owaspCategory : Option String := none
  remediation : String := ""
  /-- None stands for every language. -/
  languages : List Language := []
  deriving DecidableEq, Repr

namespace Rule

def isReportable (r : Rule) : Bool :=
  match r.matcher with
  | .syntactic _ | .sink _ => true
  | .source _ | .sanitizer _ => false

def missingField? (r : Rule) : Option String :=
  if r.category.isNone then some "category"
  else if Text.isBlankText r.message then some "message"
  else if r.cweId.all Text.isBlankText then some "cwe_id"
  else none

def validate (r : Rule) : Except RuleError Unit :=
  if Text.isBlankText r.id then .error .emptyId
  else if r.severity.level < r.severityFloor.level then
    .error (.floorAboveSeverity r.id r.severityFloor r.severity)
  else if r.isReportable then
    match r.missingField? with
    | some field => .error (.missingField r.id field)
    | none => .ok ()
  else .ok ()

def appliesTo (r : Rule) (language : Language) : Bool :=
  r.languages.isEmpty || r.languages.contains language

/-- The message with its names filled in; a name without a text stays as it is written. -/
def renderMessage (r : Rule) (bindings : Bindings) : String := bindings.fill r.message

def text (r : Rule) : String :=
  r.id ++ " [" ++ r.severity.code ++ "] (" ++ r.matcher.kind.code ++ ")" ++
    (match r.category with
      | some category => " " ++ category.code
      | none => "")

/-- Replaces the base severity and takes the floor down with it. -/
def withSeverity (r : Rule) (severity : Severity) : Rule :=
  { r with severity, severityFloor := r.severityFloor.min severity }

end Rule
end TaintScan
