import TaintScan.Rule.Basic

/-! # Writing rules down

The rules that come with the library are plain data. Their callees are written as in a rule file. The sink
rules of one weakness differ in the language, the calls and the advice.
-/
namespace TaintScan.Builtin

def patterns (callees : List String) : List CalleePattern := callees.map CalleePattern.ofText

structure Weakness where
  slug : String
  category : Category
  severity : Severity := .critical
  severityFloor : Severity := .high
  message : String
  cweId : String
  owaspCategory : String := "A03:2021-Injection"
  sink : SinkSpec := {}

/-- A sink rule for some calls. -/
def Weakness.rule (w : Weakness) (variant name : String) (callees : List String) (args : List Nat)
    (remediation : String) (languages : List Language) : Rule :=
  { id := "vigil/" ++ w.slug ++ "/" ++ variant
    name := name
    category := some w.category
    severity := w.severity
    severityFloor := w.severityFloor
    matcher := .sink { w.sink with callees := patterns callees, args := args }
    message := w.message
    cweId := some w.cweId
    owaspCategory := some w.owaspCategory
    remediation := remediation
    languages := languages }

end TaintScan.Builtin
