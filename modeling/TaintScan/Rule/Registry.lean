import TaintScan.Rule.Entry
import TaintScan.Rule.Evidence

/-! # The registry

The rules of a scan, in increasing order of their identifiers, with an index by matcher kind. A rule
is found by halving the ordered rules; all other questions go through the index and keep its order.
-/
namespace TaintScan

structure RuleIndex where
  sources : List (Rule × SourceSpec) := []
  sinks : List (Rule × SinkSpec) := []
  sanitizers : List (Rule × SanitizerSpec) := []
  /-- Shapes, and sinks that fire without a label. -/
  shaped : List Rule := []

namespace RuleIndex

def add (r : Rule) (index : RuleIndex) : RuleIndex :=
  match r.matcher with
  | .source spec => { index with sources := (r, spec) :: index.sources }
  | .sanitizer spec => { index with sanitizers := (r, spec) :: index.sanitizers }
  | .sink spec =>
    { index with
      sinks := (r, spec) :: index.sinks
      shaped := if spec.hasTrigger then r :: index.shaped else index.shaped }
  | .syntactic _ => { index with shaped := r :: index.shaped }

def ofRules (rules : List Rule) : RuleIndex := rules.foldr add {}

end RuleIndex

structure RuleFilter where
  disabled : List String := []
  disabledCategories : List Category := []
  severityOverrides : List (String × Severity) := []
  deriving DecidableEq, Repr

namespace RuleFilter

def keeps (f : RuleFilter) (r : Rule) : Bool :=
  !f.disabled.contains r.id && !r.category.any f.disabledCategories.contains

def override (f : RuleFilter) (r : Rule) : Rule :=
  match f.severityOverrides.lookup r.id with
  | some severity => r.withSeverity severity
  | none => r

end RuleFilter

structure Registry where
  rules : Array Rule := #[]
  index : RuleIndex := {}

structure SanitizerHit where
  rule : Rule
  /-- The removed labels; none if the sanitizer is partial. -/
  removes : LabelSet
  isPartial : Bool

namespace Registry

def ofOrdered (rules : List Rule) : Registry := ⟨rules.toArray, .ofRules rules⟩

def orderById (rules : List Rule) : List Rule := rules.mergeSort fun a b => !decide (b.id < a.id)

/-- The first invalid rule, if there is one; a rule is its own origin here. -/
def validateAll : List Rule → Except LoadError Unit
  | [] => .ok ()
  | r :: rest =>
    match r.validate with
    | .ok _ => validateAll rest
    | .error e => .error (.invalid r.id e)

def ofRules (rules : List Rule) : Except LoadError Registry := do
  validateAll rules
  let ordered := orderById rules
  Rule.checkDistinct ordered
  return ofOrdered ordered

def filtered (g : Registry) (f : RuleFilter) : Registry :=
  ofOrdered ((g.rules.toList.filter f.keeps).map f.override)

def size (g : Registry) : Nat := g.rules.size

def search (rules : Array Rule) (id : String) (lo hi : Nat) : Option Rule :=
  if _h : lo < hi then
    let mid := lo + (hi - lo) / 2
    match rules[mid]? with
    | none => none
    | some r =>
      if r.id == id then some r
      else if r.id < id then search rules id (mid + 1) hi
      else search rules id lo mid
  else none
termination_by hi - lo
decreasing_by all_goals omega

def get? (g : Registry) (id : String) : Option Rule := search g.rules id 0 g.rules.size

def sourceOfCall? (g : Registry) (callee : String) (constructs : Bool) (language : Language) :
    Option (Rule × Label) :=
  (g.index.sources.find? fun p => p.1.appliesTo language && p.2.matchesCall callee constructs).map
    fun p => (p.1, p.2.label)

def sourceOfPath? (g : Registry) (path : String) (language : Language) : Option (Rule × Label) :=
  (g.index.sources.find? fun p => p.1.appliesTo language && p.2.matchesPath path).map
    fun p => (p.1, p.2.label)

def sinksOfCall (g : Registry) (callee : String) (constructs : Bool) (language : Language) :
    List (Rule × SinkSpec) :=
  g.index.sinks.filter fun p => p.1.appliesTo language && p.2.matchesCall callee constructs

def sinksOfTarget (g : Registry) (target : String) (language : Language) : List (Rule × SinkSpec) :=
  g.index.sinks.filter fun p => p.1.appliesTo language && p.2.matchesTarget target

/-- What a call sanitizes. Full sanitizers together remove the union of their labels; a partial one
counts only if there is no full one. -/
def sanitizerOfCall? (g : Registry) (callee : String) (constructs : Bool) (language : Language) :
    Option SanitizerHit :=
  let hits := g.index.sanitizers.filter fun p =>
    p.1.appliesTo language && p.2.matchesCall callee constructs
  match hits.filter (!·.2.isPartial) with
  | (rule, spec) :: rest =>
    some ⟨rule, rest.foldl (fun labels p => labels.union p.2.removes) spec.removes, false⟩
  | [] => hits.head?.map fun p => ⟨p.1, .empty, true⟩

def matchShapes (g : Registry) (s : Statement) (a : ExprArena) (language : Language)
    (context : ShapeContext) : Except UnknownExpr (List ShapeMatch) :=
  matchStatement (g.index.shaped.filter (·.appliesTo language)) s a context

end Registry
end TaintScan
