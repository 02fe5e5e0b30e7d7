import TaintScan.Data.Value
import TaintScan.Rule.Label
import TaintScan.Rule.Name

/-! # Matchers

How a rule matches. Sources give a label to calls and paths, sinks must not receive a label,
sanitizers remove one, and shapes look at a statement without regard to labels. `Matcher.parameters`
writes out every parameter of a matcher.
-/
namespace TaintScan

inductive MatcherKind where
  | syntactic
  | source
  | sink
  | sanitizer
  deriving DecidableEq, Repr

namespace MatcherKind

def all : List MatcherKind := [syntactic, source, sink, sanitizer]

def code : MatcherKind → String
  | syntactic => "syntactic"
  | source => "source"
  | sink => "sink"
  | sanitizer => "sanitizer"

def ofCode? (text : String) : Option MatcherKind := all.find? (·.code == text)

end MatcherKind

structure SourceSpec where
  callees : List CalleePattern := []
  paths : List String := []
  label : Label := .untrusted
  deriving DecidableEq, Repr

structure SinkSpec where
  callees : List CalleePattern := []
  /-- Assignment targets, compared with the last segment of a path. -/
  targets : List String := []
  /-- The checked argument positions; none stands for every argument. -/
  args : List Nat := []
  requires : LabelSet := .of .untrusted
  /-- Fires also on a concatenated argument that holds a reference not proven clean. -/
  concatenation : Bool := false
  /-- Fires also on an argument that is a reference never defined. -/
  bareUnresolved : Bool := false
  deriving DecidableEq, Repr

structure SanitizerSpec where
  callees : List CalleePattern := []
  removes : LabelSet := .of .untrusted
  /-- Keeps the labels and only marks the value. -/
  isPartial : Bool := false
  deriving DecidableEq, Repr

inductive Shape where
  | weakAlgorithm (callees : List CalleePattern) (algorithms : List String)
  | forbiddenCall (callees : List CalleePattern)
  | insecureRandom (callees : List CalleePattern) (context : List String)
  | hardcodedSecret (names : List String)
  deriving DecidableEq, Repr

inductive Matcher where
  | syntactic (shape : Shape)
  | source (spec : SourceSpec)
  | sink (spec : SinkSpec)
  | sanitizer (spec : SanitizerSpec)
  deriving DecidableEq, Repr

namespace SourceSpec

def matchesCall (s : SourceSpec) (callee : String) (constructs : Bool) : Bool :=
  anyMatch s.callees callee constructs

def matchesPath (s : SourceSpec) (path : String) : Bool := s.paths.any (pathMatches · path)

end SourceSpec

namespace SinkSpec

def matchesCall (s : SinkSpec) (callee : String) (constructs : Bool) : Bool :=
  anyMatch s.callees callee constructs

def matchesTarget (s : SinkSpec) (target : String) : Bool :=
  s.targets.contains (Text.afterLast '.' target)

def checksArg (s : SinkSpec) (index : Nat) : Bool := s.args.isEmpty || s.args.contains index

def hasTrigger (s : SinkSpec) : Bool := s.concatenation || s.bareUnresolved

end SinkSpec

def SanitizerSpec.matchesCall (s : SanitizerSpec) (callee : String) (constructs : Bool) : Bool :=
  anyMatch s.callees callee constructs

namespace Matcher

def kind : Matcher → MatcherKind
  | syntactic _ => .syntactic
  | source _ => .source
  | sink _ => .sink
  | sanitizer _ => .sanitizer

def textValues (texts : List String) : Value := .list (texts.map .text)

def calleeValues (callees : List CalleePattern) : Value := textValues (callees.map (·.text))

def labelValues (labels : LabelSet) : Value := textValues (labels.toList.map (·.code))

def parameters : Matcher → Value
  | syntactic (.weakAlgorithm callees algorithms) =>
    .map [("shape", .text "weak_algorithm"), ("callees", calleeValues callees),
      ("algorithms", textValues algorithms)]
  | syntactic (.forbiddenCall callees) =>
    .map [("shape", .text "forbidden_call"), ("callees", calleeValues callees)]
  | syntactic (.insecureRandom callees context) =>
    .map [("shape", .text "insecure_random"), ("callees", calleeValues callees),
      ("context", textValues context)]
  | syntactic (.hardcodedSecret names) =>
    .map [("shape", .text "hardcoded_secret"), ("names", textValues names)]
  | source s =>
    .map [("callees", calleeValues s.callees), ("paths", textValues s.paths),
      ("label", .text s.label.code)]
  | sink s =>
    .map [("callees", calleeValues s.callees), ("targets", textValues s.targets),
      ("args", .list (s.args.map fun n => .int (.ofNat n))), ("requires", labelValues s.requires),
      ("concatenation", .bool s.concatenation), ("bare_unresolved", .bool s.bareUnresolved)]
  | sanitizer s =>
    .map [("callees", calleeValues s.callees), ("removes", labelValues s.removes),
      ("partial", .bool s.isPartial)]

end Matcher
end TaintScan
