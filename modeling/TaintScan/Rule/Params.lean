import TaintScan.Rule.Basic

/-! # Typing matcher parameters

A matcher is read from its kind and a structured value. Fields may be missing, unknown fields are
refused, and no value is converted from one type to another.
-/
namespace TaintScan

namespace Value

def callees? (v : Value) : Option (List CalleePattern) :=
  v.listOf? fun item => item.text?.map CalleePattern.ofText

def texts? (v : Value) : Option (List String) := v.listOf? text?

def label? (v : Value) : Option Label := v.word? >>= Label.ofCode?

def labels? (v : Value) : Option LabelSet := (v.listOf? label?).map LabelSet.ofList

end Value

namespace Matcher

def source? (v : Value) : Option SourceSpec := do
  let fields ← v.record? ["callees", "paths", "label"]
  let callees ← readField? fields "callees" (some []) Value.callees?
  let paths ← readField? fields "paths" (some []) Value.texts?
  let label ← readField? fields "label" (some none) (Value.optional? Value.label?)
  return ⟨callees, paths, label.getD .untrusted⟩

def sink? (v : Value) : Option SinkSpec := do
  let fields ← v.record? ["callees", "targets", "args", "requires", "concatenation", "bare_unresolved"]
  let callees ← readField? fields "callees" (some []) Value.callees?
  let targets ← readField? fields "targets" (some []) Value.texts?
  let args ← readField? fields "args" (some []) (Value.listOf? Value.nat?)
  let requires ← readField? fields "requires" (some none) (Value.optional? Value.labels?)
  let concatenation ← readField? fields "concatenation" (some false) Value.bool?
  let bareUnresolved ← readField? fields "bare_unresolved" (some false) Value.bool?
  return ⟨callees, targets, args, requires.getD (.of .untrusted), concatenation, bareUnresolved⟩

def sanitizer? (v : Value) : Option SanitizerSpec := do
  let fields ← v.record? ["callees", "removes", "partial"]
  let callees ← readField? fields "callees" (some []) Value.callees?
  let removes ← readField? fields "removes" (some none) (Value.optional? Value.labels?)
  let isPartial ← readField? fields "partial" (some false) Value.bool?
  return ⟨callees, removes.getD (.of .untrusted), isPartial⟩

structure ShapeLists where
  shape : ShapeKind
  callees : List CalleePattern
  algorithms : List String
  context : List String
  names : List String

def shapeLists? (v : Value) : Option ShapeLists := do
  let fields ← v.record? ["shape", "callees", "algorithms", "context", "names"]
  let shape ← readField? fields "shape" none fun s => s.word? >>= ShapeKind.ofCode?
  let callees ← readField? fields "callees" (some []) Value.callees?
  let algorithms ← readField? fields "algorithms" (some []) Value.texts?
  let context ← readField? fields "context" (some []) Value.texts?
  let names ← readField? fields "names" (some []) Value.texts?
  return { shape, callees, algorithms, context, names }

def ShapeLists.fault? (p : ShapeLists) (id : String) : Option RuleError :=
  let invalid (fault : ParameterFault) : Option RuleError :=
    some (.invalidParameters id .syntactic fault)
  let needed : Bool :=
    match p.shape with
    | .weakAlgorithm => p.algorithms.isEmpty
    | .forbiddenCall => false
    | .insecureRandom => p.context.isEmpty
    | .hardcodedSecret => p.names.isEmpty
  let foreign : Bool :=
    match p.shape with
    | .weakAlgorithm => !p.context.isEmpty || !p.names.isEmpty
    | .forbiddenCall => !p.algorithms.isEmpty || !p.context.isEmpty || !p.names.isEmpty
    | .insecureRandom => !p.algorithms.isEmpty || !p.names.isEmpty
    | .hardcodedSecret => !p.callees.isEmpty || !p.algorithms.isEmpty || !p.context.isEmpty
  if p.shape != .hardcodedSecret && p.callees.isEmpty then some (.emptyCallees id)
  else if needed then invalid (.listNeeded p.shape)
  else if foreign then invalid (.foreignList p.shape)
  else none

def ShapeLists.toShape (p : ShapeLists) : Shape :=
  match p.shape with
  | .weakAlgorithm => .weakAlgorithm p.callees p.algorithms
  | .forbiddenCall => .forbiddenCall p.callees
  | .insecureRandom => .insecureRandom p.callees p.context
  | .hardcodedSecret => .hardcodedSecret p.names

def ofKind (id : String) (kind : MatcherKind) (v : Value) : Except RuleError Matcher :=
  let invalid (fault : ParameterFault) : Except RuleError Matcher :=
    .error (.invalidParameters id kind fault)
  match kind with
  | .source =>
    match source? v with
    | none => invalid .undecodable
    | some s =>
      if s.callees.isEmpty && s.paths.isEmpty then .error (.emptyCallees id) else .ok (.source s)
  | .sink =>
    match sink? v with
    | none => invalid .undecodable
    | some s =>
      if s.callees.isEmpty && s.targets.isEmpty then .error (.emptyCallees id)
      else if s.requires.isEmpty && !s.hasTrigger then invalid .noTrigger
      else .ok (.sink s)
  | .sanitizer =>
    match sanitizer? v with
    | none => invalid .undecodable
    | some s =>
      if s.callees.isEmpty then .error (.emptyCallees id)
      else if s.removes.isEmpty then invalid .removesNothing
      else .ok (.sanitizer s)
  | .syntactic =>
    match shapeLists? v with
    | none => invalid .undecodable
    | some p =>
      match p.fault? id with
      | some e => .error e
      | none => .ok (.syntactic p.toShape)

def ofParameters (id kind : String) (v : Value) : Except RuleError Matcher :=
  match MatcherKind.ofCode? kind with
  | none => .error (.unknownKind id kind)
  | some k =>
    match v with
    | .null => ofKind id k (.map [])
    | v => ofKind id k v

end Matcher
end TaintScan
