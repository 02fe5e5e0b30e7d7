import TaintScan.Countdown
import TaintScan.Extract.Unit
import TaintScan.Flow.Eval

/-! # Following labels through a unit

A scope starts with its own facts: none, or its parameters as untrusted if the scope can be reached from
outside. Of the facts of the scopes around it, it sees the secret ones. `SourceUnit.track` gives all
candidates in the order of discovery.
-/
namespace TaintScan

structure AnalysisOptions where
  /-- Parameters of functions that can be reached from outside are untrusted. -/
  seedEntryPoints : Bool := true
  /-- A path of more than one hop raises the severity. -/
  escalateMultiHop : Bool := true
  deriving DecidableEq, Repr

def routeAnnotations : List String :=
  ["GetMapping", "PostMapping", "PutMapping", "DeleteMapping", "PatchMapping", "RequestMapping",
    "Path", "GET", "POST", "PUT", "DELETE", "HttpGet", "HttpPost", "HttpPut", "HttpDelete", "Route",
    "route", "get", "post", "put", "delete", "patch", "api_view"]

def routers : List String := ["app", "router", "server", "api", "routes", "http", "mux"]

def Scope.isEntryPoint (s : Scope) (language : Language) : Bool :=
  let routed := s.annotations.any fun a => routeAnnotations.contains (Text.afterLast '.' a)
  let hidden := s.hasModifier "private" || s.hasModifier "protected" ||
    (language == .python && Text.startsWith "_" s.name)
  s.kind == .function && (routed || (s.parentKind != some .function && !hidden))

namespace Site

def reportTargetSinks (s : Site) (target : String) (value : Option ExprId) (t : Taint) :
    Track Unit := do
  if t.isTainted then
    let _ ← Track.each (fun (p : Rule × SinkSpec) =>
      if t.labels.intersects p.2.requires then
        s.emit p.1 s.span t target ((value.map s.describe).getD "")
      else return ()) (s.registry.sinksOfTarget target s.language)

def assign (s : Site) (st : Statement) (secretTargets : List String) (t : Taint) (target : String) :
    Track Unit := do
  s.reportTargetSinks target st.operands.head? t
  let facts := (← get).facts
  let base := if st.compound then ((s.lookup? facts target).getD .clean).join t else t
  let written :=
    if secretTargets.contains target then { base with labels := base.labels.insert .secret } else base
  if written.isTainted then
    let node ← s.define written.node
    Track.setFact target { written with node := some node }
  else Track.setFact target { written with node := none }

/-- The value comes first; the other operands are evaluated for what they reach. -/
def assignment (s : Site) (st : Statement) (secretTargets : List String) : Track Unit := do
  let taints ← Track.each s.eval st.operands
  let _ ← Track.each (s.assign st secretTargets (taints.headD .clean)) st.targets

def routesRequests (s : Site) (st : Statement) : Bool :=
  s.seed &&
    match st.operands.head? >>= s.arena.kind? with
    | some (.variable path) => routers.contains (Text.afterLast '.' path)
    | _ => false

/-- Binds the targets of a block: what is caught is secret, what a router passes is untrusted, and any
other block passes on its operands. -/
def openBlock (s : Site) (st : Statement) (kind : ControlKind) : Track Unit := do
  let operands := Taint.joinAll (← Track.each s.eval st.operands)
  if !st.targets.isEmpty then
    let bound ←
      if kind == .catchBody then pure (Taint.labelled (.of .secret) (← s.define none))
      else if kind == .lambda && s.routesRequests st then
        pure (Taint.labelled (.of .untrusted) (← s.define none))
      else if operands.isTainted then pure { operands with node := some (← s.define operands.node) }
      else pure .clean
    let _ ← Track.each (Track.setFact · bound) st.targets

def cleanArgument (s : Site) (removes : LabelSet) (arg : ExprId) : Track Unit := fun flow =>
  match s.arena.kind? arg with
  | some (.variable path) =>
    match flow.facts[factKey path]? with
    | some t => ((), { flow with facts := flow.facts.insert (factKey path) (t.remove removes) })
    | none => ((), flow)
  | _ => ((), flow)

/-- A full sanitizer that is called on its own cleans its variable arguments. -/
def sanitizeInPlace (s : Site) (call : ExprId) : Track Unit := do
  match s.arena.kind? call with
  | some (.call callee _ args constructs) =>
    match s.registry.sanitizerOfCall? callee constructs s.language with
    | some hit => if !hit.isPartial then let _ ← Track.each (s.cleanArgument hit.removes) args
    | none => return ()
  | _ => return ()

def expression (s : Site) (st : Statement) : Track Unit := do
  let _ ← Track.each s.eval st.operands
  if st.kind == .call then
    let _ ← Track.each s.sanitizeInPlace st.operands.head?.toList

def effect (s : Site) (st : Statement) (secretTargets : List String) : Track Unit :=
  match st.kind with
  | .unparsed | .controlClose => return ()
  | .controlOpen kind => s.openBlock st kind
  | .assignment | .declaration => s.assignment st secretTargets
  | .call | .expression => s.expression st

def atStatement (s : Site) (st : Statement) (flow : Flow) : Site :=
  { s with span := st.span, tag := st.controlTag, firstNode := flow.nodes.size }

def secretTarget? (m : ShapeMatch) : Option String :=
  match m.rule.matcher with
  | .syntactic (.hardcodedSecret _) => m.bindings.lookup "target"
  | _ => none

def statement (s : Site) (st : Statement) (flow : Flow) : Except UnknownExpr Flow :=
  let s := s.atStatement st flow
  match s.registry.matchShapes st s.arena s.language (s.context flow.facts) with
  | .error e => .error e
  | .ok found =>
    let flow := { flow with candidates := flow.candidates ++ (found.map Candidate.ofShape).toArray }
    .ok ((s.effect st (found.filterMap secretTarget?)).run flow).2

def seedParams (s : Site) : Track Unit := do
  if s.seed && s.scope.isEntryPoint s.language then
    let _ ← Track.each (fun (p : Param) => do
      let node ← Track.pushNode ⟨p.span, 0, none⟩
      modify fun flow =>
        { flow with facts := flow.facts.insert p.name (.labelled (.of .untrusted) node) }) s.scope.params

end Site

inductive AnalysisError where
  | unknownExpr (unitId scope : String) (cause : UnknownExpr)
  | cancelled (unitId : String) (statements : Nat)
  deriving DecidableEq, Repr

def AnalysisError.message : AnalysisError → String
  | unknownExpr unitId scope cause =>
    s!"internal invariant violated in '{unitId}', scope '{scope}': " ++ cause.message
  | cancelled unitId statements => s!"analysis of '{unitId}' cancelled after {statements} statements"

structure Progress where
  countdown : Countdown
  statements : Nat := 0

namespace Site

def walk (s : Site) : List Statement → Flow → Progress → Except AnalysisError Flow × Progress
  | [], flow, p => (.ok flow, p)
  | st :: rest, flow, p =>
    match p.countdown.poll with
    | (true, c) => (.error (.cancelled s.unit.id p.statements), { p with countdown := c })
    | (false, c) =>
      match s.statement st flow with
      | .error e => (.error (.unknownExpr s.unit.id s.scope.name e), { p with countdown := c })
      | .ok flow => s.walk rest flow ⟨c, p.statements + 1⟩

end Site

def enclosing (scopes : Array Scope) (index : Nat) : Nat → Option Nat → List Nat
  | 0, _ | _, none => []
  | fuel + 1, some p =>
    if p < index then p :: enclosing scopes index fuel (scopes[p]?.bind (·.parent)) else []

namespace SourceUnit

def trackFrom (u : SourceUnit) (x : ExtractedUnit) (registry : Registry) (options : AnalysisOptions) :
    List Scope → Array Facts → Flow → Progress → Except AnalysisError Flow × Progress
  | [], _, flow, p => (.ok flow, p)
  | scope :: rest, done, flow, p =>
    let index := done.size
    let s : Site :=
      { unit := u, arena := x.arena, registry, seed := options.seedEntryPoints, scope
        inherited := (enclosing x.scopes index index scope.parent).map fun i => done.getD i {} }
    let flow := (s.seedParams.run { flow with facts := {} }).2
    match s.walk scope.statements.toList flow p with
    | (.error e, p) => (.error e, p)
    | (.ok flow, p) => u.trackFrom x registry options rest (done.push flow.facts) flow p

def track (u : SourceUnit) (x : ExtractedUnit) (registry : Registry) (options : AnalysisOptions)
    (countdown : Countdown) : Except AnalysisError (List Candidate) × Countdown :=
  match u.trackFrom x registry options x.scopes.toList #[] {} ⟨countdown, 0⟩ with
  | (.error e, p) => (.error e, p.countdown)
  | (.ok flow, p) => (.ok flow.candidates.toList, p.countdown)

end SourceUnit
end TaintScan
