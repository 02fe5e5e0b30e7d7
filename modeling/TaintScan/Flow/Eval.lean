import TaintScan.Flow.Candidate
import TaintScan.Flow.Taint
import TaintScan.Rule.Registry

/-! # Evaluating an expression

Sources introduce labels, calls pass on the labels of their receiver and arguments, full sanitizers
remove labels and partial ones mark the value. On the way a call of a sink with a labelled argument
becomes a candidate, and a method that stores into its receiver taints it.
-/
namespace TaintScan

structure Site where
  unit : SourceUnit
  arena : ExprArena
  registry : Registry
  /-- Parameters and callbacks that take requests are untrusted. -/
  seed : Bool
  scope : Scope
  inherited : List Facts
  span : Span := ⟨0, 0⟩
  tag : Nat := 0
  firstNode : NodeId := 0

structure Flow where
  facts : Facts := {}
  nodes : Array Node := #[]
  candidates : Array Candidate := #[]

abbrev Track := StateM Flow

namespace Track

def each (f : α → Track β) : List α → Track (List β)
  | [] => return []
  | a :: rest => do
    let b ← f a
    return b :: (← each f rest)

def pushNode (n : Node) : Track NodeId := fun flow =>
  (flow.nodes.size, { flow with nodes := flow.nodes.push n })

def setFact (path : String) (t : Taint) : Track Unit := fun flow =>
  ((), { flow with facts := flow.facts.insert (factKey path) t })

def report (c : Candidate) : Track Unit := fun flow =>
  ((), { flow with candidates := flow.candidates.push c })

end Track

def mutators : List String :=
  ["add", "addAll", "append", "extend", "insert", "push", "put", "putAll", "setdefault", "unshift",
    "update", "offer", "Add", "AddRange", "Insert", "Push", "Append"]

def maxNameLength : Nat := 40

namespace Site

def language (s : Site) : Language := s.unit.language

/-- The fact of a path or of the longest path above it, in the scope or else around it. -/
def lookup? (s : Site) (facts : Facts) (path : String) : Option Taint :=
  (pathHeads (factKey path)).findSome? fun key =>
    facts[key]? <|> s.inherited.findSome? fun outer => outer[key]? >>= Taint.exported?

def isSourcePath (s : Site) (path : String) : Bool :=
  (s.registry.sourceOfPath? path s.language).isSome

def context (s : Site) (facts : Facts) : ShapeContext where
  isClean path := !s.isSourcePath path && (s.lookup? facts path).any (!·.isTainted)
  isUnresolved path := !s.isSourcePath path && (s.lookup? facts path).isNone
  scopeName := s.scope.name

/-- A definition at this statement. Nodes of the same statement are folded into it. -/
def define (s : Site) (prev : Option NodeId) : Track NodeId := do
  let nodes := (← get).nodes
  let prev :=
    match prev with
    | some id => if s.firstNode ≤ id then nodes[id]?.bind (·.prev) else some id
    | none => none
  Track.pushNode ⟨s.span, s.tag, prev⟩

def describe (s : Site) (id : ExprId) : String :=
  match s.arena.exprs[id]? with
  | none => ""
  | some e =>
    match e.kind with
    | .variable path => path
    | .call callee _ _ _ => callee ++ "()"
    | _ =>
      let text := Text.joinWith " " (Text.words (s.unit.text e.span))
      if maxNameLength < text.length then String.ofList (text.toList.take maxNameLength) ++ "..."
      else text

/-- The candidate of a sink that a taint reaches. It is less certain if the way crosses control
blocks. -/
def sinkCandidate (s : Site) (nodes : Array Node) (r : Rule) (span : Span) (t : Taint)
    (callee name : String) : Candidate :=
  let path := pathTo nodes t.node
  let tags := ((path.map (·.tag) ++ [s.tag]).filter (· != 0)).eraseDups
  { rule := r
    span := span
    path := path.map (·.span)
    confidence := if 1 < tags.length then .medium else .high
    adjacent := t.adjacent
    bindings := .ofList [("callee", callee), ("name", name)]
    detail := (path.head?.map fun origin =>
      t.labels.text ++ " data from line " ++ toString (s.unit.lines.position origin.span.start).1).toList }

def emit (s : Site) (r : Rule) (span : Span) (t : Taint) (callee name : String) : Track Unit := do
  let nodes := (← get).nodes
  Track.report (s.sinkCandidate nodes r span t callee name)

def read (s : Site) (path : String) (span : Span) : Track Taint := do
  let known := (s.lookup? (← get).facts path).getD .clean
  match s.registry.sourceOfPath? path s.language with
  | some (_, label) =>
    let node ← Track.pushNode ⟨span, s.tag, none⟩
    return (Taint.labelled (.of label) node).join known
  | none => return known

def storeInto (s : Site) (receiver : ExprId) (value : Taint) : Track Unit := do
  match s.arena.kind? receiver with
  | some (.variable path) =>
    let stored := ((s.lookup? (← get).facts path).getD .clean).join value
    let node ← s.define stored.node
    Track.setFact path { stored with node := some node }
  | _ => return ()

def sinkHit? (spec : SinkSpec) (args : List (ExprId × Taint)) : Option (ExprId × Taint) :=
  (args.zipIdx.find? fun p => spec.checksArg p.2 && p.1.2.labels.intersects spec.requires).map (·.1)

def reportSinks (s : Site) (span : Span) (callee : String) (constructs : Bool)
    (args : List (ExprId × Taint)) : Track Unit := do
  let _ ← Track.each (fun (p : Rule × SinkSpec) =>
    match sinkHit? p.2 args with
    | some (arg, t) => s.emit p.1 span t callee (s.describe arg)
    | none => return ()) (s.registry.sinksOfCall callee constructs s.language)

/-- The taint of a call's result: what went in, with the label of a source or less the labels of a
sanitizer. -/
def callResult (s : Site) (span : Span) (callee : String) (constructs : Bool) (input : Taint) :
    Track Taint := do
  match s.registry.sourceOfCall? callee constructs s.language with
  | some (_, label) =>
    let node ← Track.pushNode ⟨span, s.tag, none⟩
    return (Taint.labelled (.of label) node).join input
  | none =>
    match s.registry.sanitizerOfCall? callee constructs s.language with
    | some hit =>
      if hit.isPartial then return { input with adjacent := input.adjacent || input.isTainted }
      else return input.remove hit.removes
    | none => return input

def evalTo (s : Site) : Nat → ExprId → Track Taint
  | 0, _ => return .clean
  | fuel + 1, id => do
    match s.arena.exprs[id]? with
    | none => return .clean
    | some e =>
      match e.kind with
      | .literal _ _ => return .clean
      | .variable path => s.read path e.span
      | .concat parts | .compound parts => return .joinAll (← Track.each (evalTo s fuel) parts)
      | .call callee receiver args constructs =>
        let receiverTaints ← Track.each (evalTo s fuel) receiver.toList
        let taints ← Track.each (evalTo s fuel) args
        s.reportSinks e.span callee constructs (args.zip taints)
        let fromArgs := Taint.joinAll taints
        if fromArgs.isTainted && mutators.contains (Text.afterLast '.' callee) then
          let _ ← Track.each (s.storeInto · fromArgs) receiver.toList
        s.callResult e.span callee constructs ((Taint.joinAll receiverTaints).join fromArgs)

/-- No expression is deeper than the arena is large. -/
def eval (s : Site) (id : ExprId) : Track Taint := s.evalTo (s.arena.size + 1) id

end Site
end TaintScan
