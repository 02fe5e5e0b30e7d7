import Std.Data.HashMap
import TaintScan.Rule.Label
import TaintScan.Source

/-! # Taints

A taint is what is known of a value: its labels, the definition that gave them last, and whether a
partial sanitizer has touched it. Definitions are nodes of one array per unit; a node points back to
the node that it took its value from, so a path leads from any node to its origin.
-/
namespace TaintScan

abbrev NodeId := Nat

structure Node where
  span : Span
  tag : Nat
  prev : Option NodeId
  deriving DecidableEq, Repr

structure Taint where
  labels : LabelSet := .empty
  node : Option NodeId := none
  adjacent : Bool := false
  deriving DecidableEq, Repr

namespace Taint

def clean : Taint := {}

def labelled (labels : LabelSet) (node : NodeId) : Taint := { labels, node := some node }

def isTainted (t : Taint) : Bool := !t.labels.isEmpty

/-- The labels of both; the node comes from the left one if that is tainted. -/
def join (a b : Taint) : Taint :=
  { labels := a.labels.union b.labels
    node := if a.isTainted then a.node else b.node
    adjacent := a.adjacent || b.adjacent }

def joinAll (taints : List Taint) : Taint := taints.foldl join clean

/-- Takes labels away; without labels there is no node. -/
def remove (t : Taint) (labels : LabelSet) : Taint :=
  let left := t.labels.without labels
  { t with labels := left, node := if left.isEmpty then none else t.node }

/-- What an enclosed scope sees of a fact: a secret one, and of it only that label. -/
def exported? (t : Taint) : Option Taint :=
  if t.labels.secret then some { t with labels := .of .secret } else none

end Taint

abbrev Facts := Std.HashMap String Taint

/-- A member of the current object has the fact of its plain name. -/
def factKey (path : String) : String :=
  (["this.", "self.", "$this."].findSome? (Text.dropHead? · path)).getD path

def segmentHeads : List String → List String
  | [] => []
  | [s] => [s]
  | s :: rest => s :: (segmentHeads rest).map fun t => s ++ "." ++ t

def pathHeads (path : String) : List String := (segmentHeads (Text.splitOn '.' path)).reverse

/-- The nodes from one node back to its origin. A link that does not go back ends the path. -/
def backFrom (nodes : Array Node) (id : NodeId) : List Node :=
  match nodes[id]? with
  | none => []
  | some n =>
    match n.prev with
    | none => [n]
    | some p => if _h : p < id then n :: backFrom nodes p else [n]
termination_by id

def pathTo (nodes : Array Node) (node : Option NodeId) : List Node :=
  match node with
  | some id => (backFrom nodes id).reverse
  | none => []

end TaintScan
