import TaintScan.Rule.Builtin
import TaintScan.Scan.Config

/-! # Files

A file tree holds the files below one root directory. A path is looked up segment by segment: one dot
stays where it is, two dots go up, and only a directory can be entered. Rules are loaded from a file
or from all rule files of a directory, and configuration from the files of its two layers.
-/
namespace TaintScan

structure FileTree where
  root : String
  files : List (List String × List UInt8) := []
  /-- Directories that exist whether they hold a file or not. -/
  dirs : List (List String) := []

def joinPath (dir path : String) : String :=
  if Text.startsWith "/" path then path
  else if Text.endsWith "/" dir then dir ++ path
  else dir ++ "/" ++ path

namespace FileTree

def isDir (t : FileTree) (place : List String) : Bool :=
  place.isEmpty || t.dirs.any (place.isPrefixOf ·) ||
    t.files.any fun f => place.isPrefixOf f.1 && place.length < f.1.length

def content? (t : FileTree) (place : List String) : Option (List UInt8) := t.files.lookup place

def step (t : FileTree) (place : List String) (segment : String) : Option (List String) :=
  if !t.isDir place then none
  else if segment == "" || segment == "." then some place
  else if segment == ".." then if place.isEmpty then none else some place.dropLast
  else some (place ++ [segment])

def resolve? (t : FileTree) (path : String) : Option (List String) :=
  if path == t.root then some []
  else (Text.dropHead? (t.root ++ "/") path).bind fun rest =>
    (Text.splitOn '/' rest).foldlM t.step []

def segmentsBefore : List String → List String → Bool
  | [], _ => true
  | _ :: _, [] => false
  | a :: as, b :: bs => decide (a < b) || (a == b && segmentsBefore as bs)

/-- The files below a directory, in the order of their names level by level, by their relative path. -/
def filesBelow (t : FileTree) (dir : List String) : List (List String) :=
  ((t.files.filter fun f => dir.isPrefixOf f.1 && dir.length < f.1.length).map fun f =>
    f.1.drop dir.length).mergeSort segmentsBefore

def isRuleFile (name : String) : Bool :=
  match Language.pathExtension? name with
  | some ext => ext == "yaml" || ext == "yml"
  | none => false

def loadFile (t : FileTree) (path : String) : Except LoadError (List Rule) :=
  match t.resolve? path >>= t.content? >>= Text.Utf8.decode? with
  | some text => Rule.load text path
  | none => .error (.unreadable path)

/-- The rules of a file, or of all rule files below a directory, then in the order of their
identifiers. -/
def loadRules (t : FileTree) (path : String) : Except LoadError (List Rule) :=
  match (t.resolve? path).filter t.isDir with
  | none => t.loadFile path
  | some dir => do
    let names := (t.filesBelow dir).filter fun f => isRuleFile (f.getLastD "")
    let loaded ← names.mapM fun f => t.loadFile (f.foldl joinPath path)
    Rule.checkDistinct loaded.flatten
    return Registry.orderById loaded.flatten

def registry (t : FileTree) (paths : List String) : Except LoadError Registry := do
  let loaded ← paths.mapM t.loadRules
  Registry.withExtra loaded.flatten

def configName : String := ".vigil.yaml"

/-- The layer in a directory, if it holds a configuration file. Rule paths in it are relative to the
directory. -/
def configLayer? (t : FileTree) (dir : String) : Option (Option ConfigLayer) :=
  match t.resolve? (joinPath dir configName) >>= t.content? with
  | none => some none
  | some bytes => do
    let layer ← Text.Utf8.decode? bytes >>= ConfigLayer.parse?
    let paths := layer.rules.extraRulePaths.map (joinPath dir)
    return some { layer with rules := { layer.rules with extraRulePaths := paths } }

def loadConfig? (t : FileTree) (dirs : List String) : Option Config := do
  let layers ← dirs.mapM t.configLayer?
  return Config.ofLayers (layers.filterMap id)

end FileTree
end TaintScan
