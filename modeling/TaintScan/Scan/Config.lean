import TaintScan.Finding.Analysis

/-! # Configuration

A configuration is read from a document; a file is read as a layer, which leaves open what it does not
spell out. Layers are laid over the defaults one after the other: settings are replaced one by one,
lists grow by what is new, and severities are replaced per rule.
-/
namespace TaintScan

structure RuleSelection where
  disable : List String := []
  severityOverrides : List (String × Severity) := []
  disabledCategories : List Category := []
  extraRulePaths : List String := []
  deriving DecidableEq, Repr

structure AnalysisSettings where
  seedEntryPoints : Bool := true
  escalateMultiHop : Bool := true
  maxStatementsPerScope : Nat := defaultStatementBound
  deriving DecidableEq, Repr

structure ScanSettings where
  /-- Units are scanned side by side; the report does not depend on it. -/
  parallel : Bool := true
  maxUnitSizeKb : Nat := 1024
  deriving DecidableEq, Repr

structure Config where
  rules : RuleSelection := {}
  analysis : AnalysisSettings := {}
  scan : ScanSettings := {}
  deriving DecidableEq, Repr

structure ConfigLayer where
  rules : RuleSelection := {}
  seedEntryPoints : Option Bool := none
  escalateMultiHop : Option Bool := none
  maxStatementsPerScope : Option Nat := none
  parallel : Option Bool := none
  maxUnitSizeKb : Option Nat := none
  deriving DecidableEq, Repr

def unite (same : α → α → Bool) (base items : List α) : List α :=
  items.foldl (fun done item => if done.any (same · item) then done else done ++ [item]) base

/-- The components of a path. Empty segments and single dots are none, but a dot at the front of a
relative path is. -/
def pathParts (path : String) : List String :=
  let segments := Text.splitOn '/' path
  let kept := segments.filter fun segment => segment != "" && segment != "."
  if Text.startsWith "/" path then "/" :: kept
  else if segments.head? == some "." then "." :: kept
  else kept

def samePath (a b : String) : Bool := pathParts a == pathParts b

namespace RuleSelection

def merge (base overlay : RuleSelection) : RuleSelection :=
  { disable := unite (· == ·) base.disable overlay.disable
    severityOverrides := Keyed.extend base.severityOverrides overlay.severityOverrides
    disabledCategories := unite (· == ·) base.disabledCategories overlay.disabledCategories
    extraRulePaths := unite samePath base.extraRulePaths overlay.extraRulePaths }

def filter (s : RuleSelection) : RuleFilter :=
  { disabled := (s.disable.eraseDups).mergeSort fun a b => !decide (b < a)
    disabledCategories := Category.all.filter s.disabledCategories.contains
    severityOverrides := s.severityOverrides }

end RuleSelection

def AnalysisSettings.options (s : AnalysisSettings) : AnalysisOptions :=
  ⟨s.seedEntryPoints, s.escalateMultiHop⟩

def ConfigLayer.apply (layer : ConfigLayer) (base : Config) : Config :=
  { rules := base.rules.merge layer.rules
    analysis :=
      { seedEntryPoints := layer.seedEntryPoints.getD base.analysis.seedEntryPoints
        escalateMultiHop := layer.escalateMultiHop.getD base.analysis.escalateMultiHop
        maxStatementsPerScope :=
          layer.maxStatementsPerScope.getD base.analysis.maxStatementsPerScope }
    scan :=
      { parallel := layer.parallel.getD base.scan.parallel
        maxUnitSizeKb := layer.maxUnitSizeKb.getD base.scan.maxUnitSizeKb } }

def Config.ofLayers (layers : List ConfigLayer) : Config :=
  layers.foldl (fun config layer => layer.apply config) {}

/-- A whole configuration over another one: its settings replace all settings. -/
def Config.withOverrides (base overlay : Config) : Config :=
  { rules := base.rules.merge overlay.rules, analysis := overlay.analysis, scan := overlay.scan }

namespace Value

/-- The known fields of a section, each at most once; other fields count for nothing. -/
def section? (names : List String) (v : Value) : Option (List (String × Value)) :=
  (v.fields?.map (·.filter fun f => names.contains f.1)).filter distinctKeys

def severityOf? (f : String × Value) : Option (String × Severity) :=
  (f.2.text? >>= Severity.ofCode?).map (f.1, ·)

def ruleSelection? (v : Value) : Option RuleSelection := do
  let fields ← v.section? ["disable", "severity_overrides", "disabled_categories", "extra_rule_paths"]
  let disable ← readField? fields "disable" (some []) texts?
  let overrides ← readField? fields "severity_overrides" (some []) fun m =>
    m.fields? >>= (·.mapM severityOf?)
  let categories ← readField? fields "disabled_categories" (some [])
    (listOf? fun c => c.text? >>= Category.ofCode?)
  let paths ← readField? fields "extra_rule_paths" (some []) texts?
  return ⟨disable, Keyed.ofList overrides, categories, paths⟩

/-- A layer; `setting?` says what a setting may be beside a value of its type. -/
def layer? (setting? : {α : Type} → (Value → Option α) → Value → Option (Option α)) (v : Value) :
    Option ConfigLayer := do
  let fields ← v.section? ["rules", "analysis", "scan"]
  let rules ← readField? fields "rules" (some {}) ruleSelection?
  let analysis ← readField? fields "analysis" (some [])
    (section? ["seed_entry_points", "escalate_multi_hop", "max_statements_per_scope"])
  let seed ← readField? analysis "seed_entry_points" (some none) (setting? bool?)
  let escalate ← readField? analysis "escalate_multi_hop" (some none) (setting? bool?)
  let statements ← readField? analysis "max_statements_per_scope" (some none) (setting? nat?)
  let scan ← readField? fields "scan" (some []) (section? ["parallel", "max_unit_size_kb"])
  let parallel ← readField? scan "parallel" (some none) (setting? bool?)
  let size ← readField? scan "max_unit_size_kb" (some none) (setting? nat?)
  return ⟨rules, seed, escalate, statements, parallel, size⟩

end Value

def ConfigLayer.parse? (text : String) : Option ConfigLayer :=
  Yaml.document? text >>= Value.layer? Value.optional?

/-- Reads a whole configuration; here no setting may be null. -/
def Config.parse? (text : String) : Option Config :=
  (Yaml.document? text >>= Value.layer? fun value? v => (value? v).map some).map fun layer =>
    { layer.apply {} with rules := layer.rules }

end TaintScan
