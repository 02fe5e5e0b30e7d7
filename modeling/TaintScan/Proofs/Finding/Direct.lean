import TaintScan.Proofs.Finding.Merge
import TaintScan.Proofs.Flow.Direct

/-! # Direct flows are found once

As long as the fact of a parameter is the one that it was seeded with, a sink that checks an argument
built from the parameter is found, and found once: shapes that match at the same call, and other
arguments of it, are merged into the one finding.
-/
namespace TaintScan

/-- The fact of a parameter is the one that it was seeded with. -/
def Flow.Seeded (f : Flow) (p : Param) : Prop :=
  ∃ node, f.facts[p.name]? = some (.labelled (.of .untrusted) node) ∧ f.nodes[node]? = some ⟨p.span, 0, none⟩

theorem Site.seedParams_seeded {s : Site} (hseed : s.seed = true)
    (hentry : s.scope.isEntryPoint s.language = true) {before after : List Param} {p : Param}
    (hparams : s.scope.params = before ++ p :: after) (hlast : ∀ q ∈ after, q.name ≠ p.name) (f : Flow) :
    (s.seedParams f).2.Seeded p := by
  unfold seedParams
  rw [hseed, hentry, hparams]
  change (Track.each _ (before ++ p :: after) f).2.Seeded p
  clear hparams
  induction before generalizing f with
  | cons q rest ih => exact ih _
  | nil =>
    change (Track.each _ after
      { f with nodes := f.nodes.push ⟨p.span, 0, none⟩
               facts := f.facts.insert p.name (.labelled (.of .untrusted) f.nodes.size) }).2.Seeded p
    refine Track.each_inv (·.Seeded p) (fun q hq g hg => ?_)
      ⟨f.nodes.size, Std.HashMap.getElem?_insert_self, Array.getElem?_push_size⟩
    obtain ⟨node, hfact, hnode⟩ := hg
    refine ⟨node, ?_, nodesKept_push g.nodes _ _ _ hnode⟩
    change (g.facts.insert q.name _)[p.name]? = _
    rw [Std.HashMap.getElem?_insert, if_neg (by simpa using hlast q hq)]
    exact hfact

namespace SourceUnit

/-- In an extracted unit, under accepted rules: if a pass comes to a statement with the fact of a parameter
still its seed, and an operand holds a call that a sink rule for untrusted data matches, with a checked
argument that is a plain tree in which the parameter occurs, then the unit has exactly one finding of the
rule at the call, and its path is not empty. -/
theorem direct_flow_found_once {rules : List Rule} {g registry : Registry}
    (hrules : Registry.ofRules rules = .ok g) (filters : List RuleFilter)
    (hregistry : registry = filters.foldl Registry.filtered g) {u : SourceUnit} {bound : Nat}
    {countdown c : Countdown} {x : ExtractedUnit} (hx : u.extract bound countdown = (.ok x, c))
    {options : AnalysisOptions} {done : Array Facts} {scope : Scope} {k : Nat} {flow : Flow}
    (hr : u.Reaches x registry options done (.within scope k) flow) {st : Statement}
    (hst : scope.statements[k]? = some st) {p : Param} (hp : p ∈ scope.params) (hseed : flow.Seeded p)
    {operand call : ExprId} (hoperand : operand ∈ st.operands)
    (hcall : x.arena.Below (fun _ => true) call operand) {callee : String} {receiver : Option ExprId}
    {args : List ExprId} {constructs : Bool} {span : Span}
    (he : x.arena.exprs[call]? = some ⟨.call callee receiver args constructs, span⟩) {r : Rule}
    {spec : SinkSpec} (hsink : (r, spec) ∈ registry.sinksOfCall callee constructs u.language)
    (hrequires : spec.requires.contains .untrusted = true) {n : Nat} {arg : ExprId}
    (harg : args[n]? = some arg) (hchecked : spec.checksArg n = true) (hplain : x.arena.Plain arg)
    {var : ExprId} {path : String} (hvar : x.arena.kind? var = some (.variable path))
    (hoccurs : x.arena.Below (fun _ => true) var arg)
    (hpath : (u.siteIn x registry options done scope).ReadsFrom flow.facts p.name path) :
    ∃ findings f, u.analyze x registry options .never = (.ok findings, .never) ∧
      findings.filter (fun f => f.ruleId == r.id && f.location == .resolve u span) = [f] ∧
      1 ≤ f.path.length := by
  have hvalid : registry.Valid := by
    rw [hregistry]
    exact (Registry.ofRules_valid hrules).filtered_all filters
  have hrecorded := extract_recorded hx
  have hscope := hr.scope_eq
  let s := u.siteIn x registry options done scope
  -- The name of the parameter has no dots, so it is looked up as it is.
  have hname : '.' ∉ p.name.toList :=
    (List.forall₂_same.mp (extract_within hx).scopes scope
      (Array.mem_toList_iff.mpr (Array.mem_of_getElem? hscope))).paramNames p hp
  have hcarries : s.carries flow.facts .untrusted path = true := by
    obtain ⟨node, hfact, _⟩ := hseed
    rw [Site.carries, hpath.lookup? hname hfact]
    rfl
  -- A statement with an operand is not silent.
  have hsilent : st.kind.isSilent = false := by
    rw [← Bool.not_eq_true]
    intro hsilent
    have hidle := (extract_tree hx).silent hscope st (Array.mem_of_getElem? hst) hsilent
    rw [hidle.2] at hoperand
    cases hoperand
  obtain ⟨flow', hok⟩ := s.statement_ok hrecorded.sound (hr.operand_lt hrecorded hst) flow
  have htells : flow'.Tells r span :=
    (hr.settled hrecorded).statement_tells hrecorded hscope hst hsilent hoperand hcall he hsink hrequires
      harg hchecked hvar hcarries (hplain.feeds hoccurs .untrusted) hok
  obtain ⟨candidates, findings, htrack, hall, hanalyze⟩ := u.analyze_never_ok hrecorded hvalid options
  obtain ⟨m, hm, rfl, rfl, hpath⟩ := (hr.step hst hok).mem_track hrecorded htells htrack
  obtain ⟨f, hf, hlength⟩ := Candidate.filter_findings hall hm
  exact ⟨findings, f, hanalyze, hf, Nat.le_trans (List.length_pos_iff.mpr hpath) hlength⟩

end SourceUnit

/-! ## A parameter that is joined to a literal -/

namespace JoinedParam

def unit : SourceUnit :=
  { id := "a.py", language := .python
    content := (Text.Utf8.encode "def h(v):\n    run(\"x\" + v)\n").toArray }

/-- The sink `run` asks for untrusted data, and also matches joined arguments as such. -/
def run : Rule :=
  { id := "run", name := "run", category := some .codeInjection, message := "m", cweId := some "CWE-94"
    matcher := .sink { callees := [⟨"run", false⟩], concatenation := true } }

def statement : Statement := { kind := .call, operands := [3], span := ⟨14, 26⟩, controlTag := 0 }

def outermost : Scope := { kind := .module, name := "", headerSpan := ⟨0, 0⟩ }

def scope : Scope :=
  { kind := .function, name := "h", parent := some 0, parentKind := some .module, params := [⟨"v", ⟨6, 7⟩⟩]
    headerSpan := ⟨0, 9⟩, statements := #[statement] }

def extracted : ExtractedUnit :=
  { arena := ⟨#[⟨.literal .string "x", ⟨18, 21⟩⟩, ⟨.variable "v", ⟨24, 25⟩⟩, ⟨.concat [0, 1], ⟨18, 25⟩⟩,
      ⟨.call "run" none [2] false, ⟨14, 26⟩⟩], #[1, 1, 2, 3]⟩
    scopes := #[outermost, scope], stats := { statements := 1, scopes := 2 } }

theorem extract_unit : unit.extract 20 .never = (.ok extracted, .never) := by
  decide +kernel

theorem ofRules_run : Registry.ofRules [run] = .ok (.ofOrdered [run]) := by
  have hvalidate : run.validate = .ok () := by
    decide +kernel
  have horder : Registry.orderById [run] = [run] := List.mergeSort_singleton run
  simp only [Registry.ofRules, Registry.validateAll, hvalidate, horder]
  rfl

theorem direct_flow_found_once_joined :
    ∃ findings f, Registry.ofRules [run] = .ok (.ofOrdered [run]) ∧
      unit.analyze extracted (.ofOrdered [run]) {} .never = (.ok findings, .never) ∧
      findings.filter (fun f => f.ruleId == "run" && f.location == .resolve unit ⟨14, 26⟩) = [f] ∧
      1 ≤ f.path.length := by
  have hmodule : unit.Reaches extracted (.ofOrdered [run]) {} #[] (.within outermost 0) _ := .enter .start rfl
  have hleft : unit.Reaches extracted (.ofOrdered [run]) {} #[_] .between _ := hmodule.leave rfl
  have hreaches : unit.Reaches extracted (.ofOrdered [run]) {} #[_] (.within scope 0) _ := hleft.enter rfl
  have hentry : scope.isEntryPoint unit.language = true := by
    decide +kernel
  have hparams : scope.params = [] ++ ⟨"v", ⟨6, 7⟩⟩ :: [] := rfl
  have hseeded (done : Array Facts) (f : Flow) :
      ((unit.siteIn extracted (.ofOrdered [run]) {} done scope).seedParams f).2.Seeded ⟨"v", ⟨6, 7⟩⟩ :=
    Site.seedParams_seeded rfl hentry hparams (List.forall_mem_nil _) f
  have hplain : extracted.arena.Plain 2 := by
    refine .join rfl (Or.inl rfl) (List.forall_mem_cons.mpr ⟨.literal rfl, ?_⟩)
    exact List.forall_mem_singleton.mpr (.name rfl)
  have hoccurs : extracted.arena.Below (fun _ => true) 1 2 := .step rfl rfl (by decide) (.refl 1)
  have hsink : (run, { callees := [⟨"run", false⟩], concatenation := true }) ∈
      (Registry.ofOrdered [run]).sinksOfCall "run" false .python := by
    decide +kernel
  obtain ⟨findings, f, hanalyze, hfilter, hlength⟩ :=
    SourceUnit.direct_flow_found_once ofRules_run [] rfl extract_unit hreaches rfl List.mem_cons_self (hseeded _ _)
      List.mem_cons_self (.refl 3) rfl hsink rfl (n := 0) rfl (by decide) hplain rfl hoccurs (Or.inl rfl)
  exact ⟨findings, f, ofRules_run, hanalyze, hfilter, hlength⟩

end JoinedParam
end TaintScan
