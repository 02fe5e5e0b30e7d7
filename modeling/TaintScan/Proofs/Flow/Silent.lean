import TaintScan.Proofs.Flow.Dangling
import TaintScan.Proofs.Flow.Frame

/-! # Clean statements reach no sink

No sink is reported for a statement under whose operands no call is a source and every variable is known
to be clean: evaluation finds no label and changes nothing, and the paths that speak for a sink are
those of variables under the operands.
-/
namespace TaintScan

/-! ## Evidence without a label -/

/-- Every variable under some operands is known to be clean. -/
def ShapeContext.KnowsClean (context : ShapeContext) (a : ExprArena) (ids : List ExprId) : Prop :=
  ∀ var path, a.Under ids var → a.kind? var = some (.variable path) →
    context.isClean path = true ∧ context.isUnresolved path = false

section

variable {a : ExprArena} {ids : List ExprId} {context : ShapeContext}

theorem ExprArena.Under.of_kind? {id c : ExprId} {kind : ExprKind} (h : a.Under ids id)
    (hkind : a.kind? id = some kind) (hc : ∀ span, c ∈ Expr.children ⟨kind, span⟩) : a.Under ids c := by
  obtain ⟨⟨kind', span⟩, he, rfl⟩ := Option.map_eq_some_iff.mp hkind
  exact h.child he (hc span)

theorem ExprArena.Under.exists_variable {id : ExprId} {path : String} (h : a.Under ids id)
    (hpath : a.referencePath? id = some path) :
    ∃ var, a.Under ids var ∧ a.kind? var = some (.variable path) := by
  unfold ExprArena.referencePath? at hpath
  split at hpath
  · next hkind =>
    cases hpath
    exact ⟨id, h, hkind⟩
  · next base rest hkind =>
    split at hpath
    · next hbase =>
      cases hpath
      exact ⟨base, h.of_kind? hkind fun _ => List.mem_cons_self, hbase⟩
    · cases hpath
  · cases hpath

theorem SinkSpec.argEvidence?_eq_none (spec : SinkSpec) (hclean : context.KnowsClean a ids) {arg : ExprId}
    (harg : a.Under ids arg) : spec.argEvidence? a context arg = none := by
  unfold SinkSpec.argEvidence?
  split
  · next parts hkind =>
    split
    · rw [Option.map_eq_none_iff, List.findSome?_eq_none_iff]
      intro part hpart
      cases hpath : a.referencePath? part with
      | none => rfl
      | some path =>
        have hunder : a.Under ids part := harg.of_kind? hkind fun _ => hpart
        obtain ⟨var, hvar, hkind⟩ := hunder.exists_variable hpath
        simp [Option.filter, (hclean var path hvar hkind).1]
    · rfl
  · next path hkind => simp [(hclean arg path harg hkind).2]
  · rfl

theorem SinkSpec.evidenceIn_eq_nil (spec : SinkSpec) (hclean : context.KnowsClean a ids) (r : Rule)
    {calls : List CallSite}
    (hcalls : ∀ c ∈ calls, ∃ id e, a.Under ids id ∧ a.exprs[id]? = some e ∧ e.callSite? = some c) :
    spec.evidenceIn r a calls context = [] := by
  unfold SinkSpec.evidenceIn
  rw [List.filterMap_eq_nil_iff]
  intro c hc
  obtain ⟨id, ⟨kind, span⟩, hid, he, hsite⟩ := hcalls c (List.mem_filter.mp hc).1
  rw [Option.map_eq_none_iff, List.findSome?_eq_none_iff]
  intro arg harg
  obtain ⟨p, hp, rfl⟩ := List.mem_map.mp harg
  have hmem : p.1 ∈ c.args := (List.mem_zipIdx' (List.mem_filter.mp hp).1).2 ▸ List.getElem_mem _
  refine spec.argEvidence?_eq_none hclean (hid.child he ?_)
  cases kind with
  | call callee receiver args constructs =>
    cases hsite
    exact List.mem_append_right _ hmem
  | _ => cases hsite

theorem Registry.syntactic_of_mem_matchShapes {g : Registry} {st : Statement}
    (hclean : context.KnowsClean a st.operands) {language : Language} {found : List ShapeMatch}
    (h : g.matchShapes st a language context = .ok found) {m : ShapeMatch} (hm : m ∈ found) :
    ∃ shape, m.rule.matcher = .syntactic shape := by
  unfold Registry.matchShapes matchStatement at h
  split at h
  · cases h
    cases hm
  · split at h
    · cases h
    · next calls hcalls =>
      cases h
      obtain ⟨r, _, hm⟩ := List.mem_flatMap.mp hm
      rw [Rule.rule_of_mem_matchesIn hm]
      unfold Rule.matchesIn at hm
      split at hm
      · next shape hmatcher => exact ⟨shape, hmatcher⟩
      · next spec _ =>
        rw [spec.evidenceIn_eq_nil hclean r fun c hc => ExprArena.under_of_mem_callsIn hcalls hc] at hm
        simp at hm
      · cases hm

end

/-! ## Values without labels -/

namespace Taint

theorem isTainted_joinAll (taints : List Taint) : (joinAll taints).isTainted = taints.any isTainted := by
  have hfold (start : Taint) : (taints.foldl join start).isTainted = (start.isTainted || taints.any isTainted) := by
    induction taints generalizing start with
    | nil => simp
    | cons t rest ih => rw [List.foldl_cons, ih, isTainted_join, List.any_cons, Bool.or_assoc]
  exact hfold clean

theorem isTainted_joinAll_eq_false {taints : List Taint} (h : ∀ t ∈ taints, t.isTainted = false) :
    (joinAll taints).isTainted = false := by
  rw [isTainted_joinAll, List.any_eq_false]
  intro t ht
  simp [h t ht]

theorem intersects_eq_false {t : Taint} (h : t.isTainted = false) (labels : LabelSet) :
    t.labels.intersects labels = false := by
  simp_all [isTainted, LabelSet.isEmpty, LabelSet.intersects]

theorem isTainted_remove {t : Taint} (h : t.isTainted = false) (labels : LabelSet) :
    (t.remove labels).isTainted = false := by
  simp_all [isTainted, remove, LabelSet.isEmpty, LabelSet.without]

end Taint

namespace Site

variable {s : Site} {st : Statement} {ids : List ExprId} {f : Flow}

/-- No call under some operands is a source, and every variable under them is no source and is looked up
without a label. -/
structure ProvenClean (s : Site) (facts : Facts) (ids : List ExprId) : Prop where
  call : ∀ id callee receiver args constructs, s.arena.Under ids id →
    s.arena.kind? id = some (.call callee receiver args constructs) →
    s.registry.sourceOfCall? callee constructs s.language = none
  «variable» : ∀ id path, s.arena.Under ids id → s.arena.kind? id = some (.variable path) →
    s.isSourcePath path = false ∧ ∃ t, s.lookup? facts path = some t ∧ t.isTainted = false

theorem ProvenClean.knowsClean {facts : Facts} (h : s.ProvenClean facts ids) :
    (s.context facts).KnowsClean s.arena ids := by
  intro var path hvar hkind
  obtain ⟨hsource, t, hlookup, hclean⟩ := h.variable var path hvar hkind
  simp [context, hsource, hlookup, hclean]

theorem sinkHit?_of_untainted (spec : SinkSpec) {args : List (ExprId × Taint)}
    (h : ∀ p ∈ args, p.2.isTainted = false) : sinkHit? spec args = none := by
  unfold sinkHit?
  rw [Option.map_eq_none_iff, List.find?_eq_none]
  intro p hp
  have hmem : p.1 ∈ args := (List.mem_zipIdx' hp).2 ▸ List.getElem_mem _
  simp [Taint.intersects_eq_false (h p.1 hmem)]

theorem read_of_clean {path : String} {t : Taint} (hsource : s.isSourcePath path = false)
    (hlookup : s.lookup? f.facts path = some t) (span : Span) : s.read path span f = (t, f) := by
  have hnone : s.registry.sourceOfPath? path s.language = none := by simpa [isSourcePath] using hsource
  rw [read_apply, hnone, hlookup]
  rfl

theorem callResult_of_untainted {callee : String} {constructs : Bool} {input : Taint}
    (hsource : s.registry.sourceOfCall? callee constructs s.language = none) (hinput : input.isTainted = false)
    (span : Span) (f : Flow) :
    ∃ t, t.isTainted = false ∧ s.callResult span callee constructs input f = (t, f) := by
  rw [callResult_apply, hsource]
  cases s.registry.sanitizerOfCall? callee constructs s.language with
  | none => exact ⟨input, hinput, rfl⟩
  | some hit =>
    refine ⟨_, ?_, rfl⟩
    split
    · exact hinput
    · exact Taint.isTainted_remove hinput hit.removes

theorem finish_of_clean (h : s.ProvenClean f.facts ids) {id : ExprId} {e : Expr} (hid : s.arena.Under ids id)
    (he : s.arena.exprs[id]? = some e) {taints : List Taint} (ht : ∀ t ∈ taints, t.isTainted = false) :
    (s.finish e taints f).2 = f ∧ (s.finish e taints f).1.isTainted = false := by
  have hkind : s.arena.kind? id = some e.kind := by rw [ExprArena.kind?, he, Option.map_some]
  obtain ⟨kind, span⟩ := e
  cases kind with
  | literal kind value => exact ⟨rfl, rfl⟩
  | concat parts => exact ⟨rfl, Taint.isTainted_joinAll_eq_false ht⟩
  | compound parts => exact ⟨rfl, Taint.isTainted_joinAll_eq_false ht⟩
  | «variable» path =>
    obtain ⟨hsource, t, hlookup, hclean⟩ := h.variable id path hid hkind
    dsimp only [finish]
    rw [read_of_clean hsource hlookup]
    exact ⟨rfl, hclean⟩
  | call callee receiver args constructs =>
    have hreceivers := Taint.isTainted_joinAll_eq_false fun t hmem =>
      ht t (List.mem_of_mem_take (i := receiver.toList.length) hmem)
    have hargs := Taint.isTainted_joinAll_eq_false fun t hmem =>
      ht t (List.mem_of_mem_drop (i := receiver.toList.length) hmem)
    have hunhit (spec : SinkSpec) :
        sinkHit? spec (args.zip (taints.drop receiver.toList.length)) = none :=
      sinkHit?_of_untainted spec fun p hp => ht p.2 (List.mem_of_mem_drop (List.of_mem_zip hp).2)
    have hinput : ((Taint.joinAll (taints.take receiver.toList.length)).join
        (.joinAll (taints.drop receiver.toList.length))).isTainted = false := by
      rw [Taint.isTainted_join, hreceivers, hargs, Bool.or_false]
    obtain ⟨t, hclean, hresult⟩ :=
      callResult_of_untainted (h.call id callee receiver args constructs hid hkind) hinput span f
    dsimp only [finish]
    unfold finishCall
    simp only [Track.bind_apply, s.reportSinks_of_unhit hunhit, hargs, Bool.false_and, Bool.false_eq_true, if_false]
    change (s.callResult span callee constructs _ f).2 = f ∧ (s.callResult span callee constructs _ f).1.isTainted = false
    rw [hresult]
    exact ⟨rfl, hclean⟩

theorem evalAll_of_clean (ha : s.arena.Descends) (h : s.ProvenClean f.facts ids) :
    (Track.each s.eval ids f).2 = f ∧ ∀ t ∈ (Track.each s.eval ids f).1, t.isTainted = false := by
  apply evalAll_of_visits (fun g => g = f) (fun t => t.isTainted = false) ha rfl _ rfl
  intro id g hv e he hg ht
  rw [hg]
  exact finish_of_clean h hv.under he ht

/-! ## Statements -/

theorem assign_candidates {t : Taint} (ht : t.isTainted = false) (secretTargets : List String) (target : String) :
    (s.assign st secretTargets t target f).2.candidates = f.candidates := by
  have hreport : s.reportTargetSinks target st.operands.head? t f = ((), f) := by
    unfold reportTargetSinks
    rw [ht]
    rfl
  rw [assign_apply, hreport]
  dsimp only
  split
  · rfl
  · rfl

theorem bound_candidates (s : Site) (st : Statement) (kind : ControlKind) (t : Taint) (f : Flow) :
    (s.bound st kind t f).2.candidates = f.candidates := by
  unfold bound
  split
  · rfl
  · split
    · rfl
    · split
      · rfl
      · rfl

theorem expression_candidates (s : Site) (st : Statement) (f : Flow) :
    (s.expression st f).2.candidates = (Track.each s.eval st.operands f).2.candidates := by
  rw [expression_apply]
  cases s.inPlace? st with
  | none => rfl
  | some hit =>
    apply Track.each_inv (fun g => g.candidates = (Track.each s.eval st.operands f).2.candidates) _ rfl
    intro arg _ g hg
    obtain ⟨facts, hclean⟩ := s.cleanArgument_apply hit.1 arg g
    rw [hclean]
    exact hg

theorem openBlock_candidates (s : Site) (st : Statement) (kind : ControlKind) (f : Flow) :
    (s.openBlock st kind f).2.candidates = (Track.each s.eval st.operands f).2.candidates := by
  rw [openBlock_apply]
  dsimp only
  split
  · rfl
  · apply Track.each_inv (fun g => g.candidates = (Track.each s.eval st.operands f).2.candidates) _
    · exact s.bound_candidates st kind _ _
    · intro target _ g hg
      exact hg

theorem effect_candidates_of_clean (ha : s.arena.Descends) (h : s.ProvenClean f.facts st.operands)
    (secretTargets : List String) : (s.effect st secretTargets f).2.candidates = f.candidates := by
  obtain ⟨hsame, huntainted⟩ := evalAll_of_clean ha h
  have hvalue : ((Track.each s.eval st.operands f).1.headD .clean).isTainted = false := by
    cases htaints : (Track.each s.eval st.operands f).1 with
    | nil => rfl
    | cons t rest => exact huntainted t (htaints ▸ List.mem_cons_self)
  have hassign : (s.assignment st secretTargets f).2.candidates = f.candidates := by
    apply Track.each_inv (fun g => g.candidates = f.candidates) _ (congrArg Flow.candidates hsame)
    intro target _ g hg
    rw [assign_candidates hvalue, hg]
  unfold effect
  cases hkind : st.kind with
  | unparsed => rfl
  | controlClose => rfl
  | assignment => exact hassign
  | declaration => exact hassign
  | call => rw [expression_candidates, hsame]
  | expression => rw [expression_candidates, hsame]
  | controlOpen kind => rw [openBlock_candidates, hsame]

end Site

namespace SourceUnit

variable {u : SourceUnit} {x : ExtractedUnit} {registry : Registry} {options : AnalysisOptions}
variable {done : Array Facts} {flow : Flow} {scope : Scope} {k : Nat}

/-- A statement over clean operands reports matches of shapes, and no sink: neither for a label of an
argument or of a value that is assigned, nor for an argument that is built by concatenation or never
defined. -/
theorem clean_statement_reports_no_sink (ha : x.arena.Descends)
    (hr : u.Reaches x registry options done (.within scope k) flow) {st : Statement}
    (hclean : (u.siteIn x registry options done scope).ProvenClean flow.facts st.operands) :
    let s := u.siteIn x registry options done scope
    (x.Recorded → scope.statements[k]? = some st → ∃ flow', s.statement st flow = .ok flow') ∧
    ∀ flow', s.statement st flow = .ok flow' →
      ∃ new, flow'.candidates = flow.candidates ++ new ∧ ∀ c ∈ new, ∃ shape, c.rule.matcher = .syntactic shape := by
  intro s
  refine ⟨fun hx hst => Site.statement_ok hx.sound (hr.operand_lt hx hst) flow, fun flow' hok => ?_⟩
  obtain ⟨found, hfound, rfl⟩ := Site.statement_eq_ok_iff.mp hok
  have hhere : (s.atStatement st flow).ProvenClean flow.facts st.operands := ⟨hclean.call, hclean.variable⟩
  let start : Flow := { flow with candidates := flow.candidates ++ (found.map Candidate.ofShape).toArray }
  refine ⟨(found.map Candidate.ofShape).toArray, ?_, fun c hc => ?_⟩
  · exact Site.effect_candidates_of_clean (s := s.atStatement st flow) (f := start) ha hhere _
  · obtain ⟨m, hm, rfl⟩ := List.mem_map.mp (List.mem_toArray.mp hc)
    rw [Candidate.ofShape_rule]
    exact Registry.syntactic_of_mem_matchShapes hhere.knowsClean hfound hm

end SourceUnit

/-! ## A clean variable that is passed to a sink -/

namespace CleanArgument

/-- A sink gets a text that is built from a constant. -/
def unit : SourceUnit :=
  { id := "a.js", content := (Text.Utf8.encode "x = 1; run('a' + x)").toArray, language := .javascript }

def rules : Registry := .ofOrdered
  [{ id := "run", name := "run", category := some .codeInjection
     matcher := .sink { callees := [⟨"run", false⟩], concatenation := true, bareUnresolved := true } }]

def written : Statement :=
  { kind := .assignment, targets := ["x"], operands := [0], span := ⟨0, 5⟩, controlTag := 0 }

def passed : Statement := { kind := .call, operands := [4], span := ⟨7, 19⟩, controlTag := 0 }

def scope : Scope :=
  { kind := .module, name := "", headerSpan := ⟨0, 0⟩, statements := #[written, passed] }

def recorded : ExtractedUnit :=
  { arena := ⟨#[⟨.literal .number "1", ⟨4, 5⟩⟩, ⟨.literal .string "a", ⟨11, 14⟩⟩, ⟨.variable "x", ⟨17, 18⟩⟩,
      ⟨.concat [1, 2], ⟨11, 18⟩⟩, ⟨.call "run" none [3] false, ⟨7, 19⟩⟩], #[1, 1, 1, 2, 3]⟩
    scopes := #[scope], stats := { statements := 2, scopes := 1 } }

def site : Site := unit.siteIn recorded rules {} #[] scope

def flow : Flow := { facts := ({} : Facts).insert "x" .clean }

theorem descends_recorded : recorded.arena.Descends := by decide +kernel

theorem factKey_x : factKey "x" = "x" := by decide +kernel

theorem reaches_flow : unit.Reaches recorded rules {} #[] (.within scope 1) flow := by
  have hstart : unit.Reaches recorded rules {} #[] (.within scope 0) {} := .enter .start rfl
  refine hstart.step rfl (Site.statement_eq_ok_iff.mpr ⟨[], by cbv, ?_⟩)
  change (Track.setFact "x" .clean {}).2 = flow
  rw [Track.setFact, factKey_x]
  rfl

theorem under_passed {id : ExprId} (h : recorded.arena.Under passed.operands id) : id ∈ [1, 2, 3, 4] := by
  refine h.of_hereditary ?_ (by decide)
  intro id e hid he c hc
  simp only [List.mem_cons, List.not_mem_nil, or_false] at hid
  rcases hid with rfl | rfl | rfl | rfl <;> cases he <;> revert c <;> decide

theorem provenClean_passed : site.ProvenClean flow.facts passed.operands where
  call := by
    intro id callee receiver args constructs hid hkind
    have hid := under_passed hid
    simp only [List.mem_cons, List.not_mem_nil, or_false] at hid
    rcases hid with rfl | rfl | rfl | rfl <;> cases hkind
    rfl
  «variable» := by
    intro id path hid hkind
    have hid := under_passed hid
    simp only [List.mem_cons, List.not_mem_nil, or_false] at hid
    rcases hid with rfl | rfl | rfl | rfl <;> cases hkind
    refine ⟨rfl, .clean, Site.lookup?_of_getElem? ?_, rfl⟩
    simp [factKey_x, flow]

theorem found_unknown : (site.found passed {}).map (fun m => m.rule.id) = ["run"] := by
  have hlookup (path : String) : site.lookup? {} path = none := by
    simp [Site.lookup?, site, SourceUnit.siteIn, enclosing]
  have hsource (path : String) : site.isSourcePath path = false := rfl
  have hcontext : (site.atStatement passed {}).context {} = ⟨fun _ => false, fun _ => true, ""⟩ := by
    change (⟨fun path => !site.isSourcePath path && (site.lookup? {} path).any (!·.isTainted),
      fun path => !site.isSourcePath path && (site.lookup? {} path).isNone, ""⟩ : ShapeContext) = _
    simp [hlookup, hsource]
  have hcalls : site.arena.callsIn passed.operands = .ok [⟨⟨7, 19⟩, "run", [3], false⟩] := by cbv
  rw [Site.found, hcontext]
  unfold Registry.matchShapes matchStatement
  rw [if_neg (by decide), hcalls]
  decide +kernel

/-- The sink is not reported, as it would be if the variable were unknown. -/
theorem clean_statement_reports_no_sink_built :
    (site.found passed {}).map (fun m => m.rule.id) = ["run"] ∧
      ∃ flow' new, site.statement passed flow = .ok flow' ∧ flow'.candidates = flow.candidates ++ new ∧
        ∀ c ∈ new, ∃ shape, c.rule.matcher = .syntactic shape := by
  have hrecorded : ¬passed.Dangles site.arena := by
    rintro ⟨_, id, hid, hsize⟩
    have hlt : ∀ id ∈ [1, 2, 3, 4], id < 5 := by decide
    exact absurd (hlt id (under_passed hid)) (Nat.not_lt.mpr hsize)
  obtain ⟨flow', hok⟩ := (Site.statement_ok_iff (s := site) flow).mpr hrecorded
  have hsilent := SourceUnit.clean_statement_reports_no_sink descends_recorded reaches_flow provenClean_passed
  obtain ⟨new, hnew, hshapes⟩ := hsilent.2 flow' hok
  exact ⟨found_unknown, flow', new, hok, hnew, hshapes⟩

end CleanArgument
end TaintScan
