import TaintScan.Proofs.Flow.Mirror
import TaintScan.Proofs.Flow.Pass
import TaintScan.Proofs.Rule.Filter

/-! # Passes under filtered rules

A pass never looks at its candidates again. So under rules of which a filter drops no source, sanitizer
or hard-coded secret it comes to the same facts and definitions, and its candidates are those of the
full pass that the filter keeps.
-/
namespace TaintScan

/-- A candidate with the rule that a filter makes of its own. -/
def Candidate.under? (f : RuleFilter) (c : Candidate) : Option Candidate :=
  (f.image? c.rule).map fun r => { c with rule := r }

def Flow.under (f : RuleFilter) (flow : Flow) : Flow :=
  { flow with candidates := (flow.candidates.toList.filterMap (Candidate.under? f)).toArray }

def Site.under (f : RuleFilter) (s : Site) : Site := { s with registry := s.registry.filtered f }

/-- A step does under filtered rules what another does under all rules. -/
def Track.Filters {α : Type} (f : RuleFilter) (p q : Track α) : Prop :=
  ∀ flow, q (flow.under f) = ((p flow).1, (p flow).2.under f)

variable {f : RuleFilter}

namespace Flow

theorem under_facts (f : RuleFilter) (flow : Flow) : (flow.under f).facts = flow.facts := rfl

theorem under_nodes (f : RuleFilter) (flow : Flow) : (flow.under f).nodes = flow.nodes := rfl

theorem under_report (flow : Flow) (c : Candidate) :
    { flow with candidates := flow.candidates.push c }.under f =
      { flow.under f with candidates := (flow.under f).candidates ++ (c.under? f).toList.toArray } := by
  cases hc : c.under? f <;> simp [under, hc]

theorem under_reportAll (flow : Flow) (cs : List Candidate) :
    { flow with candidates := flow.candidates ++ cs.toArray }.under f =
      { flow.under f with
        candidates := (flow.under f).candidates ++ (cs.filterMap (Candidate.under? f)).toArray } := by
  simp [under]

end Flow

namespace Track.Filters

variable {α : Type}

theorem leads {p q : Track α} (h : Filters f p q) (flow : Flow) :
    Leads (.same fun flow flow' => flow' = flow.under f) flow (flow.under f) (p flow) (q (flow.under f)) :=
  ⟨congrArg Prod.snd (h flow), ⟨trivial, trivial⟩, trivial⟩

theorem eachSink {p q : Rule × SinkSpec → Track Unit} {sinks : List (Rule × SinkSpec)}
    (hdrop : ∀ a ∈ sinks, f.image? a.1 = none → ∀ flow, (p a flow).2.under f = flow.under f)
    (hkeep : ∀ a ∈ sinks, ∀ r, f.image? a.1 = some r → Filters f (p a) (q (r, a.2))) :
    Filters f (Track.each p sinks >>= fun _ => Pure.pure ())
      (Track.each q (sinks.filterMap fun a => (f.image? a.1).map (·, a.2)) >>= fun _ => Pure.pure ()) := by
  intro flow
  refine Prod.ext (Subsingleton.elim _ _) ?_
  simp only [bind_apply]
  induction sinks generalizing flow with
  | nil => rfl
  | cons a rest ih =>
    obtain ⟨hdrop, hdrops⟩ := List.forall_mem_cons.mp hdrop
    obtain ⟨hkeep, hkeeps⟩ := List.forall_mem_cons.mp hkeep
    have hrest := ih hdrops hkeeps (p a flow).2
    cases happly : f.image? a.1 with
    | none =>
      rw [List.filterMap_cons_none (by rw [happly]; rfl), ← hdrop happly flow]
      exact hrest
    | some r =>
      rw [List.filterMap_cons_some (by rw [happly]; rfl)]
      change (Track.each q _ (q (r, a.2) (flow.under f)).2).2 = _
      rw [hkeep r happly flow]
      exact hrest

end Track.Filters

/-! ## At a statement -/

namespace Site

open Track

variable {s : Site} (hg : s.registry.Valid) (hf : f.Spares s.registry)

theorem under_lookup? (f : RuleFilter) (s : Site) : (s.under f).lookup? = s.lookup? := by
  funext facts path
  unfold lookup?
  rfl

theorem under_folded (f : RuleFilter) (s : Site) : (s.under f).folded = s.folded := by
  funext nodes prev
  cases prev <;> rfl

theorem under_sinkCandidate (nodes : Array Node) (r r' : Rule) (span : Span) (t : Taint) (callee name : String) :
    (s.under f).sinkCandidate nodes r' span t callee name =
      { s.sinkCandidate nodes r span t callee name with rule := r' } := by
  unfold sinkCandidate
  rfl

theorem under_emit {r r' : Rule} (h : f.image? r = some r') (span : Span) (t : Taint) (callee name : String) :
    Filters f (s.emit r span t callee name) ((s.under f).emit r' span t callee name) := by
  intro flow
  have hkept : (s.sinkCandidate flow.nodes r span t callee name).under? f =
      some ((s.under f).sinkCandidate flow.nodes r' span t callee name) := by
    have hrule : (s.sinkCandidate flow.nodes r span t callee name).rule = r := rfl
    rw [Candidate.under?, hrule, h, Option.map_some, under_sinkCandidate flow.nodes r]
  rw [emit_apply, emit_apply, Flow.under_report, hkept, Array.push_eq_append]
  rfl

theorem emit_dropped {r : Rule} (h : f.image? r = none) (span : Span) (t : Taint) (callee name : String)
    (flow : Flow) : (s.emit r span t callee name flow).2.under f = flow.under f := by
  rw [emit_apply, Flow.under_report]
  simp [Candidate.under?, sinkCandidate, h]

include hg

theorem under_reportSinks (span : Span) (callee : String) (constructs : Bool) (args : List (ExprId × Taint)) :
    Filters f (s.reportSinks span callee constructs args)
      ((s.under f).reportSinks span callee constructs args) := by
  have hsinks : (s.under f).registry.sinksOfCall callee constructs (s.under f).language =
      (s.registry.sinksOfCall callee constructs s.language).filterMap fun p => (f.image? p.1).map (·, p.2) :=
    Registry.filtered_sinksOfCall hg f callee constructs s.language
  unfold reportSinks
  rw [hsinks]
  refine .eachSink (fun p _ hdrop flow => ?_) fun p _ r hkeep => ?_
  · cases sinkHit? p.2 args with
    | none => rfl
    | some hit => exact emit_dropped hdrop _ _ _ _ _
  · cases sinkHit? p.2 args with
    | none => exact fun _ => rfl
    | some hit => exact under_emit hkeep _ _ _ _

theorem under_reportTargetSinks (target : String) (value : Option ExprId) (t : Taint) :
    Filters f (s.reportTargetSinks target value t) ((s.under f).reportTargetSinks target value t) := by
  have hsinks : (s.under f).registry.sinksOfTarget target (s.under f).language =
      (s.registry.sinksOfTarget target s.language).filterMap fun p => (f.image? p.1).map (·, p.2) :=
    Registry.filtered_sinksOfTarget hg f target s.language
  unfold reportTargetSinks
  rw [hsinks]
  split
  · refine .eachSink (fun p _ hdrop flow => ?_) fun p _ r hkeep => ?_
    · split
      · exact emit_dropped hdrop _ _ _ _ _
      · rfl
    · split
      · exact under_emit hkeep _ _ _ _
      · exact fun _ => rfl
  · exact fun _ => rfl

include hf

theorem under_isSourcePath (path : String) : (s.under f).isSourcePath path = s.isSourcePath path := by
  have hsource := congrArg Option.isSome (Registry.filtered_sourceOfPath? hg hf path s.language)
  rwa [Option.isSome_map, Option.isSome_map] at hsource

theorem under_context (facts : Facts) : (s.under f).context facts = s.context facts := by
  have hsource : (s.under f).isSourcePath = s.isSourcePath := funext (under_isSourcePath hg hf)
  have hscope : (s.under f).scope = s.scope := rfl
  simp only [context, hsource, under_lookup?, hscope]

omit hg hf in
theorem under_define (prev : Option NodeId) : Filters f (s.define prev) ((s.under f).define prev) := by
  intro flow
  rw [define_apply, define_apply, under_folded, Flow.under_nodes]
  rfl

theorem mirrors_under : s.Mirrors (.same fun flow flow' => flow' = flow.under f) Eq (s.under f) where
  insertFact h hab _ := ⟨h ▸ hab.eq ▸ rfl, ⟨trivial, trivial⟩, trivial⟩
  fact h _ := h ▸ Taint.Twin.optionRel_refl _
  lookup? h _ := h ▸ under_lookup? f s ▸ Taint.Twin.optionRel_refl _
  pushSource h hab := ⟨h ▸ hab ▸ rfl, ⟨trivial, trivial⟩, h ▸ rfl⟩
  define {flow _ prev _} h hprev := by
    cases h
    have hdefine := under_define (f := f) (s := s) prev flow
    cases hprev with
    | none => exact ⟨congrArg Prod.snd hdefine, ⟨trivial, trivial⟩, (congrArg Prod.fst hdefine).symm⟩
    | some hab =>
      cases hab
      exact ⟨congrArg Prod.snd hdefine, ⟨trivial, trivial⟩, (congrArg Prod.fst hdefine).symm⟩
  size_arena := rfl
  expr_cases id := by
    cases he : s.arena.exprs[id]? with
    | none => exact Or.inl ⟨rfl, he⟩
    | some e => exact Or.inr ⟨e, e, rfl, he, rfl, rfl⟩
  seed := rfl
  sourceOfPath? path := Registry.filtered_sourceOfPath? hg hf path s.language
  sourceOfCall? callee constructs := Registry.filtered_sourceOfCall? hg hf callee constructs s.language
  sanitizerOfCall? callee constructs := Registry.filtered_sanitizerOfCall? hg hf callee constructs s.language
  reportSinks h hab hargs callee constructs := by
    rw [h, ← hab, Taint.Twin.args_eq hargs]
    exact (under_reportSinks hg _ callee constructs _).leads _
  reportTargetSinks h hab target value := by
    rw [h, hab.eq]
    exact (under_reportTargetSinks hg target value _).leads _

theorem under_effect (st : Statement) (secretTargets : List String) :
    Filters f (s.effect st secretTargets) ((s.under f).effect st secretTargets) := by
  intro flow
  exact Prod.ext (Subsingleton.elim _ _) ((mirrors_under hg hf).effect rfl st secretTargets).rel

theorem under_secretTargets {st : Statement} {context : ShapeContext} {found : List ShapeMatch}
    (hfound : s.registry.matchShapes st s.arena s.language context = .ok found) :
    (found.filterMap (ShapeMatch.under? f)).filterMap secretTarget? = found.filterMap secretTarget? := by
  rw [List.filterMap_filterMap]
  refine List.filterMap_congr fun m hm => ?_
  have hrule : m.rule ∈ s.registry.rules := by
    have hshaped := Registry.shaped_of_mem_matchShapes hfound hm
    rw [hg.index_eq, RuleIndex.ofRules_shaped, List.mem_filter] at hshaped
    exact Array.mem_toList_iff.mp hshaped.1
  cases himage : f.image? m.rule with
  | none =>
    -- A rule that is dropped finds no secret.
    have hinforms : m.rule.informs = false := by
      refine Bool.eq_false_iff.mpr fun h => ?_
      have hdropped := RuleFilter.keeps_of_image?_eq_none himage
      rw [hf m.rule hrule h] at hdropped
      cases hdropped
    rw [ShapeMatch.under?, himage]
    unfold Rule.informs at hinforms
    unfold secretTarget?
    split at hinforms <;> simp_all
  | some r =>
    obtain ⟨_, _, rfl⟩ := RuleFilter.eq_of_image? himage
    rw [ShapeMatch.under?, himage]
    rfl

end Site

theorem Candidate.under?_ofShape (m : ShapeMatch) :
    (Candidate.ofShape m).under? f = (m.under? f).map Candidate.ofShape := by
  cases himage : f.image? m.rule with
  | none =>
    rw [ShapeMatch.under?, himage]
    unfold ofShape Candidate.under?
    split
    · simp only [ofSecret, himage, Option.map_none]
    · simp only [ofEvidence, himage, Option.map_none]
  | some r =>
    obtain ⟨_, _, rfl⟩ := RuleFilter.eq_of_image? himage
    rw [ShapeMatch.under?, himage]
    unfold ofShape Candidate.under?
    simp only [Option.map_some]
    split
    · simp only [ofSecret, himage, Option.map_some]
    · simp only [ofEvidence, himage, Option.map_some]

/-! ## Along a pass -/

namespace Site

open Track

theorem under_atStatement (f : RuleFilter) (s : Site) (st : Statement) (flow : Flow) :
    (s.under f).atStatement st (flow.under f) = (s.atStatement st flow).under f := rfl

theorem under_seedParams (s : Site) : Filters f s.seedParams (s.under f).seedParams := by
  intro flow
  have hseed : Leads (.same fun flow flow' => flow' = flow.under f) flow (flow.under f) (s.seedParams flow)
      (s.seedParams (flow.under f)) := by
    unfold seedParams
    split
    · exact .forEach rfl fun _ _ _ _ h _ _ => ⟨h ▸ rfl, ⟨trivial, trivial⟩, trivial⟩
    · exact .pure rfl trivial
  exact Prod.ext (Subsingleton.elim _ _) hseed.rel

theorem statement_eq_error {s : Site} {st : Statement} {flow : Flow} {e : UnknownExpr}
    (h : s.registry.matchShapes st s.arena s.language ((s.atStatement st flow).context flow.facts) = .error e) :
    s.statement st flow = .error e := by
  have hsite : (s.atStatement st flow).registry = s.registry ∧ (s.atStatement st flow).arena = s.arena ∧
      (s.atStatement st flow).language = s.language := ⟨rfl, rfl, rfl⟩
  unfold statement
  simp only [hsite, h]

variable {s : Site} (hg : s.registry.Valid) (hf : f.Spares s.registry)
include hg hf

theorem under_statement (st : Statement) (flow : Flow) :
    (s.under f).statement st (flow.under f) = (s.statement st flow).map (Flow.under f) := by
  let t := s.atStatement st flow
  have hmatch : (s.under f).registry.matchShapes st (s.under f).arena (s.under f).language
      (((s.under f).atStatement st (flow.under f)).context (flow.under f).facts) =
      (s.registry.matchShapes st s.arena s.language (t.context flow.facts)).map
        (List.filterMap (ShapeMatch.under? f)) := by
    rw [under_atStatement, Flow.under_facts, under_context (s := t) hg hf]
    exact Registry.filtered_matchShapes hg f st s.arena s.language _
  cases hfound : s.registry.matchShapes st s.arena s.language (t.context flow.facts) with
  | error e =>
    rw [hfound] at hmatch
    rw [statement_eq_error hmatch, statement_eq_error hfound]
    rfl
  | ok found =>
    rw [hfound] at hmatch
    have hunder := statement_eq_ok_iff.mpr ⟨_, hmatch, rfl⟩
    have hfull := statement_eq_ok_iff.mpr ⟨_, hfound, rfl⟩
    rw [hunder, hfull]
    refine congrArg Except.ok ?_
    have hcandidates : (found.filterMap (ShapeMatch.under? f)).map Candidate.ofShape =
        (found.map Candidate.ofShape).filterMap (Candidate.under? f) := by
      rw [List.map_filterMap, List.filterMap_map]
      exact List.filterMap_congr fun m _ => (Candidate.under?_ofShape m).symm
    have heffect := under_effect (s := t) hg hf st (found.filterMap secretTarget?)
      { flow with candidates := flow.candidates ++ (found.map Candidate.ofShape).toArray }
    rw [Flow.under_reportAll, ← hcandidates] at heffect
    rw [under_atStatement, under_secretTargets hg hf hfound]
    exact congrArg Prod.snd heffect

theorem under_walk (statements : List Statement) (flow : Flow) (p : Progress) :
    (s.under f).walk statements (flow.under f) p =
      ((s.walk statements flow p).1.map (Flow.under f), (s.walk statements flow p).2) := by
  induction statements generalizing flow p with
  | nil => rfl
  | cons st rest ih =>
    rw [walk, walk, under_statement hg hf st flow]
    cases p.countdown.poll with
    | mk fired c =>
      cases fired with
      | true => rfl
      | false =>
        cases s.statement st flow with
        | error e => rfl
        | ok flow' => exact ih flow' ⟨c, p.statements + 1⟩

end Site

namespace SourceUnit

variable (u : SourceUnit) (x : ExtractedUnit) {g : Registry} (hg : g.Valid) (hf : f.Spares g)
variable (options : AnalysisOptions)
include hg hf

theorem trackFrom_filtered (scopes : List Scope) (done : Array Facts) (flow : Flow) (p : Progress) :
    u.trackFrom x (g.filtered f) options scopes done (flow.under f) p =
      ((u.trackFrom x g options scopes done flow p).1.map (Flow.under f),
        (u.trackFrom x g options scopes done flow p).2) := by
  induction scopes generalizing done flow p with
  | nil => rfl
  | cons scope rest ih =>
    let s := u.siteIn x g options done scope
    have hwalk := s.under_walk hg hf scope.statements.toList (s.seedParams { flow with facts := {} }).2 p
    have hseed : ((s.under f).seedParams { flow.under f with facts := {} }).2 =
        (s.seedParams { flow with facts := {} }).2.under f :=
      congrArg Prod.snd (s.under_seedParams { flow with facts := {} })
    rw [← hseed] at hwalk
    cases hfull : s.walk scope.statements.toList (s.seedParams { flow with facts := {} }).2 p with
    | mk result p' =>
      rw [hfull] at hwalk
      cases result with
      | error e =>
        rw [trackFrom_cons_error u x g options hfull]
        exact trackFrom_cons_error u x (g.filtered f) options hwalk
      | ok flow' =>
        rw [trackFrom_cons_ok u x g options hfull, ← ih]
        exact trackFrom_cons_ok u x (g.filtered f) options hwalk

theorem track_filtered (c : Countdown) :
    u.track x (g.filtered f) options c =
      ((u.track x g options c).1.map (List.filterMap (Candidate.under? f)), (u.track x g options c).2) := by
  have h := u.trackFrom_filtered x hg hf options x.scopes.toList #[] {} ⟨c, 0⟩
  have hempty : Flow.under f {} = {} := rfl
  rw [hempty] at h
  unfold track
  rw [h]
  cases u.trackFrom x g options x.scopes.toList #[] {} ⟨c, 0⟩ with
  | mk result p =>
    cases result with
    | error e => rfl
    | ok flow => rfl

end SourceUnit
end TaintScan
