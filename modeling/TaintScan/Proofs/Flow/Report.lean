import TaintScan.Proofs.Flow.Account

/-! # Where reported paths start

Whenever a sink is reported for a value, a label that the sink requires got to the value past all
sanitizers, and the path starts where some label that got there was introduced. That need not be a
required label: a value keeps one path.
-/
namespace TaintScan

theorem Candidate.path_ofShape (m : ShapeMatch) : (Candidate.ofShape m).path = [] := by
  unfold Candidate.ofShape
  split
  · rfl
  · rfl

theorem lt_of_mem_enclosing {scopes : Array Scope} {index fuel j : Nat} {parent : Option Nat}
    (h : j ∈ enclosing scopes index fuel parent) : j < index := by
  induction fuel generalizing parent with
  | zero => cases h
  | succ fuel ih =>
    cases parent with
    | none => cases h
    | some p =>
      rw [enclosing] at h
      split at h
      · next hlt =>
        rcases List.mem_cons.mp h with rfl | h
        · exact hlt
        · exact ih h
      · cases h

namespace SourceUnit

variable {u : SourceUnit} {x : ExtractedUnit} {registry : Registry} {options : AnalysisOptions}
variable {f : Flow} {done : Array Facts} {scope : Scope} {k : Nat}

/-- What is accounted for between statements. -/
structure Settled (u : SourceUnit) (x : ExtractedUnit) (registry : Registry) (options : AnalysisOptions)
    (done : Array Facts) (stage : Stage) (f : Flow) : Prop where
  outer : ∀ {j : Nat} {facts : Facts}, done[j]? = some facts → ∃ outer, x.scopes[j]? = some outer ∧
    ∀ (key : String) (t : Taint), facts[key]? = some t →
      t.Rooted f.nodes (u.brings x registry options (.fact j outer.statements.size key))
  within : ∀ {scope : Scope} {k : Nat}, stage = .within scope k → k ≤ scope.statements.size ∧
    ∀ (key : String) (t : Taint), f.facts[key]? = some t →
      t.Rooted f.nodes (u.brings x registry options (.fact done.size k key))
  candidates : ∀ c ∈ f.candidates, u.Accounts x registry options c

theorem seedParams_rooted (registry : Registry) (options : AnalysisOptions) {s : Site} {i : Nat}
    (hscope : x.scopes[i]? = some s.scope) (hunit : s.unit = u) (hseed : s.seed = options.seedEntryPoints)
    (hf : f.facts = {}) :
    NodesKept f.nodes (s.seedParams f).2.nodes ∧ (s.seedParams f).2.candidates = f.candidates ∧
      ∀ (key : String) (t : Taint), (s.seedParams f).2.facts[key]? = some t →
        t.Rooted (s.seedParams f).2.nodes (u.brings x registry options (.fact i 0 key)) := by
  unfold Site.seedParams
  split
  · next hentry =>
    obtain ⟨hseeded, hentry⟩ := Bool.and_eq_true_iff.mp hentry
    rw [hseed] at hseeded
    rw [Site.language, hunit] at hentry
    refine Track.each_inv (fun g => NodesKept f.nodes g.nodes ∧ g.candidates = f.candidates ∧
      ∀ (key : String) (t : Taint), g.facts[key]? = some t →
        t.Rooted g.nodes (u.brings x registry options (.fact i 0 key))) (fun p hp g hg => ?_)
      ⟨fun _ _ h => h, rfl, fun key t ht => ?_⟩
    · obtain ⟨hkept, hsame, hrooted⟩ := hg
      have hpush := nodesKept_push g.nodes ⟨p.span, 0, none⟩
      refine ⟨fun id n h => hpush id n (hkept id n h), hsame, fun key t ht => ?_⟩
      change (g.facts.insert p.name (.labelled (.of .untrusted) g.nodes.size))[key]? = some t at ht
      change t.Rooted (g.nodes.push ⟨p.span, 0, none⟩) _
      rw [Std.HashMap.getElem?_insert] at ht
      split at ht
      · next heq =>
        cases ht
        rw [← eq_of_beq heq]
        have hparam {strict : Bool} :
            u.brings x registry options (.fact i 0 p.name) strict .untrusted p.span :=
          .param hscope hseeded hentry hp rfl rfl
        refine ⟨fun l hl => ?_, fun _ => ?_, fun hclean => ?_⟩
        · cases l with
          | untrusted => exact ⟨p.span, hparam⟩
          | secret => cases hl
        · exact ⟨g.nodes.size, .untrusted, p.span, rfl, .root Array.getElem?_push_size rfl, hparam⟩
        · cases hclean
      · exact (hrooted key t ht).mono hpush
    · rw [hf, Std.HashMap.getElem?_empty] at ht
      cases ht
  · refine ⟨fun _ _ h => h, rfl, fun key t ht => ?_⟩
    change f.facts[key]? = some t at ht
    rw [hf, Std.HashMap.getElem?_empty] at ht
    cases ht

section

variable (h : u.Settled x registry options done (.within scope k) f)
include h

theorem Settled.standing
    (hscope : x.scopes[done.size]? = some scope) {st : Statement} (hst : scope.statements[k]? = some st) :
    u.Standing x registry options ((u.siteIn x registry options done scope).atStatement st f) done.size k st
      f.nodes where
  unit := rfl
  arena := rfl
  rules := rfl
  seed := rfl
  scope := hscope
  statement := hst
  span := rfl
  firstNode := rfl
  inherited := by
    intro facts hfacts
    obtain ⟨j, hj, hdone⟩ := List.mem_map.mp hfacts
    obtain ⟨facts', hfacts'⟩ : ∃ facts', done[j]? = some facts' :=
      ⟨_, Array.getElem?_eq_getElem (lt_of_mem_enclosing hj)⟩
    rw [Array.getD_eq_getD_getElem?, hfacts'] at hdone
    cases hdone
    obtain ⟨outer, houter, hrooted⟩ := h.outer hfacts'
    exact ⟨j, outer, hj, houter, hrooted⟩

theorem Settled.accounted {s : Site} (hs : s.firstNode = f.nodes.size) (found : List ShapeMatch) :
    u.AccountedAt x registry options s f.nodes done.size k
      { f with candidates := f.candidates ++ (found.map Candidate.ofShape).toArray } := by
  refine ⟨fun _ _ h => h, fun key t ht => ?_, fun c hc => ?_⟩
  · exact ((h.within rfl).2 key t ht).traced (Nat.le_of_eq hs.symm)
  · rcases Array.mem_append.mp hc with hc | hc
    · exact h.candidates c hc
    · obtain ⟨m, _, rfl⟩ := List.mem_map.mp (List.mem_toArray.mp hc)
      exact Or.inl ⟨Candidate.path_ofShape m, m, rfl⟩

theorem Settled.step {f' : Flow} {st : Statement}
    (hx : x.Recorded) (hscope : x.scopes[done.size]? = some scope) (hst : scope.statements[k]? = some st)
    (hok : (u.siteIn x registry options done scope).statement st f = .ok f') :
    u.Settled x registry options done (.within scope (k + 1)) f' := by
  obtain ⟨found, hfound, hflow⟩ := Site.statement_eq_ok_iff.mp hok
  have hstanding := h.standing hscope hst
  have hlt : k < scope.statements.size := (Array.getElem?_eq_some_iff.mp hst).1
  have hoperands := hx.operand_lt scope (Array.mem_of_getElem? hscope) st (Array.mem_of_getElem? hst)
  have hsecret : ∀ target ∈ found.filterMap Site.secretTarget?,
      registry.FindsSecret u.language x.arena st target := by
    intro target htarget
    obtain ⟨m, hm, htarget⟩ := List.mem_filterMap.mp htarget
    exact ⟨_, found, m, hfound, hm, htarget⟩
  have hend := (h.accounted hstanding.firstNode found).effect hstanding hx.sound hoperands hsecret
  rw [hflow] at hend
  refine ⟨fun hj => ?_, fun hstage => ?_, hend.candidates⟩
  · obtain ⟨outer, houter, hrooted⟩ := h.outer hj
    exact ⟨outer, houter, fun key t ht => (hrooted key t ht).mono hend.kept⟩
  · cases hstage
    exact ⟨hlt, fun key t ht => (hend.facts key t ht).rooted⟩

end

theorem Reaches.settled {stage : Stage} (h : u.Reaches x registry options done stage f) (hx : x.Recorded) :
    u.Settled x registry options done stage f := by
  induction h with
  | start =>
    refine ⟨fun hj => ?_, fun hstage => (nomatch hstage), fun c hc => absurd hc (Array.not_mem_empty c)⟩
    cases hj
  | @enter done flow scope _ hscope ih =>
    obtain ⟨hkept, hsame, hrooted⟩ := seedParams_rooted registry options
      (s := u.siteIn x registry options done scope) hscope rfl rfl (f := { flow with facts := {} }) rfl
    refine ⟨fun hj => ?_, fun hstage => ?_, fun c hc => ?_⟩
    · obtain ⟨outer, houter, hdone⟩ := ih.outer hj
      exact ⟨outer, houter, fun key t ht => (hdone key t ht).mono hkept⟩
    · cases hstage
      exact ⟨Nat.zero_le _, hrooted⟩
    · rw [hsame] at hc
      exact ih.candidates c hc
  | step hr hst hok ih => exact ih.step hx hr.scope_eq hst hok
  | @leave done flow scope k hr hend ih =>
    refine ⟨fun {j facts} hj => ?_, fun hstage => (nomatch hstage), ih.candidates⟩
    rw [Array.getElem?_push] at hj
    split at hj
    · next heq =>
      cases hj
      cases heq
      obtain ⟨hle, hrooted⟩ := ih.within rfl
      have hk : k = scope.statements.size :=
        Nat.le_antisymm hle (Array.getElem?_eq_none_iff.mp hend)
      subst hk
      exact ⟨scope, hr.scope_eq, hrooted⟩
    · exact ih.outer hj

end SourceUnit

/-! ## Two sources in one value -/

namespace TwoSources

/-- A call that takes the sum of a secret and of untrusted data. -/
def unit : SourceUnit :=
  { id := "a.py", content := (Text.Utf8.encode "run(key() + ask())").toArray, language := .python }

/-- The sink `run` asks for untrusted data. -/
def rules : Registry := .ofOrdered
  [{ id := "ask", name := "ask", matcher := .source { callees := [⟨"ask", false⟩] } },
   { id := "key", name := "key", matcher := .source { callees := [⟨"key", false⟩], label := .secret } },
   { id := "run", name := "run", category := some .codeInjection
     matcher := .sink { callees := [⟨"run", false⟩] } }]

def statement : Statement := { kind := .call, operands := [3], span := ⟨0, 18⟩, controlTag := 0 }

def scope : Scope := { kind := .module, name := "", headerSpan := ⟨0, 0⟩, statements := #[statement] }

def extracted : ExtractedUnit :=
  { arena := ⟨#[⟨.call "key" none [] false, ⟨4, 9⟩⟩, ⟨.call "ask" none [] false, ⟨12, 17⟩⟩,
      ⟨.compound [0, 1], ⟨4, 17⟩⟩, ⟨.call "run" none [2] false, ⟨0, 18⟩⟩], #[1, 1, 2, 3]⟩
    scopes := #[scope], stats := { statements := 1, scopes := 1 } }

theorem extract_unit : unit.extract 1 .never = (.ok extracted, .never) := by
  decide +kernel

theorem track_extracted : ∃ c, unit.track extracted rules {} .never = (.ok [c], .never) ∧
    c.rule.matcher = .sink { callees := [⟨"run", false⟩] } ∧ c.path = [⟨4, 9⟩] := by
  let s := unit.siteIn extracted rules {} #[] scope
  let after := ((s.atStatement statement {}).effect statement [] {}).2
  have hok : s.statement statement {} = .ok after := by
    refine Site.statement_eq_ok_iff.mpr ⟨[], ?_, rfl⟩
    cbv
  have hmodule : unit.Reaches extracted rules {} #[] (.within scope 0) {} := .enter .start rfl
  have htrack := ((hmodule.step rfl hok).leave rfl).track_eq (Nat.le_refl 1)
  have hpaths : after.candidates.toList.map (fun c => (c.rule.matcher, c.path)) =
      [(.sink { callees := [⟨"run", false⟩] }, [⟨4, 9⟩])] := by
    decide +kernel
  obtain ⟨c, hc, heq⟩ := List.map_eq_singleton_iff.mp hpaths
  exact ⟨c, by rw [htrack, hc], congrArg Prod.fst heq, congrArg Prod.snd heq⟩

theorem eq_of_at {i k : Nat} {st : Statement} (h : extracted.At i k st) : st = statement := by
  obtain ⟨scope', hscope, hst⟩ := h
  cases Array.mem_singleton.mp (Array.mem_of_getElem? hscope)
  exact Array.mem_singleton.mp (Array.mem_of_getElem? hst)

theorem not_carries {strict : Bool} {p : Place} :
    ¬unit.Carries extracted rules {} strict .untrusted ⟨4, 9⟩ p := by
  intro h
  induction h with
  | param hscope _ _ hp =>
    cases Array.mem_singleton.mp (Array.mem_of_getElem? hscope)
    cases hp
  | sourcePath _ he =>
    have he := Array.mem_of_getElem? he
    simp [extracted] at he
  | @sourceCall _ _ _ _ callee _ _ constructs span _ hat he hsource ho =>
    cases eq_of_at hat
    have he : (callee = "key" ∧ constructs = false) ∨ span = ⟨12, 17⟩ ∨ span = ⟨0, 18⟩ := by
      have hmem := Array.mem_of_getElem? he
      simp only [extracted, List.mem_toArray, List.mem_cons, Expr.mk.injEq, ExprKind.call.injEq,
        List.not_mem_nil, or_false, reduceCtorEq, false_and, false_or] at hmem
      rcases hmem with ⟨⟨hcallee, _, _, hconstructs⟩, _⟩ | ⟨_, hspan⟩ | ⟨_, hspan⟩
      · exact Or.inl ⟨hcallee, hconstructs⟩
      · exact Or.inr (Or.inl hspan)
      · exact Or.inr (Or.inr hspan)
    rcases he with ⟨rfl, rfl⟩ | rfl | rfl
    · have hkey : (rules.sourceOfCall? "key" false unit.language).map (·.2) = some .secret := by
        decide +kernel
      rw [hsource] at hkey
      cases hkey
    · rcases ho with ho | ho
      · cases ho
      · cases ho
    · rcases ho with ho | ho
      · cases ho
      · cases ho
  | caught hat hkind =>
    cases eq_of_at hat
    cases hkind
  | routed hat hkind =>
    cases eq_of_at hat
    cases hkind
  | hardCoded _ _ _ hl => cases hl
  | kept _ _ _ _ ih => exact ih
  | own _ _ ih => exact ih
  | around _ _ _ _ _ _ ih => exact ih
  | read _ _ ih => exact ih
  | part _ _ _ _ ih => exact ih
  | call _ _ _ _ ih => exact ih
  | stored _ _ _ _ _ _ ih => exact ih
  | assigned _ _ _ _ _ ih => exact ih
  | updated _ _ _ _ _ _ ih => exact ih
  | bound _ _ _ _ _ ih => exact ih

end TwoSources
end TaintScan
