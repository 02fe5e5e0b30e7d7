import TaintScan.Proofs.Flow.Rebinding

/-! # What a statement makes of one fact

A statement changes a fact only where it writes. A method that stores, and a compound assignment, add to
what was known of their path before: no label is lost while operands are evaluated, and none when a path
gets a fact that has the labels known of it.
-/
namespace TaintScan

namespace Site

variable {s : Site} {st : Statement} {key path : String} {f : Flow} {l : Label}

theorem lookup?_of_getElem? {facts : Facts} {t : Taint} (h : facts[factKey path]? = some t) :
    s.lookup? facts path = some t := by
  obtain ⟨rest, hheads⟩ := List.head?_eq_some_iff.mp (head?_pathHeads (factKey path))
  rw [lookup?_eq, hheads, List.findSome?_cons, known?_of_getElem? h]

/-! ## Stores -/

theorem carries_finish (e : Expr) (taints : List Taint) (h : s.carries f.facts l path = true) :
    s.carries (s.finish e taints f).2.facts l path = true := by
  rcases s.finish_facts e taints f with hsame | ⟨target, node, _, hfacts⟩
  · rw [hsame]
    exact h
  · rw [hfacts]
    refine carries_insert (fun htarget => ?_) h
    rw [Taint.contains_join, contains_getD_of_carries htarget, Bool.true_or]

theorem carries_evalAll (ha : s.arena.Descends) (ids : List ExprId) (h : s.carries f.facts l path = true) :
    s.carries (Track.each s.eval ids f).2.facts l path = true :=
  (evalAll_of_visits (fun g => s.carries g.facts l path = true) (fun _ => True) ha trivial
    (fun _ _ _ e _ hg _ => ⟨carries_finish e _ hg, trivial⟩) h).1

theorem isSome_finish (e : Expr) (taints : List Taint) (h : (f.facts[key]?).isSome = true) :
    ((s.finish e taints f).2.facts[key]?).isSome = true := by
  rcases s.finish_facts e taints f with hsame | ⟨path, node, _, hfacts⟩
  · rw [hsame]
    exact h
  · rw [hfacts, Std.HashMap.getElem?_insert]
    split
    · rfl
    · exact h

theorem isSome_finish_of_storesAt {e : Expr} {taints : List Taint} (h : s.StoresAt e taints path) (f : Flow) :
    ((s.finish e taints f).2.facts[factKey path]?).isSome = true := by
  obtain ⟨⟨callee, receiver, args, constructs, hkind, hpath, hname⟩, htainted⟩ := h
  obtain ⟨kind, span⟩ := e
  cases hkind
  have hstores : ((Taint.joinAll (taints.drop (some receiver).toList.length)).isTainted &&
      mutators.contains (Text.afterLast '.' callee)) = true := by
    rw [hname, Bool.and_true]
    exact htainted
  dsimp only [finish]
  unfold finishCall
  rw [if_pos hstores]
  simp only [Track.bind_apply]
  rw [callResult_facts]
  change ((s.storeInto receiver _ _).2.facts[factKey path]?).isSome = true
  rw [storeInto_apply, hpath]
  simp [Track.setFact]

theorem isSome_evalAll_of_stores (ha : s.arena.Descends) {ids : List ExprId} (h : s.Stores ids f key) :
    ((Track.each s.eval ids f).2.facts[key]?).isSome = true := by
  obtain ⟨id, g, e, path, hv, he, hstores, rfl⟩ := h
  apply hv.inv_at_end (fun g => (g.facts[factKey path]?).isSome = true) ha
  · intro e taints g hg
    exact isSome_finish e taints hg
  · rw [eval_eq ha he, Track.bind_apply]
    exact isSome_finish_of_storesAt hstores _

/-! ## Compound assignments -/

theorem contains_written_of_compound (hcompound : st.compound = true) {facts : Facts} {target : String}
    (h : s.carries facts l target = true) (secretTargets : List String) (t : Taint) :
    (s.written st secretTargets t target facts).labels.contains l = true := by
  have hbase : (((s.lookup? facts target).getD .clean).join t).labels.contains l = true := by
    rw [Taint.contains_join, contains_getD_of_carries h, Bool.true_or]
  unfold written
  rw [if_pos hcompound]
  dsimp only
  split
  · rw [LabelSet.insert, LabelSet.contains_union, hbase, Bool.true_or]
  · exact hbase

theorem carries_assignAll (hcompound : st.compound = true) (secretTargets : List String) (t : Taint)
    (targets : List String) (h : s.carries f.facts l path = true) :
    s.carries (Track.each (s.assign st secretTargets t) targets f).2.facts l path = true := by
  apply Track.each_inv (fun g => s.carries g.facts l path = true) _ h
  intro target _ g hg
  obtain ⟨node, hfacts⟩ := s.assign_facts st secretTargets t target g
  rw [hfacts]
  exact carries_insert (fun htarget => contains_written_of_compound hcompound htarget secretTargets t) hg

theorem isSome_assignAll (secretTargets : List String) (t : Taint) {targets : List String}
    (h : key ∈ targets.map factKey ∨ (f.facts[key]?).isSome = true) :
    ((Track.each (s.assign st secretTargets t) targets f).2.facts[key]?).isSome = true := by
  induction targets generalizing f with
  | nil => exact h.resolve_left List.not_mem_nil
  | cons target rest ih =>
    apply ih (f := (s.assign st secretTargets t target f).2)
    obtain ⟨node, hfacts⟩ := s.assign_facts st secretTargets t target f
    rw [hfacts, Std.HashMap.getElem?_insert]
    by_cases hkey : factKey target = key
    · right
      simp [hkey]
    · rw [if_neg (by simpa using hkey)]
      exact h.imp_left fun hmem => (List.mem_cons.mp hmem).resolve_left fun heq => hkey heq.symm

/-! ## Statements -/

/-- A statement writes the fact of a key, and only as the receiver of a method that stores or as the target
of a compound assignment. -/
structure Adds (s : Site) (st : Statement) (f : Flow) (key : String) : Prop where
  touched : key ∈ st.binds ∨ st.evaluates = true ∧ s.Stores st.operands f key
  compound : key ∈ st.binds → (st.kind = .assignment ∨ st.kind = .declaration) ∧ st.compound = true
  unsanitized : ∀ removes, ¬s.Sanitizes st removes key

theorem effect_of_adds (ha : s.arena.Descends) (h : s.Adds st f (factKey path)) (secretTargets : List String) :
    ((s.effect st secretTargets f).2.facts[factKey path]?).isSome = true ∧
      ∀ l, s.carries f.facts l path = true → s.carries (s.effect st secretTargets f).2.facts l path = true := by
  by_cases hbinds : factKey path ∈ st.binds
  · obtain ⟨hkind, hcompound⟩ := h.compound hbinds
    rw [effect_of_assigns hkind]
    rw [Statement.binds_of_assigns hkind] at hbinds
    refine ⟨isSome_assignAll secretTargets _ (Or.inl hbinds), fun l hl => ?_⟩
    exact carries_assignAll hcompound secretTargets _ _ (carries_evalAll ha st.operands hl)
  · obtain ⟨hevaluates, hstores⟩ := h.touched.resolve_left hbinds
    -- Other facts may lose labels behind the operands, but this one stays.
    have hsame := effect_getElem?_of_not_binds hevaluates hbinds h.unsanitized secretTargets f
    have hsome := isSome_evalAll_of_stores ha hstores
    obtain ⟨t, ht⟩ := Option.isSome_iff_exists.mp hsome
    refine ⟨hsame ▸ hsome, fun l hl => ?_⟩
    have hkept := carries_evalAll ha st.operands hl
    rw [carries, lookup?_of_getElem? ht] at hkept
    rw [carries, lookup?_of_getElem? (hsame.trans ht)]
    exact hkept

theorem labels_effect_of_sanitizes (ha : s.arena.Descends) {removes : LabelSet}
    (h : s.Sanitizes st removes key) (hstores : ¬s.Stores st.operands f key) (secretTargets : List String) :
    (s.effect st secretTargets f).2.facts[key]?.map Taint.labels =
      f.facts[key]?.map fun t => t.labels.without removes := by
  rw [effect_of_sanitizes h, expression_getElem?_of_sanitizes h, evalAll_getElem?_of_not_stores ha hstores,
    Option.map_map]
  rfl

end Site

namespace SourceUnit

variable {u : SourceUnit} {x : ExtractedUnit} {registry : Registry} {options : AnalysisOptions}
variable {done : Array Facts} {flow : Flow} {scope : Scope} {k : Nat}

/-- A statement changes a fact only if it binds the key, stores into a receiver with the key, or sanitizes
a variable with the key on its own. Where it only stores or assigns in addition, the fact has all labels
that were known of its path. Where it only sanitizes, the fact has its labels less those removed. -/
theorem facts_framed (ha : x.arena.Descends) (hr : u.Reaches x registry options done (.within scope k) flow)
    (st : Statement) (key : String) :
    let s := u.siteIn x registry options done scope
    let here := s.atStatement st flow
    let start := s.matched st flow
    (x.Recorded → scope.statements[k]? = some st → ∃ flow', s.statement st flow = .ok flow') ∧
    ∀ flow', s.statement st flow = .ok flow' →
      (flow'.facts[key]? ≠ flow.facts[key]? → here.Writes st start key) ∧
      (here.Adds st start key → ∀ path, factKey path = key →
        ∃ t, flow'.facts[key]? = some t ∧
          ∀ l, s.carries flow.facts l path = true → t.labels.contains l = true) ∧
      (∀ removes, here.Sanitizes st removes key → ¬here.Stores st.operands start key →
        flow'.facts[key]?.map Taint.labels = flow.facts[key]?.map fun t => t.labels.without removes) := by
  intro s here start
  refine ⟨fun hx hst => Site.statement_ok hx.sound (hr.operand_lt hx hst) flow, fun flow' hok => ?_⟩
  rw [Site.eq_effect_of_statement hok]
  refine ⟨fun hchanged => ?_, ?_, fun removes hsanitizes hstores => ?_⟩
  · by_contra hwrites
    exact hchanged (Site.effect_getElem?_of_not_writes (s := here) ha hwrites _)
  · rintro hadds path rfl
    obtain ⟨hsome, hkept⟩ := Site.effect_of_adds (s := here) ha hadds (s.secrets st flow)
    obtain ⟨t, ht⟩ := Option.isSome_iff_exists.mp hsome
    refine ⟨t, ht, fun l hl => ?_⟩
    have hfinal := hkept l hl
    rw [Site.carries, Site.lookup?_of_getElem? ht] at hfinal
    exact hfinal
  · exact Site.labels_effect_of_sanitizes (s := here) ha hsanitizes hstores _

end SourceUnit

/-! ## A parameter that is stored into itself and escaped -/

namespace GrownParam

/-- A function with a parameter that it stores into itself and then escapes. -/
def unit : SourceUnit :=
  { id := "a.js", content := (Text.Utf8.encode "function f(a) { a.push(a); esc(a) }").toArray
    language := .javascript }

def rules : Registry := .ofOrdered
  [{ id := "esc", name := "esc", matcher := .sanitizer { callees := [⟨"esc", false⟩] } }]

def stored : Statement := { kind := .call, operands := [2], span := ⟨16, 25⟩, controlTag := 0 }

def escaped : Statement := { kind := .call, operands := [4], span := ⟨27, 33⟩, controlTag := 0 }

def scope : Scope :=
  { kind := .function, name := "f", params := [⟨"a", ⟨11, 12⟩⟩], headerSpan := ⟨0, 15⟩
    statements := #[stored, escaped] }

def recorded : ExtractedUnit :=
  { arena := ⟨#[⟨.variable "a", ⟨16, 17⟩⟩, ⟨.variable "a", ⟨23, 24⟩⟩, ⟨.call "a.push" (some 0) [1] false, ⟨16, 25⟩⟩,
      ⟨.variable "a", ⟨31, 32⟩⟩, ⟨.call "esc" none [3] false, ⟨27, 33⟩⟩], #[1, 1, 2, 1, 2]⟩
    scopes := #[scope], stats := { statements := 2, scopes := 1 } }

/-- The flow in front of the first statement: the parameter is untrusted. -/
def seeded : Flow :=
  { facts := ({} : Facts).insert "a" (.labelled (.of .untrusted) 0), nodes := #[⟨⟨11, 12⟩, 0, none⟩] }

def site : Site := unit.siteIn recorded rules {} #[] scope

theorem descends_recorded : recorded.arena.Descends := by decide +kernel

theorem seedParams_eq : (site.seedParams {}).2 = seeded := by
  have hentry : scope.isEntryPoint unit.language = true := by decide +kernel
  unfold Site.seedParams
  rw [if_pos]
  · rfl
  · exact Bool.and_eq_true_iff.mpr ⟨rfl, hentry⟩

theorem reaches_seeded : unit.Reaches recorded rules {} #[] (.within scope 0) seeded := by
  have hscope : recorded.scopes[(#[] : Array Facts).size]? = some scope := rfl
  have hstart : unit.Reaches recorded rules {} #[] .between {} := .start
  have henter := hstart.enter hscope
  change unit.Reaches recorded rules {} #[] (.within scope 0) (site.seedParams {}).2 at henter
  rw [seedParams_eq] at henter
  exact henter

theorem factKey_param : factKey "a" = "a" := by decide +kernel

theorem fact_param : seeded.facts["a"]? = some (.labelled (.of .untrusted) 0) := by
  simp [seeded]

theorem lookup?_param : site.lookup? seeded.facts "a" = some (.labelled (.of .untrusted) 0) :=
  Site.lookup?_of_getElem? (by rw [factKey_param, fact_param])

theorem matched_eq {st : Statement} (h : site.found st seeded = []) : site.matched st seeded = seeded := by
  rw [Site.matched, h]
  rfl

theorem eval_param {id : ExprId} {span : Span} (st : Statement)
    (he : recorded.arena.exprs[id]? = some ⟨.variable "a", span⟩) :
    (site.atStatement st seeded).eval id seeded = (.labelled (.of .untrusted) 0, seeded) := by
  rw [Site.eval_eq (s := site.atStatement st seeded) descends_recorded he]
  change (site.atStatement st seeded).read "a" span seeded = _
  have hsource : (site.atStatement st seeded).registry.sourceOfPath? "a"
      (site.atStatement st seeded).language = none := rfl
  have hlookup : (site.atStatement st seeded).lookup? seeded.facts "a" =
      some (.labelled (.of .untrusted) 0) := lookup?_param
  rw [Site.read_apply, hsource, hlookup]
  rfl

theorem adds_stored : (site.atStatement stored seeded).Adds stored (site.matched stored seeded) "a" where
  touched := by
    rw [matched_eq (by cbv)]
    refine Or.inr ⟨rfl, 2, seeded, ⟨.call "a.push" (some 0) [1] false, ⟨16, 25⟩⟩, "a", ?_, rfl, ?_, factKey_param⟩
    · have hoperands : stored.operands = [] ++ 2 :: [] := rfl
      exact .operand hoperands
    · refine ⟨⟨"a.push", 0, [1], false, rfl, rfl, by decide +kernel⟩, ?_⟩
      have hchildren : (Track.each (site.atStatement stored seeded).eval [0, 1] seeded).1 =
          [.labelled (.of .untrusted) 0, .labelled (.of .untrusted) 0] := by
        change [((site.atStatement stored seeded).eval 0 seeded).1, ((site.atStatement stored seeded).eval 1
          ((site.atStatement stored seeded).eval 0 seeded).2).1] = _
        rw [eval_param stored rfl, eval_param stored rfl]
      change (Taint.joinAll ((Track.each (site.atStatement stored seeded).eval [0, 1] seeded).1.drop 1)).isTainted = true
      rw [hchildren]
      rfl
  compound h := absurd h List.not_mem_nil
  unsanitized := by
    rintro removes ⟨args, hplace, _⟩
    have hnone : (site.atStatement stored seeded).inPlace? stored = none := by decide +kernel
    rw [hnone] at hplace
    cases hplace

theorem visits_escaped {f g : Flow} {id : ExprId} (h : (site.atStatement escaped seeded).Visits [4] f id g) :
    id = 4 ∨ id = 3 := by
  induction h with
  | operand hids =>
    left
    exact List.mem_singleton.mp (hids ▸ List.mem_append_right _ List.mem_cons_self)
  | child _ he hchildren ih =>
    right
    rcases ih with rfl | rfl
    · cases he
      have hchildren : [3] = _ := hchildren
      exact List.mem_singleton.mp (hchildren ▸ List.mem_append_right _ List.mem_cons_self)
    · cases he
      have hchildren : [] = _ := hchildren
      exact absurd (hchildren ▸ List.mem_append_right _ List.mem_cons_self) List.not_mem_nil

theorem not_stores_escaped (f : Flow) (key : String) :
    ¬(site.atStatement escaped seeded).Stores escaped.operands f key := by
  rintro ⟨id, g, e, path, hv, he, ⟨⟨callee, receiver, args, constructs, hkind, _⟩, _⟩, _⟩
  rcases visits_escaped hv with rfl | rfl
  · cases he
    cases hkind
  · cases he
    cases hkind

theorem inPlace?_escaped :
    (site.atStatement escaped seeded).inPlace? escaped = some (.of .untrusted, [3]) := by
  decide +kernel

theorem sanitizes_escaped : (site.atStatement escaped seeded).Sanitizes escaped (.of .untrusted) "a" :=
  ⟨[3], inPlace?_escaped, by decide +kernel⟩

theorem eq_of_sanitizes_escaped {removes : LabelSet} {key : String}
    (h : (site.atStatement escaped seeded).Sanitizes escaped removes key) : key = "a" := by
  obtain ⟨args, hplace, hargs⟩ := h
  rw [inPlace?_escaped] at hplace
  cases hplace
  have hkey : (factKey "a" == key || false) = true := hargs
  rw [factKey_param, Bool.or_false] at hkey
  exact (eq_of_beq hkey).symm

/-- The parameter keeps its label when it is stored into itself, loses it when it is escaped, and then
nothing else changes. -/
theorem facts_framed_param :
    (∃ flow', site.statement stored seeded = .ok flow' ∧
      ∃ t, flow'.facts["a"]? = some t ∧ t.labels.contains .untrusted = true) ∧
    ∃ flow', site.statement escaped seeded = .ok flow' ∧ flow'.facts["a"]?.map Taint.labels = some .empty ∧
      ∀ key, key ≠ "a" → flow'.facts[key]? = seeded.facts[key]? := by
  have hstored : ∃ flow', site.statement stored seeded = .ok flow' :=
    ⟨_, Site.statement_eq_ok_iff.mpr ⟨[], by cbv, rfl⟩⟩
  have hescaped : ∃ flow', site.statement escaped seeded = .ok flow' :=
    ⟨_, Site.statement_eq_ok_iff.mpr ⟨[], by cbv, rfl⟩⟩
  obtain ⟨flow₁, hok₁⟩ := hstored
  obtain ⟨flow₂, hok₂⟩ := hescaped
  refine ⟨⟨flow₁, hok₁, ?_⟩, flow₂, hok₂, ?_, fun key hkey => ?_⟩
  · obtain ⟨t, ht, hlabels⟩ :=
      ((SourceUnit.facts_framed descends_recorded reaches_seeded stored "a").2 flow₁ hok₁).2.1 adds_stored "a" factKey_param
    refine ⟨t, ht, hlabels .untrusted ?_⟩
    have hcarries : site.carries seeded.facts .untrusted "a" = true := by
      rw [Site.carries, lookup?_param]
      rfl
    exact hcarries
  · have hlabels := ((SourceUnit.facts_framed descends_recorded reaches_seeded escaped "a").2 flow₂ hok₂).2.2 _
      sanitizes_escaped (not_stores_escaped _ _)
    rw [hlabels, fact_param]
    rfl
  · by_contra hchanged
    rcases ((SourceUnit.facts_framed descends_recorded reaches_seeded escaped key).2 flow₂ hok₂).1 hchanged with
      htarget | ⟨_, hstores⟩ | hsanitizes
    · cases htarget
    · exact not_stores_escaped _ _ hstores
    · exact hkey (eq_of_sanitizes_escaped hsanitizes)

end GrownParam
end TaintScan
