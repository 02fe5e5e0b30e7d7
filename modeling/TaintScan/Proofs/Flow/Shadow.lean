import TaintScan.Proofs.Extract.Within
import TaintScan.Proofs.Flow.Direct
import TaintScan.Proofs.Flow.Isolation
import TaintScan.Proofs.Flow.Rebinding

/-! # Parameters and the scopes around

The fact that a parameter is seeded with hides what the scopes around know of the same name, but not
of a path below it. So before the scope writes it, it reads as its seed or as the secret of a scope
around.
-/
namespace TaintScan

theorem pathHeads_behind {name : String} (hname : '.' ∉ name.toList) (rest : String) :
    ∃ longer : List String, pathHeads (name ++ "." ++ rest) = longer ++ [name] ∧
      ∀ key ∈ longer, '.' ∈ key.toList := by
  have hsegment : ∀ c ∈ name.toList, (c == '.') = false := by
    intro c hc
    rw [beq_eq_false_iff_ne]
    rintro rfl
    exact hname hc
  refine ⟨((segmentHeads (Text.splitOn '.' rest)).map fun t => name ++ "." ++ t).reverse, ?_, ?_⟩
  · rw [pathHeads, Text.splitOn_dot hsegment, segmentHeads_cons (Text.splitOn_ne_nil rest), List.reverse_cons]
  · intro key hkey
    obtain ⟨t, -, rfl⟩ := List.mem_map.mp (List.mem_reverse.mp hkey)
    simp

namespace Site

variable {s : Site} {facts : Facts} {name path : String}

def seeds (s : Site) : Bool := s.seed && s.scope.isEntryPoint s.language

/-- A scope around has a secret for the path, or for a path above it, that the fact of a seeded parameter
does not hide. -/
def seesPast (s : Site) (name path : String) : Bool :=
  (pathHeads (factKey path)).any fun key => (s.seen? key).isSome && !(s.seeds && key == name)

/-! ## Entering a scope -/

def untrustedIn (facts : Facts) (key : String) : Prop :=
  ∃ t, facts[key]? = some t ∧ t.labels = .of .untrusted

theorem untrustedIn_insert {facts : Facts} {key other : String} (h : other = key ∨ untrustedIn facts key)
    (node : NodeId) : untrustedIn (facts.insert other (.labelled (.of .untrusted) node)) key := by
  unfold untrustedIn
  rw [Std.HashMap.getElem?_insert]
  split
  · exact ⟨_, rfl, rfl⟩
  · next hne => exact h.resolve_left fun heq => hne (by simpa using heq)

theorem seedParams_untrustedIn (h : s.seeds = true) {p : Param} (hp : p ∈ s.scope.params) (f : Flow) :
    untrustedIn (s.seedParams f).2.facts p.name := by
  unfold seedParams
  rw [seeds] at h
  rw [h]
  exact Track.each_establishes (fun _ => True) (fun g => untrustedIn g.facts p.name) hp (fun _ _ _ _ => trivial)
    (fun g _ => untrustedIn_insert (Or.inl rfl) g.nodes.size)
    (fun q _ g hg => untrustedIn_insert (Or.inr hg) g.nodes.size) trivial

theorem seedParams_getElem?_of_not_mem {key : String} (hkey : ∀ p ∈ s.scope.params, p.name ≠ key) (f : Flow) :
    (s.seedParams f).2.facts[key]? = f.facts[key]? := by
  unfold seedParams
  split
  · refine Track.each_inv (fun g => g.facts[key]? = f.facts[key]?) (fun p hp g hg => ?_) rfl
    change (g.facts.insert p.name _)[key]? = _
    rw [Std.HashMap.getElem?_insert, if_neg (by simpa using hkey p hp), hg]
  · rfl

theorem seedParams_of_not_seeds (h : s.seeds = false) (f : Flow) : (s.seedParams f).2 = f := by
  unfold seedParams
  rw [seeds] at h
  rw [h]
  rfl

/-! ## Reading before writing -/

/-- Facts that a path below a parameter has as on entry: nothing for a longer path, and for the name only
the seed. -/
structure Unwritten (s : Site) (facts : Facts) (name : String) (longer : List String) : Prop where
  longer : ∀ key ∈ longer, key ≠ name ∧ facts[key]? = none
  seeded : s.seeds = true → untrustedIn facts name
  unseeded : s.seeds = false → facts[name]? = none

theorem seesPast_eq {longer : List String} (hheads : pathHeads (factKey path) = longer ++ [name])
    (hne : ∀ key ∈ longer, key ≠ name) :
    s.seesPast name path =
      ((longer.findSome? s.seen?).isSome || ((s.seen? name).isSome && !s.seeds)) := by
  have hlonger : (longer.any fun key => (s.seen? key).isSome && !(s.seeds && key == name)) =
      (longer.findSome? s.seen?).isSome := by
    rw [Bool.eq_iff_iff, List.any_eq_true, List.findSome?_isSome_iff]
    refine exists_congr fun key => and_congr_right fun hkey => ?_
    rw [beq_false_of_ne (hne key hkey), Bool.and_false, Bool.not_false, Bool.and_true]
  rw [seesPast, hheads, List.any_append, hlonger, List.any_cons, List.any_nil, Bool.or_false,
    beq_self_eq_true, Bool.and_true]

/-- Before it is written, a path below a parameter has the secret of a scope around that is not hidden, or
else the seed. -/
theorem Unwritten.lookup? {longer : List String} (h : s.Unwritten facts name longer)
    (hheads : pathHeads (factKey path) = longer ++ [name]) :
    ((s.lookup? facts path).getD .clean).labels =
        (if s.seesPast name path then .of .secret else if s.seeds then .of .untrusted else .empty) ∧
      ((s.lookup? facts path).isNone = (!s.seesPast name path && !s.seeds)) := by
  have hknown : ∀ key ∈ longer, s.known? facts key = s.seen? key := by
    intro key hkey
    rw [known?, (h.longer key hkey).2]
    rfl
  rw [lookup?_eq, hheads, List.findSome?_append, findSome?_congr hknown,
    seesPast_eq hheads fun key hkey => (h.longer key hkey).1]
  cases hfound : longer.findSome? s.seen? with
  | some t =>
    obtain ⟨key, -, hseen⟩ := List.exists_of_findSome?_eq_some hfound
    exact ⟨labels_of_seen? hseen, rfl⟩
  | none =>
    rw [List.findSome?_cons, List.findSome?_nil, Option.none_or]
    cases hseeds : s.seeds with
    | true =>
      obtain ⟨t, ht, hlabels⟩ := h.seeded hseeds
      rw [known?_of_getElem? ht, Bool.not_true, Bool.and_false]
      exact ⟨hlabels, rfl⟩
    | false =>
      have hname : s.known? facts name = s.seen? name := by
        rw [known?, h.unseeded hseeds]
        rfl
      rw [hname]
      cases hseen : s.seen? name with
      | some t => exact ⟨labels_of_seen? hseen, rfl⟩
      | none => exact ⟨rfl, rfl⟩

/-- The label that a path has as a source. -/
def sourceLabels (s : Site) (path : String) : LabelSet :=
  (s.registry.sourceOfPath? path s.language).elim .empty fun hit => .of hit.2

theorem read_labels (s : Site) (path : String) (span : Span) (f : Flow) :
    (s.read path span f).1.labels = (s.sourceLabels path).union ((s.lookup? f.facts path).getD .clean).labels := by
  rw [read_apply, sourceLabels]
  cases s.registry.sourceOfPath? path s.language with
  | none => simp [LabelSet.union, LabelSet.empty]
  | some hit => rfl

end Site

namespace SourceUnit

variable {u : SourceUnit} {x : ExtractedUnit} {registry : Registry} {options : AnalysisOptions}
variable {done : Array Facts} {flow : Flow} {scope : Scope} {k : Nat}

theorem Reaches.entered (h : u.Reaches x registry options done (.within scope k) flow) :
    ∃ outer : Flow, u.Reaches x registry options done (.within scope 0)
      ((u.siteIn x registry options done scope).seedParams { outer with facts := {} }).2 := by
  generalize hstage : Stage.within scope k = stage at h
  induction h generalizing k with
  | start => cases hstage
  | enter hr hscope _ =>
    cases hstage
    exact ⟨_, hr.enter hscope⟩
  | step _ _ _ ih =>
    cases hstage
    exact ih rfl
  | leave _ _ _ => cases hstage

theorem undotted_param {bound : Nat} {c c' : Countdown} (hx : u.extract bound c = (.ok x, c'))
    (hscope : scope ∈ x.scopes) {p : Param} (hp : p ∈ scope.params) : '.' ∉ p.name.toList :=
  (List.forall₂_same.mp (extract_within hx).scopes scope (Array.mem_toList_iff.mpr hscope)).paramNames p hp

theorem pathHeads_param {name path : String} (hname : '.' ∉ name.toList)
    (hpath : path = name ∨ name ∉ currentObject ∧ ∃ rest, path = name ++ "." ++ rest) :
    ∃ longer : List String, pathHeads (factKey path) = longer ++ [name] ∧ (∀ key ∈ longer, '.' ∈ key.toList) ∧
      (path = name → longer = []) := by
  rcases hpath with rfl | ⟨hobject, rest, rfl⟩
  · exact ⟨[], by rw [factKey_of_undotted hname, pathHeads_of_undotted hname]; rfl, List.forall_mem_nil _, fun _ => rfl⟩
  · obtain ⟨longer, hheads, hdots⟩ := pathHeads_behind hname rest
    rw [factKey_append hobject, factKey_of_undotted hname]
    refine ⟨longer, hheads, hdots, fun heq => absurd ?_ hname⟩
    rw [← heq]
    simp

/-- In an extracted unit, as long as a scope has written neither a parameter nor the path below it that is
read: the read has the label of a source that the path is, and beside it the secret of a scope around if one
is not hidden, or else the label that the parameter was seeded with. Nothing is known of the path if there is
neither. A seeded parameter hides its own name, and no other. -/
theorem parameter_read_unwritten {bound : Nat} {c c' : Countdown} (hx : u.extract bound c = (.ok x, c'))
    (hr : u.Reaches x registry options done (.within scope k) flow) {p : Param} (hp : p ∈ scope.params)
    {path : String} (hpath : path = p.name ∨ p.name ∉ currentObject ∧ ∃ rest, path = p.name ++ "." ++ rest) :
    let s := u.siteIn x registry options done scope
    (∀ i f st, i < k → u.Reaches x registry options done (.within scope i) f → scope.statements[i]? = some st →
      ∀ key ∈ pathHeads (factKey path), ¬(s.atStatement st f).Writes st (s.matched st f) key) →
    ∀ (st : Statement) (span : Span) (g : Flow),
      (∀ key ∈ pathHeads (factKey path), g.facts[key]? = flow.facts[key]?) →
      ((s.atStatement st flow).read path span g).1.labels = (s.sourceLabels path).union
        (if s.seesPast p.name path then .of .secret else if s.seeds then .of .untrusted else .empty) ∧
      (s.lookup? g.facts path).isNone = (!s.seesPast p.name path && !s.seeds) ∧
      (path = p.name → s.seesPast p.name path = ((s.seen? p.name).isSome && !s.seeds)) := by
  intro s hunwritten st span g hg
  have hscope := Array.mem_of_getElem? hr.scope_eq
  have hname := undotted_param hx hscope hp
  obtain ⟨longer, hheads, hdots, hself⟩ := pathHeads_param hname hpath
  obtain ⟨outer, hentry⟩ := hr.entered
  have hfacts : ∀ key ∈ pathHeads (factKey path), g.facts[key]? =
      (s.seedParams { outer with facts := {} }).2.facts[key]? := fun key hkey =>
    (hg key hkey).trans (hentry.getElem?_of_not_writes (extract_recorded hx) hr (Nat.zero_le k)
      fun i f st _ hi hri hst => hunwritten i f st hi hri hst key hkey)
  have hmem : p.name ∈ pathHeads (factKey path) := by
    rw [hheads]
    exact List.mem_append_right _ List.mem_cons_self
  have hunwritten : s.Unwritten g.facts p.name longer :=
    { longer := by
        intro key hkey
        refine ⟨fun heq => hname (heq ▸ hdots key hkey), ?_⟩
        rw [hfacts key (by rw [hheads]; exact List.mem_append_left _ hkey), Site.seedParams_getElem?_of_not_mem]
        · exact Std.HashMap.getElem?_empty
        · exact fun q hq heq => undotted_param hx hscope hq (heq ▸ hdots key hkey)
      seeded := by
        intro hseeds
        rw [Site.untrustedIn, hfacts _ hmem]
        exact Site.seedParams_untrustedIn hseeds hp _
      unseeded := by
        intro hseeds
        rw [hfacts _ hmem, Site.seedParams_of_not_seeds hseeds]
        exact Std.HashMap.getElem?_empty }
  obtain ⟨hlabels, hnone⟩ := hunwritten.lookup? hheads
  refine ⟨?_, hnone, fun heq => ?_⟩
  · rw [Site.read_labels, ← hlabels]
    rfl
  · rw [Site.seesPast_eq hheads fun key hkey => (hunwritten.longer key hkey).1, hself heq]
    rfl

end SourceUnit

namespace ShadowedParam

/-- A parameter of a function that is not entered from outside has the name of a secret of the module. -/
def unit : SourceUnit :=
  { id := "a.py", content := (Text.Utf8.encode "p = key()\ndef _f(p):\n    run(p)\n").toArray, language := .python }

def rules : Registry := .ofOrdered
  [{ id := "key", name := "key", matcher := .source { callees := [⟨"key", false⟩], label := .secret } },
   { id := "run", name := "run", category := some .informationDisclosure
     matcher := .sink { callees := [⟨"run", false⟩], requires := .of .secret } }]

def secret : Statement :=
  { kind := .assignment, targets := ["p"], operands := [1], span := ⟨0, 9⟩, controlTag := 0 }

def passed : Statement := { kind := .call, operands := [3], span := ⟨25, 31⟩, controlTag := 0 }

def outerScope : Scope :=
  { kind := .module, name := "", headerSpan := ⟨0, 0⟩, statements := #[secret] }

def innerScope : Scope :=
  { kind := .function, name := "_f", params := [⟨"p", ⟨17, 18⟩⟩], headerSpan := ⟨10, 20⟩, parent := some 0
    parentKind := some .module, statements := #[passed] }

def extracted : ExtractedUnit :=
  { arena := ⟨#[⟨.variable "p", ⟨0, 1⟩⟩, ⟨.call "key" none [] false, ⟨4, 9⟩⟩, ⟨.variable "p", ⟨29, 30⟩⟩,
      ⟨.call "run" none [2] false, ⟨25, 31⟩⟩], #[1, 1, 1, 2]⟩
    scopes := #[outerScope, innerScope], stats := { statements := 2, scopes := 2 } }

theorem extract_unit : unit.extract 3 .never = (.ok extracted, .never) := by
  decide +kernel

def outerSite : Site := unit.siteIn extracted rules {} #[] outerScope

def bound : Flow :=
  { facts := ({} : Facts).insert "p" (.labelled (.of .secret) 1)
    nodes := #[⟨⟨4, 9⟩, 0, none⟩, ⟨⟨0, 9⟩, 0, none⟩] }

def innerSite : Site := unit.siteIn extracted rules {} #[bound.facts] innerScope

/-- The flow in which the function is entered: its parameter has no fact. -/
def entered : Flow := { nodes := bound.nodes }

theorem factKey_param : factKey "p" = "p" := by decide +kernel

theorem pathHeads_param : pathHeads "p" = ["p"] := by decide +kernel

theorem eval_source : (outerSite.atStatement secret {}).eval 1 {} =
    (.labelled (.of .secret) 0, { nodes := #[⟨⟨4, 9⟩, 0, none⟩] }) := by
  obtain ⟨⟨rule, label⟩, hsource, hlabel⟩ :
      ∃ hit, rules.sourceOfCall? "key" false .python = some hit ∧ hit.2 = .secret :=
    Option.map_eq_some_iff.mp (by decide +kernel)
  cases hlabel
  have hsource : (outerSite.atStatement secret {}).registry.sourceOfCall? "key" false
      (outerSite.atStatement secret {}).language = some (rule, .secret) := hsource
  change (outerSite.atStatement secret {}).callResult ⟨4, 9⟩ "key" false (Taint.clean.join .clean)
    ((outerSite.atStatement secret {}).reportSinks ⟨4, 9⟩ "key" false [] {}).2 = _
  rw [Site.reportSinks_of_unhit _ (fun _ => rfl), Site.callResult_apply, hsource]
  rfl

theorem statement_secret : outerSite.statement secret {} = .ok bound := by
  have hsinks : (outerSite.atStatement secret {}).registry.sinksOfTarget "p"
      (outerSite.atStatement secret {}).language = [] := List.isEmpty_iff.mp (by decide +kernel)
  have hreport (t : Taint) (f : Flow) :
      (outerSite.atStatement secret {}).reportTargetSinks "p" secret.operands.head? t f = ((), f) := by
    unfold Site.reportTargetSinks
    rw [hsinks]
    split
    · rfl
    · rfl
  refine Site.statement_eq_ok_iff.mpr ⟨[], by cbv, ?_⟩
  change ((outerSite.atStatement secret {}).assign secret [] ((outerSite.atStatement secret {}).eval 1 {}).1 "p"
    ((outerSite.atStatement secret {}).eval 1 {}).2).2 = bound
  rw [eval_source, Site.assign_apply, hreport]
  change (Track.setFact "p" (.labelled (.of .secret) 1) { nodes := bound.nodes }).2 = bound
  rw [Track.setFact, factKey_param]
  rfl

theorem reaches_inner : unit.Reaches extracted rules {} #[bound.facts] (.within innerScope 0) entered := by
  have houter : unit.Reaches extracted rules {} #[] (.within outerScope 0) {} := .enter .start rfl
  exact ((houter.step rfl statement_secret).leave rfl).enter rfl

theorem seen?_param : innerSite.seen? "p" = some (.labelled (.of .secret) 1) := by
  change [bound.facts].findSome? (fun outer => outer["p"]? >>= Taint.exported?) = _
  rw [List.findSome?_cons, bound, Std.HashMap.getElem?_insert_self]
  rfl

/-- The parameter reads as the secret of the module, since nothing hides it. -/
theorem parameter_read_unwritten_secret :
    unit.extract 3 .never = (.ok extracted, .never) ∧
      unit.Reaches extracted rules {} #[bound.facts] (.within innerScope 0) entered ∧
      ⟨"p", ⟨17, 18⟩⟩ ∈ innerScope.params ∧ innerSite.seeds = false ∧ innerSite.seesPast "p" "p" = true ∧
      ((innerSite.atStatement passed entered).read "p" ⟨29, 30⟩ entered).1.labels = .of .secret := by
  have hseeds : innerSite.seeds = false := by decide +kernel
  obtain ⟨hlabels, -, hself⟩ := SourceUnit.parameter_read_unwritten extract_unit reaches_inner
    (List.mem_singleton_self (⟨"p", ⟨17, 18⟩⟩ : Param)) (Or.inl rfl)
    (fun i _ _ hi => absurd hi (Nat.not_lt_zero i)) passed ⟨29, 30⟩ entered fun _ _ => rfl
  have hpast : innerSite.seesPast "p" "p" = true := by
    refine (hself rfl).trans ?_
    change ((innerSite.seen? "p").isSome && !innerSite.seeds) = true
    rw [seen?_param, hseeds]
    rfl
  refine ⟨extract_unit, reaches_inner, List.mem_singleton_self _, hseeds, hpast, hlabels.trans ?_⟩
  change (innerSite.sourceLabels "p").union (if innerSite.seesPast "p" "p" then _ else _) = _
  rw [hpast]
  decide +kernel

theorem eval_param : (innerSite.atStatement passed entered).eval 2 entered = (.labelled (.of .secret) 1, entered) := by
  change (innerSite.atStatement passed entered).read "p" ⟨29, 30⟩ entered = _
  have hsource : (innerSite.atStatement passed entered).registry.sourceOfPath? "p"
      (innerSite.atStatement passed entered).language = none := rfl
  have hknown : (innerSite.atStatement passed entered).known? entered.facts "p" =
      some (.labelled (.of .secret) 1) := by
    have hnone : entered.facts["p"]? = none := Std.HashMap.getElem?_empty
    rw [Site.known?, hnone]
    exact seen?_param
  have hlookup : (innerSite.atStatement passed entered).lookup? entered.facts "p" =
      some (.labelled (.of .secret) 1) := by
    rw [Site.lookup?_eq, factKey_param, pathHeads_param, List.findSome?_cons, hknown]
  rw [Site.read_apply, hsource, hlookup]
  rfl

/-- So the call is reported with the path of that secret. -/
theorem track_reports_shadowed :
    ∃ c, unit.extract 3 .never = (.ok extracted, .never) ∧
      innerScope.params.map Param.name = ["p"] ∧ innerSite.seeds = false ∧
      unit.track extracted rules {} .never = (.ok [c], .never) ∧ c.path = [⟨0, 9⟩] ∧ c.span = passed.span := by
  let after := ((innerSite.atStatement passed entered).finish ⟨.call "run" none [2] false, ⟨25, 31⟩⟩
    [.labelled (.of .secret) 1] entered).2
  have hok : innerSite.statement passed entered = .ok after := by
    have hplace : (innerSite.atStatement passed entered).inPlace? passed = none := by cbv
    have hcall : (innerSite.atStatement passed entered).arena.exprs[3]? =
        some ⟨.call "run" none [2] false, ⟨25, 31⟩⟩ := rfl
    have harena : (innerSite.atStatement passed entered).arena.Sound :=
      (SourceUnit.extract_recorded extract_unit).sound
    refine Site.statement_eq_ok_iff.mpr ⟨[], by cbv, ?_⟩
    change ((innerSite.atStatement passed entered).expression passed entered).2 = after
    rw [Site.expression_apply, hplace]
    change ((innerSite.atStatement passed entered).eval 3 entered).2 = after
    rw [Site.eval_eq harena.descends hcall, Track.bind_apply]
    change ((innerSite.atStatement passed entered).finish _ [((innerSite.atStatement passed entered).eval 2 entered).1]
      ((innerSite.atStatement passed entered).eval 2 entered).2).2 = after
    rw [eval_param]
  have htrack := ((reaches_inner.step rfl hok).leave rfl).track_eq (Nat.le_refl 2)
  have hcandidates : after.candidates.toList.map (fun c => (c.path, c.span)) = [([⟨0, 9⟩], ⟨25, 31⟩)] := by
    decide +kernel
  obtain ⟨c, hc, heq⟩ := List.map_eq_singleton_iff.mp hcandidates
  refine ⟨c, extract_unit, rfl, by decide +kernel, by rw [htrack, hc], ?_⟩
  exact ⟨congrArg Prod.fst heq, congrArg Prod.snd heq⟩

end ShadowedParam
end TaintScan
