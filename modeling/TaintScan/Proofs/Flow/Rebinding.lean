import TaintScan.Proofs.Flow.History
import TaintScan.Proofs.Flow.Writes

/-! # Rebinding a path

An assignment that is not compound gives the labels of its value to its targets and to the paths
below them, unless something is known of a longer path: the fact of a member stays when the whole is
bound anew, and hides the assignment.
-/
namespace TaintScan

theorem Statement.binds_of_assigns {st : Statement} (hkind : st.kind = .assignment ∨ st.kind = .declaration) :
    st.binds = st.targets.map factKey := by
  rcases hkind with hkind | hkind
  · rw [Statement.binds, hkind]
  · rw [Statement.binds, hkind]

namespace Site

variable {s : Site} {st : Statement}

/-! ## Targets of a plain assignment -/

theorem effect_of_assigns (hkind : st.kind = .assignment ∨ st.kind = .declaration)
    (secretTargets : List String) (f : Flow) :
    (s.effect st secretTargets f).2 =
      (Track.each (s.assign st secretTargets ((Track.each s.eval st.operands f).1.headD .clean)) st.targets
        (Track.each s.eval st.operands f).2).2 := by
  unfold effect
  rcases hkind with hkind | hkind
  · rw [hkind]
    rfl
  · rw [hkind]
    rfl

def targetLabels (secretTargets : List String) (value : Taint) (target : String) : LabelSet :=
  if secretTargets.contains target then value.labels.insert .secret else value.labels

theorem labels_written (hplain : st.compound = false) (secretTargets : List String) (value : Taint)
    (target : String) (facts : Facts) :
    (s.written st secretTargets value target facts).labels = targetLabels secretTargets value target := by
  unfold written targetLabels
  rw [hplain]
  dsimp only
  split
  · rfl
  · rfl

theorem assignAll_labels (hplain : st.compound = false) (secretTargets : List String) (value : Taint)
    {targets : List String} {key : String} (hkey : key ∈ targets.map factKey) (f : Flow) :
    ∃ target ∈ targets, factKey target = key ∧
      ∃ t, (Track.each (s.assign st secretTargets value) targets f).2.facts[key]? = some t ∧
        t.labels = targetLabels secretTargets value target := by
  induction targets generalizing f with
  | nil => cases hkey
  | cons target rest ih =>
    by_cases hrest : key ∈ rest.map factKey
    · obtain ⟨other, hother, hfound⟩ := ih hrest (s.assign st secretTargets value target f).2
      exact ⟨other, List.mem_cons_of_mem _ hother, hfound⟩
    · -- No later target has the key.
      have hself : factKey target = key := by
        rcases List.mem_cons.mp hkey with hkey | hkey
        · exact hkey.symm
        · exact absurd hkey hrest
      obtain ⟨node, hfacts⟩ := s.assign_facts st secretTargets value target f
      have hlast : (Track.each (s.assign st secretTargets value) (target :: rest) f).2.facts[key]? =
          some { s.written st secretTargets value target f.facts with node } := by
        change (Track.each (s.assign st secretTargets value) rest
          (s.assign st secretTargets value target f).2).2.facts[key]? = _
        rw [each_getElem?_of_not_mem (fun _ _ hne => assign_getElem?_of_ne hne secretTargets value _) hrest,
          hfacts, ← hself, Std.HashMap.getElem?_insert_self]
      exact ⟨target, List.mem_cons_self, hself, _, hlast, labels_written hplain secretTargets value target f.facts⟩

/-! ## Paths below a target -/

/-- Something is known of a path at or above another one that is longer than all that is bound there. -/
structure Masks (known : String → Option Taint) (binds : List String) (path key : String) : Prop where
  above : key ∈ pathHeads (factKey path)
  known : (known key).isSome = true
  unbound : key ∉ binds
  longer : ∀ bound ∈ binds, bound ∈ pathHeads (factKey path) → bound ∈ pathHeads key

theorem not_masks_target {known : String → Option Taint} {binds : List String} {target key : String}
    (htarget : factKey target ∈ binds) : ¬Masks known binds target key := by
  intro h
  have hlonger := h.longer _ htarget (mem_pathHeads_self _)
  exact h.unbound (eq_of_mem_pathHeads h.above hlonger ▸ htarget)

theorem known?_of_getElem? {facts : Facts} {key : String} {t : Taint} (h : facts[key]? = some t) :
    s.known? facts key = some t := by
  rw [known?, h]
  rfl

/-- Of all that is known or bound at or above a path the longest is found, when something is bound there
and nothing else has changed. -/
theorem exists_found {f g : Flow} {r : String} (hbound : ∀ key ∈ st.binds, (g.facts[key]?).isSome = true)
    (hsame : ∀ key, key ∉ st.binds → g.facts[key]? = f.facts[key]?)
    (hr : ∃ bound ∈ st.binds, bound ∈ pathHeads (factKey r)) :
    ∃ key ∈ pathHeads (factKey r), s.lookup? g.facts r = s.known? g.facts key ∧
      (∀ other ∈ pathHeads (factKey r), other ∈ st.binds ∨ (s.known? f.facts other).isSome = true →
        other ∈ pathHeads key) ∧
      (key ∉ st.binds → (s.known? f.facts key).isSome = true ∧ s.lookup? g.facts r = s.lookup? f.facts r) := by
  have hknown {key : String} (hkey : key ∈ st.binds) : (s.known? g.facts key).isSome = true := by
    obtain ⟨t, ht⟩ := Option.isSome_iff_exists.mp (hbound key hkey)
    rw [known?_of_getElem? ht]
    rfl
  have hother {key : String} (hkey : key ∉ st.binds) : s.known? g.facts key = s.known? f.facts key := by
    rw [known?, known?, hsame key hkey]
  obtain ⟨t, ht⟩ : ∃ t, s.lookup? g.facts r = some t := by
    obtain ⟨bound, hmem, hbound⟩ := hr
    rw [← Option.isSome_iff_exists, lookup?_eq, List.findSome?_isSome_iff]
    exact ⟨bound, hbound, hknown hmem⟩
  rw [lookup?_eq] at ht
  obtain ⟨between, key, shorter, hsplit, hkey, hnone⟩ := List.findSome?_eq_some_iff.mp ht
  have hbetween {other : String} (h : other ∈ between) :
      other ∉ st.binds ∧ s.known? f.facts other = none := by
    have hunbound : other ∉ st.binds := by
      intro hmem
      have hsome := hknown hmem
      rw [hnone other h] at hsome
      cases hsome
    exact ⟨hunbound, hother hunbound ▸ hnone other h⟩
  refine ⟨key, ?_, ht.trans hkey.symm, fun other hmem hsome => ?_, fun hunbound => ⟨?_, ?_⟩⟩
  · rw [hsplit]
    exact List.mem_append_right _ List.mem_cons_self
  · rw [pathHeads_of_split hsplit]
    rw [hsplit, List.mem_append] at hmem
    refine hmem.resolve_left fun h => ?_
    rcases hsome with hbound | hsome
    · exact (hbetween h).1 hbound
    · rw [(hbetween h).2] at hsome
      cases hsome
  · rw [← hother hunbound, hkey]
    rfl
  · rw [lookup?_eq, lookup?_eq, ht]
    refine (List.findSome?_eq_some_iff.mpr ⟨between, key, shorter, hsplit, ?_, fun other h => ?_⟩).symm
    · rw [← hother hunbound, hkey]
    · exact (hbetween h).2

/-- Behind a plain assignment, a path below a target has the labels of the value, unless a longer path
masks the target; then it is what it was. -/
theorem lookup?_assignment (hbinds : st.binds = st.targets.map factKey) (hplain : st.compound = false)
    (secretTargets : List String) (value : Taint) {p r : String} (hp : p ∈ st.targets)
    (hr : factKey p ∈ pathHeads (factKey r)) (f : Flow) :
    ((∀ key, ¬Masks (s.known? f.facts) st.binds r key) →
      ∃ target ∈ st.targets, factKey p ∈ pathHeads (factKey target) ∧
        factKey target ∈ pathHeads (factKey r) ∧
        ∃ t, s.lookup? (Track.each (s.assign st secretTargets value) st.targets f).2.facts r = some t ∧
          t.labels = targetLabels secretTargets value target) ∧
    ((∃ key, Masks (s.known? f.facts) st.binds r key) →
      s.lookup? (Track.each (s.assign st secretTargets value) st.targets f).2.facts r =
        s.lookup? f.facts r) := by
  have hbound {key : String} (hkey : key ∈ st.binds) :=
    assignAll_labels (s := s) hplain secretTargets value (hbinds ▸ hkey) f
  have hsame (key : String) (hkey : key ∉ st.binds) :
      (Track.each (s.assign st secretTargets value) st.targets f).2.facts[key]? = f.facts[key]? :=
    each_getElem?_of_not_mem (fun _ _ hne => assign_getElem?_of_ne hne secretTargets value _) (hbinds ▸ hkey) f
  generalize (Track.each (s.assign st secretTargets value) st.targets f).2 = g at hbound hsame
  have hpbinds : factKey p ∈ st.binds := hbinds ▸ List.mem_map_of_mem hp
  have hsome : ∀ key ∈ st.binds, (g.facts[key]?).isSome = true := by
    intro key hkey
    obtain ⟨_, _, _, t, ht, _⟩ := hbound hkey
    rw [ht]
    rfl
  obtain ⟨key, hkeyr, hfound, hlongest, hold⟩ := s.exists_found hsome hsame ⟨_, hpbinds, hr⟩
  by_cases hmem : key ∈ st.binds
  · refine ⟨fun _ => ?_, ?_⟩
    · obtain ⟨target, htarget, rfl, t, ht, hlabels⟩ := hbound hmem
      rw [known?_of_getElem? ht] at hfound
      exact ⟨target, htarget, hlongest _ hr (Or.inl hpbinds), hkeyr, t, hfound, hlabels⟩
    · rintro ⟨other, hmasks⟩
      -- The mask is not longer than what is found, and all that is bound is shorter than the mask.
      have heq := eq_of_mem_pathHeads (hlongest other hmasks.above (Or.inr hmasks.known))
        (hmasks.longer key hmem hkeyr)
      exact absurd (heq ▸ hmem) hmasks.unbound
  · obtain ⟨hknown, hlookup⟩ := hold hmem
    refine ⟨fun hnone => absurd ⟨hkeyr, hknown, hmem, fun bound hb hbr => ?_⟩ (hnone key), fun _ => hlookup⟩
    exact hlongest bound hbr (Or.inl hb)

end Site

/-! ## Along a scope -/

namespace SourceUnit

variable {u : SourceUnit} {x : ExtractedUnit} {registry : Registry} {options : AnalysisOptions}
variable {done : Array Facts} {flow flow' : Flow} {scope : Scope} {k j : Nat}

theorem Reaches.getElem?_of_not_writes (hx : x.Recorded)
    (h : u.Reaches x registry options done (.within scope k) flow)
    (h' : u.Reaches x registry options done (.within scope j) flow') (hle : k ≤ j) {key : String}
    (hframe : ∀ i g st, k ≤ i → i < j → u.Reaches x registry options done (.within scope i) g →
      scope.statements[i]? = some st →
      ¬((u.siteIn x registry options done scope).atStatement st g).Writes st
        ((u.siteIn x registry options done scope).matched st g) key) :
    flow'.facts[key]? = flow.facts[key]? := by
  induction j generalizing flow' with
  | zero =>
    cases Nat.le_zero.mp hle
    obtain ⟨_, rfl⟩ := h.unique h' rfl rfl
    rfl
  | succ j ih =>
    by_cases hk : k = j + 1
    · subst hk
      obtain ⟨_, rfl⟩ := h.unique h' rfl rfl
      rfl
    · have hkj : k ≤ j := by omega
      cases h' with
      | @step _ g _ _ _ st hr hst hok =>
        rw [Site.statement_eq hx.sound (hr.operand_lt hx hst)] at hok
        have hsite : ((u.siteIn x registry options done scope).atStatement st g).arena.Sound := hx.sound
        have hstep := Site.effect_getElem?_of_not_writes hsite.descends
          (hframe j g st hkj (Nat.lt_succ_self j) hr hst) ((u.siteIn x registry options done scope).secrets st g)
        have hbefore := ih hr hkj fun i g st hi hij => hframe i g st hi (Nat.lt_succ_of_lt hij)
        rw [← Except.ok.inj hok]
        exact hstep.trans hbefore

/-- After a plain assignment to a path, the path has the labels of the value, with the label secret if a
hard-coded secret is assigned, and so has every path that extends it, as long as no statement writes a
path above or below it. A longer path of which something was known before hides the assignment: what it
hides stays as it was. -/
theorem rebinding_seen_below {bound : Nat} {c c' : Countdown} (hx : u.extract bound c = (.ok x, c'))
    (hr : u.Reaches x registry options done (.within scope k) flow) {st : Statement}
    (hst : scope.statements[k]? = some st) (hkind : st.kind = .assignment ∨ st.kind = .declaration)
    (hplain : st.compound = false) {p : String} (hp : p ∈ st.targets) :
    let s := u.siteIn x registry options done scope
    let operands := Track.each (s.atStatement st flow).eval st.operands (s.matched st flow)
    (∃ flow₁, s.statement st flow = .ok flow₁) ∧
    ∀ j flow₂, k < j → u.Reaches x registry options done (.within scope j) flow₂ →
      (∀ i g st', k < i → i < j → u.Reaches x registry options done (.within scope i) g →
        scope.statements[i]? = some st' →
        ∀ key, key ∈ pathHeads (factKey p) ∨ factKey p ∈ pathHeads key →
          ¬(s.atStatement st' g).Writes st' (s.matched st' g) key) →
      ∀ r, r = p ∨ p ∉ currentObject ∧ (∃ q, r = p ++ "." ++ q) →
        (r = p → ∀ key, ¬Site.Masks (s.known? operands.2.facts) st.binds r key) ∧
        ((∀ key, ¬Site.Masks (s.known? operands.2.facts) st.binds r key) →
          ∃ target ∈ st.targets, factKey p ∈ pathHeads (factKey target) ∧
            factKey target ∈ pathHeads (factKey r) ∧
            ∃ t, s.lookup? flow₂.facts r = some t ∧
              t.labels = Site.targetLabels (s.secrets st flow) (operands.1.headD .clean) target) ∧
        ((∃ key, Site.Masks (s.known? operands.2.facts) st.binds r key) →
          s.lookup? flow₂.facts r = s.lookup? operands.2.facts r) := by
  intro s operands
  have hrecorded := extract_recorded hx
  have hok := Site.statement_eq (s := s) hrecorded.sound (hr.operand_lt hrecorded hst) flow
  rw [Site.effect_of_assigns hkind] at hok
  refine ⟨⟨_, hok⟩, fun j flow₂ hkj hr₂ hframe r hextends => ?_⟩
  have hbelow : factKey p ∈ pathHeads (factKey r) := by
    rcases hextends with rfl | ⟨hp, q, rfl⟩
    · exact mem_pathHeads_self _
    · rw [factKey_append hp]
      exact mem_pathHeads_append _ _
  have hkept : s.lookup? flow₂.facts r = s.lookup? (Track.each ((s.atStatement st flow).assign st
      (s.secrets st flow) (operands.1.headD .clean)) st.targets operands.2).2.facts r := by
    refine Site.lookup?_congr fun key hkey => ?_
    refine (hr.step hst hok).getElem?_of_not_writes hrecorded hr₂ hkj fun i g st' hki hij hri hst' => ?_
    exact hframe i g st' hki hij hri hst' key (mem_pathHeads_total hkey hbelow)
  rw [hkept]
  have hbinds := Statement.binds_of_assigns hkind
  refine ⟨?_, Site.lookup?_assignment (s := s.atStatement st flow) hbinds hplain _ _ hp hbelow operands.2⟩
  rintro rfl key
  exact Site.not_masks_target (hbinds ▸ List.mem_map_of_mem hp)

end SourceUnit

/-! ## A member that is written first -/

theorem Site.reportSinks_of_unhit (s : Site) {args : List (ExprId × Taint)}
    (h : ∀ spec, sinkHit? spec args = none) {span : Span} {callee : String} {constructs : Bool} {f : Flow} :
    s.reportSinks span callee constructs args f = ((), f) := by
  refine Prod.ext rfl (Track.each_inv (fun g => g = f) (fun p _ g hg => ?_) rfl)
  rw [h p.2]
  exact hg

namespace WrittenMember

/-- A member is written, the whole is bound to untrusted data, and the member is passed to a sink. -/
def unit : SourceUnit :=
  { id := "a.js", content := (Text.Utf8.encode "a.b = 1; var a = ask(); run(a.b)").toArray, language := .javascript }

def rules : Registry := .ofOrdered
  [{ id := "ask", name := "ask", matcher := .source { callees := [⟨"ask", false⟩] } },
   { id := "run", name := "run", category := some .codeInjection
     matcher := .sink { callees := [⟨"run", false⟩] } }]

def member : Statement :=
  { kind := .assignment, targets := ["a.b"], operands := [1], span := ⟨0, 7⟩, controlTag := 0 }

def whole : Statement :=
  { kind := .declaration, targets := ["a"], operands := [2], span := ⟨9, 22⟩, controlTag := 0 }

def passed : Statement := { kind := .call, operands := [4], span := ⟨24, 32⟩, controlTag := 0 }

def scope : Scope :=
  { kind := .module, name := "", headerSpan := ⟨0, 0⟩, statements := #[member, whole, passed] }

def extracted : ExtractedUnit :=
  { arena := ⟨#[⟨.variable "a.b", ⟨0, 3⟩⟩, ⟨.literal .number "1", ⟨6, 7⟩⟩, ⟨.call "ask" none [] false, ⟨17, 22⟩⟩,
      ⟨.variable "a.b", ⟨28, 31⟩⟩, ⟨.call "run" none [3] false, ⟨24, 32⟩⟩], #[1, 1, 1, 1, 2]⟩
    scopes := #[scope], stats := { statements := 3, scopes := 1 } }

theorem extract_unit : unit.extract 3 .never = (.ok extracted, .never) := by
  decide +kernel

def site : Site := unit.siteIn extracted rules {} #[] scope

def written : Flow := { facts := ({} : Facts).insert "a.b" .clean }

def bound : Flow :=
  { facts := (({} : Facts).insert "a.b" .clean).insert "a" (.labelled (.of .untrusted) 1)
    nodes := #[⟨⟨17, 22⟩, 0, none⟩, ⟨⟨9, 22⟩, 0, none⟩] }

theorem factKey_member : factKey "a.b" = "a.b" := by decide +kernel

theorem pathHeads_member : pathHeads "a.b" = ["a.b", "a"] := by decide +kernel

theorem reaches_module : unit.Reaches extracted rules {} #[] (.within scope 0) {} := .enter .start rfl

theorem statement_member : site.statement member {} = .ok written := by
  refine Site.statement_eq_ok_iff.mpr ⟨[], by cbv, ?_⟩
  change (Track.setFact "a.b" .clean {}).2 = written
  rw [Track.setFact, factKey_member]
  rfl

theorem eval_source : (site.atStatement whole written).eval 2 written =
    (.labelled (.of .untrusted) 0, { written with nodes := #[⟨⟨17, 22⟩, 0, none⟩] }) := by
  obtain ⟨⟨rule, label⟩, hsource, hlabel⟩ :
      ∃ hit, rules.sourceOfCall? "ask" false .javascript = some hit ∧ hit.2 = .untrusted :=
    Option.map_eq_some_iff.mp (by decide +kernel)
  cases hlabel
  have hcall : (site.atStatement whole written).eval 2 written =
      (site.atStatement whole written).callResult ⟨17, 22⟩ "ask" false (Taint.clean.join .clean)
        ((site.atStatement whole written).reportSinks ⟨17, 22⟩ "ask" false [] written).2 := rfl
  rw [hcall, Site.reportSinks_of_unhit _ (fun _ => rfl), Site.callResult_apply]
  have hsource : (site.atStatement whole written).registry.sourceOfCall? "ask" false
      (site.atStatement whole written).language = some (rule, .untrusted) := hsource
  rw [hsource]
  rfl

theorem statement_whole : site.statement whole written = .ok bound := by
  have hsinks : (site.atStatement whole written).registry.sinksOfTarget "a"
      (site.atStatement whole written).language = [] := List.isEmpty_iff.mp (by decide +kernel)
  have hreport (t : Taint) (f : Flow) :
      (site.atStatement whole written).reportTargetSinks "a" whole.operands.head? t f = ((), f) := by
    unfold Site.reportTargetSinks
    rw [hsinks]
    split
    · rfl
    · rfl
  have hkey : factKey "a" = "a" := by decide +kernel
  refine Site.statement_eq_ok_iff.mpr ⟨[], by cbv, ?_⟩
  change ((site.atStatement whole written).assign whole [] ((site.atStatement whole written).eval 2 written).1 "a"
    ((site.atStatement whole written).eval 2 written).2).2 = bound
  rw [eval_source, Site.assign_apply, hreport]
  change (Track.setFact "a" (.labelled (.of .untrusted) 1) { written with nodes := bound.nodes }).2 = bound
  rw [Track.setFact, hkey]
  rfl

theorem lookup?_member : site.lookup? bound.facts "a.b" = some .clean := by
  rw [Site.lookup?_eq, factKey_member, pathHeads_member, List.findSome?_cons, bound,
    Site.known?_insert_of_ne _ _ _ (by decide), Site.known?_insert_self]

theorem eval_member : (site.atStatement passed bound).eval 3 bound = (.clean, bound) := by
  change (site.atStatement passed bound).read "a.b" ⟨28, 31⟩ bound = _
  have hsource : (site.atStatement passed bound).registry.sourceOfPath? "a.b"
      (site.atStatement passed bound).language = none := rfl
  have hlookup : (site.atStatement passed bound).lookup? bound.facts "a.b" = some .clean := lookup?_member
  rw [Site.read_apply, hsource, hlookup]
  rfl

theorem statement_passed : site.statement passed bound = .ok bound := by
  have hunhit (spec : SinkSpec) : Site.sinkHit? spec [(3, .clean)] = none := by
    simp [Site.sinkHit?, LabelSet.intersects, Taint.clean, LabelSet.empty]
  have hplace : (site.atStatement passed bound).inPlace? passed = none := by cbv
  have hcall : (site.atStatement passed bound).arena.exprs[4]? = some ⟨.call "run" none [3] false, ⟨24, 32⟩⟩ := rfl
  have harena : (site.atStatement passed bound).arena.Sound := (SourceUnit.extract_recorded extract_unit).sound
  refine Site.statement_eq_ok_iff.mpr ⟨[], by cbv, ?_⟩
  change ((site.atStatement passed bound).expression passed bound).2 = bound
  rw [Site.expression_apply, hplace]
  change ((site.atStatement passed bound).eval 4 bound).2 = bound
  rw [Site.eval_eq harena.descends hcall, Track.bind_apply]
  change ((site.atStatement passed bound).finish _ [((site.atStatement passed bound).eval 3 bound).1]
    ((site.atStatement passed bound).eval 3 bound).2).2 = bound
  rw [eval_member]
  change ((site.atStatement passed bound).callResult ⟨24, 32⟩ "run" false _
    ((site.atStatement passed bound).reportSinks ⟨24, 32⟩ "run" false [(3, .clean)] bound).2).2 = bound
  rw [Site.reportSinks_of_unhit _ hunhit]
  rfl

theorem reaches_written : unit.Reaches extracted rules {} #[] (.within scope 1) written :=
  reaches_module.step rfl statement_member

theorem reaches_bound : unit.Reaches extracted rules {} #[] (.within scope 2) bound :=
  reaches_written.step rfl statement_whole

theorem found_whole : site.found whole written = [] := by cbv

theorem operands_whole :
    Track.each (site.atStatement whole written).eval whole.operands (site.matched whole written) =
      ([.labelled (.of .untrusted) 0], { written with nodes := #[⟨⟨17, 22⟩, 0, none⟩] }) := by
  have hmatched : site.matched whole written = written := by
    rw [Site.matched, found_whole]
    rfl
  rw [hmatched]
  change ([((site.atStatement whole written).eval 2 written).1], ((site.atStatement whole written).eval 2 written).2) = _
  rw [eval_source]

theorem masks_member : Site.Masks (site.known? written.facts) whole.binds "a.b" "a.b" := by
  have hbinds : whole.binds = ["a"] := by decide +kernel
  rw [hbinds]
  refine ⟨mem_pathHeads_self _, ?_, by decide, fun bound hbound _ => ?_⟩
  · rw [written, Site.known?_insert_self]
    rfl
  · rw [List.mem_singleton.mp hbound, pathHeads_member]
    exact List.mem_cons_of_mem _ List.mem_cons_self

/-- The whole has the labels of its value, and the member what it had before. -/
theorem rebinding_seen_below_whole :
    unit.extract 3 .never = (.ok extracted, .never) ∧
      unit.Reaches extracted rules {} #[] (.within scope 1) written ∧
      scope.statements[1]? = some whole ∧ whole.kind = .declaration ∧ whole.compound = false ∧
      "a" ∈ whole.targets ∧ unit.Reaches extracted rules {} #[] (.within scope 2) bound ∧
      (∃ t, site.lookup? bound.facts "a" = some t ∧ t.labels = .of .untrusted) ∧
      site.lookup? bound.facts "a.b" = site.lookup? written.facts "a.b" := by
  refine ⟨extract_unit, reaches_written, rfl, rfl, rfl, List.mem_singleton_self _, reaches_bound, ?_⟩
  obtain ⟨_, hseen⟩ := SourceUnit.rebinding_seen_below extract_unit reaches_written rfl (Or.inr rfl) rfl
    (List.mem_singleton_self "a")
  have hseen := hseen 2 bound (Nat.lt_succ_self 1) reaches_bound fun i _ _ hi hi' => by omega
  obtain ⟨hnone, hlabels, _⟩ := hseen "a" (Or.inl rfl)
  obtain ⟨target, htarget, _, _, t, ht, hlabels⟩ := hlabels (hnone rfl)
  have hmember := (hseen "a.b" (Or.inr ⟨by decide, "b", rfl⟩)).2.2
  change t.labels = Site.targetLabels (site.secrets whole written) ((Track.each
    (site.atStatement whole written).eval whole.operands (site.matched whole written)).1.headD .clean) target at hlabels
  change (∃ key, Site.Masks (site.known? (Track.each (site.atStatement whole written).eval whole.operands
    (site.matched whole written)).2.facts) whole.binds "a.b" key) → site.lookup? bound.facts "a.b" =
      site.lookup? (Track.each (site.atStatement whole written).eval whole.operands
        (site.matched whole written)).2.facts "a.b" at hmember
  rw [operands_whole] at hlabels hmember
  rw [Site.secrets, found_whole] at hlabels
  exact ⟨⟨t, ht, hlabels⟩, hmember ⟨"a.b", masks_member⟩⟩

/-- Untrusted data is bound to the whole, and the member is passed to the sink unreported. -/
theorem track_misses_member :
    unit.extract 3 .never = (.ok extracted, .never) ∧
      unit.Reaches extracted rules {} #[] (.within scope 1) written ∧ scope.statements[1]? = some whole ∧
      whole.kind = .declaration ∧ whole.compound = false ∧ whole.targets = ["a"] ∧
      ((Track.each (site.atStatement whole written).eval whole.operands
        (site.matched whole written)).1.headD .clean).labels = .of .untrusted ∧
      unit.Reaches extracted rules {} #[] (.within scope 2) bound ∧
      site.lookup? bound.facts "a.b" = some .clean ∧
      unit.track extracted rules {} .never = (.ok [], .never) := by
  refine ⟨extract_unit, reaches_written, rfl, rfl, rfl, rfl, ?_, reaches_bound, lookup?_member, ?_⟩
  · rw [operands_whole]
    rfl
  · exact ((reaches_bound.step rfl statement_passed).leave rfl).track_eq (Nat.le_refl 1)

end WrittenMember
end TaintScan
