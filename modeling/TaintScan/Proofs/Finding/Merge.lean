import Mathlib.Data.Prod.Lex
import Mathlib.Data.String.Basic
import TaintScan.Proofs.Flow.Alike
import TaintScan.Proofs.Scan

/-! # One finding for each rule and place

Merging sorts candidates by place and rule, and combines neighbours of one place and rule. So of
every place and rule one candidate is left, with a path as long as any of them had; sorting the
findings that are built from it changes nothing.
-/
namespace TaintScan

namespace Candidate

/-- The place and the rule of a candidate, in the order of candidates. -/
def key (c : Candidate) : ℕ ×ₗ ℕ ×ₗ String := toLex (c.span.start, toLex (c.span.stop, c.rule.id))

variable {a b m : Candidate} {candidates : List Candidate}

theorem key_eq_iff : a.key = b.key ↔ a.span = b.span ∧ a.rule.id = b.rule.id := by
  obtain ⟨_, ⟨s, t⟩, _⟩ := a
  obtain ⟨_, ⟨s', t'⟩, _⟩ := b
  simp only [key, toLex_inj, Prod.mk.injEq, Span.mk.injEq, and_assoc]

theorem before_iff : a.before b = true ↔ a.key < b.key := by
  simp only [before, key, Prod.Lex.toLex_lt_toLex, Bool.or_eq_true, Bool.and_eq_true, decide_eq_true_eq,
    beq_iff_eq]

theorem sameKey_iff : a.sameKey b = true ↔ a.key = b.key := by
  simp only [sameKey, key_eq_iff, Bool.and_eq_true, beq_iff_eq]

/-! ## What merging keeps -/

def Keeps (m c : Candidate) : Prop := m.rule = c.rule ∧ m.span = c.span ∧ m.path = c.path

theorem Keeps.key {c : Candidate} (h : m.Keeps c) : m.key = c.key :=
  key_eq_iff.mpr ⟨h.2.1, by rw [h.1]⟩

theorem keeps_combine (a b : Candidate) : (a.combine b).Keeps a ∨ (a.combine b).Keeps b := by
  unfold combine
  split
  · exact Or.inr ⟨rfl, rfl, rfl⟩
  · exact Or.inl ⟨rfl, rfl, rfl⟩

theorem length_path_combine (a b : Candidate) :
    (a.combine b).path.length = max a.path.length b.path.length := by
  unfold combine
  split
  · next h => exact (Nat.max_eq_right (Nat.le_of_lt h)).symm
  · next h => exact (Nat.max_eq_left (Nat.le_of_not_lt h)).symm

theorem key_combine (h : a.key = b.key) : (a.combine b).key = a.key := by
  rcases keeps_combine a b with hk | hk
  · exact hk.key
  · exact hk.key.trans h.symm

theorem keeps_of_mem_combineRuns {kept : Candidate} {rest : List Candidate} :
    ∀ m ∈ combineRuns kept rest, ∃ c ∈ kept :: rest, m.Keeps c := by
  induction rest generalizing kept with
  | nil =>
    intro m hm
    exact ⟨m, hm, rfl, rfl, rfl⟩
  | cons c rest ih =>
    intro m hm
    rw [combineRuns] at hm
    split at hm
    · obtain ⟨d, hd, hmd⟩ := ih m hm
      rcases List.mem_cons.mp hd with rfl | hd
      · -- What is combined keeps one of the two.
        rcases keeps_combine kept c with ⟨hr, hs, hp⟩ | ⟨hr, hs, hp⟩
        · exact ⟨kept, by simp, hmd.1.trans hr, hmd.2.1.trans hs, hmd.2.2.trans hp⟩
        · exact ⟨c, by simp, hmd.1.trans hr, hmd.2.1.trans hs, hmd.2.2.trans hp⟩
      · exact ⟨d, by simp [hd], hmd⟩
    · rcases List.mem_cons.mp hm with rfl | hm
      · exact ⟨m, by simp, rfl, rfl, rfl⟩
      · obtain ⟨d, hd, hmd⟩ := ih m hm
        exact ⟨d, List.mem_cons_of_mem _ hd, hmd⟩

section

variable {kept c : Candidate} {rest : List Candidate}
variable (h : (kept :: c :: rest).Pairwise fun a b => a.key ≤ b.key)
include h

theorem pairwise_combine (hkey : kept.key = c.key) :
    (kept.combine c :: rest).Pairwise fun a b => a.key ≤ b.key := by
  obtain ⟨hkept, hrest⟩ := List.pairwise_cons.mp h
  refine List.pairwise_cons.mpr ⟨fun d hd => ?_, (List.pairwise_cons.mp hrest).2⟩
  rw [key_combine hkey]
  exact hkept d (List.mem_cons_of_mem _ hd)

theorem key_lt_of_ne (hne : kept.key ≠ c.key) : ∀ d ∈ c :: rest, kept.key < d.key := by
  obtain ⟨hkept, hrest⟩ := List.pairwise_cons.mp h
  have hlt : kept.key < c.key := lt_of_le_of_ne (hkept c List.mem_cons_self) hne
  intro d hd
  rcases List.mem_cons.mp hd with rfl | hd
  · exact hlt
  · exact lt_of_lt_of_le hlt ((List.pairwise_cons.mp hrest).1 d hd)

end

theorem pairwise_combineRuns {kept : Candidate} {rest : List Candidate}
    (h : (kept :: rest).Pairwise fun a b => a.key ≤ b.key) :
    (combineRuns kept rest).Pairwise fun a b => a.key < b.key := by
  induction rest generalizing kept with
  | nil => exact List.pairwise_singleton _ _
  | cons c rest ih =>
    rw [combineRuns]
    split
    · next hsame => exact ih (pairwise_combine h (sameKey_iff.mp hsame))
    · next hdiff =>
      refine List.pairwise_cons.mpr ⟨fun m hm => ?_, ih (List.pairwise_cons.mp h).2⟩
      obtain ⟨d, hd, hmd⟩ := keeps_of_mem_combineRuns m hm
      rw [hmd.key]
      exact key_lt_of_ne h (fun heq => hdiff (sameKey_iff.mpr heq)) d hd

theorem exists_mem_combineRuns {kept : Candidate} {rest : List Candidate} :
    ∀ c ∈ kept :: rest, ∃ m ∈ combineRuns kept rest, m.key = c.key ∧ c.path.length ≤ m.path.length := by
  induction rest generalizing kept with
  | nil =>
    intro c hc
    exact ⟨c, hc, rfl, Nat.le_refl _⟩
  | cons d rest ih =>
    rw [combineRuns]
    intro c hc
    split
    · next hsame =>
      have hkey := sameKey_iff.mp hsame
      have hlength := length_path_combine kept d
      obtain ⟨m, hm, hmkey, hmlength⟩ := ih (kept.combine d) List.mem_cons_self
      rw [key_combine hkey] at hmkey
      rcases List.mem_cons.mp hc with rfl | hc
      · exact ⟨m, hm, hmkey, by omega⟩
      · rcases List.mem_cons.mp hc with rfl | hc
        · exact ⟨m, hm, hmkey.trans hkey, by omega⟩
        · exact ih c (List.mem_cons_of_mem _ hc)
    · rcases List.mem_cons.mp hc with rfl | hc
      · exact ⟨c, by simp, rfl, Nat.le_refl _⟩
      · obtain ⟨m, hm, h⟩ := ih c hc
        exact ⟨m, List.mem_cons_of_mem _ hm, h⟩

theorem not_before_iff : (!b.before a) = true ↔ a.key ≤ b.key := by
  rw [Bool.not_eq_true', ← Bool.not_eq_true, before_iff, not_lt]

theorem not_before_trans (a b c : Candidate) (hab : (!b.before a) = true) (hbc : (!c.before b) = true) :
    (!c.before a) = true :=
  not_before_iff.mpr ((not_before_iff.mp hab).trans (not_before_iff.mp hbc))

theorem not_before_total (a b : Candidate) : (!b.before a || !a.before b) = true := by
  rw [Bool.or_eq_true, not_before_iff, not_before_iff]
  exact le_total _ _

theorem pairwise_sorted (candidates : List Candidate) :
    (candidates.mergeSort fun a b => !b.before a).Pairwise fun a b => a.key ≤ b.key :=
  (List.pairwise_mergeSort not_before_trans not_before_total candidates).imp not_before_iff.mp

theorem pairwise_merge (candidates : List Candidate) :
    (merge candidates).Pairwise fun a b => a.key < b.key := by
  have hsorted := pairwise_sorted candidates
  unfold merge
  split
  · exact .nil
  · next hsort => exact pairwise_combineRuns (hsort ▸ hsorted)

theorem keeps_of_mem_merge (hm : m ∈ merge candidates) : ∃ c ∈ candidates, m.Keeps c := by
  unfold merge at hm
  split at hm
  · exact absurd hm List.not_mem_nil
  · next hsort =>
    obtain ⟨c, hc, h⟩ := keeps_of_mem_combineRuns m hm
    rw [← hsort] at hc
    exact ⟨c, List.mem_mergeSort.mp hc, h⟩

theorem exists_mem_merge {c : Candidate} (hc : c ∈ candidates) :
    ∃ m ∈ merge candidates, m.key = c.key ∧ c.path.length ≤ m.path.length := by
  have hsorted : c ∈ candidates.mergeSort fun a b => !b.before a := List.mem_mergeSort.mpr hc
  unfold merge
  split
  · next hsort =>
    rw [hsort] at hsorted
    exact absurd hsorted List.not_mem_nil
  · next hsort =>
    rw [hsort] at hsorted
    exact exists_mem_combineRuns c hsorted

theorem filter_merge_eq (hm : m ∈ merge candidates) : (merge candidates).filter (·.sameKey m) = [m] := by
  have hpairwise := pairwise_merge candidates
  generalize merge candidates = merged at hm hpairwise
  induction merged with
  | nil => exact absurd hm List.not_mem_nil
  | cons a rest ih =>
    obtain ⟨ha, hrest⟩ := List.pairwise_cons.mp hpairwise
    rcases List.mem_cons.mp hm with rfl | hm
    · have hothers : ∀ b ∈ rest, ¬ b.sameKey m = true := fun b hb hsame =>
        absurd (sameKey_iff.mp hsame) (ne_of_gt (ha b hb))
      have hself : m.sameKey m = true := sameKey_iff.mpr rfl
      simp only [List.filter_cons, hself, if_true, List.filter_eq_nil_iff.mpr hothers]
    · have hdiff : ¬ a.sameKey m = true := fun hsame => absurd (sameKey_iff.mp hsame) (ne_of_lt (ha m hm))
      simp only [List.filter_cons, hdiff, Bool.false_eq_true, if_false]
      exact ih hm hrest

/-! ## Findings of merged candidates -/

def finding (c : Candidate) (u : SourceUnit) (options : AnalysisOptions) (category : Category) : Finding where
  fingerprint := Finding.fingerprintOf c.rule.id u.id (u.linesAround c.span maxSnippetLines)
  pathHash := Finding.pathHashOf (c.path.map (Location.resolve u))
  ruleId := c.rule.id
  category := category
  severity := c.rule.rank c.path.length c.adjacent options.escalateMultiHop
  unitId := u.id
  location := .resolve u c.span
  path := c.path.map (Location.resolve u)
  confidence := if c.adjacent then c.confidence.lowered else c.confidence
  cweId := c.rule.cweId
  owaspCategory := c.rule.owaspCategory
  message := c.message
  remediation := c.rule.remediation
  snippet := u.linesAround c.span maxSnippetLines
  metadata := c.metadata

theorem toFinding_eq_ok_iff {c : Candidate} {u : SourceUnit} {options : AnalysisOptions} {f : Finding} :
    c.toFinding u options = .ok f ↔
      ∃ category, c.rule.category = some category ∧ c.finding u options category = f := by
  have hlines : ¬ maxSnippetLines < (Text.lines (u.linesAround c.span maxSnippetLines)).length :=
    Nat.not_lt.mpr (u.length_lines_linesAround_le c.span (by decide))
  unfold toFinding FindingDraft.build
  cases c.rule.category with
  | none =>
    constructor
    · intro h
      cases h
    · rintro ⟨_, h, _⟩
      cases h
  | some category =>
    simp only [FindingDraft.required, bind, Except.bind, if_neg hlines, Option.some.injEq,
      exists_eq_left']
    exact ⟨Except.ok.inj, congrArg Except.ok⟩

theorem isLE_compare {f g : Finding} (hunit : f.unitId = g.unitId)
    (h : toLex (f.location.startOffset, toLex (f.location.stopOffset, f.ruleId)) <
      toLex (g.location.startOffset, toLex (g.location.stopOffset, g.ruleId))) :
    (f.compare g).isLE = true := by
  simp only [Prod.Lex.toLex_lt_toLex] at h
  simp only [Finding.compare, compareOfLessAndEq, hunit, lt_irrefl, if_false, if_true, Ordering.eq_then]
  rcases h with hstart | ⟨hstart, hstop | ⟨hstop, hid⟩⟩
  · rw [Nat.compare_eq_lt.mpr hstart]
    rfl
  · rw [hstart, Nat.compare_eq_eq.mpr rfl, Nat.compare_eq_lt.mpr hstop]
    rfl
  · rw [hstart, hstop, Nat.compare_eq_eq.mpr rfl, Nat.compare_eq_eq.mpr rfl, if_pos hid]
    rfl

theorem exists_mem_of_forall₂ {α β : Type} {R : α → β → Prop} {as : List α} {bs : List β}
    (h : List.Forall₂ R as bs) {b : β} (hb : b ∈ bs) : ∃ a ∈ as, R a b := by
  induction h with
  | nil => exact absurd hb List.not_mem_nil
  | @cons a c as bs hac _ ih =>
    rcases List.mem_cons.mp hb with rfl | hb
    · exact ⟨a, List.mem_cons_self, hac⟩
    · obtain ⟨a', ha', h⟩ := ih hb
      exact ⟨a', List.mem_cons_of_mem _ ha', h⟩

theorem sort_findings {u : SourceUnit} {options : AnalysisOptions} {findings : List Finding}
    (h : List.Forall₂ (fun c f => c.toFinding u options = .ok f) (merge candidates) findings) :
    Finding.sort findings = findings := by
  refine List.mergeSort_of_pairwise ?_
  have hpairwise := pairwise_merge candidates
  generalize merge candidates = merged at h hpairwise
  induction h with
  | nil => exact .nil
  | @cons c f merged findings hf hall ih =>
    obtain ⟨hc, hrest⟩ := List.pairwise_cons.mp hpairwise
    refine List.pairwise_cons.mpr ⟨fun g hg => ?_, ih hrest⟩
    obtain ⟨d, hd, hdg⟩ := exists_mem_of_forall₂ hall hg
    obtain ⟨_, _, rfl⟩ := toFinding_eq_ok_iff.mp hf
    obtain ⟨_, _, rfl⟩ := toFinding_eq_ok_iff.mp hdg
    exact isLE_compare rfl (hc d hd)

end Candidate

theorem mapM_eq_ok_iff {α β ε : Type} {f : α → Except ε β} {as : List α} {bs : List β} :
    as.mapM f = .ok bs ↔ List.Forall₂ (fun a b => f a = .ok b) as bs := by
  induction as generalizing bs with
  | nil =>
    constructor
    · intro h
      cases h
      exact .nil
    · intro h
      cases h
      rfl
  | cons a rest ih =>
    rw [List.mapM_cons]
    constructor
    · intro h
      cases ha : f a with
      | error e =>
        rw [ha] at h
        cases h
      | ok b =>
        cases hrest : rest.mapM f with
        | error e =>
          rw [ha, hrest] at h
          cases h
        | ok others =>
          rw [ha, hrest] at h
          cases h
          exact .cons ha (ih.mp hrest)
    · intro h
      cases h with
      | cons ha hrest =>
        rw [ha, ih.mpr hrest]
        rfl

variable {options : AnalysisOptions} {findings : List Finding}

theorem buildFindings_merge_iff {u : SourceUnit} {candidates : List Candidate} :
    buildFindings u options (Candidate.merge candidates) = .ok findings ↔
      List.Forall₂ (fun m f => m.toFinding u options = .ok f) (Candidate.merge candidates) findings := by
  unfold buildFindings
  constructor
  · intro h
    cases hmap : (Candidate.merge candidates).mapM (·.toFinding u options) with
    | error e =>
      rw [hmap] at h
      cases h
    | ok built =>
      have hall := mapM_eq_ok_iff.mp hmap
      rw [hmap] at h
      cases h
      rw [Candidate.sort_findings hall]
      exact hall
  · intro h
    rw [mapM_eq_ok_iff.mpr h]
    exact congrArg Except.ok (Candidate.sort_findings h)

theorem SourceUnit.analyze_eq_ok_iff {u : SourceUnit} {x : ExtractedUnit} {registry : Registry}
    {countdown c : Countdown} :
    u.analyze x registry options countdown = (.ok findings, c) ↔
      ∃ candidates, u.track x registry options countdown = (.ok candidates, c) ∧
        List.Forall₂ (fun m f => m.toFinding u options = .ok f) (Candidate.merge candidates) findings := by
  unfold analyze
  split
  · next htrack => simp [htrack]
  · next candidates left htrack =>
    rw [htrack]
    constructor
    · intro h
      obtain ⟨hbuild, rfl⟩ := Prod.mk.inj h
      cases hb : buildFindings u options (Candidate.merge candidates) with
      | error e =>
        rw [hb] at hbuild
        cases hbuild
      | ok built =>
        rw [hb] at hbuild
        cases hbuild
        exact ⟨candidates, rfl, buildFindings_merge_iff.mp hb⟩
    · rintro ⟨_, htrack, hall⟩
      cases htrack
      rw [buildFindings_merge_iff.mpr hall]
      rfl

theorem SourceUnit.analyze_never_ok (u : SourceUnit) {x : ExtractedUnit} (hx : x.Recorded)
    {registry : Registry} (hvalid : registry.Valid) (options : AnalysisOptions) :
    ∃ candidates findings, u.track x registry options .never = (.ok candidates, .never) ∧
      List.Forall₂ (fun m f => m.toFinding u options = .ok f) (Candidate.merge candidates) findings ∧
      u.analyze x registry options .never = (.ok findings, .never) := by
  obtain ⟨candidates, htrack⟩ := u.track_ok registry options hx
  have hcategory : ∀ m ∈ Candidate.merge candidates, m.rule.category.isSome = true := by
    obtain ⟨done, flow, hr, rfl⟩ := track_reaches htrack
    intro m hm
    obtain ⟨c, hc, hrule, _⟩ := Candidate.keeps_of_mem_merge hm
    rw [hrule]
    exact hvalid.category_isSome (hr.reported hx c (Array.mem_toList_iff.mp hc))
  obtain ⟨findings, hall, _⟩ :=
    buildFindings_ok fun m hm => Candidate.toFinding_ok (hcategory m hm) u options
  exact ⟨candidates, findings, htrack, hall, analyze_eq_ok_iff.mpr ⟨candidates, htrack, hall⟩⟩

theorem Candidate.filter_findings {u : SourceUnit} {candidates : List Candidate}
    (hall : List.Forall₂ (fun m f => m.toFinding u options = .ok f) (merge candidates) findings) {c : Candidate}
    (hc : c ∈ candidates) :
    ∃ f, findings.filter (fun f => f.ruleId == c.rule.id && f.location == .resolve u c.span) = [f] ∧
      c.path.length ≤ f.path.length := by
  obtain ⟨m, hm, hkey, hlength⟩ := exists_mem_merge hc
  have hsame (d : Candidate) (f : Finding) (hf : d.toFinding u options = .ok f) :
      d.sameKey m = true ↔ (f.ruleId == c.rule.id && f.location == .resolve u c.span) = true := by
    obtain ⟨category, _, rfl⟩ := toFinding_eq_ok_iff.mp hf
    rw [sameKey_iff, hkey, key_eq_iff, Bool.and_eq_true, beq_iff_eq, beq_iff_eq]
    refine ⟨fun h => ⟨h.2, congrArg (Location.resolve u) h.1⟩, fun h => ⟨?_, h.1⟩⟩
    have hspan (s : Span) : s = ⟨(Location.resolve u s).startOffset, (Location.resolve u s).stopOffset⟩ := rfl
    have hlocation : Location.resolve u d.span = .resolve u c.span := h.2
    rw [hspan d.span, hlocation]
    rfl
  have hfiltered := List.rel_filter hsame hall
  rw [filter_merge_eq hm] at hfiltered
  obtain ⟨f, rest, hf, hrest, heq⟩ := List.forall₂_cons_left_iff.mp hfiltered
  cases hrest
  obtain ⟨category, _, rfl⟩ := toFinding_eq_ok_iff.mp hf
  refine ⟨_, heq, ?_⟩
  rw [finding, List.length_map]
  exact hlength

/-! ## Alike candidates -/

/-- Places that correspond are in the same order, and details that correspond are different in one
unit where they are in the other. -/
structure Pairing.Faithful {L : Likeness} {u w : SourceUnit} (P : Pairing L u w) : Prop where
  start : ∀ {s t s' t' : Span}, L.span s t → L.span s' t' → (t.start < t'.start ↔ s.start < s'.start)
  stop : ∀ {s t s' t' : Span}, L.span s t → L.span s' t' → (t.stop < t'.stop ↔ s.stop < s'.stop)
  detail : ∀ {a b a' b' : String}, P.detail a b → P.detail a' b' → (b = b' ↔ a = a')

section

variable {L : Likeness} {u w : SourceUnit} {P : Pairing L u w} (hP : P.Faithful)
include hP

theorem Pairing.Faithful.start_eq {s t s' t' : Span} (h : L.span s t) (h' : L.span s' t') :
    t.start = t'.start ↔ s.start = s'.start := by
  have hlt := hP.start h h'
  have hgt := hP.start h' h
  omega

theorem Pairing.Faithful.stop_eq {s t s' t' : Span} (h : L.span s t) (h' : L.span s' t') :
    t.stop = t'.stop ↔ s.stop = s'.stop := by
  have hlt := hP.stop h h'
  have hgt := hP.stop h' h
  omega

namespace Candidate.Alike

variable {c d c' d' : Candidate} (h : c.Alike P d) (h' : c'.Alike P d')
include h h'

theorem before : d.before d' = c.before c' := by
  rw [Bool.eq_iff_iff, before_iff, before_iff]
  simp only [key, Prod.Lex.toLex_lt_toLex, hP.start h.span h'.span, hP.stop h.span h'.span,
    hP.start_eq h.span h'.span, hP.stop_eq h.span h'.span, h.rule, h'.rule]

theorem sameKey : d.sameKey d' = c.sameKey c' := by
  rw [Bool.eq_iff_iff, sameKey_iff, sameKey_iff]
  simp only [key, toLex_inj, Prod.mk.injEq, hP.start_eq h.span h'.span, hP.stop_eq h.span h'.span, h.rule,
    h'.rule]

theorem absorb : (c.absorb c').Alike P (d.absorb d') :=
  { h with
    adjacent := by simp only [Candidate.absorb, h.adjacent, h'.adjacent]
    detail := by
      have hmem {as bs : List String} (hab : List.Forall₂ P.detail as bs) {a b : String} (hd : P.detail a b) :
          bs.contains b = as.contains a := by
        induction hab with
        | nil => rfl
        | cons hx _ ih =>
          simp only [List.contains_cons, ih]
          rw [Bool.eq_iff_iff, Bool.or_eq_true, Bool.or_eq_true, beq_iff_eq, beq_iff_eq, hP.detail hd hx]
      have hdetail := h.detail
      have hdetail' := h'.detail
      simp only [Candidate.absorb]
      generalize c.detail = as at hdetail
      generalize d.detail = bs at hdetail
      generalize c'.detail = lines at hdetail'
      generalize d'.detail = lines' at hdetail'
      induction hdetail' generalizing as bs with
      | nil => exact hdetail
      | @cons a b _ _ hd _ ih =>
        simp only [List.foldl_cons, hmem hdetail hd]
        split
        · exact ih as bs hdetail
        · exact ih _ _ (List.rel_append hdetail (.cons hd .nil)) }

theorem combine : (c.combine c').Alike P (d.combine d') := by
  unfold Candidate.combine
  rw [← h.path.length_eq, ← h'.path.length_eq]
  split
  · exact h'.absorb hP h
  · exact h.absorb hP h'

end Candidate.Alike

theorem Candidate.combineRuns_alike {cs ds : List Candidate} (hcs : List.Forall₂ (Candidate.Alike P) cs ds)
    {c d : Candidate} (h : c.Alike P d) :
    List.Forall₂ (Candidate.Alike P) (combineRuns c cs) (combineRuns d ds) := by
  induction hcs generalizing c d with
  | nil => exact .cons h .nil
  | cons h' _ ih =>
    rw [combineRuns, combineRuns, h.sameKey hP h']
    split
    · exact ih (h.combine hP h')
    · exact .cons h (ih h')

omit hP in
theorem forall₂_mergeSort {α β : Type} {R : α → β → Prop} {as : List α} {bs : List β}
    {le : α → α → Bool} {le' : β → β → Bool} (h : List.Forall₂ R as bs)
    (hle : ∀ {a b a' b'}, R a b → R a' b' → le a a' = le' b b') :
    List.Forall₂ R (as.mergeSort le) (bs.mergeSort le') := by
  -- The pairs are sorted once, and each list is read off them.
  have hlength := h.length_eq
  have hpairs : ∀ p ∈ as.zip bs, R p.1 p.2 := fun p hp => List.forall₂_zip h hp
  have hleft : ((as.zip bs).mergeSort fun p q => le p.1 q.1).map Prod.fst = as.mergeSort le := by
    rw [List.map_mergeSort (s := le) fun _ _ _ _ => rfl, List.map_fst_zip (Nat.le_of_eq hlength)]
  have hright : ((as.zip bs).mergeSort fun p q => le p.1 q.1).map Prod.snd = bs.mergeSort le' := by
    rw [List.map_mergeSort fun p hp q hq => hle (hpairs p hp) (hpairs q hq),
      List.map_snd_zip (Nat.le_of_eq hlength.symm)]
  rw [← hleft, ← hright, List.forall₂_map_left_iff, List.forall₂_map_right_iff, List.forall₂_same]
  intro p hp
  exact hpairs p (List.mem_mergeSort.mp hp)

theorem Candidate.merge_alike {cs ds : List Candidate} (h : List.Forall₂ (Candidate.Alike P) cs ds) :
    List.Forall₂ (Candidate.Alike P) (merge cs) (merge ds) := by
  have hsorted : List.Forall₂ (Candidate.Alike P) (cs.mergeSort fun a b => !b.before a)
      (ds.mergeSort fun a b => !b.before a) :=
    forall₂_mergeSort h fun hab hab' => by rw [hab'.before hP hab]
  unfold merge
  generalize (cs.mergeSort fun a b => !b.before a) = sorted at hsorted
  generalize (ds.mergeSort fun a b => !b.before a) = sorted' at hsorted
  cases hsorted with
  | nil => exact .nil
  | cons hab hrest => exact combineRuns_alike hP hrest hab

end

end TaintScan
