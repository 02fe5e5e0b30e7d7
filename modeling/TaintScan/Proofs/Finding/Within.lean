import TaintScan.Proofs.Extract.Within
import TaintScan.Proofs.Finding.Merge

/-! # Findings lie within their unit

What is extracted from a unit is well formed, and every span of it lies within the content. A pass
only copies spans of what was extracted, and merging adds none; so what is found lies within the
unit too.
-/
namespace TaintScan

/-- What every extraction gives. -/
structure ExtractedUnit.WellFormed (u : SourceUnit) (x : ExtractedUnit) : Prop where
  child_lt : ∀ {id : ExprId} {e : Expr}, x.arena.exprs[id]? = some e → ∀ child ∈ e.children, child < id
  /-- The height of an expression is the length of its longest way down. -/
  height : ∀ id < x.arena.size, x.arena.Descent id (x.arena.height id) ∧
    ∀ n, x.arena.Descent id n → n ≤ x.arena.height id
  operand_lt : ∀ scope ∈ x.scopes, ∀ s ∈ scope.statements, ∀ id ∈ s.operands, id < x.arena.size
  outermost : ∃ scope, x.scopes[0]? = some scope ∧ scope.parent = none
  inner : ∀ {i : Nat} {scope : Scope}, x.scopes[i]? = some scope → 0 < i → scope.StandsIn x.scopes i
  exprs_within : ∀ e ∈ x.arena.exprs, u.contains e.span = true
  statements_within : ∀ scope ∈ x.scopes, ∀ s ∈ scope.statements, u.contains s.span = true
  params_within : ∀ scope ∈ x.scopes, ∀ p ∈ scope.params, u.contains p.span = true
  headers_within : ∀ scope ∈ x.scopes, u.contains scope.headerSpan = true

variable {u : SourceUnit} {bound : Nat} {x : ExtractedUnit} {options : AnalysisOptions}

theorem ExtractedUnit.wellFormed_of_alike (hx : x.Alike (.within u bound) x) (hrecorded : x.Recorded)
    (htree : ScopeTree x.scopes) : x.WellFormed u := by
  have hexprs := List.forall₂_same.mp hx.arena.exprs
  have hscopes : ∀ scope ∈ x.scopes, scope.Alike (.within u bound) x.arena scope := fun scope hscope =>
    List.forall₂_same.mp hx.scopes scope (Array.mem_toList_iff.mpr hscope)
  obtain ⟨first, hfirst, _, hparent, _⟩ := htree.outermost
  exact
    { child_lt := hrecorded.sound.child_lt
      height := fun id hid => ⟨hrecorded.sound.descent_height hid, fun _ => hrecorded.sound.descent_le⟩
      operand_lt := hrecorded.operand_lt
      outermost := ⟨first, hfirst, hparent⟩
      inner := htree.inner
      exprs_within := fun e he => (hexprs e (Array.mem_toList_iff.mpr he)).span.2
      statements_within := fun scope hscope s hs =>
        (List.forall₂_same.mp (hscopes scope hscope).statements s (Array.mem_toList_iff.mpr hs)).mark.2
      params_within := fun scope hscope p hp =>
        (List.forall₂_same.mp (hscopes scope hscope).params p hp).span.2
      headers_within := fun scope hscope => (hscopes scope hscope).headerSpan.2 }

/-! ## Candidates and findings -/

def Pairing.within (u : SourceUnit) (bound : Nat) : Pairing (.within u bound) u u where
  language := rfl
  text h := by rw [h.1]
  detail := Eq
  origin h _ := by rw [h.1]
  syntactic _ _ _ := rfl

/-- The place and the path of a candidate lie within the unit. -/
def SourceUnit.Holds (u : SourceUnit) (c : Candidate) : Prop :=
  u.contains c.span = true ∧ ∀ span ∈ c.path, u.contains span = true

theorem SourceUnit.holds_of_mem_track (hx : x.Alike (.within u bound) x) {registry : Registry}
    {countdown c : Countdown} {candidates : List Candidate}
    (h : u.track x registry options countdown = (.ok candidates, c)) : ∀ d ∈ candidates, u.Holds d := by
  obtain ⟨candidates', h', halike⟩ := track_alike hx (.within u bound) h
  cases h.symm.trans h'
  intro d hd
  have hself := List.forall₂_same.mp halike d hd
  exact ⟨hself.span.2, fun span hspan => (List.forall₂_same.mp hself.path span hspan).2⟩

def Location.Within (u : SourceUnit) (l : Location) : Prop := ∃ span, u.contains span = true ∧ l = .resolve u span

theorem SourceUnit.Holds.finding {c : Candidate} (h : u.Holds c) {f : Finding} (hf : c.toFinding u options = .ok f) :
    f.location.Within u ∧ ∀ l ∈ f.path, l.Within u := by
  obtain ⟨category, _, rfl⟩ := Candidate.toFinding_eq_ok_iff.mp hf
  refine ⟨⟨c.span, h.1, rfl⟩, fun l hl => ?_⟩
  obtain ⟨span, hspan, rfl⟩ := List.mem_map.mp hl
  exact ⟨span, h.2 span hspan, rfl⟩

theorem SourceUnit.within_of_mem_analyze (hx : x.Alike (.within u bound) x) {registry : Registry}
    {countdown c : Countdown} {findings : List Finding}
    (h : u.analyze x registry options countdown = (.ok findings, c)) :
    ∀ f ∈ findings, f.location.Within u ∧ ∀ l ∈ f.path, l.Within u := by
  obtain ⟨candidates, htrack, hall⟩ := analyze_eq_ok_iff.mp h
  intro f hf
  obtain ⟨m, hm, hmf⟩ := Candidate.exists_mem_of_forall₂ hall hf
  obtain ⟨d, hd, _, hspan, hpath⟩ := Candidate.keeps_of_mem_merge hm
  have hholds : u.Holds m := by
    unfold Holds
    rw [hspan, hpath]
    exact holds_of_mem_track hx htrack d hd
  exact hholds.finding hmf

/-- Every unit is extracted unless the countdown runs out; whatever is extracted is well formed, and all
that is found in it, by any rules, lies within the unit. -/
theorem SourceUnit.extract_wellFormed (u : SourceUnit) (bound : Nat) :
    (∃ x, u.extract bound .never = (.ok x, .never)) ∧
    ∀ {countdown c : Countdown} {x : ExtractedUnit}, u.extract bound countdown = (.ok x, c) →
      x.WellFormed u ∧
      ∀ {registry : Registry} {options : AnalysisOptions} {left c : Countdown} {findings : List Finding},
        u.analyze x registry options left = (.ok findings, c) →
        ∀ f ∈ findings, f.location.Within u ∧ ∀ l ∈ f.path, l.Within u := by
  refine ⟨u.extract_never bound, fun {countdown c x} hx => ?_⟩
  have halike := extract_within hx
  exact ⟨x.wellFormed_of_alike halike (extract_recorded hx) (extract_tree hx), within_of_mem_analyze halike⟩

/-- An expression embedded in a string, in the body of a function. -/
theorem SourceUnit.extract_wellFormed_interpolated :
    ∃ x, SourceUnit.extract
        { id := "a.py", language := .python
          content := (Text.Utf8.encode "def h(v):\n    run(f\"\x7bv + 1\x7d\")\n").toArray }
        20 .never = (.ok x, .never) ∧
      x.arena.exprs.toList.map (·.span) = [⟨18, 28⟩, ⟨25, 26⟩, ⟨21, 22⟩, ⟨21, 26⟩, ⟨18, 28⟩, ⟨14, 29⟩] ∧
      x.WellFormed
        { id := "a.py", language := .python
          content := (Text.Utf8.encode "def h(v):\n    run(f\"\x7bv + 1\x7d\")\n").toArray } := by
  obtain ⟨⟨x, hx⟩, hwellFormed⟩ := SourceUnit.extract_wellFormed
    { id := "a.py", language := .python
      content := (Text.Utf8.encode "def h(v):\n    run(f\"\x7bv + 1\x7d\")\n").toArray } 20
  have hspans : (SourceUnit.extract
      { id := "a.py", language := .python
        content := (Text.Utf8.encode "def h(v):\n    run(f\"\x7bv + 1\x7d\")\n").toArray }
      20 .never).1.toOption.map (fun x => x.arena.exprs.toList.map (·.span)) =
        some [⟨18, 28⟩, ⟨25, 26⟩, ⟨21, 22⟩, ⟨21, 26⟩, ⟨18, 28⟩, ⟨14, 29⟩] := by
    decide +kernel
  rw [hx] at hspans
  exact ⟨x, hx, Option.some.inj hspans, (hwellFormed hx).1⟩

end TaintScan
