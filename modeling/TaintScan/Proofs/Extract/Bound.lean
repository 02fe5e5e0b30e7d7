import Mathlib.Algebra.Order.BigOperators.Group.List
import Mathlib.Algebra.Order.Group.Nat
import TaintScan.Proofs.Extract.Scopes

/-! # The bound only masks statements

No decision of an extraction looks at the statements that were recorded, so a smaller bound leads
through the same states with more of their statements masked. From some bound on nothing is masked.
-/
namespace TaintScan

/-- A statement as it stands beyond a bound. What is outside of the grammar stays as it is. -/
def Statement.hidden (s : Statement) : Statement := if s.kind == .unparsed then s else s.masked

/-- A scope with its statements masked from a bound on. -/
def Scope.cut (bound : Nat) (scope : Scope) : Scope :=
  { scope with statements := scope.statements.mapIdx fun i s => if bound ≤ i then s.hidden else s }

theorem Statement.hidden_kind (s : Statement) : s.hidden.kind = .unparsed := by
  unfold hidden
  split
  · next h => exact beq_iff_eq.mp h
  · rfl

theorem Statement.hidden_of_unparsed {s : Statement} (h : s.kind = .unparsed) : s.hidden = s := by
  rw [hidden, h]
  rfl

theorem Statement.hidden_span (s : Statement) : s.hidden.span = s.span := by
  unfold hidden
  split
  · rfl
  · rfl

theorem Statement.hidden_controlTag (s : Statement) : s.hidden.controlTag = s.controlTag := by
  unfold hidden
  split
  · rfl
  · rfl

theorem Statement.hidden_idle {s : Statement} (h : s.kind = .unparsed → s.Idle) : s.hidden.Idle := by
  unfold hidden
  split
  · next hkind => exact h (beq_iff_eq.mp hkind)
  · exact ⟨rfl, rfl⟩

namespace Scope

theorem cut_size (bound : Nat) (scope : Scope) : (scope.cut bound).statements.size = scope.statements.size :=
  Array.size_mapIdx

theorem cut_of_size_le {bound : Nat} {scope : Scope} (h : scope.statements.size ≤ bound) :
    scope.cut bound = scope := by
  have hstatements : scope.statements.mapIdx (fun i s => if bound ≤ i then s.hidden else s) =
      scope.statements := by
    refine Array.ext Array.size_mapIdx fun i _ hi => ?_
    rw [Array.getElem_mapIdx, if_neg (Nat.not_le.mpr (Nat.lt_of_lt_of_le hi h))]
  rw [cut, hstatements]

theorem cut_push (bound : Nat) (scope : Scope) (s : Statement) :
    (scope.push s).cut bound =
      (scope.cut bound).push (if bound ≤ scope.statements.size then s.hidden else s) := by
  change { scope with statements := (scope.statements.push s).mapIdx _ } = _
  rw [Array.mapIdx_push]
  rfl

end Scope

/-! ## Two bounds side by side -/

def Correspondence.bounds (large small : Nat) : Correspondence where
  view v w := v.bound = large ∧ w = { v with bound := small }
  span s t := s = t
  alike {v _} h := by
    obtain ⟨_, rfl⟩ := h
    exact { View.Alike.refl v with }
  focus h _ _ _ _ _ := by
    obtain ⟨hv, rfl⟩ := h
    exact ⟨hv, rfl⟩
  token h _ _ _ ht hu := by
    obtain ⟨_, rfl⟩ := h
    exact congrArg Token.span (Option.some.inj (ht.symm.trans hu))
  spanBetween h _ _ _ := by
    obtain ⟨_, rfl⟩ := h
    rfl
  segments h _ _ _ ht hu := by
    obtain ⟨hv, rfl⟩ := h
    cases ht.symm.trans hu
    exact List.forall₂_same.mpr fun _ _ => ⟨hv, rfl⟩

namespace Builder

/-- The state with its statements masked from a bound on, and with other counts. -/
def cut (b : Builder) (bound statements unparsed : Nat) : Builder :=
  { b with scopes := b.scopes.map (·.cut bound), statements, unparsed }

theorem fitted_cut {b : Builder} {large small : Nat} (hle : small ≤ large) (statements unparsed : Nat)
    (s : Statement) {scope : Scope} (hscope : b.scopes[b.currentScope]? = some scope) :
    (b.cut small statements unparsed).fitted small s =
      if small ≤ scope.statements.size then (b.fitted large s).hidden else b.fitted large s := by
  have hcut : (b.cut small statements unparsed).scopes[b.currentScope]? = some (scope.cut small) := by
    change (b.scopes.map _)[b.currentScope]? = _
    rw [Array.getElem?_map, hscope, Option.map_some]
  have hcurrent : (b.cut small statements unparsed).currentScope = b.currentScope := rfl
  unfold fitted
  rw [hcurrent, hcut, hscope, Option.map_some, Option.map_some, Option.getD_some, Option.getD_some,
    Scope.cut_size]
  by_cases hunparsed : s.kind = .unparsed
  · -- What is outside of the grammar is never masked.
    have hkind : (s.kind != .unparsed) = false := by simp [hunparsed]
    simp only [hkind, Bool.and_false, Bool.false_eq_true, if_false, Statement.hidden_of_unparsed hunparsed,
      ite_self]
  · have hkind : (s.kind != .unparsed) = true := by simp [hunparsed]
    have hmasked : s.hidden = s.masked := by simp [Statement.hidden, hunparsed]
    have hagain : s.masked.hidden = s.masked := Statement.hidden_of_unparsed rfl
    simp only [hkind, Bool.and_true, decide_eq_true_eq]
    by_cases hsmall : small ≤ scope.statements.size
    · rw [if_pos hsmall, if_pos hsmall]
      split
      · exact hagain.symm
      · exact hmasked.symm
    · rw [if_neg hsmall, if_neg hsmall, if_neg fun hlarge => hsmall (Nat.le_trans hle hlarge)]

theorem push_cut (b : Builder) {large small : Nat} (hle : small ≤ large) (statements unparsed : Nat)
    (s : Statement) :
    ∃ statements' unparsed', (b.cut small statements unparsed).push small s =
      (b.push large s).cut small statements' unparsed' := by
  obtain ⟨_, _, hlarge⟩ := b.push_eq large s
  obtain ⟨k, l, hsmall⟩ := (b.cut small statements unparsed).push_eq small s
  refine ⟨k, l, ?_⟩
  have hscopes : (b.scopes.map (·.cut small)).modify b.currentScope
      (·.push ((b.cut small statements unparsed).fitted small s)) =
      (b.scopes.modify b.currentScope (·.push (b.fitted large s))).map (·.cut small) := by
    apply Array.ext_getElem?
    intro i
    rw [Array.getElem?_modify, Array.getElem?_map, Array.getElem?_map, Array.getElem?_modify]
    split
    · next hi =>
      subst hi
      cases hscope : b.scopes[b.currentScope]? with
      | none => rfl
      | some scope =>
        simp only [Option.map_some, Scope.cut_push, fitted_cut hle statements unparsed s hscope]
    · rfl
  rw [hsmall, hlarge]
  exact congrArg (fun scopes => { b with scopes, statements := k, unparsed := l }) hscopes

/-- The second extraction is the first one under a smaller bound. -/
structure Bounded (small : Nat) (b c : Builder) : Prop where
  eq : ∃ statements unparsed, c = b.cut small statements unparsed
  draft : b.draft.Alike Eq b.draft

theorem Bounded.alike {small : Nat} {b c : Builder} (h : b.Bounded small c) : b.Alike Eq c := by
  obtain ⟨_, _, rfl⟩ := h.eq
  refine ⟨h.draft, rfl, ?_, rfl, rfl⟩
  change (b.scopes.map _).map _ = _
  rw [Array.map_map]
  rfl

theorem Bounded.change {small : Nat} {b c : Builder} (h : b.Bounded small c) {f : Builder → Builder}
    (hf : ∀ statements unparsed, f (b.cut small statements unparsed) = (f b).cut small statements unparsed)
    (hdraft : (f b).draft.Alike Eq (f b).draft) : (f b).Bounded small (f c) := by
  obtain ⟨k, l, rfl⟩ := h.eq
  exact ⟨⟨k, l, hf k l⟩, hdraft⟩

theorem Bounded.push {large small : Nat} (hle : small ≤ large) {b c : Builder} (h : b.Bounded small c)
    (s : Statement) : (b.push large s).Bounded small (c.push small s) := by
  obtain ⟨k, l, rfl⟩ := h.eq
  refine ⟨b.push_cut hle k l s, ?_⟩
  rw [push_draft]
  exact h.draft

theorem Bounded.closeTop {small : Nat} {b c : Builder} (h : b.Bounded small c) {v : View}
    (hle : small ≤ v.bound) : (b.closeTop v).Bounded small (c.closeTop { v with bound := small }) := by
  unfold Builder.closeTop
  rw [h.alike.blocks]
  split
  · exact h
  · next block rest _ =>
    have hrest : Bounded small { b with blocks := rest } { c with blocks := rest } :=
      h.change (f := fun b => { b with blocks := rest }) (fun _ _ => rfl) h.draft
    dsimp only
    split
    · have hpos : ({ c with blocks := rest } : Builder).pos = ({ b with blocks := rest } : Builder).pos :=
        hrest.alike.pos
      rw [hpos]
      exact hrest.push hle _
    · exact hrest

theorem Bounded.openControl {small : Nat} {b c : Builder} (h : b.Bounded small c) {v : View}
    (hle : small ≤ v.bound) (kind : ControlKind) (targets : List String) (operands : List ExprId)
    (start : Nat) :
    (b.openControl v kind targets operands start .block none).Bounded small
      (c.openControl { v with bound := small } kind targets operands start .block none) := by
  obtain ⟨k, l, rfl⟩ := h.eq
  have hclear : Bounded small { b with tags := b.tags.modify b.currentScope (· + 1), draft.properties := #[] }
      { b.cut small k l with tags := b.tags.modify b.currentScope (· + 1), draft.properties := #[] } :=
    ⟨⟨k, l, rfl⟩, h.draft.withProperties .nil⟩
  have hpush := hclear.push hle
    { kind := .controlOpen kind, targets := targets, operands := operands
      span := v.spanSince start b.pos, controlTag := b.tags.getD b.currentScope 0 + 1 }
  exact hpush.change (f := fun x =>
    { x with blocks := { frame := .control (b.tags.getD b.currentScope 0 + 1) } :: x.blocks })
    (fun _ _ => rfl) hpush.draft

theorem Bounded.openScope {small : Nat} {b c : Builder} (h : b.Bounded small c) (v : View)
    (kind : ScopeKind) (name : String) (params : List Param) (header : Span) :
    (b.openScope v kind name params header false none).Bounded small
      (c.openScope { v with bound := small } kind name params header false none) := by
  have hprivate := h.alike.inPrivateSection
  have hkind := h.alike.scopeKind b.currentScope
  obtain ⟨k, l, rfl⟩ := h.eq
  refine ⟨⟨k, l, ?_⟩, h.draft⟩
  have hcurrent : (b.cut small k l).currentScope = b.currentScope := rfl
  unfold Builder.openScope
  dsimp only
  rw [hprivate, hcurrent, hkind]
  simp only [cut, Array.map_push, Array.size_map]
  rfl

def bounded {large small : Nat} (hle : small ≤ large) : Tracking (.bounds large small) where
  rel b c := b.Bounded small c
  mayStop := True
  runsOut _ _ := False
  alike h := h.alike
  withDraft {b c d e} h hde _ := by
    cases Draft.Alike.eq hde
    exact h.change (f := fun b => { b with draft := d }) (fun _ _ => rfl) hde
  withWords h modifiers annotations :=
    h.change (f := fun b => { b with modifiers, annotations }) (fun _ _ => rfl) h.draft
  withBlocks h blocks _ := h.change (f := fun b => { b with blocks }) (fun _ _ => rfl) h.draft
  pushPlain h :=
    h.change (f := fun b => { b with blocks := { frame := .plain } :: b.blocks }) (fun _ _ => rfl) h.draft
  closeTop := by
    rintro v _ b c ⟨rfl, rfl⟩ h
    exact h.closeTop hle
  openControl := by
    rintro v _ b c ⟨rfl, rfl⟩ h kind targets operands start _ _
    exact h.openControl hle kind targets operands start
  openScope := by
    rintro v _ b c ⟨_, rfl⟩ h kind name params params' s t hp _ hs
    cases Param.eq_of_alike hp
    cases hs
    exact h.openScope v kind name params s
  push := by
    rintro v _ b c ⟨rfl, rfl⟩ h s t hs _ _ _
    cases Statement.Alike.eq hs
    exact h.push hle s
  poll {b c} h := by
    have hcountdown : c.countdown = b.countdown := by
      obtain ⟨_, _, rfl⟩ := h.eq
      rfl
    have hturn : b.turn.Bounded small c.turn := h.change (fun _ _ => rfl) h.draft
    cases hpoll : b.countdown.poll.1 with
    | true => exact .stop hpoll (hcountdown ▸ hpoll) trivial
    | false => exact .go hpoll (hcountdown ▸ hpoll) hturn

end Builder

/-! ## Units -/

namespace SourceUnit

theorem extract_eq_ok_iff {u : SourceUnit} {bound : Nat} {countdown c : Countdown} {x : ExtractedUnit} :
    u.extract bound countdown = (.ok x, c) ↔
      ∃ b, Walk.unit (u.tokenView (Token.lex u.language u.content.toList) bound) { countdown := countdown } =
          (.ok (), b) ∧ b.countdown = c ∧
        x = { arena := b.draft.arena, scopes := b.scopes
              errors := (Token.lex u.language u.content.toList).filterMap (·.error?)
              stats :=
                { statements := b.statements, unparsed := b.unparsed
                  errorTokens := ((Token.lex u.language u.content.toList).filterMap (·.error?)).length
                  scopes := b.scopes.size } } := by
  unfold extract
  dsimp only
  rcases Walk.unit (u.tokenView (Token.lex u.language u.content.toList) bound)
    { countdown := countdown } with ⟨_ | _, b⟩
  · simp
  · constructor
    · intro h
      cases h
      exact ⟨b, rfl, rfl, rfl⟩
    · rintro ⟨_, hb, rfl, rfl⟩
      cases hb
      rfl

theorem unit_holds {u : SourceUnit} {bound : Nat} (I : Builder.Invariant bound) {countdown : Countdown}
    {b : Builder} (hstart : I.holds { countdown := countdown })
    (hb : Walk.unit (u.tokenView (Token.lex u.language u.content.toList) bound) { countdown := countdown } =
      (.ok (), b)) : I.holds b := by
  have hmeets := Walk.unit_agree I.tracking (u.at_tokenView bound) { countdown := countdown }
    { countdown := countdown } ⟨rfl, Draft.alike_start, hstart⟩
    (fun _ hl => absurd hl (Array.not_mem_empty _)) (le_refl _)
  rw [hb] at hmeets
  cases hmeets with
  | ok _ hgoes => exact hgoes.rel.2.2

end SourceUnit

/-- The numbers of recognised and other statements, of malformed tokens and of scopes. -/
def ExtractedUnit.tally (x : ExtractedUnit) : ExtractStats where
  statements := (statementsOf x.scopes).countP (·.kind != .unparsed)
  unparsed := (statementsOf x.scopes).countP (·.kind == .unparsed)
  errorTokens := x.errors.length
  scopes := x.scopes.size

namespace SourceUnit

variable {u : SourceUnit} {bound large small : Nat} {countdown c : Countdown} {x y : ExtractedUnit}

theorem extract_tally (h : u.extract bound countdown = (.ok x, c)) : x.stats = x.tally := by
  obtain ⟨b, hb, _, rfl⟩ := extract_eq_ok_iff.mp h
  obtain ⟨_, _, hstatements, hunparsed⟩ :=
    unit_holds (Builder.rooted bound) (Builder.rooted_start bound countdown) hb
  simp only [ExtractedUnit.tally, hstatements, hunparsed]

theorem extract_smaller (hle : small ≤ large) (h : u.extract large countdown = (.ok x, c)) :
    ∃ y, u.extract small countdown = (.ok y, c) ∧ y.arena = x.arena ∧ y.errors = x.errors ∧
      y.scopes = x.scopes.map (·.cut small) := by
  obtain ⟨b, hb, hcountdown, rfl⟩ := extract_eq_ok_iff.mp h
  have hat : (Correspondence.bounds large small).At {}
      (u.tokenView (Token.lex u.language u.content.toList) large)
      (u.tokenView (Token.lex u.language u.content.toList) small) :=
    ⟨⟨rfl, rfl⟩, (fun _ h => nomatch h), Nat.le_refl _⟩
  have hempty : (#[{ kind := .module, name := "", headerSpan := ⟨0, 0⟩ }] : Array Scope).map (·.cut small) =
      #[{ kind := .module, name := "", headerSpan := ⟨0, 0⟩ }] := by
    simp [Scope.cut]
  have hstart : Builder.Bounded small { countdown := countdown } { countdown := countdown } :=
    ⟨⟨0, 0, by rw [Builder.cut, hempty]⟩, Draft.alike_start⟩
  have hmeets := Walk.unit_agree (Builder.bounded hle) hat _ _ hstart
    (fun _ hl => absurd hl (Array.not_mem_empty _)) (le_refl _)
  rw [hb] at hmeets
  rcases hc : Walk.unit (u.tokenView (Token.lex u.language u.content.toList) small)
    { countdown := countdown } with ⟨result, b'⟩
  rw [hc] at hmeets
  cases hmeets with
  | ok _ hgoes =>
    obtain ⟨⟨_, _, rfl⟩, _⟩ : b.Bounded small b' := hgoes.rel
    exact ⟨_, extract_eq_ok_iff.mpr ⟨_, hc, hcountdown, rfl⟩, rfl, rfl, rfl⟩

theorem extract_eq_of_size_le (hle : small ≤ large) (hx : u.extract large countdown = (.ok x, c))
    (hsize : ∀ scope ∈ x.scopes, scope.statements.size ≤ small) : u.extract small countdown = (.ok x, c) := by
  obtain ⟨y, hy, harena, herrors, hscopes⟩ := extract_smaller hle hx
  have hsame : y.scopes = x.scopes := by
    rw [hscopes, Array.map_congr_left fun scope hscope => Scope.cut_of_size_le (hsize scope hscope),
      Array.map_id']
  have hstats : y.stats = x.stats := by
    rw [extract_tally hy, extract_tally hx, ExtractedUnit.tally, ExtractedUnit.tally, hsame, herrors]
  obtain ⟨arena, scopes, stats, errors⟩ := x
  obtain ⟨arena', scopes', stats', errors'⟩ := y
  cases harena
  cases herrors
  cases hsame
  cases hstats
  exact hy

/-- From some bound on nothing is masked: how many statements a scope has is the same under every bound. -/
theorem exists_unbounded (u : SourceUnit) :
    ∃ x n, (∀ scope ∈ x.scopes, scope.statements.size ≤ n) ∧
      ∀ bound, n ≤ bound → u.extract bound .never = (.ok x, .never) := by
  obtain ⟨first, hfirst⟩ := u.extract_never 0
  let n := (first.scopes.toList.map (·.statements.size)).sum
  have hsize {bound : Nat} {x : ExtractedUnit} (hx : u.extract bound .never = (.ok x, .never)) :
      ∀ scope ∈ x.scopes, scope.statements.size ≤ n := by
    intro scope hscope
    obtain ⟨_, hzero, _, _, hscopes⟩ := extract_smaller (Nat.zero_le bound) hx
    cases hfirst.symm.trans hzero
    refine List.le_sum_of_mem (List.mem_map.mpr ⟨scope.cut 0, ?_, Scope.cut_size 0 scope⟩)
    rw [hscopes]
    exact Array.mem_toList_iff.mpr (Array.mem_map_of_mem hscope)
  obtain ⟨x, hx⟩ := u.extract_never n
  refine ⟨x, n, hsize hx, fun bound hle => ?_⟩
  obtain ⟨y, hy⟩ := u.extract_never bound
  cases hx.symm.trans (extract_eq_of_size_le hle hy (hsize hy))
  exact hy

/-- There is a unit that every large bound extracts, and a smaller bound gives the same expressions, errors and
scopes, with the statements of each scope masked from the bound on. The counts are always those of the
statements that were extracted. -/
theorem bound_only_masks (u : SourceUnit) :
    (∃ x n, (∀ bound, n ≤ bound → u.extract bound .never = (.ok x, .never)) ∧
      (∀ bound, ∃ y, u.extract bound .never = (.ok y, .never) ∧ y.arena = x.arena ∧ y.errors = x.errors ∧
        y.scopes = x.scopes.map (·.cut bound)) ∧
      ∀ scope ∈ x.scopes, ∀ s ∈ scope.statements, s.hidden.kind = .unparsed ∧ s.hidden.targets = [] ∧
        s.hidden.operands = [] ∧ s.hidden.span = s.span ∧ s.hidden.controlTag = s.controlTag) ∧
    ∀ {bound : Nat} {countdown c : Countdown} {y : ExtractedUnit}, u.extract bound countdown = (.ok y, c) →
      y.stats.statements = (y.scopes.toList.flatMap (·.statements.toList)).countP (·.kind != .unparsed) ∧
      y.stats.unparsed = (y.scopes.toList.flatMap (·.statements.toList)).countP (·.kind == .unparsed) := by
  obtain ⟨x, n, hsize, hlarge⟩ := u.exists_unbounded
  refine ⟨⟨x, n, hlarge, fun bound => ?_, fun scope hscope s hs => ?_⟩, fun hy => ?_⟩
  · by_cases hle : n ≤ bound
    · refine ⟨x, hlarge bound hle, rfl, rfl, ?_⟩
      rw [Array.map_congr_left fun scope hscope =>
        Scope.cut_of_size_le (Nat.le_trans (hsize scope hscope) hle), Array.map_id']
    · exact extract_smaller (Nat.le_of_not_le hle) (hlarge n (Nat.le_refl n))
  · obtain ⟨i, hi⟩ := Array.getElem?_of_mem hscope
    have hidle : s.hidden.Idle :=
      Statement.hidden_idle fun hkind => (extract_tree (hlarge n (Nat.le_refl n))).silent hi s hs (by rw [hkind]; rfl)
    exact ⟨s.hidden_kind, hidle.1, hidle.2, s.hidden_span, s.hidden_controlTag⟩
  · rw [extract_tally hy]
    exact ⟨rfl, rfl⟩

end SourceUnit

namespace TwoCalls

def unit : SourceUnit := { id := "a.py", content := (Text.Utf8.encode "a()\nb()").toArray, language := .python }

/-- Under a bound of one statement the second call is masked. -/
theorem bound_only_masks_second :
    ∃ x n y, (∀ bound, n ≤ bound → unit.extract bound .never = (.ok x, .never)) ∧
      unit.extract 1 .never = (.ok y, .never) ∧ y.scopes = x.scopes.map (·.cut 1) ∧
      y.scopes.toList.flatMap (·.statements.toList) =
        [⟨.call, [], false, [0], ⟨0, 3⟩, 0⟩, ⟨.unparsed, [], false, [], ⟨4, 7⟩, 0⟩] ∧
      y.stats.statements = 1 ∧ y.stats.unparsed = 1 := by
  obtain ⟨⟨x, n, hlarge, hbound, _⟩, hcounts⟩ := unit.bound_only_masks
  obtain ⟨y, hy, _, _, hscopes⟩ := hbound 1
  have hextract : (unit.extract 1 .never).1.toOption.map (statementsOf ·.scopes) =
      some [⟨.call, [], false, [0], ⟨0, 3⟩, 0⟩, ⟨.unparsed, [], false, [], ⟨4, 7⟩, 0⟩] := by
    decide +kernel
  rw [hy] at hextract
  have hstatements : y.scopes.toList.flatMap (·.statements.toList) = _ := Option.some.inj hextract
  obtain ⟨hrecognised, hunparsed⟩ := hcounts hy
  rw [hstatements] at hrecognised hunparsed
  exact ⟨x, n, y, hlarge, hy, hscopes, hstatements, hrecognised, hunparsed⟩

end TwoCalls
end TaintScan
