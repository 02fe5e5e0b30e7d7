import TaintScan.Proofs.Extract.Alike
import TaintScan.Proofs.Extract.Nesting

/-! # The tree of scopes

The module is the first scope and stands in no other one; every other scope stands in an earlier scope
and knows its kind. A silent statement, be it a closing marker or outside of the grammar, reads and
writes nothing. The counts of an extraction are those of the statements in its scopes.
-/
namespace TaintScan

/-- The scope with an index stands in an earlier one, whose kind it knows. -/
def Scope.StandsIn (scopes : Array Scope) (i : Nat) (scope : Scope) : Prop :=
  ∃ p outer, scope.parent = some p ∧ p < i ∧ scopes[p]? = some outer ∧ scope.parentKind = some outer.kind

/-- The first scope is the module, the others stand in earlier ones, and what is silent in them is
idle. -/
structure ScopeTree (scopes : Array Scope) : Prop where
  outermost : ∃ scope, scopes[0]? = some scope ∧ scope.kind = .module ∧ scope.parent = none ∧
    scope.parentKind = none
  inner : ∀ {i : Nat} {scope : Scope}, scopes[i]? = some scope → 0 < i → scope.StandsIn scopes i
  silent : ∀ {i : Nat} {scope : Scope}, scopes[i]? = some scope → ∀ s ∈ scope.statements,
    s.kind.isSilent = true → s.Idle

namespace ScopeTree

variable {scopes : Array Scope} (h : ScopeTree scopes)
include h

theorem modify (i : Nat) {s : Statement} (hs : s.kind.isSilent = true → s.Idle) :
    ScopeTree (scopes.modify i (·.push s)) := by
  have hlookup {j : Nat} {scope : Scope} (hj : scopes[j]? = some scope) :
      ∃ new, (scopes.modify i (·.push s))[j]? = some new ∧ new.kind = scope.kind ∧
        new.parent = scope.parent ∧ new.parentKind = scope.parentKind := by
    rw [Array.getElem?_modify, hj]
    split
    · exact ⟨_, rfl, rfl, rfl, rfl⟩
    · exact ⟨_, rfl, rfl, rfl, rfl⟩
  refine ⟨?_, fun {j new} hnew hpos => ?_, fun {j new} hnew => ?_⟩
  · obtain ⟨scope, hscope, hkind, hparent, hparentKind⟩ := h.outermost
    obtain ⟨new, hnew, hkind', hparent', hparentKind'⟩ := hlookup hscope
    exact ⟨new, hnew, hkind'.trans hkind, hparent'.trans hparent, hparentKind'.trans hparentKind⟩
  · have hj : j < scopes.size := by
      have hsize := (Array.getElem?_eq_some_iff.mp hnew).1
      rwa [Array.size_modify] at hsize
    obtain ⟨p, outer, hp, hlt, houter, houterKind⟩ := h.inner (Array.getElem?_eq_getElem hj) hpos
    obtain ⟨new', hnew', _, hparent, hparentKind⟩ := hlookup (Array.getElem?_eq_getElem hj)
    obtain ⟨outer', houter', hkind, _⟩ := hlookup houter
    cases hnew.symm.trans hnew'
    exact ⟨p, outer', hparent.trans hp, hlt, houter', by rw [hparentKind, houterKind, hkind]⟩
  · rw [Array.getElem?_modify] at hnew
    split at hnew
    · obtain ⟨old, hold, rfl⟩ := Option.map_eq_some_iff.mp hnew
      intro t ht hkind
      rcases Array.mem_push.mp ht with ht | rfl
      · exact h.silent hold t ht hkind
      · exact hs hkind
    · exact h.silent hnew

theorem push {scope : Scope} (hin : scope.StandsIn scopes scopes.size) (hempty : scope.statements = #[]) :
    ScopeTree (scopes.push scope) := by
  have hkept {j : Nat} {old : Scope} (hj : scopes[j]? = some old) : (scopes.push scope)[j]? = some old := by
    rw [Array.getElem?_push, if_neg (Nat.ne_of_lt (Array.getElem?_eq_some_iff.mp hj).1)]
    exact hj
  have hstands {i : Nat} {s : Scope} (hs : s.StandsIn scopes i) : s.StandsIn (scopes.push scope) i := by
    obtain ⟨p, outer, hp, hlt, houter, hkind⟩ := hs
    exact ⟨p, outer, hp, hlt, hkept houter, hkind⟩
  refine ⟨?_, fun {j new} hnew hpos => ?_, fun {j new} hnew => ?_⟩
  · obtain ⟨first, hfirst, hrest⟩ := h.outermost
    exact ⟨first, hkept hfirst, hrest⟩
  · rw [Array.getElem?_push] at hnew
    split at hnew
    · next heq =>
      cases hnew
      rw [heq]
      exact hstands hin
    · exact hstands (h.inner hnew hpos)
  · rw [Array.getElem?_push] at hnew
    split at hnew
    · cases hnew
      rw [hempty]
      exact fun _ ht => absurd ht (Array.not_mem_empty _)
    · exact h.silent hnew

end ScopeTree

/-! ## Counts -/

def statementsOf (scopes : Array Scope) : List Statement := scopes.toList.flatMap (·.statements.toList)

theorem countP_modify_push (p : Statement → Bool) (s : Statement) {scopes : Array Scope} {i : Nat}
    (hi : i < scopes.size) :
    (statementsOf (scopes.modify i (·.push s))).countP p =
      (statementsOf scopes).countP p + if p s then 1 else 0 := by
  unfold statementsOf
  rw [Array.toList_modify]
  rw [← Array.length_toList] at hi
  generalize scopes.toList = scopes at hi ⊢
  induction scopes generalizing i with
  | nil => exact absurd hi (Nat.not_lt_zero _)
  | cons scope rest ih =>
    cases i with
    | zero =>
      have hpush : (scope.push s).statements.toList = scope.statements.toList ++ [s] := Array.toList_push
      rw [List.modify_zero_cons, List.flatMap_cons, List.flatMap_cons, hpush]
      simp only [List.countP_append, List.countP_singleton]
      omega
    | succ i =>
      rw [List.modify_succ_cons, List.flatMap_cons, List.flatMap_cons, List.countP_append, List.countP_append,
        ih (Nat.lt_of_succ_lt_succ hi), Nat.add_assoc]

namespace Builder

/-- The recorded scopes form a tree, and the counts are those of their statements. -/
structure Filed (scopes : Array Scope) (statements unparsed : Nat) : Prop where
  tree : ScopeTree scopes
  statements : statements = (statementsOf scopes).countP (·.kind != .unparsed)
  unparsed : unparsed = (statementsOf scopes).countP (·.kind == .unparsed)

structure Rooted (bound : Nat) (b : Builder) : Prop where
  nesting : b.Nesting bound
  filed : Filed b.scopes b.statements b.unparsed

theorem filed_push {b : Builder} (h : Filed b.scopes b.statements b.unparsed) (hlt : b.currentScope < b.scopes.size)
    (bound : Nat) {s : Statement} (hs : s.kind.isSilent = true → s.Idle) :
    Filed (b.push bound s).scopes (b.push bound s).statements (b.push bound s).unparsed := by
  have hfitted : (b.fitted bound s).kind.isSilent = true → (b.fitted bound s).Idle := by
    unfold fitted
    split
    · exact fun _ => ⟨rfl, rfl⟩
    · exact hs
  have htree := h.tree.modify b.currentScope hfitted
  have hstatements := countP_modify_push (·.kind != .unparsed) (b.fitted bound s) hlt
  have hunparsed := countP_modify_push (·.kind == .unparsed) (b.fitted bound s) hlt
  rw [← h.statements] at hstatements
  rw [← h.unparsed] at hunparsed
  generalize hpush : b.push bound s = c
  change (if (b.fitted bound s).kind == .unparsed then _ else _) = c at hpush
  split at hpush
  · next hkind =>
    rw [bne, hkind] at hstatements
    rw [hkind] at hunparsed
    exact hpush ▸ ⟨htree, hstatements.symm, hunparsed.symm⟩
  · next hkind =>
    rw [Bool.not_eq_true] at hkind
    rw [bne, hkind] at hstatements
    rw [hkind] at hunparsed
    exact hpush ▸ ⟨htree, hstatements.symm, hunparsed.symm⟩

theorem Nesting.currentScope_lt {bound : Nat} {b : Builder} (h : b.Nesting bound) :
    b.currentScope < b.scopes.size := by
  have hscope {n : Nat} {frames : List Frame} (hn : 0 < n) (hchain : Frame.ScopeChain n frames) :
      Frame.scopeOf frames < n := by
    induction frames with
    | nil => exact hn
    | cons frame rest ih =>
      cases frame with
      | scope i => exact hchain.2.1
      | control tag => exact ih hchain
      | plain => exact ih hchain
  rw [currentScope_eq]
  exact hscope h.scopes_pos h.chain

namespace Rooted

variable {bound : Nat} {b : Builder} (h : b.Rooted bound)
include h

theorem push {s : Statement} (hk : s.kind.isMarker = false) (hu : s.kind = .unparsed → s.Idle)
    (ht : s.controlTag = b.currentTag) : (b.push bound s).Rooted bound := by
  refine ⟨h.nesting.push hk ht, filed_push h.filed h.nesting.currentScope_lt bound fun hsilent => ?_⟩
  cases hkind : s.kind with
  | unparsed => exact hu hkind
  | controlClose =>
    rw [hkind] at hk
    cases hk
  | _ =>
    rw [hkind] at hsilent
    cases hsilent

theorem closeTop {v : View} (hv : v.bound = bound) : (b.closeTop v).Rooted bound := by
  refine ⟨h.nesting.closeTop hv, ?_⟩
  have hlt := h.nesting.currentScope_lt
  unfold Builder.closeTop
  split
  · exact h.filed
  · next block rest hblocks =>
    dsimp only
    split
    · next tag hframe =>
      -- The scope around a control block is the current one also behind it.
      refine filed_push (b := { b with blocks := rest }) h.filed ?_ _ fun _ => ⟨rfl, rfl⟩
      rw [currentScope_eq, frames, hblocks, List.map_cons, hframe] at hlt
      rw [currentScope_eq]
      exact hlt
    · exact h.filed

theorem openControl {v : View} (hv : v.bound = bound) (kind : ControlKind) (targets : List String)
    (operands : List ExprId) (start : Nat) :
    (b.openControl v kind targets operands start .block none).Rooted bound := by
  refine ⟨h.nesting.openControl hv kind targets operands start, ?_⟩
  exact filed_push (b := { b with tags := b.tags.modify b.currentScope (· + 1), draft.properties := #[] }) h.filed
    h.nesting.currentScope_lt v.bound (s :=
      { kind := .controlOpen kind, targets := targets, operands := operands
        span := v.spanSince start b.pos, controlTag := b.tags.getD b.currentScope 0 + 1 }) nofun

theorem openScope {v : View} (kind : ScopeKind) (name : String) (params : List Param) (header : Span) :
    (b.openScope v kind name params header false none).Rooted bound := by
  have hempty (scope : Scope) (hscope : scope.statements = #[]) :
      statementsOf (b.scopes.push scope) = statementsOf b.scopes := by
    rw [statementsOf, Array.toList_push, List.flatMap_append, List.flatMap_singleton, hscope]
    exact List.append_nil _
  have hlt := h.nesting.currentScope_lt
  have hkind : b.scopeKind b.currentScope = b.scopes[b.currentScope].kind := by
    rw [Builder.scopeKind, Array.getElem?_eq_getElem hlt]
    rfl
  refine ⟨h.nesting.openScope kind name params header, ?_, h.filed.statements.trans ?_, h.filed.unparsed.trans ?_⟩
  · exact h.filed.tree.push ⟨_, _, rfl, hlt, Array.getElem?_eq_getElem hlt, congrArg some hkind⟩ rfl
  · exact congrArg _ (hempty _ rfl).symm
  · exact congrArg _ (hempty _ rfl).symm

end Rooted

def rooted (bound : Nat) : Builder.Invariant bound where
  holds b := b.Rooted bound
  mayStop := True
  withDraft h hsize := ⟨(nesting bound).withDraft h.nesting hsize, h.filed⟩
  withWords h modifiers annotations :=
    ⟨(nesting bound).withWords h.nesting modifiers annotations, h.filed⟩
  withBlocks h blocks hblocks := ⟨(nesting bound).withBlocks h.nesting blocks hblocks, h.filed⟩
  pushPlain h := ⟨h.nesting.pushPlain, h.filed⟩
  closeTop hv h := h.closeTop hv
  openControl hv h kind targets operands start _ := h.openControl hv kind targets operands start
  openScope h kind name params header := h.openScope kind name params header
  push h _ _ hk hu ht := h.push hk hu ht
  poll h := ⟨fun _ => trivial, ((nesting bound).poll h.nesting).2, h.filed⟩

theorem rooted_start (bound : Nat) (countdown : Countdown) : Rooted bound { countdown := countdown } := by
  have honly {i : Nat} {scope : Scope} (h : (#[{ kind := .module, name := "", headerSpan := ⟨0, 0⟩ }] :
      Array Scope)[i]? = some scope) : i = 0 ∧ scope.statements = #[] := by
    obtain ⟨hi, rfl⟩ := Array.getElem?_eq_some_iff.mp h
    cases Nat.lt_one_iff.mp hi
    exact ⟨rfl, rfl⟩
  refine ⟨⟨Nat.zero_lt_one, rfl, trivial, fun i scope hscope _ => ?_⟩, ⟨?_,
    fun {i scope} hscope hpos => ?_, fun {i scope} hscope => ?_⟩, rfl, rfl⟩
  · obtain ⟨rfl, hempty⟩ := honly hscope
    rw [hempty]
    exact .outside .nil
  · exact ⟨_, rfl, rfl, rfl, rfl⟩
  · exact absurd (honly hscope).1 (Nat.ne_of_gt hpos)
  · rw [(honly hscope).2]
    exact fun _ hs => absurd hs (Array.not_mem_empty _)

end Builder

theorem SourceUnit.extract_tree {u : SourceUnit} {bound : Nat} {countdown c : Countdown}
    {x : ExtractedUnit} (h : u.extract bound countdown = (.ok x, c)) : ScopeTree x.scopes := by
  obtain ⟨b, x', hx, _, hscopes, _, _, hb⟩ | ⟨_, id, k, c', hx⟩ :=
    u.extract_invariant (Builder.rooted bound) (Builder.rooted_start bound countdown)
  · cases h.symm.trans hx
    rw [hscopes]
    exact (Builder.Rooted.filed hb).tree
  · cases h.symm.trans hx

end TaintScan
