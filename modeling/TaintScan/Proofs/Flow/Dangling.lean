import Mathlib.Data.Nat.Find
import TaintScan.Proofs.Flow.Writes
import TaintScan.Proofs.Rule.Search

/-! # Statements over unrecorded expressions

A pass fails at the first statement with such an identifier under its operands, whatever the rules are
and whatever is known by then, and names the scope of the statement. A statement that is neither
evaluated nor matched may name what it likes.
-/
namespace TaintScan

/-- A statement is evaluated, and an expression under its operands is not recorded. -/
def Statement.Dangles (st : Statement) (a : ExprArena) : Prop :=
  st.evaluates = true ∧ ∃ id, a.Under st.operands id ∧ a.size ≤ id

theorem Statement.evaluates_eq_false_iff {st : Statement} :
    st.evaluates = false ↔ (st.kind == .unparsed || st.kind == .controlClose) = true := by
  unfold Statement.evaluates
  cases st.kind with
  | controlOpen kind => simp
  | _ => simp

/-! ## One statement -/

namespace Registry

variable {g : Registry} {st : Statement} {a : ExprArena} {language : Language} {context : ShapeContext}

theorem matchShapes_of_not_dangles (h : ¬st.Dangles a) :
    ∃ found, g.matchShapes st a language context = .ok found := by
  unfold matchShapes matchStatement
  split
  · exact ⟨_, rfl⟩
  · next hevaluates =>
    have hcalls : ∃ calls, a.callsIn st.operands = .ok calls := by
      rw [ExprArena.callsIn_ok_iff]
      intro id hid
      by_contra hsize
      refine h ⟨?_, id, hid, Nat.not_lt.mp hsize⟩
      rw [← Bool.not_eq_false, Statement.evaluates_eq_false_iff]
      exact hevaluates
    obtain ⟨calls, hcalls⟩ := hcalls
    rw [hcalls]
    exact ⟨_, rfl⟩

theorem matchShapes_of_dangles (h : st.Dangles a) :
    ∃ cause : UnknownExpr, g.matchShapes st a language context = .error cause ∧
      a.Under st.operands cause.id ∧ a.size ≤ cause.id ∧ cause.size = a.size := by
  obtain ⟨hevaluates, id, hid, hsize⟩ := h
  cases hcalls : a.callsIn st.operands with
  | ok calls => exact absurd (ExprArena.callsIn_ok_iff.mp ⟨calls, hcalls⟩ id hid) (Nat.not_lt.mpr hsize)
  | error cause =>
    refine ⟨cause, ?_, ExprArena.callsIn_error hcalls⟩
    unfold matchShapes matchStatement
    rw [if_neg, hcalls]
    rw [← Statement.evaluates_eq_false_iff, hevaluates]
    simp

end Registry

namespace Site

variable {s : Site} {st : Statement}

theorem statement_of_dangles (h : st.Dangles s.arena) (flow : Flow) :
    ∃ cause : UnknownExpr, s.statement st flow = .error cause ∧
      s.arena.Under st.operands cause.id ∧ s.arena.size ≤ cause.id ∧ cause.size = s.arena.size := by
  obtain ⟨cause, hcause, hnames⟩ := Registry.matchShapes_of_dangles (g := s.registry) h
  refine ⟨cause, ?_, hnames⟩
  unfold statement
  dsimp only
  split
  · next hfound => cases hcause.symm.trans hfound; rfl
  · next hfound => cases hcause.symm.trans hfound

theorem statement_ok_iff (flow : Flow) :
    (∃ flow', s.statement st flow = .ok flow') ↔ ¬st.Dangles s.arena := by
  constructor
  · rintro ⟨flow', hok⟩ hdangles
    obtain ⟨cause, hcause, _⟩ := statement_of_dangles hdangles flow
    cases hcause.symm.trans hok
  · intro h
    obtain ⟨found, hfound⟩ := Registry.matchShapes_of_not_dangles (g := s.registry) h
    exact ⟨_, statement_eq_ok_iff.mpr ⟨found, hfound, rfl⟩⟩

end Site

/-! ## A pass -/

namespace SourceUnit

variable {u : SourceUnit} {x : ExtractedUnit} {registry : Registry} {options : AnalysisOptions}
variable {done : Array Facts} {flow : Flow} {scope : Scope}

theorem Reaches.exists_within (hr : u.Reaches x registry options done (.within scope 0) flow) {k : Nat}
    (hk : k ≤ scope.statements.size)
    (hbefore : ∀ j < k, ∀ st, scope.statements[j]? = some st → ¬st.Dangles x.arena) :
    ∃ flow', u.Reaches x registry options done (.within scope k) flow' := by
  induction k with
  | zero => exact ⟨flow, hr⟩
  | succ k ih =>
    obtain ⟨flow', hr'⟩ := ih (Nat.le_of_succ_le hk) fun j hj => hbefore j (Nat.lt_succ_of_lt hj)
    obtain ⟨st, hst⟩ : ∃ st, scope.statements[k]? = some st := ⟨_, Array.getElem?_eq_getElem hk⟩
    have hnot := hbefore k (Nat.lt_succ_self k) st hst
    obtain ⟨flow'', hok⟩ :=
      (Site.statement_ok_iff (s := u.siteIn x registry options done scope) flow').mpr hnot
    exact ⟨flow'', hr'.step hst hok⟩

theorem exists_reaches_between (u : SourceUnit) (registry : Registry) (options : AnalysisOptions)
    {i : Nat} (hi : i ≤ x.scopes.size) (hbefore : ∀ j < i, ∀ k st, x.At j k st → ¬st.Dangles x.arena) :
    ∃ done flow, done.size = i ∧ u.Reaches x registry options done .between flow := by
  induction i with
  | zero => exact ⟨#[], {}, rfl, .start⟩
  | succ i ih =>
    obtain ⟨done, flow, rfl, hr⟩ := ih (Nat.le_of_succ_le hi) fun j hj => hbefore j (Nat.lt_succ_of_lt hj)
    obtain ⟨scope, hscope⟩ : ∃ scope, x.scopes[done.size]? = some scope := ⟨_, Array.getElem?_eq_getElem hi⟩
    have hstatements (k : Nat) (st : Statement) (hst : scope.statements[k]? = some st) : ¬st.Dangles x.arena :=
      hbefore done.size (Nat.lt_succ_self _) k st ⟨scope, hscope, hst⟩
    obtain ⟨flow', hr'⟩ := (hr.enter hscope).exists_within (Nat.le_refl _) fun k _ => hstatements k
    have hend : scope.statements[scope.statements.size]? = none := Array.getElem?_eq_none (Nat.le_refl _)
    exact ⟨done.push flow'.facts, flow', Array.size_push .., hr'.leave hend⟩

theorem Reaches.track_error {k : Nat} (h : u.Reaches x registry options done (.within scope k) flow)
    {st : Statement} (hst : scope.statements[k]? = some st) {cause : UnknownExpr}
    (herror : (u.siteIn x registry options done scope).statement st flow = .error cause) :
    u.track x registry options .never = (.error (.unknownExpr u.id scope.name cause), .never) := by
  obtain ⟨n, hn⟩ := h.rest
  have hdrop : scope.statements.toList.drop k = st :: scope.statements.toList.drop (k + 1) := by
    rw [List.drop_eq_getElem?_toList_append, Array.getElem?_toList, hst]
    rfl
  rw [SourceUnit.rest, hdrop, Site.walk, herror] at hn
  rw [track, hn]
  rfl

/-- The statement at a position is the first in walk order that dangles. -/
structure FirstDangling (x : ExtractedUnit) (i k : Nat) (scope : Scope) (st : Statement) : Prop where
  scope_eq : x.scopes[i]? = some scope
  statement_eq : scope.statements[k]? = some st
  dangles : st.Dangles x.arena
  first : ∀ j m st', x.At j m st' → st'.Dangles x.arena → i < j ∨ i = j ∧ k ≤ m

theorem exists_firstDangling (h : ∃ i k st, x.At i k st ∧ st.Dangles x.arena) :
    ∃ i k scope st, FirstDangling x i k scope st := by
  classical
  obtain ⟨k₀, hk₀⟩ := Nat.find_spec h
  let here (k : Nat) : Prop := ∃ st, x.At (Nat.find h) k st ∧ st.Dangles x.arena
  have hhere : ∃ k, here k := ⟨k₀, hk₀⟩
  obtain ⟨st, ⟨scope, hscope, hst⟩, hdangles⟩ := Nat.find_spec hhere
  refine ⟨Nat.find h, Nat.find hhere, scope, st, hscope, hst, hdangles, fun j m st' hat hst' => ?_⟩
  rcases Nat.lt_or_eq_of_le (Nat.find_min' h ⟨m, st', hat, hst'⟩) with hlt | heq
  · exact Or.inl hlt
  · exact Or.inr ⟨heq, Nat.find_min' hhere ⟨st', heq ▸ hat, hst'⟩⟩

theorem FirstDangling.track_eq {i k : Nat} {st : Statement} (h : FirstDangling x i k scope st)
    (u : SourceUnit) (registry : Registry) (options : AnalysisOptions) :
    ∃ cause : UnknownExpr,
      u.track x registry options .never = (.error (.unknownExpr u.id scope.name cause), .never) ∧
      x.arena.Under st.operands cause.id ∧ x.arena.size ≤ cause.id ∧ cause.size = x.arena.size := by
  have hi : i < x.scopes.size := (Array.getElem?_eq_some_iff.mp h.scope_eq).1
  have hk : k < scope.statements.size := (Array.getElem?_eq_some_iff.mp h.statement_eq).1
  obtain ⟨done, flow, rfl, hbetween⟩ := exists_reaches_between u registry options (Nat.le_of_lt hi)
    fun j hj m st' hat hst' => by
      have hfirst := h.first j m st' hat hst'
      omega
  obtain ⟨flow', hwithin⟩ := (hbetween.enter h.scope_eq).exists_within (Nat.le_of_lt hk)
    fun m hm st' hst' hdangles => by
      have hfirst := h.first done.size m st' ⟨scope, h.scope_eq, hst'⟩ hdangles
      omega
  obtain ⟨cause, hcause, hnames⟩ :=
    Site.statement_of_dangles (s := u.siteIn x registry options done scope) h.dangles flow'
  exact ⟨cause, hwithin.track_error h.statement_eq hcause, hnames⟩

end SourceUnit

/-! ## An argument that is not recorded -/

namespace LostArgument

def unit : SourceUnit :=
  { id := "a.js", content := (Text.Utf8.encode "function f() { @ } function g() { [h(x)] }").toArray
    language := .javascript }

def skipped : Statement := { kind := .unparsed, operands := [9], span := ⟨15, 16⟩, controlTag := 0 }

def lost : Statement := { kind := .expression, operands := [1], span := ⟨34, 40⟩, controlTag := 0 }

def first : Scope := { kind := .function, name := "f", headerSpan := ⟨0, 14⟩, statements := #[skipped] }

def second : Scope := { kind := .function, name := "g", headerSpan := ⟨19, 33⟩, statements := #[lost] }

/-- The second expression holds a call whose argument has an identifier that is not recorded. -/
def given : ExtractedUnit :=
  { arena := ⟨#[⟨.call "h" none [7] false, ⟨35, 39⟩⟩, ⟨.compound [0], ⟨34, 40⟩⟩], #[1, 2]⟩
    scopes := #[first, second], stats := { statements := 2, scopes := 2 } }

theorem descends_given : given.arena.Descends := by decide +kernel

theorem under_lost {id : ExprId} (h : given.arena.Under lost.operands id) : id = 1 ∨ id = 0 ∨ id = 7 := by
  have hoperands : ∀ id ∈ lost.operands, id = 1 ∨ id = 0 ∨ id = 7 := by decide
  refine h.of_hereditary ?_ hoperands
  intro id e hid he c hc
  rcases hid with rfl | rfl | rfl
  · cases he
    exact Or.inr (Or.inl (List.mem_singleton.mp hc))
  · cases he
    exact Or.inr (Or.inr (List.mem_singleton.mp hc))
  · cases he

theorem dangles_lost : lost.Dangles given.arena := by
  have hroot : given.arena.Under lost.operands 1 := given.arena.under_of_mem List.mem_cons_self
  have hcall : given.arena.Under lost.operands 0 := hroot.child rfl List.mem_cons_self
  exact ⟨rfl, 7, hcall.child rfl List.mem_cons_self, by decide⟩

theorem firstDangling_lost : SourceUnit.FirstDangling given 1 0 second lost where
  scope_eq := rfl
  statement_eq := rfl
  dangles := dangles_lost
  first := by
    rintro j m st ⟨scope, hscope, hst⟩ hdangles
    by_cases hj : j = 0
    · subst hj
      cases hscope
      -- The statement of the first scope is not evaluated.
      have hskipped : st = skipped := List.mem_singleton.mp (Array.mem_def.mp (Array.mem_of_getElem? hst))
      rw [hskipped] at hdangles
      cases hdangles.1
    · omega

end LostArgument
end TaintScan
