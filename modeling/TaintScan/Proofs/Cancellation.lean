import Mathlib
import TaintScan.Proofs.Extract.Countdown
import TaintScan.Proofs.Flow.Pass
import TaintScan.Scan.Scanner

/-! # Cancelled scans

A scan asks its countdown once for each turn of the statement loop of an extraction, and once for each
recorded statement of the pass behind it. So a unit is scanned as without a countdown if the answers
last for it and all units before it, and is cancelled else.
-/
namespace TaintScan

/-! ## Passes -/

namespace Site

variable {s : Site} (ha : s.arena.Sound) {statements : List Statement}
  (hrecorded : ∀ st ∈ statements, ∀ id ∈ st.operands, id < s.arena.size)
include ha hrecorded

theorem walk_cancelled (flow : Flow) {n : Nat} (h : n < statements.length) (k : Nat) :
    s.walk statements flow ⟨.after n, k⟩ = (.error (.cancelled s.unit.id (k + n)), ⟨.after 0, k + n⟩) := by
  induction statements generalizing flow n k with
  | nil => exact absurd h (Nat.not_lt_zero n)
  | cons st rest ih =>
    obtain ⟨hst, hrest⟩ := List.forall_mem_cons.mp hrecorded
    cases n with
    | zero => rfl
    | succ n =>
      obtain ⟨flow', hflow⟩ := statement_ok ha hst flow
      have hstep : s.walk (st :: rest) flow ⟨.after (n + 1), k⟩ = s.walk rest flow' ⟨.after n, k + 1⟩ := by
        simp only [walk, Countdown.poll_after_succ, hflow]
      rw [hstep, ih hrest flow' (Nat.lt_of_succ_lt_succ h), Nat.add_right_comm, Nat.add_assoc]

theorem walk_complete (flow : Flow) {n : Nat} (h : statements.length ≤ n) (k : Nat) :
    ∃ flow', s.walk statements flow ⟨.never, k⟩ = (.ok flow', ⟨.never, k + statements.length⟩) ∧
      s.walk statements flow ⟨.after n, k⟩ =
        (.ok flow', ⟨.after (n - statements.length), k + statements.length⟩) := by
  induction statements generalizing flow n k with
  | nil => exact ⟨flow, rfl, rfl⟩
  | cons st rest ih =>
    obtain ⟨hst, hrest⟩ := List.forall_mem_cons.mp hrecorded
    rw [List.length_cons] at h ⊢
    obtain ⟨n, rfl⟩ : ∃ m, n = m + 1 := ⟨n - 1, by omega⟩
    obtain ⟨flow', hflow⟩ := statement_ok ha hst flow
    obtain ⟨flow'', hnever, hafter⟩ := ih hrest flow' (Nat.le_of_succ_le_succ h) (k + 1)
    have hcount : k + 1 + rest.length = k + (rest.length + 1) := by omega
    rw [hcount] at hnever hafter
    refine ⟨flow'', ?_, ?_⟩
    · simp only [walk, Countdown.poll_never, hflow]
      exact hnever
    · simp only [walk, Countdown.poll_after_succ, hflow, Nat.add_sub_add_right]
      exact hafter

end Site

def ExtractedUnit.statementCount (x : ExtractedUnit) : Nat :=
  (x.scopes.toList.map (·.statements.size)).sum

namespace SourceUnit

variable (u : SourceUnit) {x : ExtractedUnit} (registry : Registry) (options : AnalysisOptions)

section

variable {scopes : List Scope} (ha : x.arena.Sound)
  (hrecorded : ∀ scope ∈ scopes, ∀ st ∈ scope.statements, ∀ id ∈ st.operands, id < x.arena.size)
include ha hrecorded

theorem trackFrom_complete (done : Array Facts) (flow : Flow) {n : Nat}
    (h : (scopes.map (·.statements.size)).sum ≤ n) (k : Nat) :
    ∃ flow' k', u.trackFrom x registry options scopes done flow ⟨.never, k⟩ = (.ok flow', ⟨.never, k'⟩) ∧
      u.trackFrom x registry options scopes done flow ⟨.after n, k⟩ =
        (.ok flow', ⟨.after (n - (scopes.map (·.statements.size)).sum), k'⟩) := by
  induction scopes generalizing done flow n k with
  | nil => exact ⟨flow, k, rfl, rfl⟩
  | cons scope rest ih =>
    obtain ⟨hscope, hrest⟩ := List.forall_mem_cons.mp hrecorded
    rw [List.map_cons, List.sum_cons] at h ⊢
    have hlength : scope.statements.toList.length = scope.statements.size := Array.length_toList
    obtain ⟨flow', hnever, hafter⟩ := (u.siteIn x registry options done scope).walk_complete ha
      (fun st hst => hscope st (Array.mem_toList_iff.mp hst))
      ((u.siteIn x registry options done scope).seedParams { flow with facts := {} }).2
      (n := n) (by omega) k
    rw [u.trackFrom_cons_ok x registry options hnever, u.trackFrom_cons_ok x registry options hafter, hlength,
      ← Nat.sub_sub]
    exact ih hrest _ flow' (by omega) _

theorem trackFrom_cancelled (done : Array Facts) (flow : Flow) {n : Nat}
    (h : n < (scopes.map (·.statements.size)).sum) (k : Nat) :
    u.trackFrom x registry options scopes done flow ⟨.after n, k⟩ =
      (.error (.cancelled u.id (k + n)), ⟨.after 0, k + n⟩) := by
  induction scopes generalizing done flow n k with
  | nil => exact absurd h (Nat.not_lt_zero n)
  | cons scope rest ih =>
    obtain ⟨hscope, hrest⟩ := List.forall_mem_cons.mp hrecorded
    rw [List.map_cons, List.sum_cons] at h
    have hlength : scope.statements.toList.length = scope.statements.size := Array.length_toList
    have hscope' : ∀ st ∈ scope.statements.toList, ∀ id ∈ st.operands, id < x.arena.size :=
      fun st hst => hscope st (Array.mem_toList_iff.mp hst)
    by_cases hn : n < scope.statements.toList.length
    · exact u.trackFrom_cons_error x registry options
        ((u.siteIn x registry options done scope).walk_cancelled ha hscope' _ hn k)
    · have hle : scope.statements.toList.length ≤ n := Nat.le_of_not_lt hn
      obtain ⟨flow', _, hafter⟩ :=
        (u.siteIn x registry options done scope).walk_complete ha hscope' _ hle k
      have hcount : k + scope.statements.toList.length + (n - scope.statements.toList.length) = k + n := by
        omega
      rw [u.trackFrom_cons_ok x registry options hafter, ih hrest _ flow' (by omega) _, hcount]

end

/-- A pass over recorded expressions is cancelled if it has more statements than the countdown has
answers; else it gives what it gives without a countdown. -/
theorem track_after (hx : x.Recorded) (n : Nat) :
    u.track x registry options (.after n) =
      if n < x.statementCount then (.error (.cancelled u.id n), .after 0)
      else ((u.track x registry options .never).1, .after (n - x.statementCount)) := by
  have hrecorded : ∀ scope ∈ x.scopes.toList, ∀ st ∈ scope.statements, ∀ id ∈ st.operands,
      id < x.arena.size := fun scope hscope => hx.operand_lt scope (Array.mem_toList_iff.mp hscope)
  split
  · next h =>
    have hcancelled := u.trackFrom_cancelled registry options hx.sound hrecorded #[] {} h 0
    rw [Nat.zero_add] at hcancelled
    simp only [track, hcancelled]
  · next h =>
    obtain ⟨flow, k, hnever, hafter⟩ :=
      u.trackFrom_complete registry options hx.sound hrecorded #[] {} (Nat.le_of_not_lt h) 0
    simp only [track, hnever, hafter]
    rfl

theorem analyze_after (hx : x.Recorded) (n : Nat) :
    u.analyze x registry options (.after n) =
      if n < x.statementCount then (.error (.analysis (.cancelled u.id n)), .after 0)
      else ((u.analyze x registry options .never).1, .after (n - x.statementCount)) := by
  have htrack := u.track_after registry options hx n
  split
  · next h =>
    rw [if_pos h] at htrack
    simp only [analyze, htrack]
  · next h =>
    rw [if_neg h] at htrack
    unfold analyze
    rw [htrack]
    cases u.track x registry options .never with
    | mk result left =>
      cases result with
      | error e => rfl
      | ok candidates => rfl

def statementCount (bound : Nat) : Nat :=
  ((u.extract bound .never).1.toOption.map (·.statementCount)).getD 0

end SourceUnit

/-! ## Scans -/

namespace Scanner

/-- How often the scan of a unit asks the countdown, if it is not cancelled. -/
def cost (s : Scanner) (u : SourceUnit) : Nat :=
  if s.maxUnitSizeKb * 1024 < u.size then 0
  else u.turns s.statementBound + u.statementCount s.statementBound

theorem scanUnit_after (s : Scanner) (u : SourceUnit) (n : Nat) :
    s.scanUnit u (.after n) =
      if s.cost u ≤ n then ((s.scanUnit u .never).1, .after (n - s.cost u))
      else (.error (.cancelled u.id), .after 0) := by
  unfold cost
  by_cases hsize : s.maxUnitSizeKb * 1024 < u.size
  · simp only [scanUnit, if_pos hsize, Nat.zero_le, if_true, Nat.sub_zero]
  · obtain ⟨x, hx⟩ := u.extract_never s.statementBound
    have hcount : u.statementCount s.statementBound = x.statementCount := by
      rw [SourceUnit.statementCount, hx]
      rfl
    rw [if_neg hsize, hcount]
    rcases u.extract_after s.statementBound n with ⟨hle, hextract⟩ | ⟨hlt, id, k, hextract⟩
    · rw [hx] at hextract
      have hanalyze := u.analyze_after s.registry s.options (SourceUnit.extract_recorded hx)
        (n - u.turns s.statementBound)
      by_cases hall : u.turns s.statementBound + x.statementCount ≤ n
      · rw [if_neg (by omega), Nat.sub_sub] at hanalyze
        simp only [scanUnit, if_neg hsize, hextract, hx, hanalyze, if_pos hall]
        cases u.analyze x s.registry s.options .never with
        | mk result left =>
          cases result with
          | error e => rfl
          | ok findings => rfl
      · rw [if_pos (by omega)] at hanalyze
        simp only [scanUnit, if_neg hsize, hextract, hanalyze, if_neg hall]
        rfl
    · have hall : ¬ u.turns s.statementBound + x.statementCount ≤ n := by omega
      simp only [scanUnit, if_neg hsize, hextract, if_neg hall]
      rfl

theorem scanUnit_after_left (s : Scanner) (u : SourceUnit) (n : Nat) :
    (s.scanUnit u (.after n)).2 = .after (n - s.cost u) := by
  rw [scanUnit_after]
  split
  · rfl
  · next h => rw [Nat.sub_eq_zero_of_le (Nat.le_of_not_le h)]

theorem scanEach_cons (s : Scanner) (u : SourceUnit) (rest : List SourceUnit) (c : Countdown) :
    s.scanEach (u :: rest) c = (u.id, (s.scanUnit u c).1) :: s.scanEach rest (s.scanUnit u c).2 := rfl

theorem scanEach_after (s : Scanner) (units : List SourceUnit) (n : Nat) :
    s.scanEach units (.after n) = units.mapIdx fun i u =>
      (u.id,
        if s.cost u = 0 ∨ ((units.take (i + 1)).map s.cost).sum ≤ n then (s.scanUnit u .never).1
        else .error (.cancelled u.id)) := by
  induction units generalizing n with
  | nil => rfl
  | cons u rest ih =>
    rw [List.mapIdx_cons, scanEach_cons, scanUnit_after_left, ih]
    congr 1
    · have hone : s.cost u = 0 ∨ (((u :: rest).take (0 + 1)).map s.cost).sum ≤ n ↔ s.cost u ≤ n := by
        simp
        omega
      rw [scanUnit_after]
      by_cases hcost : s.cost u ≤ n
      · rw [if_pos hcost, if_pos (hone.mpr hcost)]
      · rw [if_neg hcost, if_neg fun h => hcost (hone.mp h)]
    · rw [List.mapIdx_eq_mapIdx_iff]
      intro i hi
      have hsum : ((rest.take (i + 1)).map s.cost).sum = ((rest.take i).map s.cost).sum + s.cost rest[i] := by
        rw [List.take_succ_eq_append_getElem hi, List.map_append, List.sum_append]
        simp
      -- A unit that asks something is behind units that leave an answer for it.
      have hiff : s.cost rest[i] = 0 ∨ ((rest.take i).map s.cost).sum + s.cost rest[i] ≤ n - s.cost u ↔
          s.cost rest[i] = 0 ∨ s.cost u + (((rest.take i).map s.cost).sum + s.cost rest[i]) ≤ n := by
        omega
      rw [List.take_succ_cons, List.map_cons, List.sum_cons, hsum]
      simp only [hiff]

end Scanner
end TaintScan
