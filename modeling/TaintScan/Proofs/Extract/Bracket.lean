import Mathlib.Data.List.Find
import Mathlib.Order.Bounds.Defs
import TaintScan.Proofs.Extract.Ahead

/-! # Matching brackets

The bracket that closes another one is the first token up to which as many brackets of their kind have closed
as opened. Before it more of them are open than closed, so that two ranges of one kind lie inside each other or
apart, whatever limits they were found under.
-/
namespace TaintScan

namespace Token

/-- How often an operator stands among the tokens from one index up to another, which does not count. -/
def opsIn (tokens : Array Token) (op : String) (first stop : Nat) : Nat :=
  (List.range' first (stop - first)).countP fun i => tokens[i]?.any (·.isOp op)

theorem opsIn_append (tokens : Array Token) (op : String) {first middle stop : Nat} (h : first ≤ middle)
    (h' : middle ≤ stop) : opsIn tokens op first stop = opsIn tokens op first middle + opsIn tokens op middle stop := by
  have hlen : stop - first = (middle - first) + (stop - middle) := by omega
  rw [opsIn, hlen, ← List.range'_append_1, List.countP_append, Nat.add_sub_cancel' h]
  rfl

end Token

namespace View

open Token (opsIn opsIn_append)

/-- The indices below the limit up to which as many brackets of a kind close as open. -/
def balances (v : View) (opener closer : String) (first : Nat) : Set Nat :=
  {i | first ≤ i ∧ i < v.limit ∧ opsIn v.tokens opener first (i + 1) = opsIn v.tokens closer first (i + 1)}

/-- A search with a counter that must not go below zero; it has no answer where it would. -/
def closeChecked (v : View) (opener closer : String) : Nat → Nat → Nat → Option (Option Nat)
  | 0, _, _ => some none
  | n + 1, depth, i =>
    if v.isOpAt i opener then closeChecked v opener closer n (depth + 1) (i + 1)
    else if v.isOpAt i closer then
      match depth with
      | 0 => none
      | 1 => some (some i)
      | depth + 2 => closeChecked v opener closer n (depth + 1) (i + 1)
    else closeChecked v opener closer n depth (i + 1)

variable {v w : View} {opener closer : String} {n depth first other i j : Nat}

theorem opsIn_self (hi : i < v.limit) (op : String) : opsIn v.tokens op i (i + 1) = if v.isOpAt i op then 1 else 0 := by
  simp [opsIn, isOpAt, tok?, hi]

theorem closeChecked_eq (h : v.isOpAt i opener = true ∨ 0 < depth) :
    v.closeChecked opener closer n depth i = some (v.closeFrom opener closer n depth i) := by
  fun_induction closeChecked v opener closer n depth i with
  | case1 => rfl
  | case2 n depth i ho ih => rw [closeFrom, if_pos ho, ih (.inr (Nat.succ_pos _))]
  | case3 n i ho => exact absurd (h.resolve_left ho) (Nat.lt_irrefl 0)
  | case4 n i ho hc => rw [closeFrom, if_neg ho, if_pos hc, if_pos (Nat.le_refl 1)]
  | case5 n i ho hc depth ih =>
    have hmore : ¬depth + 2 ≤ 1 := by omega
    rw [closeFrom, if_neg ho, if_pos hc, if_neg hmore, ih (.inr (Nat.succ_pos _))]
    rfl
  | case6 n depth i ho hc ih => rw [closeFrom, if_neg ho, if_neg hc, ih (.inr (h.resolve_left ho))]

section Kind

variable (hkind : closer? opener = some closer)
include hkind

theorem opsIn_of_isOpAt (h : v.isOpAt i opener = true) :
    opsIn v.tokens opener i (i + 1) = 1 ∧ opsIn v.tokens closer i (i + 1) = 0 := by
  have hne : v.isOpAt i closer = false := by
    refine Bool.eq_false_iff.mpr fun h' => ?_
    rw [← textAt_of_isOpAt h, textAt_of_isOpAt h'] at hkind
    unfold closer? at hkind
    split at hkind <;> simp at hkind
  have hi := lt_limit_of_any h
  rw [opsIn_self hi, opsIn_self hi, h, hne]
  exact ⟨rfl, rfl⟩

theorem closeFrom_eq_find? (h : v.isOpAt i opener = true ∨ 0 < depth) (hlimit : i + n ≤ v.limit) :
    v.closeFrom opener closer n depth i =
      (List.range' i n).find? fun k => depth + opsIn v.tokens opener i (k + 1) == opsIn v.tokens closer i (k + 1) := by
  induction n generalizing depth i with
  | zero => rfl
  | succ n ih =>
    have hi : i < v.limit := by omega
    have hlimit : i + 1 + n ≤ v.limit := by omega
    -- What is counted from the next token on differs by the token at hand.
    have hrest {depth' : Nat} (hpos : 0 < depth')
        (hd : depth' + opsIn v.tokens closer i (i + 1) = depth + opsIn v.tokens opener i (i + 1)) :
        v.closeFrom opener closer n depth' (i + 1) =
          (List.range' i (n + 1)).find? fun k => depth + opsIn v.tokens opener i (k + 1) == opsIn v.tokens closer i (k + 1) := by
      rw [ih (.inr hpos) hlimit, List.range'_succ, List.find?_cons_of_neg]
      · refine List.find?_congr fun k hk => ?_
        have hle : i + 1 ≤ k + 1 := Nat.le_succ_of_le (List.mem_range'_1.mp hk).1
        rw [Bool.eq_iff_iff, beq_iff_eq, beq_iff_eq, opsIn_append _ opener (Nat.le_add_right i 1) hle,
          opsIn_append _ closer (Nat.le_add_right i 1) hle]
        omega
      · rw [beq_iff_eq]
        omega
    have hself := opsIn_self hi
    rw [closeFrom]
    by_cases ho : v.isOpAt i opener = true
    · have hcount := opsIn_of_isOpAt hkind ho
      rw [if_pos ho, hrest (Nat.succ_pos depth) (by omega)]
    · have hdepth := h.resolve_left ho
      have hopener : opsIn v.tokens opener i (i + 1) = 0 := by rw [hself, if_neg ho]
      rw [if_neg ho]
      by_cases hc : v.isOpAt i closer = true
      · have hcloser : opsIn v.tokens closer i (i + 1) = 1 := by rw [hself, if_pos hc]
        rw [if_pos hc]
        by_cases hlast : depth ≤ 1
        · rw [if_pos hlast, List.range'_succ, List.find?_cons_of_pos]
          rw [beq_iff_eq]
          omega
        · rw [if_neg hlast, hrest (by omega) (by omega)]
      · have hcloser : opsIn v.tokens closer i (i + 1) = 0 := by rw [hself, if_neg hc]
        rw [if_neg hc, hrest hdepth (by omega)]

variable (hfirst : v.isOpAt first opener = true)
include hfirst

theorem matching?_eq_closeFrom : v.matching? first = v.closeFrom opener closer (v.limit - first) 0 first := by
  rw [matching?, textAt_of_isOpAt hfirst, hkind, Option.bind_some]

theorem matching?_eq_some_iff : v.matching? first = some i ↔ IsLeast (v.balances opener closer first) i := by
  have hlimit : first + (v.limit - first) = v.limit := Nat.add_sub_cancel' (Nat.le_of_lt (lt_limit_of_any hfirst))
  rw [matching?_eq_closeFrom hkind hfirst, closeFrom_eq_find? hkind (.inl hfirst) (Nat.le_of_eq hlimit),
    List.find?_range'_eq_some, List.mem_range'_1, hlimit, beq_iff_eq, Nat.zero_add]
  constructor
  · rintro ⟨hbalanced, ⟨hle, hi⟩, hleast⟩
    refine ⟨⟨hle, hi, hbalanced⟩, fun j ⟨hj, _, hbalanced⟩ => Nat.le_of_not_lt fun hji => ?_⟩
    simpa [hbalanced] using hleast j hj hji
  · rintro ⟨⟨hle, hi, hbalanced⟩, hleast⟩
    refine ⟨hbalanced, ⟨hle, hi⟩, fun j hj hji => ?_⟩
    have hne : opsIn v.tokens opener first (j + 1) ≠ opsIn v.tokens closer first (j + 1) :=
      fun h => Nat.not_lt.mpr (hleast ⟨hj, Nat.lt_trans hji hi, h⟩) hji
    simpa using hne

theorem opsIn_lt (h : IsLeast (v.balances opener closer first) i) (hj : first < j) (hji : j ≤ i) :
    opsIn v.tokens closer first j < opsIn v.tokens opener first j := by
  obtain ⟨k, rfl⟩ := Nat.exists_eq_add_of_lt hj
  induction k with
  | zero =>
    have := opsIn_of_isOpAt hkind hfirst
    rw [Nat.add_zero]
    omega
  | succ k ih =>
    have hopen := ih (by omega) (by omega)
    rw [← Nat.add_assoc]
    have hle : first ≤ first + k + 1 := by omega
    have hlimit : first + k + 1 < v.limit := Nat.lt_trans hji h.1.2.1
    have hne : opsIn v.tokens opener first (first + k + 1 + 1) ≠ opsIn v.tokens closer first (first + k + 1 + 1) :=
      fun hb => Nat.not_lt.mpr (h.2 ⟨hle, hlimit, hb⟩) hji
    have hstep : opsIn v.tokens closer (first + k + 1) (first + k + 1 + 1) ≤ 1 := by
      rw [opsIn_self hlimit]
      split <;> omega
    have ho := opsIn_append v.tokens opener hle (Nat.le_add_right _ 1)
    have hc := opsIn_append v.tokens closer hle (Nat.le_add_right _ 1)
    omega

theorem closes_inside (h : IsLeast (v.balances opener closer first) i) (htokens : w.tokens = v.tokens)
    (hother : w.isOpAt other opener = true) (h' : IsLeast (w.balances opener closer other) j) (hlt : first < other)
    (hle : other ≤ i) : j < i := by
  have hopen := opsIn_lt hkind hfirst h hlt hle
  have hbalanced := h.1.2.2
  have hle' : other ≤ i + 1 := Nat.le_succ_of_le hle
  rw [opsIn_append _ _ (Nat.le_of_lt hlt) hle', opsIn_append _ closer (Nat.le_of_lt hlt) hle'] at hbalanced
  rcases Nat.lt_trichotomy i j with hij | rfl | hji
  · have := opsIn_lt hkind hother h' (j := i + 1) (Nat.lt_succ_of_le hle) hij
    rw [htokens] at this
    omega
  · have := h'.1.2.2
    rw [htokens] at this
    omega
  · exact hji

end Kind

/-- From an opening bracket, a search whose counter must not go below zero has the answer of the search for its
end, and this is the least index below the limit up to which as many brackets of the kind close as open. Two
ranges of one kind, under any two limits, lie apart or one inside the other. -/
theorem bracket_closes_exactly (v : View) {opener closer : String} (hkind : closer? opener = some closer) {first : Nat}
    (hfirst : v.isOpAt first opener = true) :
    v.closeChecked opener closer (v.limit - first) 0 first = some (v.matching? first) ∧
    (∀ i, v.matching? first = some i ↔ IsLeast (v.balances opener closer first) i) ∧
    ∀ (w : View) (other i j : Nat), w.tokens = v.tokens → w.isOpAt other opener = true →
      v.matching? first = some i → w.matching? other = some j →
      i < other ∨ j < first ∨ (first ≤ other ∧ j ≤ i) ∨ (other ≤ first ∧ i ≤ j) := by
  refine ⟨?_, fun i => matching?_eq_some_iff hkind hfirst, fun w other i j htokens hother hi hj => ?_⟩
  · rw [closeChecked_eq (.inl hfirst), matching?_eq_closeFrom hkind hfirst]
  · rw [matching?_eq_some_iff hkind hfirst] at hi
    rw [matching?_eq_some_iff hkind hother] at hj
    rcases Nat.lt_trichotomy first other with hlt | rfl | hlt
    · have := closes_inside hkind hfirst hi htokens hother hj hlt
      omega
    · omega
    · have := closes_inside hkind hother hj htokens.symm hfirst hi hlt
      omega

def sixBrackets (limit : Nat) : View where
  unit := { id := "a.js", content := #[], language := .javascript }
  dialect := .of .javascript
  tokens := (["(", "(", ")", "(", ")", ")"].map fun text => ⟨.operator, ⟨0, 0⟩, text, 1, 1⟩).toArray
  limit := limit
  bound := 0

/-- A bracket whose end lies beyond the limit, and one inside it. -/
theorem bracket_closes_exactly_six :
    (sixBrackets 6).matching? 0 = some 5 ∧ (sixBrackets 3).matching? 0 = none ∧
      (sixBrackets 3).matching? 1 = some 2 ∧ IsLeast ((sixBrackets 6).balances "(" ")" 0) 5 ∧
      (5 < 1 ∨ 2 < 0 ∨ (0 ≤ 1 ∧ 2 ≤ 5) ∨ (1 ≤ 0 ∧ 5 ≤ 2)) := by
  have h : (sixBrackets 6).matching? 0 = some 5 := by decide
  have h' : (sixBrackets 3).matching? 1 = some 2 := by decide
  have hfirst : (sixBrackets 6).isOpAt 0 "(" = true := by decide
  obtain ⟨_, hleast, hranges⟩ := bracket_closes_exactly (sixBrackets 6) (show closer? "(" = some ")" from rfl) hfirst
  exact ⟨h, by decide, h', (hleast 5).mp h, hranges (sixBrackets 3) 1 5 2 rfl (by decide) h h'⟩

end View
end TaintScan
