import Mathlib.Data.List.MinMax
import TaintScan.Proofs.Finding.Merge

/-! # Merging is a group-by

The candidates of one place and rule form a group, in the order in which they were found. So each merged
candidate is the first member with the longest path, with the details of the whole group behind its own.
-/
namespace TaintScan

namespace Candidate

/-! ## What represents a group -/

/-- A candidate stands for a group: it is the first member with the longest path, but for the details
and the mark, which are gathered from all members. -/
structure Represents (m : Candidate) (group : List Candidate) : Prop where
  winner : ∃ w, group.argmax (·.path.length) = some w ∧ m.rule = w.rule ∧ m.span = w.span ∧
    m.path = w.path ∧ m.confidence = w.confidence ∧ m.bindings = w.bindings ∧ w.detail <+: m.detail
  detail : ∀ line, line ∈ m.detail ↔ ∃ c ∈ group, line ∈ c.detail
  adjacent : m.adjacent = group.any (·.adjacent)

theorem represents_self (c : Candidate) : c.Represents [c] where
  winner := ⟨c, List.argmax_singleton, rfl, rfl, rfl, rfl, rfl, List.prefix_refl _⟩
  detail line := by simp
  adjacent := by simp

theorem detail_absorb_starts (a b : Candidate) : a.detail <+: (a.absorb b).detail := by
  unfold absorb
  dsimp only
  generalize a.detail = own
  induction b.detail generalizing own with
  | nil => exact List.prefix_refl _
  | cons line rest ih =>
    rw [List.foldl_cons]
    split
    · exact ih own
    · exact (List.prefix_append own [line]).trans (ih _)

theorem mem_detail_absorb (a b : Candidate) (line : String) :
    line ∈ (a.absorb b).detail ↔ line ∈ a.detail ∨ line ∈ b.detail := by
  unfold absorb
  dsimp only
  generalize a.detail = own
  induction b.detail generalizing own with
  | nil => simp
  | cons other rest ih =>
    rw [List.foldl_cons, ih]
    split
    · next hknown =>
      have hknown : other ∈ own := List.contains_iff_mem.mp hknown
      rw [List.mem_cons]
      constructor
      · exact Or.imp_right Or.inr
      · rintro (h | rfl | h)
        · exact Or.inl h
        · exact Or.inl hknown
        · exact Or.inr h
    · rw [List.mem_append, List.mem_singleton, List.mem_cons, or_assoc]

theorem mem_detail_combine (a b : Candidate) (line : String) :
    line ∈ (a.combine b).detail ↔ line ∈ a.detail ∨ line ∈ b.detail := by
  unfold combine
  split
  · rw [mem_detail_absorb, or_comm]
  · exact mem_detail_absorb a b line

theorem adjacent_combine (a b : Candidate) : (a.combine b).adjacent = (a.adjacent || b.adjacent) := by
  unfold combine
  split
  · exact Bool.or_comm _ _
  · rfl

variable {m : Candidate} {cs : List Candidate}

theorem Represents.combine {group : List Candidate} (h : m.Represents group) (c : Candidate) :
    (m.combine c).Represents (group ++ [c]) where
  winner := by
    obtain ⟨w, hw, hrule, hspan, hpath, hconfidence, hbindings, hdetail⟩ := h.winner
    have hargmax : (group ++ [c]).argmax (·.path.length) =
        if w.path.length < c.path.length then some c else some w := by
      rw [List.argmax_concat, hw]
    unfold Candidate.combine
    rw [hpath, hargmax]
    split
    · exact ⟨c, rfl, rfl, rfl, rfl, rfl, rfl, detail_absorb_starts c m⟩
    · exact ⟨w, rfl, hrule, hspan, hpath, hconfidence, hbindings, hdetail.trans (detail_absorb_starts m c)⟩
  detail line := by
    rw [mem_detail_combine, h.detail]
    simp only [List.mem_append, List.mem_singleton, or_and_right, exists_or, exists_eq_left]
  adjacent := by
    rw [adjacent_combine, h.adjacent, List.any_append, List.any_cons, List.any_nil, Bool.or_false]

/-! ## Groups of a sorted list -/

theorem filter_sameKey_eq_nil (h : ∀ c ∈ cs, c.key ≠ m.key) : cs.filter (·.sameKey m) = [] :=
  List.filter_eq_nil_iff.mpr fun c hc hsame => h c hc (sameKey_iff.mp hsame)

theorem filter_sameKey_eq_self (h : ∀ c ∈ cs, c.key = m.key) : cs.filter (·.sameKey m) = cs :=
  List.filter_eq_self.mpr fun c hc => sameKey_iff.mpr (h c hc)

/-- Where what is kept represents the members of its key that were met so far, each candidate of the
result represents its group. -/
theorem represents_of_mem_combineRuns {kept : Candidate} {group rest : List Candidate}
    (hkept : kept.Represents group) (hgroup : ∀ c ∈ group, c.key = kept.key)
    (hsorted : (kept :: rest).Pairwise fun a b => a.key ≤ b.key) :
    ∀ m ∈ combineRuns kept rest, m.Represents ((group ++ rest).filter (·.sameKey m)) := by
  induction rest generalizing kept group with
  | nil =>
    intro m hm
    cases List.mem_singleton.mp hm
    rw [List.append_nil, filter_sameKey_eq_self hgroup]
    exact hkept
  | cons c rest ih =>
    intro m hm
    rw [combineRuns] at hm
    split at hm
    · next hsame =>
      have hkey := sameKey_iff.mp hsame
      rw [List.append_cons]
      refine ih (hkept.combine c) (fun d hd => ?_) (pairwise_combine hsorted hkey) m hm
      rw [key_combine hkey]
      rcases List.mem_append.mp hd with hd | hd
      · exact hgroup d hd
      · rw [List.mem_singleton.mp hd]
        exact hkey.symm
    · next hdiff =>
      have hbehind := key_lt_of_ne hsorted fun heq => hdiff (sameKey_iff.mpr heq)
      rw [List.filter_append]
      rcases List.mem_cons.mp hm with rfl | hm
      · rw [filter_sameKey_eq_self hgroup, filter_sameKey_eq_nil fun d hd => ne_of_gt (hbehind d hd),
          List.append_nil]
        exact hkept
      · -- A later candidate has the key of one that is behind.
        obtain ⟨d, hd, hmd⟩ := keeps_of_mem_combineRuns m hm
        have hne : ∀ e ∈ group, e.key ≠ m.key := by
          intro e he
          rw [hgroup e he, hmd.key]
          exact ne_of_lt (hbehind d hd)
        rw [filter_sameKey_eq_nil hne, List.nil_append]
        refine ih (represents_self c) (fun e he => ?_) (List.pairwise_cons.mp hsorted).2 m hm
        rw [List.mem_singleton.mp he]

theorem filter_sorted (m : Candidate) (cs : List Candidate) :
    (cs.mergeSort fun a b => !b.before a).filter (·.sameKey m) = cs.filter (·.sameKey m) := by
  have hequal : (cs.filter (·.sameKey m)).Pairwise fun a b => (!b.before a) = true := by
    refine List.pairwise_of_forall_mem_list fun a ha b hb => not_before_iff.mpr (le_of_eq ?_)
    exact (sameKey_iff.mp (List.mem_filter.mp ha).2).trans (sameKey_iff.mp (List.mem_filter.mp hb).2).symm
  have hsublist : (cs.filter (·.sameKey m)).Sublist (cs.mergeSort fun a b => !b.before a) :=
    List.sublist_mergeSort not_before_trans not_before_total hequal List.filter_sublist
  have hgroup := hsublist.filter (·.sameKey m)
  rw [List.filter_filter, show (fun a : Candidate => a.sameKey m && a.sameKey m) = (·.sameKey m) from
    funext fun a => Bool.and_self _] at hgroup
  exact (hgroup.eq_of_length ((List.mergeSort_perm cs _).filter _).length_eq.symm).symm

theorem represents_of_mem_merge (hm : m ∈ merge cs) : m.Represents (cs.filter (·.sameKey m)) := by
  have hsorted := pairwise_sorted cs
  rw [← filter_sorted]
  unfold merge at hm
  split at hm
  · exact absurd hm List.not_mem_nil
  · next c rest hsort =>
    rw [hsort] at hsorted ⊢
    refine represents_of_mem_combineRuns (represents_self c) (fun d hd => ?_) hsorted m hm
    rw [List.mem_singleton.mp hd]

theorem mem_keys_merge (cs : List Candidate) (k : ℕ ×ₗ ℕ ×ₗ String) :
    k ∈ (merge cs).map key ↔ k ∈ cs.map key := by
  constructor
  · intro hk
    obtain ⟨m, hm, rfl⟩ := List.mem_map.mp hk
    obtain ⟨c, hc, hmc⟩ := keeps_of_mem_merge hm
    exact List.mem_map.mpr ⟨c, hc, hmc.key.symm⟩
  · intro hk
    obtain ⟨c, hc, rfl⟩ := List.mem_map.mp hk
    obtain ⟨m, hm, hkey, _⟩ := exists_mem_merge hc
    exact List.mem_map.mpr ⟨m, hm, hkey⟩

/-- Merging gives one candidate for each place and rule that occurs, in strict order of start, stop and
rule, and each of them represents all candidates of its place and rule. -/
theorem merge_groups (cs : List Candidate) :
    ((merge cs).Pairwise fun a b => a.key < b.key) ∧
    (∀ k, k ∈ (merge cs).map key ↔ k ∈ cs.map key) ∧
    ∀ m ∈ merge cs, m.Represents (cs.filter fun c => c.span == m.span && c.rule.id == m.rule.id) :=
  ⟨pairwise_merge cs, mem_keys_merge cs, fun _ hm => represents_of_mem_merge hm⟩

end Candidate

namespace JoinedGroup

def run : Rule := { id := "run", name := "run", matcher := .sink { callees := [⟨"run", false⟩] } }

/-- A candidate of one call, with the way of its label and one detail. -/
def candidate (path : List Span) (adjacent : Bool) (detail : String) : Candidate :=
  { rule := run, span := ⟨10, 14⟩, path, confidence := .high, adjacent, bindings := .ofList [], detail := [detail] }

/-- A match without a path, and two flows of which the first is kept. -/
def found : List Candidate :=
  [candidate [] true "joined", candidate [⟨0, 1⟩] false "line 1", candidate [⟨2, 3⟩] false "line 2"]

theorem merge_groups_found :
    ∃ m ∈ Candidate.merge found, m.path = [⟨0, 1⟩] ∧ m.detail.head? = some "line 1" ∧
      "joined" ∈ m.detail ∧ "line 2" ∈ m.detail ∧ m.adjacent = true := by
  obtain ⟨_, hkeys, hrepresents⟩ := Candidate.merge_groups found
  have hmember : (candidate [] true "joined").key ∈ (Candidate.merge found).map Candidate.key :=
    (hkeys _).mpr (List.mem_map_of_mem List.mem_cons_self)
  obtain ⟨m, hm, hkey⟩ := List.mem_map.mp hmember
  obtain ⟨hspan, hid⟩ := Candidate.key_eq_iff.mp hkey
  have hgroup := hrepresents m hm
  rw [hspan, hid] at hgroup
  have hall : found.filter (fun c => c.span == (candidate [] true "joined").span &&
      c.rule.id == (candidate [] true "joined").rule.id) = found := by decide +kernel
  rw [hall] at hgroup
  obtain ⟨w, hw, _, _, hpath, _, _, hdetail⟩ := hgroup.winner
  have hfirst : w = candidate [⟨0, 1⟩] false "line 1" := Option.some.inj (hw.symm.trans rfl)
  rw [hfirst] at hpath hdetail
  obtain ⟨rest, hrest⟩ := hdetail
  refine ⟨m, hm, hpath, by rw [← hrest]; rfl, ?_, ?_, hgroup.adjacent.trans rfl⟩
  · exact (hgroup.detail _).mpr ⟨_, List.mem_cons_self, List.mem_singleton_self _⟩
  · exact (hgroup.detail _).mpr ⟨candidate [⟨2, 3⟩] false "line 2", by simp [found], List.mem_singleton_self _⟩

end JoinedGroup
end TaintScan
