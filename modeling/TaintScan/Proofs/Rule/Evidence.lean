import TaintScan.Proofs.Rule.Registry
import TaintScan.Proofs.Rule.Search

/-! # Matching one statement

Where every operand is recorded in a sound arena, the calls of a statement can be collected, so a
statement can be matched; and whatever matches is a match of one of the shaped rules.
-/
namespace TaintScan

namespace ExprArena

theorem callsIn_ok {a : ExprArena} (ha : a.Sound) {operands : List ExprId}
    (h : ∀ id ∈ operands, id < a.size) : ∃ calls, a.callsIn operands = .ok calls :=
  callsIn_ok_iff.mpr fun _ hid =>
    hid.of_hereditary (fun hid he c hc => Nat.lt_trans (ha.child_lt he c hc) hid) h

end ExprArena

variable {r : Rule} {calls : List CallSite} {m : ShapeMatch}

theorem Shape.rule_of_mem_matchesIn {shape : Shape} {s : Statement} {a : ExprArena} {context : ShapeContext}
    (h : m ∈ shape.matchesIn r s a calls context) : m.rule = r := by
  cases shape with
  | weakAlgorithm callees algorithms =>
    obtain ⟨c, _, hm⟩ := List.mem_filterMap.mp h
    obtain ⟨name, _, rfl⟩ := Option.map_eq_some_iff.mp hm
    rfl
  | forbiddenCall callees =>
    obtain ⟨c, _, rfl⟩ := List.mem_map.mp h
    rfl
  | insecureRandom callees context =>
    simp only [matchesIn] at h
    split at h
    · obtain ⟨c, _, rfl⟩ := List.mem_map.mp h
      rfl
    · cases h
  | hardcodedSecret names =>
    simp only [matchesIn] at h
    split at h
    · split at h
      · split at h
        · cases h
        · rw [List.mem_singleton.mp h]
      · cases h
    · cases h

theorem SinkSpec.rule_of_mem_evidenceIn {spec : SinkSpec} {a : ExprArena} {context : ShapeContext}
    (h : m ∈ spec.evidenceIn r a calls context) : m.rule = r := by
  obtain ⟨c, _, hm⟩ := List.mem_filterMap.mp h
  obtain ⟨e, _, rfl⟩ := Option.map_eq_some_iff.mp hm
  rfl

theorem Rule.rule_of_mem_matchesIn {s : Statement} {a : ExprArena} {context : ShapeContext}
    (h : m ∈ r.matchesIn s a calls context) : m.rule = r := by
  unfold matchesIn at h
  split at h
  · exact Shape.rule_of_mem_matchesIn h
  · split at h
    · exact SinkSpec.rule_of_mem_evidenceIn h
    · cases h
  · cases h

namespace Registry

variable {g : Registry} {s : Statement} {a : ExprArena} {language : Language} {context : ShapeContext}

theorem matchShapes_ok (ha : a.Sound) (h : ∀ id ∈ s.operands, id < a.size) :
    ∃ found, g.matchShapes s a language context = .ok found := by
  obtain ⟨calls, hcalls⟩ := a.callsIn_ok ha h
  unfold matchShapes matchStatement
  rw [hcalls]
  split
  · exact ⟨_, rfl⟩
  · exact ⟨_, rfl⟩

theorem shaped_of_mem_matchShapes {found : List ShapeMatch}
    (h : g.matchShapes s a language context = .ok found) {m : ShapeMatch} (hm : m ∈ found) :
    m.rule ∈ g.index.shaped := by
  unfold matchShapes matchStatement at h
  split at h
  · cases h
    cases hm
  · split at h
    · cases h
    · cases h
      obtain ⟨r, hr, hm⟩ := List.mem_flatMap.mp hm
      rw [Rule.rule_of_mem_matchesIn hm]
      exact (List.mem_filter.mp hr).1

end Registry
end TaintScan
