import TaintScan.Proofs.Token.Layout

/-! # The kinds of tokens

Each reader of the lexer gives tokens of its own kinds. So the kind of a token tells which reader has found it, up
to the readers that share a kind.
-/
namespace TaintScan

open Text.Utf8 (Bytes)

namespace Token

variable {c : LexContext} {x : Bytes} {kind : TokenKind} {n : Nat}

theorem phpTag?_kind (h : phpTag? c x = some (kind, n)) : kind = .comment := by
  unfold phpTag? at h
  split at h
  · obtain ⟨_, _, heq⟩ := Option.map_eq_some_iff.mp h
    cases heq
    rfl
  · cases h

theorem comment?_kind (h : comment? c x = some (kind, n)) : kind ∈ [.comment, .error .unterminatedComment] := by
  unfold comment? blockComment sectionComment at h
  repeat' split at h
  all_goals cases h
  all_goals simp

def stringKinds : List TokenKind := [.literal .string, .literal .interpolatedString, .literal .command]

theorem backQuoted?_literal {language : Language} {o : Opening} (h : Opening.backQuoted? language = some o) :
    o.literal = .string ∨ o.literal = .command := by
  unfold Opening.backQuoted? at h
  split at h
  all_goals cases h
  all_goals simp

theorem scan?_literal {language : Language} {o : Opening} (h : Opening.scan? language x = some o) :
    o.literal = .string ∨ o.literal = .command := by
  unfold Opening.scan? at h
  dsimp only at h
  split at h
  · cases h
  · split at h
    · cases h
      exact Or.inl rfl
    · split at h
      · exact backQuoted?_literal h
      · cases h

theorem string?_kind (h : string? c x = some (kind, n)) : kind ∈ .error .unterminatedString :: stringKinds := by
  unfold string? stringKind at h
  obtain ⟨o, ho, heq⟩ := Option.map_eq_some_iff.mp h
  rcases scan?_literal ho with hliteral | hliteral
  all_goals
    rw [hliteral] at heq
    repeat' split at heq
    all_goals cases heq
    all_goals simp [stringKinds]

theorem number?_kind (h : number? x = some (kind, n)) : kind = .literal .number := by
  unfold number? at h
  repeat' split at h
  all_goals cases h
  rfl

theorem symbol?_kind (h : symbol? c x = some (kind, n)) : kind = .literal .symbol := by
  unfold symbol? at h
  repeat' split at h
  all_goals cases h
  rfl

theorem sigilName?_kind (h : sigilName? c x = some (kind, n)) : kind = .identifier := by
  unfold sigilName? at h
  dsimp only at h
  split at h
  · cases h
    rfl
  · cases h

theorem wordKind_mem (d : Dialect) (bytes : Bytes) :
    wordKind d bytes ∈ [.literal .constant, .keyword, .identifier] := by
  unfold wordKind
  dsimp only
  repeat' split
  all_goals simp

theorem word?_kind (h : word? c x = some (kind, n)) : kind ∈ [.literal .constant, .keyword, .identifier] := by
  unfold word? at h
  split at h
  · split at h
    · cases h
      exact wordKind_mem _ _
    · cases h
  · cases h

theorem nonAscii?_kind (h : nonAscii? c x = some (kind, n)) :
    kind ∈ [.identifier, .error .unexpectedCharacter, .error .invalidUtf8] := by
  unfold nonAscii? at h
  repeat' split at h
  all_goals cases h
  all_goals simp

theorem regex?_kind (h : regex? c x = some (kind, n)) : kind = .literal .other := by
  unfold regex? at h
  split at h
  · split at h
    · obtain ⟨_, _, heq⟩ := Option.map_eq_some_iff.mp h
      cases heq
      rfl
    · cases h
  · cases h

theorem longOperator?_kind (h : longOperator? c x = some (kind, n)) : kind = .operator := by
  unfold longOperator? at h
  repeat' split at h
  all_goals cases h
  all_goals rfl

theorem single_kind (x : Bytes) : (single x).1 ∈ [.operator, .error .unexpectedCharacter] := by
  unfold single
  repeat' split
  all_goals simp

theorem scan_kinds (h : scan c x = (kind, n)) :
    (phpTag? c x = some (kind, n) ∧ kind = .comment) ∨
    (comment? c x = some (kind, n) ∧ kind ∈ [.comment, .error .unterminatedComment]) ∨
    (string? c x = some (kind, n) ∧ kind ∈ .error .unterminatedString :: stringKinds) ∨
    (number? x = some (kind, n) ∧ kind = .literal .number) ∨
    (symbol? c x = some (kind, n) ∧ kind = .literal .symbol) ∨
    (sigilName? c x = some (kind, n) ∧ kind = .identifier) ∨
    (word? c x = some (kind, n) ∧ kind ∈ [.literal .constant, .keyword, .identifier]) ∨
    (nonAscii? c x = some (kind, n) ∧ kind ∈ [.identifier, .error .unexpectedCharacter, .error .invalidUtf8]) ∨
    (regex? c x = some (kind, n) ∧ kind = .literal .other) ∨
    (longOperator? c x = some (kind, n) ∧ kind = .operator) ∨
    (nonAscii? c x = none ∧ single x = (kind, n) ∧ kind ∈ [.operator, .error .unexpectedCharacter]) := by
  have hcases := scan_cases c x
  rw [h] at hcases
  refine hcases.imp (fun h => ⟨h, phpTag?_kind h⟩) (Or.imp (fun h => ⟨h, comment?_kind h⟩)
    (Or.imp (fun h => ⟨h, string?_kind h⟩) (Or.imp (fun h => ⟨h, number?_kind h⟩)
    (Or.imp (fun h => ⟨h, symbol?_kind h⟩) (Or.imp (fun h => ⟨h, sigilName?_kind h⟩)
    (Or.imp (fun h => ⟨h, word?_kind h⟩) (Or.imp (fun h => ⟨h, nonAscii?_kind h⟩)
    (Or.imp (fun h => ⟨h, regex?_kind h⟩) (Or.imp (fun h => ⟨h, longOperator?_kind h⟩) fun h => ?_)))))))))
  have hkind := single_kind x
  rw [← h.2] at hkind
  exact ⟨h.1, h.2.symm, hkind⟩

theorem string?_of_scan (h : scan c x = (kind, n)) (hkind : kind ∈ stringKinds) : string? c x = some (kind, n) := by
  rcases scan_kinds h with h | h | h | h | h | h | h | h | h | h | h
  case inr.inr.inl => exact h.1
  all_goals
    simp only [stringKinds, List.mem_cons, List.not_mem_nil, or_false] at hkind h
    rcases hkind with rfl | rfl | rfl <;> simp at h

end Token
end TaintScan
