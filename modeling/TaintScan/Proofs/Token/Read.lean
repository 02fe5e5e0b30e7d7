import TaintScan.Proofs.Token.Layout

/-! # Where a token is read

Every token of a unit is what the scan reads at the token's place in the content. So what holds of one scan holds
of every token.
-/
namespace TaintScan

open Text.Utf8 (Bytes)

namespace Token

def bytesIn (t : Token) (content : Bytes) : Bytes :=
  (content.drop t.span.start).take (t.span.stop - t.span.start)

/-- The token is what the scan reads at its place in the content, where no blank stands. -/
structure ReadBy (c : LexContext) (content : Bytes) (t : Token) : Prop where
  kind : t.kind = (scan c (content.drop t.span.start)).1
  bytes : t.bytesIn content = (content.drop t.span.start).take (scan c (content.drop t.span.start)).2
  text : t.text = (Text.Utf8.decode? (t.bytesIn content)).getD ""
  endLine : t.endLine = t.line + newlines (t.bytesIn content) -
    if (t.bytesIn content).getLast? == some newline then 1 else 0
  first : ∃ b rest, content.drop t.span.start = b :: rest ∧ Byte.isBlank b = false

theorem readBy_ofBytes {c : LexContext} {b : UInt8} {before rest : Bytes} {kind : TokenKind} {n line : Nat}
    (hblank : Byte.isBlank b = false) (hscan : scan c (b :: rest) = (kind, n)) :
    ReadBy c (before ++ b :: rest) (ofBytes kind before.length line ((b :: rest).take n)) := by
  have hdrop : (before ++ b :: rest).drop before.length = b :: rest := List.drop_left
  have hbytes : (ofBytes kind before.length line ((b :: rest).take n)).bytesIn (before ++ b :: rest) =
      (b :: rest).take n := by
    simp only [bytesIn, ofBytes, Nat.add_sub_cancel_left, hdrop]
    rw [List.length_take, ← List.take_take, List.take_length]
  constructor
  · simp only [ofBytes, hdrop, hscan]
  · rw [hbytes]
    simp only [ofBytes, hdrop, hscan]
  · rw [hbytes]
    rfl
  · rw [hbytes]
    rfl
  · exact ⟨b, rest, hdrop, hblank⟩

theorem Reads.readBy {d : Dialect} {s s' : LexState} {bytes : Bytes} {ts : List Token}
    (h : Reads d s bytes ts s') (before : Bytes) (ho : s.offset = before.length) :
    ∀ t ∈ ts, ∃ c, c.dialect = d ∧ ReadBy c (before ++ bytes) t := by
  -- The bytes that a move passes over go to those before the lexer.
  induction h generalizing before with
  | done s => exact List.forall_mem_nil _
  | line h ih | blank hb hline h ih =>
    rw [List.append_cons]
    exact ih _ (by simp [ho])
  | @join s s' gap rest ts hgap h ih =>
    rw [← List.cons_append, ← List.append_assoc]
    exact ih _ (by simp [ho])
  | @token s s' b rest ts kind n hb hn hscan h ih =>
    refine List.forall_mem_cons.mpr ⟨?_, ?_⟩
    · rw [ho] at hscan ⊢
      exact ⟨_, rfl, readBy_ofBytes hb hscan⟩
    · rw [← List.take_append_drop (n + 1) (b :: rest), ← List.append_assoc]
      exact ih _ (by simp [LexState.behind, ho])

variable {language : Language} {content : Bytes} {t : Token}

theorem exists_readBy (ht : t ∈ lex language content) : ∃ c, c.dialect = .of language ∧ ReadBy c content t := by
  obtain ⟨s', h⟩ := lexFrom_reads (.of language) ⟨true, none, 0, 1⟩ content
  exact h.readBy [] rfl t ht

end Token
end TaintScan
