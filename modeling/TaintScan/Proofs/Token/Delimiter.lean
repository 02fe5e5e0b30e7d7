import TaintScan.Proofs.Token.Cut
import TaintScan.Proofs.Token.Kind
import TaintScan.Proofs.Token.Read

/-! # The delimiters of a string

A string opens with letters or signs that are no quotes and with one quote or three, and it closes with as many of
the same quote. `Opening.Delimits` says which bytes of a string are its delimiters and which stand between them.
-/
namespace TaintScan

open Text.Utf8 (Bytes)

theorem forall_mem_of_all {α : Type} {p : α → Prop} [DecidablePred p] {l : List α}
    (h : l.all (fun a => decide (p a)) = true) : ∀ a ∈ l, p a := by
  simpa using h

namespace Opening

/-- The closing delimiter, which is also the end of the opening one. -/
def delimiter (o : Opening) : Bytes := List.replicate (if o.triple then 3 else 1) o.quote

variable {o : Opening}

theorem delimiter_of_triple (h : o.triple = true) : o.delimiter = [o.quote, o.quote, o.quote] := by
  simp [delimiter, h, List.replicate]

theorem delimiter_of_single (h : o.triple = false) : o.delimiter = [o.quote] := by
  simp [delimiter, h]

theorem mem_delimiter {b : UInt8} (h : b ∈ o.delimiter) : b = o.quote := List.eq_of_mem_replicate h

def quoteBytes : Bytes := [doubleQuote, singleQuote, backQuote]

def leadBytes : Bytes := Byte.ofAscii "rRbBuUfF@$"

theorem leadBytes_ascii : ∀ b ∈ leadBytes, b < 0x80 ∧ b ∉ quoteBytes := forall_mem_of_all (by decide)

theorem quoteBytes_ascii : ∀ b ∈ quoteBytes, b < 0x80 ∧ b ≠ backslash ∧ b ≠ newline :=
  forall_mem_of_all (by decide)

/-! ## The opening delimiter -/

theorem mem_leadBytes_of_mem_takeWhile {x : Bytes} {k : Nat} {p : UInt8 → Bool} (hp : ∀ b, p b = true → b ∈ leadBytes) :
    ∀ b ∈ x.take ((x.take k).takeWhile p).length, b ∈ leadBytes := by
  intro b hb
  have hpre : (x.take k).takeWhile p <+: x := (List.takeWhile_prefix _).trans (List.take_prefix k x)
  rw [← List.prefix_iff_eq_take.mp hpre] at hb
  exact hp b (List.all_eq_true.mp List.all_takeWhile b hb)

theorem mem_leadBytes (language : Language) (x : Bytes) : ∀ b ∈ x.take (lead language x).width, b ∈ leadBytes := by
  have hnone : ∀ b ∈ x.take ({} : Lead).width, b ∈ leadBytes := List.forall_mem_nil _
  unfold lead
  split
  · unfold pythonLead
    dsimp only
    split
    · split
      · apply mem_leadBytes_of_mem_takeWhile
        intro b hb
        have hletters : ∀ b ∈ Byte.ofAscii "rRbBuUfF", b ∈ leadBytes := forall_mem_of_all (by decide)
        exact hletters b (List.contains_iff_mem.mp hb)
      · exact hnone
    · exact hnone
  · unfold csharpLead
    dsimp only
    split
    · apply mem_leadBytes_of_mem_takeWhile
      intro b hb
      rcases Bool.or_eq_true_iff.mp hb with hb | hb
      · rw [eq_of_beq hb]
        decide
      · rw [eq_of_beq hb]
        decide
    · exact hnone
  · exact hnone

theorem lead_verbatim {language : Language} {x : Bytes} (h : (lead language x).verbatim = true) : language = .csharp := by
  unfold lead at h
  split at h
  · unfold pythonLead at h
    dsimp only at h
    repeat' split at h
    all_goals cases h
  · rfl
  · cases h

theorem lead_eq_of_backQuoted? {language : Language} (h : backQuoted? language = some o) (x : Bytes) :
    lead language x = {} := by
  unfold lead
  cases language with
  | python => cases h
  | csharp => cases h
  | _ => rfl

theorem scan?_opening {language : Language} {x : Bytes} (h : scan? language x = some o) :
    (∃ before rest, x = before ++ o.delimiter ++ rest ∧ (∀ b ∈ before, b ∈ leadBytes) ∧
      before.length + o.delimiter.length = o.width) ∧
    o.quote ∈ quoteBytes ∧ (o.verbatim = true → o.triple = false) := by
  unfold scan? at h
  dsimp only at h
  have hlead := mem_leadBytes language x
  have hwidth := lead_width_le language x
  split at h
  · cases h
  · next q rest hdrop =>
    have hparts : x = x.take (lead language x).width ++ q :: rest := by
      rw [← hdrop, List.take_append_drop]
    have hlength : (x.take (lead language x).width).length = (lead language x).width := List.length_take_of_le hwidth
    split at h
    · next hq =>
      have hquote : q ∈ quoteBytes := by
        rcases Bool.or_eq_true_iff.mp hq with hq | hq
        · simp [quoteBytes, eq_of_beq hq]
        · simp [quoteBytes, eq_of_beq hq]
      cases h
      cases htriple : tripleAllowed language q && [q, q].isPrefixOf rest with
      | true =>
        obtain ⟨hallowed, hpre⟩ := Bool.and_eq_true_iff.mp htriple
        obtain ⟨tail, rfl⟩ := List.isPrefixOf_iff_prefix.mp hpre
        refine ⟨⟨x.take (lead language x).width, tail, ?_, hlead, ?_⟩, hquote, ?_⟩
        · rw [delimiter_of_triple rfl, List.append_assoc]
          exact hparts
        · rw [delimiter_of_triple rfl, hlength]
          rfl
        · intro hverbatim
          rw [lead_verbatim hverbatim] at hallowed
          cases hallowed
      | false =>
        refine ⟨⟨x.take (lead language x).width, rest, ?_, hlead, ?_⟩, hquote, fun _ => rfl⟩
        · rw [delimiter_of_single rfl, List.append_assoc]
          exact hparts
        · rw [delimiter_of_single rfl, hlength]
          rfl
    · split at h
      · next hq =>
        rw [eq_of_beq hq] at hparts
        rw [lead_eq_of_backQuoted? h, show ({} : Lead).width = 0 from rfl, List.take_zero] at hparts
        have hwhole : o.delimiter = [backQuote] ∧ o.width = 1 ∧ o.quote = backQuote ∧ o.triple = false := by
          unfold backQuoted? at h
          split at h
          all_goals cases h
          all_goals exact ⟨delimiter_of_single rfl, rfl, rfl, rfl⟩
        obtain ⟨hdelimiter, hone, hquote, htriple⟩ := hwhole
        refine ⟨⟨[], rest, ?_, List.forall_mem_nil _, ?_⟩, ?_, fun _ => htriple⟩
        · rw [hdelimiter]
          exact hparts
        · rw [hdelimiter, hone]
          rfl
        · rw [hquote]
          decide
      · cases h

/-! ## The body -/

theorem readBody_closed (hquote : o.quote ≠ backslash) {n m : Nat} {x : Bytes} (h : o.readBody n x = .closed m) :
    ∃ body rest, x = body ++ o.delimiter ++ rest ∧ m = n + body.length + o.delimiter.length ∧
      (o.triple = false → o.verbatim = false → body.head? ≠ some o.quote) := by
  fun_induction readBody o n x with
  | case1 | case2 | case4 | case5 | case10 => cases h
  | case3 n c _ hclose =>
    obtain ⟨htriple, hc⟩ := Bool.and_eq_true_iff.mp hclose
    rw [Bool.not_eq_true'] at htriple
    cases h
    refine ⟨[], [], ?_, ?_, by simp⟩
    · rw [delimiter_of_single htriple, eq_of_beq hc]
      rfl
    · rw [delimiter_of_single htriple]
      rfl
  | case6 n c d rest hescape ih =>
    obtain ⟨body, after, rfl, hm, -⟩ := ih h
    refine ⟨c :: d :: body, after, rfl, ?_, ?_⟩
    · simp only [List.length_cons]
      omega
    · intro _ _ heq
      rw [List.head?_cons, Option.some.injEq] at heq
      exact hquote (heq.symm.trans (eq_of_beq (Bool.and_eq_true_iff.mp hescape).2))
  | case7 n c d rest _ hclose =>
    simp only [Bool.and_eq_true, beq_iff_eq] at hclose
    obtain ⟨⟨⟨htriple, rfl⟩, rfl⟩, hthird⟩ := hclose
    cases h
    cases rest with
    | nil => cases hthird
    | cons e after =>
      rw [List.head?_cons, Option.some.injEq] at hthird
      refine ⟨[], after, ?_, ?_, by simp⟩
      · rw [delimiter_of_triple htriple, hthird]
        rfl
      · rw [delimiter_of_triple htriple]
        rfl
  | case8 n c d rest _ _ hclose hdouble ih =>
    obtain ⟨body, after, rfl, hm, -⟩ := ih h
    refine ⟨c :: d :: body, after, rfl, ?_, ?_⟩
    · simp only [List.length_cons]
      omega
    · intro _ hplain
      rw [hplain] at hdouble
      cases hdouble
  | case9 n c d rest _ _ hclose _ =>
    obtain ⟨htriple, hc⟩ := Bool.and_eq_true_iff.mp hclose
    rw [Bool.not_eq_true'] at htriple
    cases h
    refine ⟨[], d :: rest, ?_, ?_, by simp⟩
    · rw [delimiter_of_single htriple, eq_of_beq hc]
      rfl
    · rw [delimiter_of_single htriple]
      rfl
  | case11 n c d rest _ _ hclose _ ih =>
    obtain ⟨body, after, heq, hm, -⟩ := ih h
    refine ⟨c :: body, after, by rw [heq]; rfl, ?_, ?_⟩
    · simp only [List.length_cons]
      omega
    · intro htriple _ hhead
      rw [List.head?_cons, Option.some.injEq] at hhead
      simp [htriple, hhead] at hclose

/-- In the bytes of a closed string, what stands before the first quote and what stands between the delimiters. -/
structure Delimits (o : Opening) (bytes before body : Bytes) : Prop where
  parts : bytes = before ++ o.delimiter ++ body ++ o.delimiter
  width : before.length + o.delimiter.length = o.width
  before_lead : ∀ b ∈ before, b ∈ leadBytes
  quote : o.quote ∈ quoteBytes
  verbatim : o.verbatim = true → o.triple = false
  head : o.triple = false → o.verbatim = false → body.head? ≠ some o.quote

end Opening

namespace Token

variable {c : LexContext} {x : Bytes} {kind : TokenKind} {n : Nat}

theorem string?_cases (h : string? c x = some (kind, n)) :
    ∃ o, Opening.scan? c.dialect.language x = some o ∧
      ((∃ m, o.readBody 0 (x.drop o.width) = .closed m ∧ kind = stringKind c.dialect o (x.take n) ∧ n = o.width + m) ∨
        ∃ m, o.readBody 0 (x.drop o.width) = .cut m ∧ kind = .error .unterminatedString ∧ n = o.width + m) := by
  unfold string? at h
  obtain ⟨o, ho, heq⟩ := Option.map_eq_some_iff.mp h
  refine ⟨o, ho, ?_⟩
  split at heq
  · next m hm =>
    cases heq
    exact Or.inl ⟨m, hm, rfl, rfl⟩
  · next m hm =>
    cases heq
    exact Or.inr ⟨m, hm, rfl, rfl⟩

theorem delimits_of_closed {language : Language} {o : Opening} {m : Nat} (ho : Opening.scan? language x = some o)
    (hm : o.readBody 0 (x.drop o.width) = .closed m) :
    ∃ before body, o.Delimits (x.take (o.width + m)) before body ∧ m = body.length + o.delimiter.length := by
  obtain ⟨⟨before, rest, hx, hlead, hwidth⟩, hquote, hverbatim⟩ := Opening.scan?_opening ho
  obtain ⟨body, after, hrest, hlength, hhead⟩ := Opening.readBody_closed (Opening.quoteBytes_ascii _ hquote).2.1 hm
  have hdrop : x.drop o.width = rest := by
    rw [hx, ← hwidth, ← List.length_append, List.drop_left]
  rw [hdrop] at hrest
  rw [Nat.zero_add] at hlength
  refine ⟨before, body, ⟨?_, hwidth, hlead, hquote, hverbatim, hhead⟩, hlength⟩
  have hwhole : x = before ++ o.delimiter ++ body ++ o.delimiter ++ after := by
    rw [hx, hrest]
    simp only [List.append_assoc]
  have htotal : o.width + m = (before ++ o.delimiter ++ body ++ o.delimiter).length := by
    simp only [List.length_append]
    omega
  rw [htotal]
  conv => lhs; rw [hwhole]
  exact List.take_left

variable {language : Language} {content : Bytes} {t : Token}

/-- The token is a string of the content, with its opening and the width of all that follows the opening. -/
structure ClosedBy (language : Language) (content : Bytes) (t : Token) (o : Opening) (m : Nat) : Prop where
  opening : Opening.scan? language (content.drop t.span.start) = some o
  closed : o.readBody 0 (content.drop (t.span.start + o.width)) = .closed m
  bytes : t.bytesIn content = (content.drop t.span.start).take (o.width + m)
  kind : t.kind = stringKind (.of language) o (t.bytesIn content)
  text : t.text = (Text.Utf8.decode? (t.bytesIn content)).getD ""

theorem exists_closedBy (ht : t ∈ lex language content) (hkind : t.kind ∈ stringKinds) :
    ∃ o m, ClosedBy language content t o m := by
  obtain ⟨c, hc, hread⟩ := exists_readBy ht
  have hlanguage : c.dialect.language = language := by
    rw [hc]
    cases language <;> rfl
  have hscan : scan c (content.drop t.span.start) = (t.kind, _) := Prod.ext hread.kind.symm rfl
  obtain ⟨o, ho, ⟨m, hm, hclosed, hn⟩ | ⟨m, -, hcut, -⟩⟩ := string?_cases (string?_of_scan hscan hkind)
  · rw [← hread.bytes, hc] at hclosed
    rw [hlanguage] at ho
    rw [List.drop_drop] at hm
    exact ⟨o, m, ho, hm, hn ▸ hread.bytes, hclosed, hread.text⟩
  · rw [hcut] at hkind
    exact absurd hkind (by decide)

theorem ClosedBy.delimits {o : Opening} {m : Nat} (h : ClosedBy language content t o m) :
    ∃ before body, o.Delimits (t.bytesIn content) before body ∧ m = body.length + o.delimiter.length := by
  rw [h.bytes]
  apply delimits_of_closed h.opening
  rw [List.drop_drop]
  exact h.closed

end Token
end TaintScan
