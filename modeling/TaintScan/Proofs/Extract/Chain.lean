import TaintScan.Proofs.Extract.Ahead
import TaintScan.Proofs.Extract.Leaves

/-! # Chains of operators

Where variables or plain literals and binary operators take turns, whatever their precedences are,
an expression has the operands that were read as its leaves, each once and in their order. The
operators decide only how the leaves are put together.
-/
namespace TaintScan

/-- The expression that a token is by itself: a variable or a plain literal. -/
def Token.atom? (t : Token) : Option Expr :=
  match t.kind with
  | .identifier => some ⟨.variable t.text, t.span⟩
  | .literal .string => some ⟨.literal .string (Literal.value t.text), t.span⟩
  | .literal .number => some ⟨.literal .number t.text, t.span⟩
  | .literal .constant => some ⟨.literal .constant t.text, t.span⟩
  | _ => none

theorem Token.kind_of_atom? {t : Token} {e : Expr} (h : t.atom? = some e) :
    t.kind = .identifier ∧ e = ⟨.variable t.text, t.span⟩ ∨
      t.kind = .literal .string ∧ e = ⟨.literal .string (Literal.value t.text), t.span⟩ ∨
      ∃ kind, (kind = .number ∨ kind = .constant) ∧ t.kind = .literal kind ∧ e = ⟨.literal kind t.text, t.span⟩ := by
  unfold atom? at h
  split at h
  · next hkind => exact Or.inl ⟨hkind, (Option.some.inj h).symm⟩
  · next hkind => exact Or.inr (Or.inl ⟨hkind, (Option.some.inj h).symm⟩)
  · next hkind => exact Or.inr (Or.inr ⟨_, Or.inl rfl, hkind, (Option.some.inj h).symm⟩)
  · next hkind => exact Or.inr (Or.inr ⟨_, Or.inr rfl, hkind, (Option.some.inj h).symm⟩)
  · cases h

theorem Token.kind_ne_of_atom? {t : Token} {e : Expr} (h : t.atom? = some e) :
    t.kind ≠ .operator ∧ t.kind ≠ .keyword := by
  obtain ⟨hkind, -⟩ | ⟨hkind, -⟩ | ⟨kind, -, hkind, -⟩ := kind_of_atom? h
  all_goals
    rw [hkind]
    exact ⟨TokenKind.noConfusion, TokenKind.noConfusion⟩

/-! ## Operators between operands -/

def joiners : List String :=
  ["??", "||", "&&", "|", "^", "&", "==", "!=", "===", "!==", "<", ">", "<=", ">=", "<=>", "=~", "!~", "..", "...",
    "<<", ">>", ">>>", "+", "-", "*", "/", "%", "//", "**"]

def joinWords : List String := ["if", "or", "and", "instanceof", "in", "is"]

inductive Token.Joins (language : Language) (t : Token) : Prop
  | operator (hkind : t.kind = .operator) (htext : t.text ∈ joiners ∨ t.text = "." ∧ language = .php)
  | keyword (hkind : t.kind = .keyword) (htext : t.text ∈ joinWords)

theorem View.bindingPower?_cases {v : View} {i : Nat} (h : (v.bindingPower? i).isSome = true) :
    ∃ t, v.tok? i = some t ∧
      (t.Joins v.language ∨ t.isOp "?" = true ∨ t.text = "not" ∧ v.isKeywordAt (i + 1) "in" = true) := by
  unfold bindingPower? at h
  split at h
  · cases h
  · next t ht =>
    refine ⟨t, ht, ?_⟩
    split at h
    · next hkind =>
      by_cases hmem : t.text ∈ joiners
      · exact Or.inl (.operator hkind (Or.inl hmem))
      · -- Only the question mark and the point are left.
        by_cases hmark : t.text = "?"
        · exact Or.inr (Or.inl (by simp [Token.isOp, hkind, hmark]))
        · by_cases hpoint : t.text = "." ∧ v.language = .php
          · exact Or.inl (.operator hkind (Or.inr hpoint))
          · split at h
            all_goals first
              | exact Bool.noConfusion h
              | next htext => exact absurd (htext ▸ by decide) hmem
              | next htext => exact absurd htext hmark
              | next htext =>
                rw [if_neg fun hphp => hpoint ⟨htext, eq_of_beq hphp⟩] at h
                exact Bool.noConfusion h
    · next hkind =>
      by_cases hmem : t.text ∈ joinWords
      · exact Or.inl (.keyword hkind hmem)
      · split at h
        all_goals first
          | exact Bool.noConfusion h
          | next htext => exact absurd (htext ▸ by decide) hmem
          | next htext =>
            refine Or.inr (Or.inr ⟨htext, ?_⟩)
            split at h
            · next hin => exact hin
            · exact Bool.noConfusion h
    · cases h

namespace Token.Joins

variable {language : Language} {t : Token} (h : t.Joins language)
include h

theorem atom?_eq_none : t.atom? = none := by
  unfold Token.atom?
  cases h with
  | operator hkind htext => rw [hkind]
  | keyword hkind htext => rw [hkind]

theorem not_arrow (hphp : language ≠ .php) : (Dialect.of language).lambdaArrows.contains t.text = false := by
  have hjoiners : ∀ l : Language, ∀ text ∈ joiners ++ joinWords, (Dialect.of l).lambdaArrows.contains text = false := by
    intro l
    cases l <;> decide
  cases h with
  | operator hkind htext =>
    obtain htext | ⟨-, hlanguage⟩ := htext
    · exact hjoiners language _ (List.mem_append_left _ htext)
    · exact absurd hlanguage hphp
  | keyword hkind htext => exact hjoiners language _ (List.mem_append_right _ htext)

theorem not_member (hkind : t.kind = .operator) :
    (Dialect.of language).memberOperators.contains t.text = false := by
  have hjoiners : ∀ l : Language, ∀ text ∈ joiners, (Dialect.of l).memberOperators.contains text = false := by
    intro l
    cases l <;> decide
  cases h with
  | operator _ htext =>
    obtain htext | ⟨htext, rfl⟩ := htext
    · exact hjoiners language _ htext
    · rw [htext]
      decide
  | keyword hkeyword _ => cases hkind.symm.trans hkeyword

theorem text_ne {text : String} (htext : text ∉ "." :: (joiners ++ joinWords)) : t.text ≠ text := by
  rintro rfl
  refine htext ?_
  cases h with
  | operator _ hmem =>
    obtain hmem | ⟨hpoint, -⟩ := hmem
    · exact List.mem_cons_of_mem _ (List.mem_append_left _ hmem)
    · rw [hpoint]
      exact List.mem_cons_self
  | keyword _ hmem => exact List.mem_cons_of_mem _ (List.mem_append_right _ hmem)

end Token.Joins

/-! ## Chains -/

namespace View

def atom? (v : View) (i : Nat) : Option Expr := (v.tok? i).bind Token.atom?

def atomsIn (v : View) (first last : Nat) : List Expr := (List.range' first (last - first)).filterMap v.atom?

/-- From an index up to the limit atoms and binary operators take turns, and no operator is a question mark. -/
structure Chain (v : View) (start : Nat) : Prop where
  atom : ∀ k, start + 2 * k < v.limit → (v.atom? (start + 2 * k)).isSome = true
  operator : ∀ k, start + 2 * k + 1 < v.limit → (v.bindingPower? (start + 2 * k + 1)).isSome = true
  unconditional : ∀ k, v.isOpAt (start + 2 * k + 1) "?" = false

instance (v : View) (start : Nat) : Decidable (v.Chain start) :=
  decidable_of_iff
    (∀ k < v.limit, (start + 2 * k < v.limit → (v.atom? (start + 2 * k)).isSome = true) ∧
      (start + 2 * k + 1 < v.limit → (v.bindingPower? (start + 2 * k + 1)).isSome = true) ∧
      v.isOpAt (start + 2 * k + 1) "?" = false) <| by
    constructor
    · intro h
      refine ⟨fun k hk => (h k (by omega)).1 hk, fun k hk => (h k (by omega)).2.1 hk, fun k => ?_⟩
      by_cases hk : k < v.limit
      · exact (h k hk).2.2
      · rw [isOpAt, tok?, if_neg (by omega), Option.any_none]
    · exact fun h k _ => ⟨h.atom k, h.operator k, h.unconditional k⟩

variable {v : View}

theorem atomsIn_append {i j k : Nat} (hij : i ≤ j) (hjk : j ≤ k) : v.atomsIn i j ++ v.atomsIn j k = v.atomsIn i k := by
  unfold atomsIn
  rw [← List.filterMap_append]
  have hrange : List.range' i (j - i) ++ List.range' (i + (j - i)) (k - j) = List.range' i (j - i + (k - j)) :=
    List.range'_append_1
  rw [Nat.add_sub_cancel' hij, show j - i + (k - j) = k - i by omega] at hrange
  rw [hrange]

theorem atomsIn_self {i : Nat} : v.atomsIn i (i + 1) = (v.atom? i).toList := by
  unfold atomsIn
  rw [Nat.add_sub_cancel_left, List.range'_one, List.filterMap_cons, List.filterMap_nil]
  cases v.atom? i <;> rfl

namespace Chain

variable {start k : Nat} (h : v.Chain start)
include h

theorem atom?_of_tok? {t : Token} (ht : v.tok? (start + 2 * k) = some t) : ∃ e, t.atom? = some e := by
  have hatom := h.atom k (lt_limit_of_tok? ht)
  rw [View.atom?, ht] at hatom
  exact Option.isSome_iff_exists.mp hatom

theorem isKeywordAt_operand (k : Nat) (word : String) : v.isKeywordAt (start + 2 * k) word = false := by
  unfold isKeywordAt
  cases ht : v.tok? (start + 2 * k) with
  | none => rfl
  | some t =>
    obtain ⟨e, he⟩ := h.atom?_of_tok? ht
    simp [Token.isKeyword, (Token.kind_ne_of_atom? he).2]

theorem isOpAt_operand (k : Nat) (op : String) : v.isOpAt (start + 2 * k) op = false := by
  unfold isOpAt
  cases ht : v.tok? (start + 2 * k) with
  | none => rfl
  | some t =>
    obtain ⟨e, he⟩ := h.atom?_of_tok? ht
    simp [Token.isOp, (Token.kind_ne_of_atom? he).1]

theorem joins {t : Token} (ht : v.tok? (start + 2 * k + 1) = some t) : t.Joins v.language := by
  obtain ⟨u, hu, hcases⟩ := bindingPower?_cases (h.operator k (lt_limit_of_tok? ht))
  cases ht.symm.trans hu
  obtain hjoins | hmark | ⟨-, hnext⟩ := hcases
  · exact hjoins
  · have hno := h.unconditional k
    rw [isOpAt, ht, Option.any_some, hmark] at hno
    cases hno
  · rw [show start + 2 * k + 1 + 1 = start + 2 * (k + 1) by omega, h.isKeywordAt_operand] at hnext
    cases hnext

theorem isKeywordAt_operator (k : Nat) {word : String}
    (hword : word ∉ "." :: (joiners ++ joinWords)) : v.isKeywordAt (start + 2 * k + 1) word = false := by
  unfold isKeywordAt
  cases ht : v.tok? (start + 2 * k + 1) with
  | none => rfl
  | some t => simp [Token.isKeyword, (h.joins ht).text_ne hword]

theorem isOpAt_operator (k : Nat) {op : String}
    (hop : op ∉ "." :: (joiners ++ joinWords)) : v.isOpAt (start + 2 * k + 1) op = false := by
  unfold isOpAt
  cases ht : v.tok? (start + 2 * k + 1) with
  | none => rfl
  | some t => simp [Token.isOp, (h.joins ht).text_ne hop]

theorem textAt_ne (k : Nat) {text : String}
    (htext : text ∉ "" :: "." :: (joiners ++ joinWords)) : v.textAt (start + 2 * k + 1) ≠ text := by
  obtain ⟨hempty, htext⟩ := List.ne_and_not_mem_of_not_mem_cons htext
  unfold textAt
  cases ht : v.tok? (start + 2 * k + 1) with
  | none => exact hempty.symm
  | some t => exact (h.joins ht).text_ne htext

theorem isOpAt_bracket {i : Nat} (hi : start ≤ i) : v.isOpAt i "(" = false := by
  obtain ⟨k, rfl | rfl⟩ : ∃ k, i = start + 2 * k ∨ i = start + 2 * k + 1 := ⟨(i - start) / 2, by omega⟩
  · exact h.isOpAt_operand k "("
  · exact h.isOpAt_operator k (by decide)

theorem genericCallFrom_eq_false (n : Nat) (depth : Int) {i : Nat} (hi : start ≤ i) :
    v.genericCallFrom n depth i = false := by
  induction n generalizing depth i with
  | zero => rfl
  | succ n ih =>
    unfold genericCallFrom
    split
    · rfl
    · split
      · dsimp only
        split
        · exact h.isOpAt_bracket (Nat.le_succ_of_le hi)
        · exact ih _ (Nat.le_succ_of_le hi)
      · rfl

theorem atomsIn_append {first last : Nat} (hfirst : first ≤ start + 2 * k + 1)
    (hlast : start + 2 * k + 1 < last) :
    v.atomsIn first (start + 2 * k + 1) ++ v.atomsIn (start + 2 * k + 1 + 1) last = v.atomsIn first last := by
  have hnone : v.atom? (start + 2 * k + 1) = none := by
    unfold View.atom?
    cases ht : v.tok? (start + 2 * k + 1) with
    | none => rfl
    | some t => exact (h.joins ht).atom?_eq_none
  rw [← View.atomsIn_append hfirst (Nat.le_of_lt hlast), ← View.atomsIn_append (Nat.le_succ _) hlast,
    atomsIn_self, hnone]
  rfl

end Chain
end View

/-! ## Reading a chain -/

/-- What has been read from an operand of a chain on is a part of the chain behind an operand, and the operand
under construction has its atoms as leaves. -/
structure Pending.Reads (v : View) (start first : Nat) (p : Pending) (d : Draft) : Prop where
  leaves : p.Leaves d.arena (v.atomsIn first d.pos)
  behind : ∃ k, d.pos = start + 2 * k + 1
  first_lt : first < d.pos
  le_limit : d.pos ≤ v.limit

variable {e : Draft} {p : Pending}

theorem Pending.Reads.of_pos {v : View} {start first : Nat} {q : Pending} {d : Draft} (h : p.Reads v start first d)
    (hpos : e.pos = d.pos) (hleaves : q.Leaves e.arena (v.atomsIn first d.pos)) :
    q.Reads v start first e := by
  obtain ⟨-, hbehind, hfirst, hlimit⟩ := h
  rw [← hpos] at hleaves hbehind hfirst hlimit
  exact ⟨hleaves, hbehind, hfirst, hlimit⟩

theorem Pending.Reads.join {v : View} {start first : Nat} (h : v.Chain start) {left right : Pending} {d f : Draft}
    (hleft : left.Reads v start first d) (hright : right.Reads v start (d.pos + 1) e) (hpos : f.pos = e.pos)
    (hleaves : p.Leaves f.arena (v.atomsIn first d.pos ++ v.atomsIn (d.pos + 1) e.pos)) :
    p.Reads v start first f := by
  obtain ⟨k, hk⟩ := hleft.behind
  have hfirst := hleft.first_lt
  have hlast := hright.first_lt
  rw [hk] at hfirst hlast hleaves
  rw [h.atomsIn_append (Nat.le_of_lt hfirst) (Nat.lt_of_succ_lt hlast)] at hleaves
  refine ⟨by rwa [hpos], ?_, by omega, ?_⟩
  · rw [hpos]
    exact hright.behind
  · rw [hpos]
    exact hright.le_limit

theorem Pending.Reads.of_atom {v : View} {start k : Nat} {t : Token} {x : Expr} {d : Draft}
    (hd : d.pos = start + 2 * k) (ht : v.tok? d.pos = some t) (hx : t.atom? = some x) (hpos : e.pos = d.pos + 1)
    (hleaves : p.Leaves e.arena [x]) : p.Reads v start d.pos e := by
  have hatom : v.atom? d.pos = some x := by rw [View.atom?, ht, Option.bind_some, hx]
  have hlt := View.lt_limit_of_tok? ht
  refine ⟨?_, ⟨k, by rw [hpos, hd]⟩, by omega, by omega⟩
  rw [hpos, View.atomsIn_self, hatom]
  exact hleaves

namespace Level

open Parse

variable {language : Language} {v : View} {start : Nat} {d : Draft} {k : Nat} {sub : Level}

structure ReadsChain (v : View) (start : Nat) (sub : Level) : Prop where
  pending : ∀ power d k, d.pos = start + 2 * k → Yields v d (Pending.Reads v start d.pos) (sub.pending power)
  primary : ∀ d k, d.pos = start + 2 * k → Yields v d (Pending.Reads v start d.pos) sub.primary

theorem ReadsChain.expr (hsub : sub.ReadsChain v start) (power : Nat) (hd : d.pos = start + 2 * k) :
    Yields v d (fun id e => (Pending.done id).Reads v start d.pos e) (sub.expr power) := by
  refine (hsub.pending power d k hd).bind fun p e _ hp => ?_
  exact (Yields.materialize hp.leaves).imp fun id f _ hid => hp.of_pos hid.1 hid.2

theorem commandCall_yields (hkeyword : ∀ t, v.tok? d.pos = some t → t.kind = .keyword ∧ t.text ∈ joinWords)
    (sub : Level) (left : Pending) (first : Nat) :
    Yields v d (fun r e => r = left ∧ e = d) (sub.commandCall left first) := by
  have hwords : ∀ word ∈ joinWords, ["self", "nil", "true", "false"].contains word = false := by decide
  have hstarts : startsCommand v d.pos = false := by
    unfold startsCommand
    cases ht : v.tok? d.pos with
    | none => rw [Option.any_none, Bool.and_false]
    | some t =>
      obtain ⟨hkind, htext⟩ := hkeyword t ht
      rw [Option.any_some, hkind, hwords t.text htext]
      exact Bool.and_false _
  refine .look rfl ?_
  rw [hstarts]
  exact .pure ⟨rfl, rfl⟩

theorem literal_yields (hd : d.pos = start + 2 * k) {t : Token} (ht : v.tok? d.pos = some t) {kind : LiteralKind}
    {value : String} (hx : t.atom? = some ⟨.literal kind value, t.span⟩) {e : Draft} (hpos : e.pos = d.pos + 1) :
    Yields v e (Pending.Reads v start d.pos) (do return .done (← literal kind value t.span)) := by
  refine Yields.bind (Q := Yields.Recorded e [⟨.literal kind value, t.span⟩]) (.alloc ⟨rfl, .alloc_leaf rfl⟩) ?_
  intro id f _ hid
  exact .pure (.of_atom hd ht hx (hid.1.trans hpos) hid.2)

variable (hv : v.dialect = .of language) (h : v.Chain start)
include h

theorem skipCast_yields (hd : d.pos = start + 2 * k + 1) :
    Yields v d (fun skipped e => skipped = false ∧ e = d) skipCast := by
  have hne : (v.textAt d.pos == "as") = false := by
    rw [hd]
    exact beq_false_of_ne (h.textAt_ne k (by decide))
  refine .look rfl (.look rfl (.ite (fun hcast => ?_) fun _ => .pure ⟨rfl, rfl⟩))
  rw [hne, Bool.and_false, Bool.false_and] at hcast
  cases hcast

theorem conditional_yields (hsub : sub.ReadsChain v start) (hd : d.pos = start + 2 * k)
    {left : ExprId} {ls : List Expr} (hleft : d.arena.LeavesOf [left] ls) (origin : Nat) :
    Yields v d (fun id f => ∃ p e, Pending.Reads v start d.pos p e ∧ f.pos = e.pos ∧
      f.arena.LeavesOf [id] (ls ++ v.atomsIn d.pos e.pos)) (sub.conditional "if" left origin) := by
  refine (hsub.expr 2 hd).bind fun second e he hsecond => ?_
  obtain ⟨j, hj⟩ := hsecond.behind
  have helse : isKeyword "else" v e = (some false, e) := by
    change (some (v.isKeywordAt e.pos "else"), e) = _
    rw [hj, h.isKeywordAt_operator j (by decide)]
  refine .look helse (.look rfl ?_)
  dsimp only
  rw [if_neg Bool.false_ne_true]
  refine .look rfl (.look rfl (.alloc ⟨_, e, hsecond, rfl, ?_⟩))
  refine .alloc_node (List.cons_ne_nil _ _) ?_
  exact (hleft.mono he).append hsecond.leaves

theorem operator_yields (hsub : sub.ReadsChain v start) {first : Nat} {left : Pending}
    (hleft : left.Reads v start first d) (power origin : Nat) :
    Yields v d (fun r e => r.1.Reads v start first e) (sub.operator (v.textAt d.pos) power origin left) := by
  obtain ⟨k, hk⟩ := hleft.behind
  have hnot : (v.textAt d.pos == "not" || v.textAt d.pos == "is" && v.isKeywordAt (d.pos + 1) "not") = false := by
    have hkeyword : v.isKeywordAt (d.pos + 1) "not" = false := by
      rw [hk, show start + 2 * k + 1 + 1 = start + 2 * (k + 1) by omega]
      exact h.isKeywordAt_operand (k + 1) "not"
    rw [hkeyword, Bool.and_false, Bool.or_false, hk]
    exact beq_false_of_ne (h.textAt_ne k (by decide))
  have hmark : (v.textAt d.pos == "?") = false := by
    rw [hk]
    exact beq_false_of_ne (h.textAt_ne k (by decide))
  refine .look rfl (.step rfl rfl (.look rfl ?_))
  dsimp only
  rw [hnot, if_neg Bool.false_ne_true, hmark, Bool.false_or]
  have hnext : d.pos + 1 = start + 2 * (k + 1) := by omega
  refine .ite (fun hif => ?_) fun _ => ?_
  · rw [eq_of_beq hif]
    refine (Yields.materialize (d := { d with pos := d.pos + 1 }) hleft.leaves).bind fun id e _ hid => ?_
    refine .attempt (conditional_yields h hsub (hid.1.trans hnext) hid.2 origin) (fun f hf => ?_) fun r f _ hr => ?_
    · exact .step rfl rfl (.pure (hleft.of_pos rfl (hid.2.mono hf)))
    · obtain ⟨p, g, hg, hpos, hleaves⟩ := hr
      rw [hid.1] at hg hleaves
      exact .pure (hleft.join h hg hpos hleaves)
  · refine .attempt (hsub.expr power hnext) (fun f hf => ?_) fun right e he hright => ?_
    · exact .step rfl rfl (.pure (hleft.of_pos rfl (hleft.leaves.mono hf)))
    · refine (Yields.binary (hleft.leaves.mono he) hright.leaves _ origin).bind fun p f _ hp => ?_
      exact .pure (hleft.join h hright hp.1 hp.2)

include hv

theorem suffixOperator_yields (hd : d.pos = start + 2 * k + 1)
    {t : Token} (hjoins : t.Joins language) (hkind : t.kind = .operator) (sub : Level) (left : Pending)
    (first : Nat) : Yields v d (fun r e => r = left ∧ e = d) (sub.suffixOperator t left first) := by
  have hleft : Yields v d (fun r e => r = left ∧ e = d) (pure left : Parse Pending) := .pure ⟨rfl, rfl⟩
  have hne {text : String} (htext : text ∉ "." :: (joiners ++ joinWords)) {P : Prop} (heq : t.text = text) : P :=
    absurd heq (hjoins.text_ne htext)
  refine .look rfl (.look rfl (.ite (fun hmember => ?_) fun _ => ?_))
  · rw [hv, hjoins.not_member hkind] at hmember
    cases hmember
  · split
    · next heq => exact hne (by decide) heq
    · next heq => exact hne (by decide) heq
    · next heq => exact hne (by decide) heq
    · next heq => exact hne (by decide) heq
    · next heq => exact hne (by decide) heq
    · -- There is no list of type arguments, since it would end before a bracket.
      have hgeneric : v.genericCallAhead d.pos = false := h.genericCallFrom_eq_false _ _ (by omega)
      refine .ite (fun hcall => ?_) fun _ => hleft
      rw [hgeneric, Bool.and_false] at hcall
      cases hcall
    · next heq => exact hne (by decide) heq
    · exact hleft

theorem suffix_yields (hd : d.pos = start + 2 * k + 1) (sub : Level) (left : Pending) (first : Nat) :
    Yields v d (fun r e => r = left ∧ e = d) (sub.suffix left first) := by
  have hleft : Yields v d (fun r e => r = left ∧ e = d) (pure left : Parse Pending) := .pure ⟨rfl, rfl⟩
  refine .look rfl (.look rfl ?_)
  cases ht : v.tok? d.pos with
  | none => exact hleft
  | some t =>
    have hjoins : t.Joins language := by
      rw [hd] at ht
      have hjoins := h.joins ht
      rwa [View.language, hv, Dialect.language_of] at hjoins
    dsimp only
    cases hjoins with
    | operator hkind htext =>
      rw [hkind]
      exact suffixOperator_yields hv h hd (.operator hkind htext) hkind sub left first
    | keyword hkind htext =>
      rw [hkind]
      cases left with
      | path path span =>
        refine .ite (fun _ => commandCall_yields (fun u hu => ?_) sub _ first) fun _ => hleft
        cases ht.symm.trans hu
        exact ⟨hkind, htext⟩
      | done id => exact hleft
      | member base name span => exact hleft
      | chain concat parts height span => exact hleft

theorem nameOperand_yields (hd : d.pos = start + 2 * k)
    {t : Token} (ht : v.tok? d.pos = some t) (hx : t.atom? = some ⟨.variable t.text, t.span⟩) (sub : Level) :
    Yields v d (Pending.Reads v start d.pos) (sub.nameOperand d.pos t) := by
  have hbracket : v.isOpAt (d.pos + 1) "(" = false := h.isOpAt_bracket (by omega)
  have hlanguage : v.language = language := by rw [View.language, hv, Dialect.language_of]
  have harrow : v.isArrowAt (d.pos + 1) = false := by
    unfold View.isArrowAt
    by_cases hphp : v.language = .php
    · rw [hphp]
      rfl
    · cases hu : v.tok? (d.pos + 1) with
      | none => rw [Option.any_none, Bool.and_false]
      | some u =>
        rw [hd] at hu
        have hjoins := h.joins hu
        rw [Option.any_some, hv, ← hlanguage, hjoins.not_arrow hphp, Bool.and_false]
  refine .look rfl (.ite (fun hfn => ?_) fun _ => .ite (fun hlambda => ?_) fun _ => ?_)
  · rw [hbracket, Bool.and_false] at hfn
    cases hfn
  · rw [harrow] at hlambda
    cases hlambda
  · exact .step rfl rfl (.pure (.of_atom hd ht hx rfl rfl))

theorem operand_yields (hd : d.pos = start + 2 * k)
    (sub : Level) : Yields v d (Pending.Reads v start d.pos) sub.operand := by
  refine .look rfl (.look rfl (.ofOption fun t ht => ?_))
  have htoken := ht
  rw [hd] at htoken
  obtain ⟨x, hx⟩ := h.atom?_of_tok? htoken
  obtain ⟨hkind, rfl⟩ | ⟨hkind, rfl⟩ | ⟨kind, hcases, hkind, rfl⟩ := Token.kind_of_atom? hx
  · rw [hkind]
    exact nameOperand_yields hv h hd ht hx sub
  · rw [hkind]
    exact .step rfl rfl (literal_yields hd ht hx rfl)
  · rw [hkind]
    rcases hcases with rfl | rfl
    · exact .step rfl rfl (literal_yields hd ht hx rfl)
    · exact .step rfl rfl (literal_yields hd ht hx rfl)

theorem climbFrom_yields (hsub : sub.ReadsChain v start)
    {first : Nat} (power origin n : Nat) {left : Pending} (hleft : left.Reads v start first d) :
    Yields v d (Pending.Reads v start first) (sub.climbFrom power origin n left) := by
  induction n generalizing left d with
  | zero => exact .pure hleft
  | succ n ih =>
    obtain ⟨k, hk⟩ := hleft.behind
    obtain ⟨deep, hdeep⟩ := looks_tooDeep left v d
    rw [climbFrom]
    refine .look hdeep (.look rfl (.ite (fun _ => .pure hleft) fun _ => .look rfl ?_))
    refine .unchanged (suffix_yields hv h hk sub left origin) (.look rfl (.ite (fun hmoved => ?_) fun _ => ?_))
    · exact absurd hmoved (Nat.lt_irrefl _)
    · refine (skipCast_yields h hk).bind fun skipped e _ hskip => ?_
      obtain ⟨rfl, rfl⟩ := hskip
      rw [if_neg Bool.false_ne_true]
      refine .look rfl ?_
      split
      · exact .pure hleft
      · refine .ite (fun _ => .pure hleft) fun _ => .look rfl ?_
        refine (operator_yields h hsub hleft _ origin).bind fun r e _ hr => ?_
        exact .ite (fun _ => ih hr) fun _ => .pure hr

theorem climb_yields (hsub : sub.ReadsChain v start) (power : Nat) (hd : d.pos = start + 2 * k) :
    Yields v d (Pending.Reads v start d.pos) (sub.climb power) := by
  refine .look rfl ?_
  refine (hsub.primary d k hd).bind fun p e _ hp => ?_
  refine .look rfl ?_
  refine (climbFrom_yields hv h hsub power d.pos _ hp).bind fun left f _ hleft => ?_
  obtain ⟨deep, hdeep⟩ := looks_tooDeep left v f
  exact .look hdeep (.ite (fun _ => .fail) fun _ => .pure hleft)

theorem nested_readsChain (n : Nat) : (nested n).ReadsChain v start := by
  have hleave (first : Nat) (p : Pending) (e : Draft) (hp : p.Reads v start first e) : p.Reads v start first e.leave :=
    hp.of_pos rfl hp.leaves
  induction n with
  | zero => exact ⟨fun _ _ _ _ => .fail, fun _ _ _ => .fail⟩
  | succ n ih =>
    refine ⟨fun power d k hd => ?_, fun d k hd => ?_⟩
    · change Yields v d _ (deeper ((nested n).climb power))
      refine .deeper (fun e hpos _ => ?_) (hleave d.pos)
      rw [← hpos] at hd ⊢
      exact climb_yields hv h ih power hd
    · change Yields v d _ (deeper (nested n).operand)
      refine .deeper (fun e hpos _ => ?_) (hleave d.pos)
      rw [← hpos] at hd ⊢
      exact operand_yields hv h hd (nested n)

end Level

/-- Operators lose no operand: whatever operators join the variables and plain literals of a chain, an
expression that is read there has as its leaves, from left to right, exactly those before the position where
the reading stops. -/
theorem Parse.leaves_of_chain {language : Language} {v : View} (hv : v.dialect = .of language) {d : Draft}
    (hchain : v.Chain d.pos) {power : Nat} {id : ExprId} {e : Draft} (h : Parse.expr power v d = (some id, e)) :
    e.arena.leaves id = v.atomsIn d.pos e.pos ∧ d.pos < e.pos ∧ e.pos ≤ v.limit := by
  have hsub := Level.nested_readsChain hv hchain (maxParseDepth + 1)
  have hreads := (hsub.expr power (d := d) (k := 0) rfl).answer id
  have hrun : Level.expr (.nested (maxParseDepth + 1)) power v d = (some id, e) := h
  rw [hrun] at hreads
  have hreads := hreads rfl
  exact ⟨hreads.leaves.leaves_eq, hreads.first_lt, hreads.le_limit⟩

namespace MixedChain

def content : Text.Utf8.Bytes := Text.Utf8.encode "'s' + a * b + 't' - c < d || 2"

def view : View where
  unit := { id := "a.js", content := content.toArray, language := .javascript }
  dialect := .of .javascript
  tokens := (Token.lex .javascript content).toArray
  limit := 13
  bound := 0

theorem chain_view : view.Chain 0 := by decide +kernel

theorem dialect_view : view.dialect = .of .javascript := rfl

theorem expr_view : ∃ e : Draft, Parse.expr 0 view {} = (some 9, e) ∧ e.pos = 13 := by
  have hrun : (Parse.expr 0 view {}).1 = some 9 ∧ (Parse.expr 0 view {}).2.pos = 13 := by decide +kernel
  generalize Parse.expr 0 view {} = x at hrun ⊢
  obtain ⟨answer, e⟩ := x
  obtain ⟨rfl, hpos⟩ := hrun
  exact ⟨e, rfl, hpos⟩

theorem leaves_of_chain_mixed :
    view.Chain 0 ∧ ∃ e : Draft, Parse.expr 0 view {} = (some 9, e) ∧ e.pos = 13 ∧ e.arena.leaves 9 =
      [⟨.literal .string "s", ⟨0, 3⟩⟩, ⟨.variable "a", ⟨6, 7⟩⟩, ⟨.variable "b", ⟨10, 11⟩⟩,
        ⟨.literal .string "t", ⟨14, 17⟩⟩, ⟨.variable "c", ⟨20, 21⟩⟩, ⟨.variable "d", ⟨24, 25⟩⟩,
        ⟨.literal .number "2", ⟨29, 30⟩⟩] := by
  obtain ⟨e, hrun, hpos⟩ := expr_view
  obtain ⟨hleaves, -⟩ := Parse.leaves_of_chain dialect_view chain_view hrun
  rw [hpos] at hleaves
  exact ⟨chain_view, e, hrun, hpos, hleaves.trans (by decide +kernel)⟩

end MixedChain

end TaintScan
