import Mathlib.Data.List.Forall2
import TaintScan.Extract.Statement

/-! # Views that look alike

The extraction looks at tokens through the queries of a view. What a query answers depends on the
kinds and texts of the tokens, on the line ends between them and on their columns, but on no offset:
two views that agree in these, and in the circumstances of the statement, answer every query alike.
-/
namespace TaintScan

theorem getElem?_cases {α β : Type} {R : α → β → Prop} {as : Array α} {bs : Array β}
    (h : List.Forall₂ R as.toList bs.toList) (i : Nat) :
    (as[i]? = none ∧ bs[i]? = none) ∨ ∃ a b, as[i]? = some a ∧ bs[i]? = some b ∧ R a b := by
  have hsize : bs.size = as.size := by simpa using h.length_eq.symm
  by_cases hi : i < as.size
  · have hj : i < bs.size := by rw [hsize]; exact hi
    refine Or.inr ⟨as[i], bs[i], by simp [hi], by simp [hj], ?_⟩
    simpa using h.get (i := i) (by simpa using hi) (by simpa using hj)
  · have hj : ¬ i < bs.size := by rw [hsize]; exact hi
    exact Or.inl ⟨by simpa using hi, by simpa using hj⟩

/-- Two tokens that differ at most in where they stand. -/
structure Token.Alike (t u : Token) : Prop where
  kind : u.kind = t.kind
  text : u.text = t.text

namespace Token.Alike

variable {t u : Token} (h : t.Alike u)
include h

theorem isOp (op : String) : u.isOp op = t.isOp op := by
  simp only [Token.isOp, h.kind, h.text]

theorem isKeyword (word : String) : u.isKeyword word = t.isKeyword word := by
  simp only [Token.isKeyword, h.kind, h.text]

theorem bracketStep : u.bracketStep = t.bracketStep := by
  simp only [Token.bracketStep, h.kind, h.text]

theorem angleStep : u.angleStep = t.angleStep := by
  simp only [Token.angleStep, h.kind, h.text]

end Token.Alike

namespace View

theorem lt_size_of_tok? {v : View} {i : Nat} {t : Token} (h : v.tok? i = some t) : i < v.tokens.size := by
  unfold tok? at h
  split at h
  · exact (Array.getElem?_eq_some_iff.mp h).1
  · cases h

theorem lt_size_of_any {v : View} {i : Nat} {p : Token → Bool} (h : (v.tok? i).any p = true) :
    i < v.tokens.size := by
  cases ht : v.tok? i with
  | none =>
    rw [ht] at h
    cases h
  | some t => exact lt_size_of_tok? ht

/-- A line ends between a token and the one before it. -/
def breaksAt (v : View) (i : Nat) : Bool :=
  match v.tokens[i - 1]?, v.tokens[i]? with
  | some previous, some next => previous.endLine < next.line
  | _, _ => false

def touches (v : View) (i j : Nat) : Bool :=
  match v.tokens[i]?, v.tokens[j]? with
  | some previous, some next => previous.span.stop == next.span.start
  | _, _ => false

/-- Two views that answer every query alike; offsets, line numbers and the bound may differ. -/
structure Alike (v w : View) : Prop where
  dialect : w.dialect = v.dialect
  limit : w.limit = v.limit
  nesting : w.nesting = v.nesting
  stmtStart : w.stmtStart = v.stmtStart
  receiver : w.receiver = v.receiver
  stopAtAppend : w.stopAtAppend = v.stopAtAppend
  tokens : List.Forall₂ Token.Alike v.tokens.toList w.tokens.toList
  breaksAt : ∀ i, w.breaksAt i = v.breaksAt i
  touches : ∀ i j, w.touches i j = v.touches i j
  indentOf : ∀ i, w.indentOf i = v.indentOf i
  lineIndent : ∀ i, i < v.tokens.size → w.lineIndent i = v.lineIndent i

namespace Alike

protected theorem refl (v : View) : v.Alike v where
  dialect := rfl
  limit := rfl
  nesting := rfl
  stmtStart := rfl
  receiver := rfl
  stopAtAppend := rfl
  tokens := List.forall₂_same.mpr fun _ _ => ⟨rfl, rfl⟩
  breaksAt _ := rfl
  touches _ _ := rfl
  indentOf _ := rfl
  lineIndent _ _ := rfl

variable {v w : View} (h : v.Alike w)
include h

/-! ## Single tokens -/

theorem language : w.language = v.language := by
  simp only [View.language, h.dialect]

theorem size : w.tokens.size = v.tokens.size := by
  simpa using h.tokens.length_eq.symm

theorem token_cases (i : Nat) :
    (v.tokens[i]? = none ∧ w.tokens[i]? = none) ∨
    ∃ t u, v.tokens[i]? = some t ∧ w.tokens[i]? = some u ∧ t.Alike u :=
  getElem?_cases h.tokens i

theorem tok?_cases (i : Nat) :
    (v.tok? i = none ∧ w.tok? i = none) ∨
    ∃ t u, v.tok? i = some t ∧ w.tok? i = some u ∧ t.Alike u := by
  unfold tok?
  rw [h.limit]
  by_cases hi : i < v.limit
  · simp only [if_pos hi]
    exact h.token_cases i
  · simp [if_neg hi]

theorem tok?_isNone (i : Nat) : (w.tok? i).isNone = (v.tok? i).isNone := by
  obtain ⟨hv, hw⟩ | ⟨t, u, hv, hw, _⟩ := h.tok?_cases i <;> simp [hv, hw]

theorem tok?_isSome (i : Nat) : (w.tok? i).isSome = (v.tok? i).isSome := by
  obtain ⟨hv, hw⟩ | ⟨t, u, hv, hw, _⟩ := h.tok?_cases i <;> simp [hv, hw]

theorem tok?_any {p : Token → Bool} (hp : ∀ t u : Token, t.Alike u → p u = p t) (i : Nat) :
    (w.tok? i).any p = (v.tok? i).any p := by
  obtain ⟨hv, hw⟩ | ⟨t, u, hv, hw, ht⟩ := h.tok?_cases i
  · simp [hv, hw]
  · simp [hv, hw, hp t u ht]

theorem tok?_map {α : Type} {f : Token → α} (hf : ∀ t u : Token, t.Alike u → f u = f t) (i : Nat) :
    (w.tok? i).map f = (v.tok? i).map f := by
  obtain ⟨hv, hw⟩ | ⟨t, u, hv, hw, ht⟩ := h.tok?_cases i
  · simp [hv, hw]
  · simp [hv, hw, hf t u ht]

theorem textAt (i : Nat) : w.textAt i = v.textAt i := by
  rw [View.textAt, View.textAt, h.tok?_map fun _ _ ht => ht.text]

theorem isOpAt (i : Nat) (op : String) : w.isOpAt i op = v.isOpAt i op :=
  h.tok?_any (fun _ _ ht => ht.isOp op) i

theorem isKeywordAt (i : Nat) (word : String) : w.isKeywordAt i word = v.isKeywordAt i word :=
  h.tok?_any (fun _ _ ht => ht.isKeyword word) i

theorem isIdentAt (i : Nat) : w.isIdentAt i = v.isIdentAt i :=
  h.tok?_any (fun _ _ ht => by rw [ht.kind]) i

theorem isWordAt (i : Nat) : w.isWordAt i = v.isWordAt i :=
  h.tok?_any (fun _ _ ht => by rw [ht.kind]) i

theorem isAnyOpAt (i : Nat) (ops : List String) : w.isAnyOpAt i ops = v.isAnyOpAt i ops :=
  h.tok?_any (fun _ _ ht => by rw [ht.kind, ht.text]) i

theorem bracketStep (i : Nat) :
    ((w.tok? i).map (·.bracketStep)).getD 0 = ((v.tok? i).map (·.bracketStep)).getD 0 := by
  rw [h.tok?_map fun _ _ ht => ht.bracketStep]

/-! ## Brackets and lines -/

theorem closeFrom (opener closer : String) (n depth i : Nat) :
    w.closeFrom opener closer n depth i = v.closeFrom opener closer n depth i := by
  induction n generalizing depth i with
  | zero => rfl
  | succ n ih => simp only [View.closeFrom, h.isOpAt, ih]

theorem matching? (i : Nat) : w.matching? i = v.matching? i := by
  simp only [View.matching?, h.textAt, h.limit, h.closeFrom]

theorem newlineBefore (i : Nat) : w.newlineBefore i = v.newlineBefore i := by
  have hb := h.breaksAt i
  unfold View.newlineBefore
  unfold View.breaksAt at hb
  rw [h.dialect]
  obtain ⟨hv, hw⟩ | ⟨p, q, hv, hw, hp⟩ := h.token_cases (i - 1)
  · simp [hv, hw]
  · obtain ⟨hv', hw'⟩ | ⟨t, u, hv', hw', ht⟩ := h.token_cases i
    · simp [hv, hw, hv', hw']
    · simp only [hv, hw, hv', hw'] at hb ⊢
      simp only [hb, joins, hp.kind, hp.text, ht.kind, ht.text, h.language]

theorem startsLine (i : Nat) : Walk.startsLine w i = Walk.startsLine v i :=
  congrArg (i == 0 || ·) (h.breaksAt i)

theorem atBoundary (i : Nat) : w.atBoundary i = v.atBoundary i := by
  unfold View.atBoundary
  obtain ⟨hv, hw⟩ | ⟨t, u, hv, hw, ht⟩ := h.tok?_cases i
  · simp [hv, hw]
  · simp only [hv, hw, ht.kind, ht.text, h.language, h.nesting, h.stmtStart, h.newlineBefore]

theorem lineEndFrom (first n : Nat) (depth : Int) (i : Nat) :
    w.lineEndFrom first n depth i = v.lineEndFrom first n depth i := by
  induction n generalizing depth i with
  | zero => exact h.limit
  | succ n ih => simp only [View.lineEndFrom, h.newlineBefore, h.bracketStep, ih]

theorem lineEnd (first : Nat) : w.lineEnd first = v.lineEnd first := by
  simp only [View.lineEnd, h.limit, h.lineEndFrom]

/-! ## Searches -/

theorem findOutsideFrom (ops : List String) (n : Nat) (depth : Int) (i : Nat) :
    w.findOutsideFrom ops n depth i = v.findOutsideFrom ops n depth i := by
  induction n generalizing depth i with
  | zero => rfl
  | succ n ih =>
    unfold View.findOutsideFrom
    obtain ⟨hv, hw⟩ | ⟨t, u, hv, hw, ht⟩ := h.tok?_cases i
    · simp only [hv, hw]
    · simp only [hv, hw, ht.kind, ht.text, ih]

theorem findOutside? (first last : Nat) (ops : List String) :
    w.findOutside? first last ops = v.findOutside? first last ops := by
  simp only [View.findOutside?, h.limit, h.findOutsideFrom]

theorem headerEndFrom (n : Nat) (depth : Int) (i : Nat) :
    w.headerEndFrom n depth i = v.headerEndFrom n depth i := by
  induction n generalizing depth i with
  | zero => exact h.limit
  | succ n ih =>
    simp only [View.headerEndFrom, h.newlineBefore, h.isOpAt, h.isKeywordAt, h.bracketStep, ih]

theorem headerEnd (first : Nat) : w.headerEnd first = v.headerEnd first := by
  simp only [View.headerEnd, h.limit, h.headerEndFrom]

theorem headerColonFrom (first n : Nat) (depth : Int) (lambdas i : Nat) :
    w.headerColonFrom first n depth lambdas i = v.headerColonFrom first n depth lambdas i := by
  induction n generalizing depth lambdas i with
  | zero => rfl
  | succ n ih =>
    simp only [View.headerColonFrom, h.newlineBefore, h.isOpAt, h.isKeywordAt, h.bracketStep, ih]

theorem headerColon? (first : Nat) : w.headerColon? first = v.headerColon? first := by
  simp only [View.headerColon?, h.limit, h.headerColonFrom]

theorem colonFrom (n : Nat) (depth : Int) (i : Nat) : w.colonFrom n depth i = v.colonFrom n depth i := by
  induction n generalizing depth i with
  | zero => rfl
  | succ n ih => simp only [View.colonFrom, h.isOpAt, h.bracketStep, ih]

theorem colonAfter? (first : Nat) : w.colonAfter? first = v.colonAfter? first := by
  simp only [View.colonAfter?, h.limit, h.colonFrom]

theorem assignmentFrom (first n : Nat) (depth : Int) (i : Nat) :
    w.assignmentFrom first n depth i = v.assignmentFrom first n depth i := by
  induction n generalizing depth i with
  | zero => rfl
  | succ n ih =>
    unfold View.assignmentFrom
    obtain ⟨hv, hw⟩ | ⟨t, u, hv, hw, ht⟩ := h.tok?_cases i
    · simp only [hv, hw]
    · simp only [hv, hw, h.newlineBefore, ht.isOp, ht.bracketStep, ih]

theorem assignmentAhead (first : Nat) : w.assignmentAhead first = v.assignmentAhead first := by
  simp only [View.assignmentAhead, h.limit, h.assignmentFrom]

theorem genericCallFrom (n : Nat) (depth : Int) (i : Nat) :
    w.genericCallFrom n depth i = v.genericCallFrom n depth i := by
  induction n generalizing depth i with
  | zero => rfl
  | succ n ih =>
    unfold View.genericCallFrom
    obtain ⟨hv, hw⟩ | ⟨t, u, hv, hw, ht⟩ := h.tok?_cases i
    · simp only [hv, hw]
    · simp only [hv, hw, ht.kind, ht.text, ht.angleStep, h.isOpAt, ih]

theorem genericCallAhead (i : Nat) : w.genericCallAhead i = v.genericCallAhead i := by
  simp only [View.genericCallAhead, h.limit, h.genericCallFrom]

theorem angleEndFrom (n : Nat) (depth : Int) (i : Nat) :
    w.angleEndFrom n depth i = v.angleEndFrom n depth i := by
  induction n generalizing depth i with
  | zero => rfl
  | succ n ih =>
    unfold View.angleEndFrom
    obtain ⟨hv, hw⟩ | ⟨t, u, hv, hw, ht⟩ := h.tok?_cases i
    · simp only [hv, hw]
    · simp only [hv, hw, ht.kind, ht.text, ht.angleStep, ih]

theorem angleEnd (i : Nat) : w.angleEnd i = v.angleEnd i := by
  simp only [View.angleEnd, h.limit, h.angleEndFrom]

theorem emptyPairsEnd (n i : Nat) : w.emptyPairsEnd n i = v.emptyPairsEnd n i := by
  induction n generalizing i with
  | zero => rfl
  | succ n ih => simp only [View.emptyPairsEnd, h.isOpAt, ih]

theorem typeEndFrom (n i : Nat) : w.typeEndFrom n i = v.typeEndFrom n i := by
  induction n generalizing i with
  | zero => rfl
  | succ n ih =>
    simp only [View.typeEndFrom, h.isWordAt, h.isOpAt, h.angleEnd, h.limit, h.emptyPairsEnd, ih]

theorem typeEnd (i : Nat) : w.typeEnd i = v.typeEnd i := by
  simp only [View.typeEnd, h.limit, h.typeEndFrom]

theorem annotationEndFrom (n : Nat) (depth : Int) (i : Nat) :
    w.annotationEndFrom n depth i = v.annotationEndFrom n depth i := by
  induction n generalizing depth i with
  | zero => rfl
  | succ n ih =>
    unfold View.annotationEndFrom
    obtain ⟨hv, hw⟩ | ⟨t, u, hv, hw, ht⟩ := h.tok?_cases i
    · simp only [hv, hw]
    · simp only [hv, hw, h.newlineBefore, ht.isOp, ht.bracketStep, ht.angleStep, ih]

theorem annotationEnd (i : Nat) : w.annotationEnd i = v.annotationEnd i := by
  simp only [View.annotationEnd, h.isOpAt, h.language, h.atBoundary, h.limit, h.annotationEndFrom]

theorem caseEndFrom (n : Nat) (depth : Int) (i : Nat) :
    w.caseEndFrom n depth i = v.caseEndFrom n depth i := by
  induction n generalizing depth i with
  | zero => rfl
  | succ n ih =>
    unfold View.caseEndFrom
    obtain ⟨hv, hw⟩ | ⟨t, u, hv, hw, ht⟩ := h.tok?_cases i
    · simp only [hv, hw]
    · simp only [hv, hw, ht.isOp, ht.bracketStep, ih]

theorem caseEnd (i : Nat) : w.caseEnd i = v.caseEnd i := by
  simp only [View.caseEnd, h.limit, h.caseEndFrom]

theorem blockParamsFrom (n i : Nat) : w.blockParamsFrom n i = v.blockParamsFrom n i := by
  induction n generalizing i with
  | zero => rfl
  | succ n ih =>
    unfold View.blockParamsFrom
    obtain ⟨hv, hw⟩ | ⟨t, u, hv, hw, ht⟩ := h.tok?_cases i
    · simp only [hv, hw]
    · simp only [hv, hw, ht.isOp, ht.kind, ht.text, ih]

theorem blockParams (i : Nat) : w.blockParams i = v.blockParams i := by
  simp only [View.blockParams, h.isOpAt, h.limit, h.blockParamsFrom]

theorem identsIn (first last : Nat) : w.identsIn first last = v.identsIn first last := by
  simp only [View.identsIn, h.limit, h.isIdentAt, h.textAt]

theorem names (indices : List Nat) : w.names indices = v.names indices := by
  simp only [View.names, funext h.textAt]

theorem skipFrom (n : Nat) (depth : Int) (i : Nat) : w.skipFrom n depth i = v.skipFrom n depth i := by
  induction n generalizing depth i with
  | zero => rfl
  | succ n ih =>
    unfold View.skipFrom
    obtain ⟨hv, hw⟩ | ⟨t, u, hv, hw, ht⟩ := h.tok?_cases i
    · simp only [hv, hw]
    · simp only [hv, hw, ht.kind, ht.text, h.stmtStart, h.newlineBefore, h.dialect, h.language,
        h.blockParams, ih]

theorem statementEnd (i : Nat) : w.statementEnd i = v.statementEnd i := by
  simp only [View.statementEnd, h.limit, h.skipFrom]

/-! ## Parameters -/

theorem dottedEnd (n i : Nat) : w.dottedEnd n i = v.dottedEnd n i := by
  induction n generalizing i with
  | zero => rfl
  | succ n ih => simp only [View.dottedEnd, h.isWordAt, h.isOpAt, ih]

theorem paramStart (last n i : Nat) : w.paramStart last n i = v.paramStart last n i := by
  induction n generalizing i with
  | zero => rfl
  | succ n ih =>
    have hmatching : w.matching? = v.matching? := funext h.matching?
    simp only [View.paramStart, h.isOpAt, h.language, h.limit, h.dottedEnd, hmatching, ih]

theorem paramEnd (last n : Nat) (depth : Int) (i : Nat) :
    w.paramEnd last n depth i = v.paramEnd last n depth i := by
  induction n generalizing depth i with
  | zero => rfl
  | succ n ih =>
    unfold View.paramEnd
    obtain ⟨hv, hw⟩ | ⟨t, u, hv, hw, ht⟩ := h.tok?_cases i
    · simp only [hv, hw]
    · simp only [hv, hw, ht.isOp, ht.bracketStep, h.dialect, ih]

theorem paramName? (idents : List Nat) : w.paramName? idents = v.paramName? idents := by
  simp only [View.paramName?, h.language, h.textAt, h.dialect]

theorem paramStep {t u : Token} (ht : t.Alike u) : w.paramStep u = v.paramStep t := by
  unfold View.paramStep View.anglesNest
  rw [h.language, ht.bracketStep, ht.isOp, ht.angleStep]

end Alike
end View

namespace View

/-- A parameter is named by an identifier of the view. -/
def Declares (v : View) (p : Param) : Prop := ∃ i, v.isIdentAt i = true ∧ p.name = v.textAt i

theorem isIdentAt_of_mem_identsIn {v : View} {first last i : Nat} (h : i ∈ v.identsIn first last) :
    v.isIdentAt i = true :=
  (Bool.and_eq_true_iff.mp (List.mem_filter.mp h).2).1

theorem mem_of_paramName? {v : View} {idents : List Nat} {i : Nat} (h : v.paramName? idents = some i) :
    i ∈ idents := by
  unfold paramName? at h
  split at h
  · exact List.mem_of_find?_eq_some h
  · split at h
    · exact List.mem_of_head? h
    · exact List.mem_of_getLast? h

theorem declares_paramSegment (v : View) (first last : Nat) :
    ∀ p ∈ v.paramSegment first last, v.Declares p := by
  intro p hp
  unfold paramSegment at hp
  dsimp only at hp
  split at hp
  · obtain ⟨i, hi, rfl⟩ := List.mem_map.mp hp
    exact ⟨i, isIdentAt_of_mem_identsIn (List.mem_filter.mp hi).1, rfl⟩
  · obtain ⟨i, hi, rfl⟩ := Option.map_eq_some_iff.mp (Option.mem_toList.mp hp)
    have hi := mem_of_paramName? hi
    exact ⟨i, isIdentAt_of_mem_identsIn (List.mem_filter.mp hi).1, rfl⟩

theorem declares_paramsFrom (v : View) (last n : Nat) (depth : Int) (segment i : Nat) :
    ∀ p ∈ v.paramsFrom last n depth segment i, v.Declares p := by
  induction n generalizing depth segment i with
  | zero => exact List.forall_mem_nil _
  | succ n ih =>
    unfold paramsFrom
    split
    · refine List.forall_mem_append.mpr ⟨?_, ih _ _ _⟩
      split
      · exact v.declares_paramSegment _ _
      · exact List.forall_mem_nil _
    · split
      · exact List.forall_mem_nil _
      · exact ih _ _ _

theorem declares_paramsIn (v : View) (first last : Nat) : ∀ p ∈ v.paramsIn first last, v.Declares p :=
  v.declares_paramsFrom _ _ _ _ _

end View

/-- Two parameters with one name, whose spans correspond. -/
structure Param.Alike (S : Span → Span → Prop) (p q : Param) : Prop where
  name : q.name = p.name
  span : S p.span q.span

namespace View.Alike

variable {v w : View} (h : v.Alike w) {S : Span → Span → Prop}
include h

section

variable (hs : ∀ i j, i < v.tokens.size → S (v.spanBetween i j) (w.spanBetween i j))
include hs

theorem paramSegment {first : Nat} (hfirst : first < v.tokens.size) (last : Nat) :
    List.Forall₂ (Param.Alike S) (v.paramSegment first last) (w.paramSegment first last) := by
  have hm (names : List Nat) : List.Forall₂ (Param.Alike S)
      (names.map fun j => ⟨v.textAt j, v.spanBetween first (max (last - 1) first)⟩)
      (names.map fun j => ⟨v.textAt j, w.spanBetween first (max (last - 1) first)⟩) := by
    induction names with
    | nil => exact .nil
    | cons j rest ih => exact .cons ⟨rfl, hs _ _ hfirst⟩ ih
  simp only [View.paramSegment, h.paramStart, h.paramEnd, h.isOpAt, h.identsIn, h.textAt, h.dialect,
    h.paramName?]
  split
  · exact hm _
  · cases v.paramName? _ with
    | none => exact .nil
    | some j => exact .cons ⟨rfl, hs _ _ hfirst⟩ .nil

theorem paramsFrom (last n : Nat)
    (depth : Int) {segment i : Nat} (hi : segment = i ∨ segment < v.tokens.size) :
    List.Forall₂ (Param.Alike S) (v.paramsFrom last n depth segment i)
      (w.paramsFrom last n depth segment i) := by
  induction n generalizing depth segment i with
  | zero => exact .nil
  | succ n ih =>
    simp only [View.paramsFrom, h.isOpAt]
    split
    · refine List.rel_append ?_ (ih _ (Or.inl rfl))
      split
      · next hlt => exact h.paramSegment hs (hi.resolve_left (Nat.ne_of_lt hlt)) _
      · exact .nil
    · obtain ⟨hv, hw⟩ | ⟨t, u, hv, hw, ht⟩ := h.tok?_cases i
      · simp only [hv, hw]
        exact .nil
      · simp only [hv, hw, h.paramStep ht]
        refine ih _ (Or.inr ?_)
        rcases hi with rfl | hi
        · exact lt_size_of_tok? hv
        · exact hi

theorem paramsIn (first last : Nat) :
    List.Forall₂ (Param.Alike S) (v.paramsIn first last) (w.paramsIn first last) :=
  h.paramsFrom hs _ _ _ (Or.inl rfl)

end

theorem paramNames (first last : Nat) : w.paramNames first last = v.paramNames first last := by
  have hp := h.paramsIn (S := fun _ _ => True) (fun _ _ _ => trivial) first last
  unfold View.paramNames
  generalize v.paramsIn first last = ps, w.paramsIn first last = qs at hp ⊢
  induction hp with
  | nil => rfl
  | cons hq _ ih => simp only [List.map_cons, hq.name, ih]

/-! ## Declarations by shape -/

theorem methodOpener? (n : Nat) (angle : Int) (i : Nat) :
    w.methodOpener? n angle i = v.methodOpener? n angle i := by
  induction n generalizing angle i with
  | zero => rfl
  | succ n ih =>
    unfold View.methodOpener?
    obtain ⟨hv, hw⟩ | ⟨t, u, hv, hw, ht⟩ := h.tok?_cases i
    · simp only [hv, hw]
    · simp only [hv, hw, ht.kind, ht.text, ht.angleStep, ih]

theorem methodShape? (first : Nat) : w.methodShape? first = v.methodShape? first := by
  simp only [View.methodShape?, h.language, h.limit, h.methodOpener?, h.isIdentAt, h.matching?,
    h.isAnyOpAt, h.isWordAt, h.textAt]

theorem accessorEnd? (i : Nat) : w.accessorEnd? i = v.accessorEnd? i := by
  have ha (j : Nat) : (w.tok? j).any isAccessorToken = (v.tok? j).any isAccessorToken :=
    h.tok?_any (fun t u ht => by simp only [isAccessorToken, ht.kind, ht.text, ht.isOp]) j
  simp only [View.accessorEnd?, h.language, h.isOpAt, h.matching?, ha, funext h.isIdentAt]

theorem qualifiedEnd (n i : Nat) : w.qualifiedEnd n i = v.qualifiedEnd n i := by
  induction n generalizing i with
  | zero => rfl
  | succ n ih => simp only [View.qualifiedEnd, h.isOpAt, h.isIdentAt, ih]

theorem typeArgsEnd? (n : Nat) (depth : Int) (i : Nat) :
    w.typeArgsEnd? n depth i = v.typeArgsEnd? n depth i := by
  induction n generalizing depth i with
  | zero => rfl
  | succ n ih =>
    unfold View.typeArgsEnd?
    obtain ⟨hv, hw⟩ | ⟨t, u, hv, hw, ht⟩ := h.tok?_cases i
    · simp only [hv, hw]
    · simp only [hv, hw, ht.kind, ht.text, ht.angleStep, ih]

theorem typeMarksEnd (n i : Nat) : w.typeMarksEnd n i = v.typeMarksEnd n i := by
  induction n generalizing i with
  | zero => rfl
  | succ n ih => simp only [View.typeMarksEnd, h.isOpAt, ih]

theorem typedName? (first : Nat) : w.typedName? first = v.typedName? first := by
  simp only [View.typedName?, h.isIdentAt, h.limit, h.qualifiedEnd, h.isOpAt, h.typeArgsEnd?,
    h.typeMarksEnd, h.tok?_isNone, h.isAnyOpAt, h.accessorEnd?]

theorem modifierPosition (i : Nat) : w.modifierPosition i = v.modifierPosition i := by
  unfold View.modifierPosition
  obtain ⟨hv, hw⟩ | ⟨t, u, hv, hw, ht⟩ := h.tok?_cases (i + 1)
  · simp only [hv, hw]
  · simp only [hv, hw, ht.kind, ht.text]

theorem isCast (opener closer : Nat) : w.isCast opener closer = v.isCast opener closer := by
  have hs : (w.tok? (closer + 1)).any startsOperand = (v.tok? (closer + 1)).any startsOperand :=
    h.tok?_any (fun t u ht => by simp only [startsOperand, ht.kind, ht.text]) _
  simp only [View.isCast, h.language, h.isIdentAt, h.isAnyOpAt, h.textAt, hs]

theorem catchBinding (first last : Nat) : w.catchBinding first last = v.catchBinding first last := by
  simp only [View.catchBinding, h.language, h.findOutside?, h.identsIn, h.names, h.textAt]

theorem iterationSeparator? (first last : Nat) :
    w.iterationSeparator? first last = v.iterationSeparator? first last := by
  simp only [View.iterationSeparator?, h.findOutside?, h.language]

theorem annotationName (n i : Nat) : w.annotationName n i = v.annotationName n i := by
  induction n generalizing i with
  | zero => rfl
  | succ n ih =>
    simp only [View.annotationName, h.isWordAt, h.isOpAt, h.tok?_isSome, h.textAt, ih]

theorem attributeName (first last : Nat) : w.attributeName first last = v.attributeName first last := by
  simp only [View.attributeName, h.isIdentAt, h.isOpAt, funext h.textAt]

theorem bindingPower? (i : Nat) : w.bindingPower? i = v.bindingPower? i := by
  unfold View.bindingPower?
  obtain ⟨hv, hw⟩ | ⟨t, u, hv, hw, ht⟩ := h.tok?_cases i
  · simp only [hv, hw]
  · simp only [hv, hw, ht.kind, ht.text, h.language, h.stopAtAppend, h.nesting, h.isKeywordAt]

/-! ## Operands -/

theorem groupKey? (object : Bool) (i : Nat) : w.groupKey? object i = v.groupKey? object i := by
  unfold View.groupKey?
  obtain ⟨hv, hw⟩ | ⟨t, u, hv, hw, ht⟩ := h.tok?_cases i
  · simp only [hv, hw]
  · simp only [hv, hw, ht.kind, ht.text, h.isOpAt, h.language]

theorem startsCommand (i : Nat) : Level.startsCommand w i = Level.startsCommand v i := by
  unfold Level.startsCommand
  rw [h.newlineBefore, h.tok?_any fun t u ht => by rw [ht.kind, ht.text]]

theorem constructorName (n i : Nat) : w.constructorName n i = v.constructorName n i := by
  induction n generalizing i with
  | zero => rfl
  | succ n ih => simp only [View.constructorName, h.isOpAt, h.isWordAt, h.isAnyOpAt, h.textAt, ih]

theorem functionBody? (n : Nat) (depth : Int) (i : Nat) :
    w.functionBody? n depth i = v.functionBody? n depth i := by
  induction n generalizing depth i with
  | zero => rfl
  | succ n ih =>
    unfold View.functionBody?
    obtain ⟨hv, hw⟩ | ⟨t, u, hv, hw, ht⟩ := h.tok?_cases i
    · simp only [hv, hw]
    · simp only [hv, hw, ht.kind, ht.text, ih]

theorem isArrowAt (i : Nat) : w.isArrowAt i = v.isArrowAt i := by
  unfold View.isArrowAt
  rw [h.language, h.dialect, h.tok?_any fun t u ht => by rw [ht.text]]

/-! ## Headers and statements -/

theorem functionName (n : Nat) (name : String) (i : Nat) :
    w.functionName n name i = v.functionName n name i := by
  induction n generalizing name i with
  | zero => rfl
  | succ n ih =>
    have ho : (w.tok? i).any (fun t => t.kind == .operator && t.text != "(") =
        (v.tok? i).any (fun t => t.kind == .operator && t.text != "(") :=
      h.tok?_any (fun t u ht => by rw [ht.kind, ht.text]) i
    simp only [View.functionName, h.language, h.isWordAt, h.isOpAt, h.tok?_isSome, h.textAt,
      h.newlineBefore, ho, ih]

theorem pastGroup (opener : String) (i : Nat) : w.pastGroup opener i = v.pastGroup opener i := by
  simp only [View.pastGroup, h.isOpAt, h.matching?]

theorem bodySearchEnd (i : Nat) : w.bodySearchEnd i = v.bodySearchEnd i := by
  simp only [View.bodySearchEnd, h.dialect, h.lineEnd, h.limit]

theorem sameLine (i : Nat) : w.sameLine i = v.sameLine i := by
  simp only [View.sameLine, h.limit, h.newlineBefore]

theorem plainBinding (n i : Nat) : w.plainBinding n i = v.plainBinding n i := by
  induction n generalizing i with
  | zero => rfl
  | succ n ih => simp only [View.plainBinding, h.isIdentAt, h.language, h.isOpAt, h.textAt, ih]

theorem bindingPattern (i : Nat) : w.bindingPattern i = v.bindingPattern i := by
  simp only [View.bindingPattern, h.isOpAt, h.matching?, h.names, h.isIdentAt, h.limit,
    h.plainBinding]

theorem declarationFollows (close : Nat) : w.declarationFollows close = v.declarationFollows close := by
  simp only [View.declarationFollows, h.isWordAt, h.isAnyOpAt]

theorem isCaseLabel (start : Nat) (word : String) :
    Walk.isCaseLabel w start word = Walk.isCaseLabel v start word := by
  simp only [Walk.isCaseLabel, h.dialect, h.isOpAt]

end View.Alike
end TaintScan
