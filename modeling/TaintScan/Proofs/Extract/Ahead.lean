import TaintScan.Proofs.Extract.View

/-! # Where look-ahead ends

A look-ahead answers an index that is not before the one it starts from, and not beyond the limit of
the view unless it started there. What a view shows below its limit, a view with a greater limit over
the same tokens shows too.
-/
namespace TaintScan
namespace View

theorem lt_limit_of_tok? {v : View} {i : Nat} {t : Token} (h : v.tok? i = some t) : i < v.limit := by
  unfold tok? at h
  split at h
  · assumption
  · simp at h

theorem lt_limit_of_any {v : View} {i : Nat} {p : Token → Bool} (h : (v.tok? i).any p = true) :
    i < v.limit := by
  cases ht : v.tok? i with
  | none => simp [ht] at h
  | some t => exact lt_limit_of_tok? ht

theorem lt_limit_of_textAt {v : View} {i : Nat} {text : String} (h : v.textAt i = text) (ht : text ≠ "") :
    i < v.limit := by
  unfold textAt at h
  cases htok : v.tok? i with
  | none => exact absurd (by rw [htok] at h; exact h.symm) ht
  | some t => exact lt_limit_of_tok? htok

/-! ## Indices ahead of others -/

structure Ahead (v : View) (i j : Nat) : Prop where
  le : i ≤ j
  within : i ≤ v.limit → j ≤ v.limit

namespace Ahead

variable {v : View} {i j k : Nat}

theorem refl (v : View) (i : Nat) : v.Ahead i i := ⟨Nat.le_refl i, id⟩

theorem trans (h : v.Ahead i j) (h' : v.Ahead j k) : v.Ahead i k :=
  ⟨Nat.le_trans h.le h'.le, fun hi => h'.within (h.within hi)⟩

theorem of_lt (hi : i ≤ j) (hj : j < v.limit) : v.Ahead i j := ⟨hi, fun _ => Nat.le_of_lt hj⟩

theorem succ (h : v.Ahead i j) (hj : j < v.limit) : v.Ahead i (j + 1) := ⟨Nat.le_succ_of_le h.le, fun _ => hj⟩

theorem next (hi : i < v.limit) : v.Ahead i (i + 1) := (refl v i).succ hi

theorem ite {c : Prop} [Decidable c] {a b : Nat} (ha : c → v.Ahead i a) (hb : v.Ahead i b) :
    v.Ahead i (if c then a else b) := by
  split
  · exact ha ‹_›
  · exact hb

end Ahead

/-! ## The look-aheads of expressions -/

theorem closeFrom_bounds (v : View) (opener closer : String) (n depth i : Nat) {k : Nat}
    (h : v.closeFrom opener closer n depth i = some k) : i ≤ k ∧ v.isOpAt k closer = true := by
  fun_induction closeFrom v opener closer n depth i with
  | case1 => simp at h
  | case2 n depth i ho ih => exact ⟨Nat.le_of_succ_le (ih h).1, (ih h).2⟩
  | case3 n depth i ho hc hd =>
    cases h
    exact ⟨Nat.le_refl _, hc⟩
  | case4 n depth i ho hc hd ih => exact ⟨Nat.le_of_succ_le (ih h).1, (ih h).2⟩
  | case5 n depth i ho hc ih => exact ⟨Nat.le_of_succ_le (ih h).1, (ih h).2⟩

theorem textAt_of_isOpAt {v : View} {i : Nat} {op : String} (h : v.isOpAt i op = true) : v.textAt i = op := by
  unfold isOpAt at h
  unfold textAt
  cases ht : v.tok? i with
  | none => simp [ht] at h
  | some t =>
    simp only [ht, Option.any_some, Token.isOp, Bool.and_eq_true, beq_iff_eq] at h
    simp [h.2]

theorem matching?_bounds {v : View} {i k : Nat} (h : v.matching? i = some k) : i < k ∧ k < v.limit := by
  obtain ⟨closer, hc, hk⟩ := Option.bind_eq_some_iff.mp h
  obtain ⟨hle, hop⟩ := closeFrom_bounds v _ _ _ _ _ hk
  refine ⟨Nat.lt_of_le_of_ne hle ?_, lt_limit_of_any hop⟩
  rintro rfl
  -- The opening bracket itself is no closing one.
  rw [textAt_of_isOpAt hop] at hc
  unfold closer? at hc
  split at hc <;> simp at hc

theorem ahead_matching? {v : View} {i k : Nat} (h : v.matching? i = some k) : v.Ahead i (k + 1) :=
  .succ (.of_lt (Nat.le_of_lt (matching?_bounds h).1) (matching?_bounds h).2) (matching?_bounds h).2

theorem ahead_pastGroup (v : View) (opener : String) (i : Nat) : v.Ahead i (v.pastGroup opener i) := by
  unfold pastGroup
  apply Ahead.ite _ (.refl v i)
  intro _
  cases hk : v.matching? i with
  | none => exact .refl v i
  | some k => exact ahead_matching? hk

theorem ahead_angleEndFrom (v : View) (n : Nat) (depth : Int) (i : Nat) :
    v.Ahead i (v.angleEndFrom n depth i) := by
  fun_induction angleEndFrom v n depth i with
  | case1 | case2 | case3 => exact .refl v _
  | case4 n depth i t ht => exact .next (lt_limit_of_tok? ht)
  | case5 n depth i t ht _ _ _ ih => exact .trans (.next (lt_limit_of_tok? ht)) ih

theorem ahead_angleEnd (v : View) (i : Nat) : v.Ahead i (v.angleEnd i) := ahead_angleEndFrom v _ _ i

theorem ahead_emptyPairsEnd (v : View) (n i : Nat) : v.Ahead i (v.emptyPairsEnd n i) := by
  fun_induction emptyPairsEnd v n i with
  | case1 | case3 => exact .refl v _
  | case2 n i h ih =>
    obtain ⟨ho, hc⟩ := Bool.and_eq_true_iff.mp h
    exact .trans (.succ (.next (lt_limit_of_any ho)) (lt_limit_of_any hc)) ih

theorem ahead_typeEndFrom (v : View) (n i : Nat) : v.Ahead i (v.typeEndFrom n i) := by
  induction n generalizing i with
  | zero => exact .refl v i
  | succ n ih =>
    unfold typeEndFrom
    apply Ahead.ite _ (.refl v i)
    intro hw
    dsimp only
    have hname : v.Ahead i (i + 1) := .next (lt_limit_of_any hw)
    have hargs : v.Ahead i (if v.isOpAt (i + 1) "<" then v.angleEnd (i + 1) else i + 1) :=
      .ite (fun _ => hname.trans (v.ahead_angleEnd (i + 1))) hname
    generalize (if v.isOpAt (i + 1) "<" = true then v.angleEnd (i + 1) else i + 1) = j at hargs ⊢
    have hpairs := hargs.trans (v.ahead_emptyPairsEnd (v.limit - j) j)
    generalize v.emptyPairsEnd (v.limit - j) j = k at hpairs ⊢
    have hmark : v.Ahead i (if v.isOpAt k "?" then k + 1 else k) :=
      .ite (fun h => hpairs.succ (lt_limit_of_any h)) hpairs
    exact .ite (fun h => (hmark.succ (lt_limit_of_any h)).trans (ih _)) hmark

theorem ahead_typeEnd (v : View) (i : Nat) : v.Ahead i (v.typeEnd i) := ahead_typeEndFrom v _ i

theorem ahead_functionBody? (v : View) (n : Nat) (depth : Int) (i : Nat) {body : FunctionBody}
    (h : v.functionBody? n depth i = some body) :
    ∃ k, i ≤ k ∧ k < v.limit ∧ (body = .braced k ∨ body = .arrow k) := by
  induction n generalizing depth i with
  | zero => simp [functionBody?] at h
  | succ n ih =>
    have later {depth : Int} (h : v.functionBody? n depth (i + 1) = some body) :
        ∃ k, i ≤ k ∧ k < v.limit ∧ (body = .braced k ∨ body = .arrow k) := by
      obtain ⟨k, hik, hk⟩ := ih depth (i + 1) h
      exact ⟨k, Nat.le_of_succ_le hik, hk⟩
    unfold functionBody? at h
    split at h
    · simp at h
    · rename_i t ht
      have hi := lt_limit_of_tok? ht
      split at h
      · split at h
        · split at h
          · cases h
            exact ⟨i, Nat.le_refl i, hi, .inl rfl⟩
          · exact later h
        · split at h
          · cases h
            exact ⟨i, Nat.le_refl i, hi, .inr rfl⟩
          · exact later h
        · exact later h
        · exact later h
        · exact later h
        · exact later h
        · simp at h
        · simp at h
        · simp at h
        · exact later h
      · exact later h

theorem ahead_colonFrom (v : View) (n : Nat) (depth : Int) (i : Nat) {k : Nat}
    (h : v.colonFrom n depth i = some k) : i ≤ k ∧ k < v.limit := by
  fun_induction colonFrom v n depth i with
  | case1 => simp at h
  | case2 n depth i hc =>
    cases h
    exact ⟨Nat.le_refl _, lt_limit_of_any (Bool.and_eq_true_iff.mp hc).2⟩
  | case3 n depth i hc ih => exact ⟨Nat.le_of_succ_le (ih h).1, (ih h).2⟩

theorem ahead_constructorName (v : View) (n i : Nat) : v.Ahead i (v.constructorName n i).2 := by
  induction n generalizing i with
  | zero => exact .refl v i
  | succ n ih =>
    unfold constructorName
    have hsign : v.Ahead i (if v.isOpAt i "\\" then i + 1 else i) :=
      .ite (fun h => .next (lt_limit_of_any h)) (.refl v i)
    generalize (if v.isOpAt i "\\" = true then i + 1 else i) = j at hsign ⊢
    dsimp only
    split
    · rename_i hw
      have hname := hsign.succ (lt_limit_of_any hw)
      split
      · rename_i hdot
        exact (hname.succ (lt_limit_of_any hdot)).trans (ih _)
      · exact hname
    · exact hsign

theorem lt_limit_of_bindingPower? {v : View} {i : Nat} {powers : Nat × Nat} (h : v.bindingPower? i = some powers) :
    i < v.limit ∧ (v.textAt i = "not" → i + 1 < v.limit) := by
  unfold bindingPower? at h
  cases ht : v.tok? i with
  | none => simp [ht] at h
  | some t =>
    refine ⟨lt_limit_of_tok? ht, fun htext => ?_⟩
    have htext : t.text = "not" := by simpa [textAt, ht] using htext
    simp only [ht, htext] at h
    split at h
    · simp at h
    · split at h
      · exact lt_limit_of_any ‹_›
      · simp at h
    · simp at h

theorem le_blockParamsFrom (v : View) (n i : Nat) : i ≤ (v.blockParamsFrom n i).2 := by
  fun_induction blockParamsFrom v n i with
  | case1 | case2 => exact Nat.le_refl _
  | case3 => exact Nat.le_succ _
  | case4 n i t ht hbar names j hj ih =>
    rw [hj] at ih
    exact Nat.le_of_succ_le ih

theorem le_blockParams (v : View) (i : Nat) : i ≤ (v.blockParams i).2 := by
  unfold blockParams
  split
  · exact Nat.le_of_succ_le (v.le_blockParamsFrom _ (i + 1))
  · exact Nat.le_refl i

/-! ## The look-aheads of statements -/

theorem le_annotationEnd (v : View) (i : Nat) : i ≤ v.annotationEnd i := by
  have from_le (n : Nat) (depth : Int) (i : Nat) : i ≤ v.annotationEndFrom n depth i := by
    fun_induction annotationEndFrom v n depth i with
    | case1 | case2 | case3 | case4 => exact Nat.le_refl _
    | case5 n depth i t ht hline hstop angle ih => exact Nat.le_of_succ_le ih
  unfold annotationEnd
  split
  · exact from_le _ _ i
  · exact Nat.le_refl i

theorem le_plainBinding (v : View) (n i : Nat) : i ≤ (v.plainBinding n i).2 := by
  fun_induction plainBinding v n i with
  | case1 | case4 => exact Nat.le_refl _
  | case2 n i hi hcomma names j hj ih =>
    rw [hj] at ih
    exact Nat.le_trans (Nat.le_add_right i 2) ih
  | case3 => exact Nat.le_succ _

theorem le_bindingPattern (v : View) (i : Nat) : i ≤ (v.bindingPattern i).2 := by
  unfold bindingPattern
  split
  · split
    · exact Nat.le_refl i
    · exact Nat.le_succ_of_le (Nat.le_of_lt (matching?_bounds ‹_›).1)
  · exact v.le_plainBinding _ i

theorem lt_accessorEnd? {v : View} {i k : Nat} (h : v.accessorEnd? i = some k) : i < k := by
  unfold accessorEnd? at h
  split at h
  · split at h
    · dsimp only at h
      split at h
      · cases h
        exact (matching?_bounds ‹_›).1
      · simp at h
    · simp at h
  · simp at h

theorem le_qualifiedEnd (v : View) (n i : Nat) : i ≤ v.qualifiedEnd n i := by
  fun_induction qualifiedEnd v n i with
  | case1 | case3 => exact Nat.le_refl _
  | case2 n i h ih => exact Nat.le_trans (Nat.le_add_right i 2) ih

theorem le_typeArgsEnd? (v : View) (n : Nat) (depth : Int) (i : Nat) {k : Nat}
    (h : v.typeArgsEnd? n depth i = some k) : i ≤ k := by
  fun_induction typeArgsEnd? v n depth i with
  | case1 | case2 | case5 => simp at h
  | case3 =>
    cases h
    exact Nat.le_succ _
  | case4 n depth i t ht hkind hd ih => exact Nat.le_of_succ_le (ih h)

theorem le_typeMarksEnd (v : View) (n i : Nat) : i ≤ v.typeMarksEnd n i := by
  fun_induction typeMarksEnd v n i with
  | case1 | case4 => exact Nat.le_refl _
  | case2 n i h ih => exact Nat.le_trans (Nat.le_add_right i 2) ih
  | case3 n i h h' ih => exact Nat.le_of_succ_le ih

theorem le_typedName? {v : View} {first k : Nat} (h : v.typedName? first = some k) : first ≤ k := by
  unfold typedName? at h
  split at h
  · dsimp only at h
    have hname := v.le_qualifiedEnd (v.limit - first) (first + 1)
    generalize v.qualifiedEnd (v.limit - first) (first + 1) = i at h hname
    split at h
    · simp at h
    · rename_i j hj
      have hargs : i ≤ j := by
        split at hj
        · exact v.le_typeArgsEnd? _ _ _ hj
        · exact Nat.le_of_eq (Option.some.inj hj)
      have hmarks := v.le_typeMarksEnd (v.limit - j) j
      generalize v.typeMarksEnd (v.limit - j) j = m at h hmarks
      have hm : k = m := by
        split at h
        · split at h
          · exact (Option.some.inj h).symm
          · obtain ⟨_, _, hm⟩ := Option.map_eq_some_iff.mp h
            exact hm.symm
        · simp at h
      omega
  · simp at h

theorem findOutsideFrom_bounds (v : View) (ops : List String) (n : Nat) (depth : Int) (i : Nat) {k : Nat}
    (h : v.findOutsideFrom ops n depth i = some k) : i ≤ k ∧ k < i + n := by
  fun_induction findOutsideFrom v ops n depth i with
  | case1 | case2 => simp at h
  | case5 =>
    cases h
    omega
  | case3 _ _ _ _ _ _ _ ih | case4 _ _ _ _ _ _ _ _ ih | case6 _ _ _ _ _ _ _ _ _ ih
  | case7 _ _ _ _ _ _ ih =>
    have := ih h
    omega

theorem findOutside?_bounds {v : View} {first last k : Nat} {ops : List String}
    (h : v.findOutside? first last ops = some k) : first ≤ k ∧ k < last ∧ k < v.limit := by
  have := v.findOutsideFrom_bounds ops _ _ _ h
  omega

theorem headerEnd_bounds (v : View) (first : Nat) : min first v.limit ≤ v.headerEnd first ∧ v.headerEnd first ≤ v.limit := by
  have bounds (n : Nat) (depth : Int) (i : Nat) (hn : 0 < n → i + n ≤ v.limit) :
      min i v.limit ≤ v.headerEndFrom n depth i ∧ v.headerEndFrom n depth i ≤ v.limit := by
    fun_induction headerEndFrom v n depth i with
    | case1 | case2 | case3 | case4 => omega
    | case5 n depth i _ _ _ ih =>
      have := ih (by omega)
      omega
  apply bounds
  omega

theorem headerColon?_bounds {v : View} {first k : Nat} (h : v.headerColon? first = some k) : first ≤ k ∧ k < v.limit := by
  have bounds (n : Nat) (depth : Int) (lambdas i : Nat)
      (h : v.headerColonFrom first n depth lambdas i = some k) : i ≤ k ∧ k < v.limit := by
    fun_induction headerColonFrom v first n depth lambdas i with
    | case1 | case2 => simp at h
    | case3 _ _ _ _ _ _ ih | case4 _ _ _ _ _ _ _ _ ih | case6 _ _ _ _ _ _ _ ih =>
      exact ⟨Nat.le_of_succ_le (ih h).1, (ih h).2⟩
    | case5 _ _ _ _ _ _ hc =>
      cases h
      exact ⟨Nat.le_refl _, lt_limit_of_any (Bool.and_eq_true_iff.mp hc).2⟩
  exact bounds _ _ _ _ h

theorem le_functionName (v : View) (n : Nat) (name : String) (i : Nat) : i ≤ (v.functionName n name i).2 := by
  fun_induction functionName v n name i with
  | case2 n name i ruby _ _ ih => exact Nat.le_trans (Nat.le_add_right i 2) ih
  | _ => dsimp only; omega

theorem le_annotationName (v : View) (n i : Nat) : i ≤ (v.annotationName n i).2 := by
  fun_induction annotationName v n i with
  | case2 n i _ _ rest j hj ih =>
    rw [hj] at ih
    exact Nat.le_trans (Nat.le_add_right i 2) ih
  | _ => dsimp only; omega

theorem le_caseEnd (v : View) (i : Nat) : i ≤ v.caseEnd i := by
  have from_le (n : Nat) (depth : Int) (i : Nat) : i ≤ v.caseEndFrom n depth i := by
    fun_induction caseEndFrom v n depth i with
    | case4 n depth i t ht h ih => exact Nat.le_of_succ_le ih
    | _ => omega
  exact from_le _ _ i

theorem le_statementEnd (v : View) (i : Nat) : i ≤ (v.statementEnd i).2 := by
  have from_le (n : Nat) (depth : Int) (i : Nat) : i ≤ (v.skipFrom n depth i).2 := by
    induction n generalizing depth i with
    | zero => exact Nat.le_refl i
    | succ n ih =>
      have later (depth : Int) : i ≤ (v.skipFrom n depth (i + 1)).2 := Nat.le_of_succ_le (ih depth (i + 1))
      have hparams : i ≤ (v.blockParams (i + 1)).2 := Nat.le_of_succ_le (v.le_blockParams (i + 1))
      unfold skipFrom
      repeat' split
      all_goals first
        | exact later _
        | exact hparams
        | (dsimp only; omega)
  exact from_le _ _ i

theorem le_methodShape? {v : View} {first : Nat} {shape : MethodShape} (h : v.methodShape? first = some shape) :
    first ≤ shape.closer := by
  have from_le (n : Nat) (angle : Int) (i : Nat) {k : Nat} (hk : v.methodOpener? n angle i = some k) : i ≤ k := by
    fun_induction methodOpener? v n angle i with
    | case3 n angle i t ht _ ih | case5 n angle i t ht _ _ _ _ ih => exact Nat.le_of_succ_le (ih hk)
    | case4 n angle i t ht _ _ _ => exact Nat.le_of_eq (Option.some.inj hk)
    | _ => cases hk
  unfold methodShape? at h
  repeat' split at h
  all_goals try cases h
  exact Nat.le_trans (from_le _ _ _ ‹_›) (Nat.le_of_lt (matching?_bounds ‹_›).1)

/-! ## Parts of a view -/

/-- The tokens of one view are those of another, up to a limit of its own. -/
structure PartOf (v w : View) : Prop where
  tokens : v.tokens = w.tokens
  dialect : v.dialect = w.dialect
  limit : v.limit ≤ w.limit

namespace PartOf

variable {v w : View} (h : v.PartOf w)

theorem refl (v : View) : v.PartOf v := ⟨rfl, rfl, Nat.le_refl _⟩

include h

theorem language : v.language = w.language := by
  unfold View.language
  rw [h.dialect]

theorem tok? {i : Nat} (hi : i < v.limit) : w.tok? i = v.tok? i := by
  have hw : i < w.limit := Nat.lt_of_lt_of_le hi h.limit
  unfold View.tok?
  rw [if_pos hi, if_pos hw, h.tokens]

theorem any {i : Nat} {p : Token → Bool} (hp : (v.tok? i).any p = true) : (w.tok? i).any p = true := by
  rw [h.tok? (lt_limit_of_any hp)]
  exact hp

theorem isOpAt {i : Nat} (hi : i < v.limit) (op : String) : w.isOpAt i op = v.isOpAt i op := by
  unfold View.isOpAt
  rw [h.tok? hi]

theorem closeFrom {opener closer : String} {n depth i k : Nat} (hk : v.closeFrom opener closer n depth i = some k)
    {m : Nat} (hm : n ≤ m) : w.closeFrom opener closer m depth i = some k := by
  have hlim {j d l : Nat} (hl : v.closeFrom opener closer l d j = some k) : j ≤ k ∧ k < v.limit :=
    ⟨(v.closeFrom_bounds _ _ _ _ _ hl).1, lt_limit_of_any (v.closeFrom_bounds _ _ _ _ _ hl).2⟩
  have hi : i < v.limit := Nat.lt_of_le_of_lt (hlim hk).1 (hlim hk).2
  induction n generalizing m depth i with
  | zero => simp [View.closeFrom] at hk
  | succ n ih =>
    obtain ⟨m, rfl⟩ : ∃ l, m = l + 1 := ⟨m - 1, by omega⟩
    unfold View.closeFrom at hk ⊢
    rw [h.isOpAt hi, h.isOpAt hi]
    have later {d : Nat} (hk : v.closeFrom opener closer n d (i + 1) = some k) :
        w.closeFrom opener closer m d (i + 1) = some k :=
      ih hk (Nat.le_of_succ_le_succ hm) (Nat.lt_of_le_of_lt (hlim hk).1 (hlim hk).2)
    by_cases ho : v.isOpAt i opener = true
    · rw [if_pos ho] at hk ⊢
      exact later hk
    · rw [if_neg ho] at hk ⊢
      by_cases hc : v.isOpAt i closer = true
      · rw [if_pos hc] at hk ⊢
        by_cases hd : depth ≤ 1
        · rw [if_pos hd] at hk ⊢
          exact hk
        · rw [if_neg hd] at hk ⊢
          exact later hk
      · rw [if_neg hc] at hk ⊢
        exact later hk

theorem matching? {i k : Nat} (hk : v.matching? i = some k) : w.matching? i = some k := by
  have hi : i < v.limit := Nat.lt_trans (matching?_bounds hk).1 (matching?_bounds hk).2
  obtain ⟨closer, hc, hclose⟩ := Option.bind_eq_some_iff.mp hk
  have htext : w.textAt i = v.textAt i := by
    unfold View.textAt
    rw [h.tok? hi]
  unfold View.matching?
  rw [htext, hc]
  exact h.closeFrom hclose (Nat.sub_le_sub_right h.limit i)

theorem pastGroup {opener op : String} {i : Nat} (hne : op ≠ opener)
    (hop : v.isOpAt (v.pastGroup opener i) op = true) : w.pastGroup opener i = v.pastGroup opener i := by
  unfold View.pastGroup at hop ⊢
  by_cases ho : v.isOpAt i opener = true
  · have ho' : w.isOpAt i opener = true := h.any ho
    rw [if_pos ho']
    rw [if_pos ho] at hop ⊢
    cases hk : v.matching? i with
    | some k => rw [h.matching? hk]
    | none =>
      rw [hk] at hop
      exact absurd ((textAt_of_isOpAt hop).symm.trans (textAt_of_isOpAt ho)) hne
  · rw [if_neg ho] at hop ⊢
    rw [h.isOpAt (lt_limit_of_any hop), if_neg ho]

theorem angleEndFrom {n m : Nat} {depth : Int} {i : Nat} (hn : v.limit ≤ i + n) (hm : w.limit ≤ i + m)
    (hk : v.angleEndFrom n depth i < v.limit) : w.angleEndFrom m depth i = v.angleEndFrom n depth i := by
  have hle := h.limit
  induction n generalizing m depth i with
  | zero =>
    unfold View.angleEndFrom at hk
    omega
  | succ n ih =>
    have hi : i < v.limit := Nat.lt_of_le_of_lt (v.ahead_angleEndFrom _ depth i).le hk
    obtain ⟨m, rfl⟩ : ∃ l, m = l + 1 := ⟨m - 1, by omega⟩
    unfold View.angleEndFrom at hk ⊢
    rw [h.tok? hi]
    cases ht : v.tok? i with
    | none => rfl
    | some t =>
      simp only [ht] at hk ⊢
      split at hk
      · rename_i hop
        rw [if_pos hop, if_pos hop]
      · rename_i hop
        rw [if_neg hop, if_neg hop]
        split at hk
        · rename_i hd
          rw [if_pos hd, if_pos hd]
        · rename_i hd
          rw [if_neg hd, if_neg hd]
          have hn' : v.limit ≤ i + 1 + n := by omega
          have hm' : w.limit ≤ i + 1 + m := by omega
          exact ih hn' hm' hk

theorem angleEnd {i : Nat} (hk : v.angleEnd i < v.limit) : w.angleEnd i = v.angleEnd i :=
  h.angleEndFrom (by omega) (by omega) hk

theorem constructorName {n m i : Nat} (hn : v.limit ≤ i + n) (hm : w.limit ≤ i + m)
    (hk : (v.constructorName n i).2 < v.limit) : (w.constructorName m i).2 = (v.constructorName n i).2 := by
  have hle := h.limit
  induction n generalizing m i with
  | zero =>
    unfold View.constructorName at hk
    omega
  | succ n ih =>
    have hi : i < v.limit := Nat.lt_of_le_of_lt (v.ahead_constructorName _ i).le hk
    obtain ⟨m, rfl⟩ : ∃ l, m = l + 1 := ⟨m - 1, by omega⟩
    unfold View.constructorName at hk ⊢
    rw [h.isOpAt hi]
    have hj : i ≤ if v.isOpAt i "\\" = true then i + 1 else i := by
      split
      · exact Nat.le_succ i
      · exact Nat.le_refl i
    generalize (if v.isOpAt i "\\" = true then i + 1 else i) = j at hk hj ⊢
    dsimp only at hk ⊢
    by_cases hw : v.isWordAt j = true
    · have hw' : w.isWordAt j = true := h.any hw
      rw [if_pos hw']
      rw [if_pos hw] at hk ⊢
      by_cases hop : v.isAnyOpAt (j + 1) [".", "::", "\\"] = true
      · have hop' : w.isAnyOpAt (j + 1) [".", "::", "\\"] = true := h.any hop
        rw [if_pos hop']
        rw [if_pos hop] at hk ⊢
        have hn' : v.limit ≤ j + 2 + n := by omega
        have hm' : w.limit ≤ j + 2 + m := by omega
        exact ih hn' hm' hk
      · rw [if_neg hop] at hk ⊢
        have hop' : w.isAnyOpAt (j + 1) [".", "::", "\\"] = v.isAnyOpAt (j + 1) [".", "::", "\\"] := by
          unfold View.isAnyOpAt
          rw [h.tok? hk]
        rw [hop', if_neg hop]
    · rw [if_neg hw] at hk ⊢
      have hw' : w.isWordAt j = v.isWordAt j := by
        unfold View.isWordAt
        rw [h.tok? hk]
      rw [hw', if_neg hw]

end PartOf
end View
end TaintScan
