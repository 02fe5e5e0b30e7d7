import TaintScan.Flow.Eval
import TaintScan.Proofs.Lines

/-! # Looking up a path

The fact of a path is that of the longest path above it that has one. Below each path on the way stand
the same paths as if it were looked up itself, so a fact that is written to a path is seen by the paths
below it, and by nothing else.
-/
namespace TaintScan

namespace Text

variable {segment : String}

theorem splitOn_ne_nil (path : String) : splitOn '.' path ≠ [] := by
  simp [splitOn, splitChars_eq_splitOnP]

theorem not_dot_of_mem_splitOn {path : String} (h : segment ∈ splitOn '.' path) :
    ∀ c ∈ segment.toList, (c == '.') = false := by
  obtain ⟨part, hpart, rfl⟩ := List.mem_map.mp h
  rw [splitChars_eq_splitOnP] at hpart
  rw [String.toList_ofList]
  exact not_of_mem_splitOnP hpart

theorem splitOn_of_no_dot (h : ∀ c ∈ segment.toList, (c == '.') = false) : splitOn '.' segment = [segment] := by
  rw [splitOn, splitChars_eq_splitOnP, List.splitOnP_eq_singleton h, List.map_singleton, String.ofList_toList]

theorem splitOn_append (path rest : String) :
    splitOn '.' (path ++ "." ++ rest) = splitOn '.' path ++ splitOn '.' rest := by
  have hlist : (path ++ "." ++ rest).toList = path.toList ++ '.' :: rest.toList := by simp
  simp only [splitOn, splitChars_eq_splitOnP]
  rw [hlist, List.splitOnP_append_cons _ _ (by decide), List.map_append]

theorem splitOn_dot {rest : String} (h : ∀ c ∈ segment.toList, (c == '.') = false) :
    splitOn '.' (segment ++ "." ++ rest) = segment :: splitOn '.' rest := by
  rw [splitOn_append, splitOn_of_no_dot h, List.singleton_append]

end Text

/-! ## The paths above a path -/

theorem segmentHeads_cons {s : String} {rest : List String} (h : rest ≠ []) :
    segmentHeads (s :: rest) = s :: (segmentHeads rest).map fun t => s ++ "." ++ t := by
  cases rest with
  | nil => exact absurd rfl h
  | cons _ _ => rfl

variable {key path : String}

theorem segmentHeads_splitOn {segments : List String} (h : ∀ s ∈ segments, ∀ c ∈ s.toList, (c == '.') = false)
    {j : Nat} (hj : (segmentHeads segments)[j]? = some key) :
    segmentHeads (Text.splitOn '.' key) = (segmentHeads segments).take (j + 1) := by
  induction segments generalizing j key with
  | nil => simp [segmentHeads] at hj
  | cons s rest ih =>
    obtain ⟨hs, hrest⟩ := List.forall_mem_cons.mp h
    by_cases hnil : rest = []
    · subst hnil
      cases j with
      | zero =>
        cases hj
        rw [Text.splitOn_of_no_dot hs]
        rfl
      | succ j => cases hj
    · rw [segmentHeads_cons hnil] at hj ⊢
      cases j with
      | zero =>
        cases hj
        rw [Text.splitOn_of_no_dot hs]
        rfl
      | succ j =>
        rw [List.getElem?_cons_succ, List.getElem?_map] at hj
        obtain ⟨tail, htail, rfl⟩ := Option.map_eq_some_iff.mp hj
        rw [Text.splitOn_dot hs, segmentHeads_cons (Text.splitOn_ne_nil tail), ih hrest htail,
          List.take_succ_cons, List.map_take]

theorem drop_pathHeads {i : Nat} (h : (pathHeads path)[i]? = some key) : (pathHeads path).drop i = pathHeads key := by
  have hi := (List.getElem?_eq_some_iff.mp h).1
  have hsegments : ∀ s ∈ Text.splitOn '.' path, ∀ c ∈ s.toList, (c == '.') = false :=
    fun s hs => Text.not_dot_of_mem_splitOn hs
  unfold pathHeads at h hi ⊢
  rw [List.length_reverse] at hi
  rw [List.getElem?_reverse hi] at h
  rw [segmentHeads_splitOn hsegments h, List.drop_reverse]
  congr 2
  omega

theorem pathHeads_of_split {longer shorter : List String} (h : pathHeads path = longer ++ key :: shorter) :
    pathHeads key = key :: shorter := by
  have hi : (pathHeads path)[longer.length]? = some key := by
    rw [h, List.getElem?_append_right (Nat.le_refl _), Nat.sub_self]
    rfl
  rw [← drop_pathHeads hi, h, List.drop_left]

theorem getLast?_segmentHeads_cons {s last : String} {rest : List String}
    (h : (segmentHeads rest).getLast? = some last) :
    (segmentHeads (s :: rest)).getLast? = some (s ++ "." ++ last) := by
  have hne : rest ≠ [] := by
    intro hnil
    rw [hnil] at h
    cases h
  rw [segmentHeads_cons hne, List.getLast?_cons, List.getLast?_map, h]
  rfl

theorem getLast?_segmentHeads (cs : List Char) :
    (segmentHeads ((Text.splitChars (· == '.') cs).map String.ofList)).getLast? = some (String.ofList cs) := by
  induction cs with
  | nil => rfl
  | cons c cs ih =>
    rw [Text.splitChars]
    split
    · next hc =>
      rw [List.map_cons, getLast?_segmentHeads_cons ih, eq_of_beq hc]
      simp
    · cases hsplit : Text.splitChars (· == '.') cs with
      | nil => simp [Text.splitChars_eq_splitOnP] at hsplit
      | cons first rest =>
        rw [hsplit, List.map_cons] at ih
        dsimp only
        rw [List.map_cons]
        cases hlast : (segmentHeads (rest.map String.ofList)).getLast? with
        | none =>
          -- The path has one segment.
          have hrest : rest = [] := by
            cases rest with
            | nil => rfl
            | cons second rest => cases rest <;> cases List.getLast?_eq_none_iff.mp hlast
          subst hrest
          have hchars : String.ofList first = String.ofList cs := Option.some.inj ih
          rw [String.ofList_inj.mp hchars]
          rfl
        | some last =>
          rw [getLast?_segmentHeads_cons hlast, Option.some.injEq] at ih ⊢
          have hchars := congrArg String.toList ih
          simp only [String.toList_append, String.toList_ofList] at hchars
          simp [← String.toList_inj, ← hchars]

theorem head?_pathHeads (path : String) : (pathHeads path).head? = some path := by
  rw [pathHeads, List.head?_reverse, Text.splitOn, getLast?_segmentHeads, String.ofList_toList]

theorem mem_pathHeads_self (path : String) : path ∈ pathHeads path :=
  List.mem_of_mem_head? (head?_pathHeads path)

theorem pathHeads_suffix (h : key ∈ pathHeads path) : pathHeads key <:+ pathHeads path := by
  obtain ⟨i, hi⟩ := List.mem_iff_getElem?.mp h
  rw [← drop_pathHeads hi]
  exact List.drop_suffix i _

theorem eq_of_mem_pathHeads {a b : String} (hab : a ∈ pathHeads b) (hba : b ∈ pathHeads a) : a = b := by
  have hlists := (pathHeads_suffix hab).eq_of_length_le (pathHeads_suffix hba).length_le
  have hheads := head?_pathHeads a
  rw [hlists, head?_pathHeads] at hheads
  exact (Option.some.inj hheads).symm

theorem mem_pathHeads_total {a b : String} (ha : a ∈ pathHeads path) (hb : b ∈ pathHeads path) :
    a ∈ pathHeads b ∨ b ∈ pathHeads a :=
  (List.suffix_or_suffix_of_suffix (pathHeads_suffix ha) (pathHeads_suffix hb)).imp
    (fun h => h.subset (mem_pathHeads_self a)) (fun h => h.subset (mem_pathHeads_self b))

/-! ## Paths that extend a path -/

theorem segmentHeads_append {left : List String} (hleft : left ≠ []) (right : List String) :
    segmentHeads left <+: segmentHeads (left ++ right) := by
  induction left with
  | nil => exact absurd rfl hleft
  | cons s left ih =>
    by_cases hnil : left = []
    · subst hnil
      cases right with
      | nil => exact List.prefix_rfl
      | cons t right => exact ⟨_, rfl⟩
    · rw [List.cons_append, segmentHeads_cons hnil, segmentHeads_cons (List.append_ne_nil_of_left_ne_nil hnil _)]
      exact List.cons_prefix_cons.mpr ⟨rfl, (ih hnil).map _⟩

theorem mem_pathHeads_append (path rest : String) : path ∈ pathHeads (path ++ "." ++ rest) := by
  have hself := mem_pathHeads_self path
  rw [pathHeads, List.mem_reverse] at hself ⊢
  rw [Text.splitOn_append]
  exact (segmentHeads_append (Text.splitOn_ne_nil path) _).subset hself

def currentObject : List String := ["this", "self", "$this"]

theorem isPrefixOf_append_dot {word path rest : List Char} (hword : '.' ∉ word) (hne : path ≠ word) :
    (word ++ ['.']).isPrefixOf (path ++ '.' :: rest) = (word ++ ['.']).isPrefixOf path := by
  induction word generalizing path with
  | nil =>
    cases path with
    | nil => exact absurd rfl hne
    | cons c path => rfl
  | cons x word ih =>
    rw [List.mem_cons, not_or] at hword
    cases path with
    | nil =>
      rw [List.cons_append, List.nil_append, List.isPrefixOf_cons_cons,
        beq_false_of_ne fun h => hword.1 h.symm, Bool.false_and]
      rfl
    | cons c path =>
      rw [List.cons_append, List.cons_append, List.isPrefixOf_cons_cons, List.isPrefixOf_cons_cons]
      by_cases hx : x = c
      · subst hx
        rw [ih hword.2 fun h => hne (congrArg (x :: ·) h)]
      · rw [beq_false_of_ne hx, Bool.false_and, Bool.false_and]

theorem dropHead?_append_dot {word : String} (hword : '.' ∉ word.toList) (hne : path ≠ word) (rest : String) :
    Text.dropHead? (word ++ ".") (path ++ "." ++ rest) =
      (Text.dropHead? (word ++ ".") path).map fun key => key ++ "." ++ rest := by
  have hhead : (word ++ ".").toList = word.toList ++ ['.'] := by simp
  have hpath : (path ++ "." ++ rest).toList = path.toList ++ '.' :: rest.toList := by simp
  unfold Text.dropHead?
  rw [hhead, hpath, isPrefixOf_append_dot hword fun h => hne (String.toList_inj.mp h)]
  split
  · next hprefix =>
    have hlength : (word.toList ++ ['.']).length ≤ path.toList.length :=
      (List.isPrefixOf_iff_prefix.mp hprefix).length_le
    rw [List.drop_append_of_le_length hlength, Option.map_some]
    simp [← String.toList_inj]
  · rfl

/-- A path that extends another one has a key that extends its key, unless that one is the current
object. -/
theorem factKey_append (h : path ∉ currentObject) (rest : String) :
    factKey (path ++ "." ++ rest) = factKey path ++ "." ++ rest := by
  have hdrop (word : String) (hword : word ∈ currentObject) (hdot : '.' ∉ word.toList) :=
    dropHead?_append_dot hdot (fun heq : path = word => h (heq ▸ hword)) rest
  have hthis := hdrop "this" (by simp [currentObject]) (by decide)
  have hself := hdrop "self" (by simp [currentObject]) (by decide)
  have hdollar := hdrop "$this" (by simp [currentObject]) (by decide)
  have hwords : ("this" ++ "." = "this.") ∧ ("self" ++ "." = "self.") ∧ ("$this" ++ "." = "$this.") := by decide
  rw [hwords.1] at hthis
  rw [hwords.2.1] at hself
  rw [hwords.2.2] at hdollar
  unfold factKey
  simp only [List.findSome?_cons, List.findSome?_nil, hthis, hself, hdollar]
  cases Text.dropHead? "this." path with
  | some key => rfl
  | none =>
    cases Text.dropHead? "self." path with
    | some key => rfl
    | none =>
      cases Text.dropHead? "$this." path with
      | some key => rfl
      | none => rfl

namespace Site

def known? (s : Site) (facts : Facts) (key : String) : Option Taint :=
  facts[key]? <|> s.inherited.findSome? fun outer => outer[key]? >>= Taint.exported?

theorem lookup?_eq (s : Site) (facts : Facts) (path : String) :
    s.lookup? facts path = (pathHeads (factKey path)).findSome? (s.known? facts) := rfl

/-- What is known of a path is a fact of the path or of a path above it, or an exported one of a scope
around. -/
theorem lookup?_eq_some {s : Site} {facts : Facts} {path : String} {t : Taint}
    (h : s.lookup? facts path = some t) :
    ∃ key ∈ pathHeads (factKey path), facts[key]? = some t ∨
      ∃ outer ∈ s.inherited, ∃ t', outer[key]? = some t' ∧ t'.exported? = some t := by
  rw [lookup?_eq] at h
  obtain ⟨key, hkey, hknown⟩ := List.exists_of_findSome?_eq_some h
  refine ⟨key, hkey, ?_⟩
  unfold known? at hknown
  cases hfact : facts[key]? with
  | some own =>
    rw [hfact] at hknown
    exact Or.inl hknown
  | none =>
    rw [hfact] at hknown
    obtain ⟨outer, houter, hexported⟩ := List.exists_of_findSome?_eq_some hknown
    obtain ⟨t', ht', hexported⟩ := Option.bind_eq_some_iff.mp hexported
    exact Or.inr ⟨outer, houter, t', ht', hexported⟩

theorem known?_insert_self (s : Site) (facts : Facts) (key : String) (t : Taint) :
    s.known? (facts.insert key t) key = some t := by
  simp [known?]

theorem known?_insert_of_ne (s : Site) (facts : Facts) {key other : String} (t : Taint)
    (h : key ≠ other) : s.known? (facts.insert key t) other = s.known? facts other := by
  simp [known?, Std.HashMap.getElem?_insert, h]

theorem findSome?_congr {α β : Type} {f g : α → Option β} {l : List α} (h : ∀ a ∈ l, f a = g a) :
    l.findSome? f = l.findSome? g := by
  induction l with
  | nil => rfl
  | cons a l ih =>
    obtain ⟨ha, hl⟩ := List.forall_mem_cons.mp h
    rw [List.findSome?_cons, List.findSome?_cons, ha, ih hl]

theorem lookup?_congr {s : Site} {facts facts' : Facts} {path : String}
    (h : ∀ key ∈ pathHeads (factKey path), facts'[key]? = facts[key]?) :
    s.lookup? facts' path = s.lookup? facts path := by
  rw [lookup?_eq, lookup?_eq]
  refine findSome?_congr fun key hkey => ?_
  rw [known?, known?, h key hkey]

/-- A fact that is written to a path is seen by the paths below it for which nothing closer is known;
these saw before what the path itself saw. -/
theorem lookup?_insert (s : Site) (facts : Facts) (key : String) (t : Taint) (path : String) :
    s.lookup? (facts.insert key t) path = s.lookup? facts path ∨
      (s.lookup? (facts.insert key t) path = some t ∧
        s.lookup? facts path = (pathHeads key).findSome? (s.known? facts)) := by
  have hsame {keys : List String} (h : key ∉ keys) :
      keys.findSome? (s.known? (facts.insert key t)) = keys.findSome? (s.known? facts) :=
    findSome?_congr fun other hother => s.known?_insert_of_ne facts t fun heq => h (heq ▸ hother)
  rw [lookup?_eq, lookup?_eq]
  by_cases hmem : key ∈ pathHeads (factKey path)
  · obtain ⟨longer, shorter, hsplit, hfresh⟩ := List.eq_append_cons_of_mem hmem
    rw [hsplit, List.findSome?_append, List.findSome?_append, hsame hfresh, ← pathHeads_of_split hsplit]
    cases hlonger : longer.findSome? (s.known? facts) with
    | some found => exact Or.inl rfl
    | none =>
      refine Or.inr ⟨?_, rfl⟩
      rw [pathHeads_of_split hsplit, List.findSome?_cons, known?_insert_self]
      rfl
  · exact Or.inl (hsame hmem)

end Site
end TaintScan
