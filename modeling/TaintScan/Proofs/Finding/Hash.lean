import Mathlib.Data.List.Forall2
import TaintScan.Finding.Basic
import TaintScan.Proofs.Lines
import TaintScan.Proofs.Text.Trim
import TaintScan.Proofs.Token.Literal

/-! # What the hashes of a finding identify

The fingerprint is taken of the lines of a snippet without the blanks around them and without the
empty lines at either end. So it does not change with the layout of the snippet, and the rule, the
unit and these lines can be told from the bytes that are hashed.
-/
namespace TaintScan

namespace Text

variable {cs : List Char} {ls : List (List Char)}

/-! ## Trimming line by line -/

theorem dropWhile_intercalate (h : ∀ l ∈ ls, ∀ c ∈ l.head?, isBlank c = false) :
    (['\n'].intercalate ls).dropWhile isBlank = ['\n'].intercalate (ls.dropWhile List.isEmpty) := by
  induction ls with
  | nil => rfl
  | cons l rest ih =>
    obtain ⟨hl, hrest⟩ := List.forall_mem_cons.mp h
    cases l with
    | nil =>
      rw [List.dropWhile_cons_of_pos rfl, ← ih hrest]
      cases rest <;> rfl
    | cons c l =>
      rw [List.dropWhile_cons_of_neg (by simp), List.intercalate_cons_cons_left,
        List.dropWhile_cons_of_neg (by simp [hl c rfl])]

theorem intercalate_concat {sep l : List Char} (h : ls ≠ []) :
    sep.intercalate (ls ++ [l]) = sep.intercalate ls ++ sep ++ l := by
  induction ls with
  | nil => exact absurd rfl h
  | cons l' rest ih =>
    cases rest with
    | nil => simp
    | cons l'' rest => simpa using ih

theorem reverse_intercalate (ls : List (List Char)) :
    (['\n'].intercalate ls).reverse = ['\n'].intercalate (ls.reverse.map List.reverse) := by
  induction ls with
  | nil => rfl
  | cons l rest ih =>
    by_cases hrest : rest = []
    · simp [hrest]
    · rw [List.intercalate_cons_of_ne_nil hrest, List.reverse_cons, List.map_append, List.map_singleton,
        intercalate_concat (by simpa using hrest), ← ih]
      simp

theorem trimBy_intercalate (h : ∀ l ∈ ls, Trimmed isBlank l) :
    trimBy isBlank (['\n'].intercalate ls) = ['\n'].intercalate (trimBy List.isEmpty ls) := by
  have hback : ∀ l ∈ (ls.dropWhile List.isEmpty).reverse.map List.reverse, ∀ c ∈ l.head?, isBlank c = false := by
    intro l hl
    obtain ⟨l', hl', rfl⟩ := List.mem_map.mp hl
    rw [List.head?_reverse]
    exact (h l' ((List.dropWhile_sublist _).subset (List.mem_reverse.mp hl'))).last
  have hempty : List.isEmpty ∘ List.reverse = (List.isEmpty : List Char → Bool) := by
    funext l
    simp
  rw [trimBy, dropWhile_intercalate fun l hl => (h l hl).head, reverse_intercalate, dropWhile_intercalate hback,
    reverse_intercalate, List.dropWhile_map, hempty, trimBy, ← List.map_reverse, List.map_map]
  simp

theorem blank_return : ∀ c ∈ ['\r'], isBlank c = true := forall_mem_of_all (by decide)

theorem trimChars_dropReturn (cs : List Char) : trimChars (dropReturn cs) = trimChars cs := by
  unfold dropReturn
  split
  · next hlast =>
    obtain ⟨init, rfl⟩ := List.getLast?_eq_some_iff.mp (eq_of_beq hlast)
    rw [List.dropLast_concat]
    exact (trimBy_append blank_return init).symm
  · rfl

/-- A change of the text that goes through it line by line, and changes no line but for the blanks around it. -/
structure KeepsLines (f line : List Char → List Char) : Prop where
  last {l : List Char} (h : '\n' ∉ l) : f l = l
  next {l : List Char} (h : '\n' ∉ l) (rest : List Char) : f (l ++ '\n' :: rest) = line l ++ '\n' :: f rest
  line {l : List Char} (h : '\n' ∉ l) : '\n' ∉ line l ∧ trimChars (line l) = trimChars l

theorem not_mem_of_mem_splitOn {l : List Char} (h : l ∈ cs.splitOn '\n') : '\n' ∉ l :=
  fun hmem => absurd (not_of_mem_splitOnP h '\n' hmem) (by decide)

theorem KeepsLines.map_trim {f line : List Char → List Char} (hf : KeepsLines f line) (cs : List Char) :
    ((f cs).splitOn '\n').map trimChars = (cs.splitOn '\n').map trimChars := by
  have hparts {ls : List (List Char)} (hlines : ∀ l ∈ ls, '\n' ∉ l) (hne : ls ≠ []) :
      ((f (['\n'].intercalate ls)).splitOn '\n').map trimChars = ls.map trimChars := by
    induction ls with
    | nil => exact absurd rfl hne
    | cons l rest ih =>
      obtain ⟨hl, hrest⟩ := List.forall_mem_cons.mp hlines
      cases rest with
      | nil => rw [List.intercalate_singleton, hf.last hl, List.splitOn_eq_singleton hl]
      | cons l' rest =>
        rw [List.intercalate_cons_cons, List.append_assoc, List.singleton_append, hf.next hl,
          List.splitOn_append_cons_self_of_not_mem (hf.line hl).1, List.map_cons, ih hrest (List.cons_ne_nil _ _),
          (hf.line hl).2]
        rfl
  have hcs := hparts (fun l => not_mem_of_mem_splitOn) (List.splitOn_ne_nil '\n' cs)
  rwa [List.intercalate_splitOn] at hcs

theorem replaceChars_return (c : Char) (cs : List Char) :
    replaceChars ['\r', '\n'] ['\n'] 0 (c :: cs) =
      if c = '\r' ∧ cs.head? = some '\n' then replaceChars ['\r', '\n'] ['\n'] 0 cs
      else c :: replaceChars ['\r', '\n'] ['\n'] 0 cs := by
  split
  · next h =>
    obtain ⟨rfl, hcs⟩ := h
    obtain ⟨rest, rfl⟩ := List.head?_eq_some_iff.mp hcs
    rfl
  · next h =>
    have hnot : ['\r', '\n'].isPrefixOf (c :: cs) = false := by
      refine Bool.eq_false_iff.mpr fun hprefix => ?_
      obtain ⟨rest, hrest⟩ := List.isPrefixOf_iff_prefix.mp hprefix
      cases hrest
      exact h ⟨rfl, rfl⟩
    rw [replaceChars, hnot]
    rfl

theorem keepsLines_fold : KeepsLines (replaceChars ['\r', '\n'] ['\n'] 0) dropReturn where
  last {l} h := by
    induction l with
    | nil => rfl
    | cons c l ih =>
      obtain ⟨-, hl⟩ := List.ne_and_not_mem_of_not_mem_cons h
      rw [replaceChars_return, if_neg fun hc => hl (List.mem_of_head? hc.2), ih hl]
  next {l} h rest := by
    induction l with
    | nil => rfl
    | cons c l ih =>
      obtain ⟨-, hl⟩ := List.ne_and_not_mem_of_not_mem_cons h
      rw [List.cons_append, replaceChars_return, ih hl]
      cases l with
      | nil => by_cases hc : c = '\r' <;> simp [dropReturn, hc]
      | cons d l =>
        have hd : d ≠ '\n' := fun hd => hl (hd ▸ List.mem_cons_self)
        have hdrop : dropReturn (c :: d :: l) = c :: dropReturn (d :: l) := by
          rw [dropReturn, dropReturn, List.getLast?_cons_cons]
          split <;> rfl
        simp [hd, hdrop]
  line {l} h := by
    refine ⟨fun hmem => h ?_, trimChars_dropReturn l⟩
    unfold dropReturn at hmem
    split at hmem
    · exact List.dropLast_subset l hmem
    · exact hmem

theorem keepsLines_unfold : KeepsLines (replaceChars ['\n'] ['\r', '\n'] 0) (· ++ ['\r']) where
  last {l} h := by
    induction l with
    | nil => rfl
    | cons c l ih =>
      obtain ⟨hc, hl⟩ := List.ne_and_not_mem_of_not_mem_cons h
      simp [replaceChars, hc, ih hl]
  next {l} h rest := by
    induction l with
    | nil => rfl
    | cons c l ih =>
      obtain ⟨hc, hl⟩ := List.ne_and_not_mem_of_not_mem_cons h
      simp [replaceChars, hc, ih hl]
  line {l} h := ⟨by simpa using h, trimBy_append blank_return l⟩

theorem map_trimChars_closeLines {parts : List (List Char)} (h : parts ≠ []) :
    ∃ empty, (∀ l ∈ empty, l.isEmpty = true) ∧
      parts.map trimChars = (closeLines parts).map trimChars ++ empty := by
  fun_induction closeLines parts with
  | case1 => exact absurd rfl h
  | case2 last hlast => exact ⟨[[]], by simp, by rw [List.isEmpty_iff.mp hlast]; rfl⟩
  | case3 last hlast => exact ⟨[], by simp, by simp⟩
  | case4 line rest hrest ih =>
    obtain ⟨empty, hempty, hmap⟩ := ih hrest
    exact ⟨empty, hempty, by rw [List.map_cons, hmap, List.map_cons, trimChars_dropReturn, List.cons_append]⟩

/-- The lines of a text without the blanks around them, and without the empty lines at either end. -/
def bodyLines (s : String) : List (List Char) := trimBy List.isEmpty ((s.toList.splitOn '\n').map trimChars)

theorem mem_bodyLines {s : String} {l : List Char} (h : l ∈ bodyLines s) : Trimmed isBlank l ∧ '\n' ∉ l := by
  obtain ⟨part, hpart, rfl⟩ := List.mem_map.mp (mem_of_mem_trimBy h)
  exact ⟨trimmed_trimBy _ _, fun hmem => not_mem_of_mem_splitOn hpart (mem_of_mem_trimBy hmem)⟩

end Text

open Text

theorem toList_normalSnippet (snippet : String) :
    (normalSnippet snippet).toList = ['\n'].intercalate (bodyLines snippet) := by
  have htrimmed : ∀ l ∈ (lineChars (replaceChars ['\r', '\n'] ['\n'] 0 snippet.toList)).map trimChars,
      Trimmed isBlank l := by
    intro l hl
    obtain ⟨l, -, rfl⟩ := List.mem_map.mp hl
    exact trimmed_trimBy isBlank l
  have hchars : (normalSnippet snippet).toList = trimChars (['\n'].intercalate
      ((lineChars (replaceChars ['\r', '\n'] ['\n'] 0 snippet.toList)).map trimChars)) := by
    have hline : (String.toList ∘ trim) ∘ String.ofList = trimChars := by
      funext l
      rw [Function.comp_apply, Function.comp_apply, trim, String.toList_ofList, String.toList_ofList]
    rw [normalSnippet, trim, String.toList_ofList, joinWith, String.toList_intercalate, lines, List.map_map,
      List.map_map, hline, replace, show "\n".toList = ['\n'] from rfl, show "\r\n".toList = ['\r', '\n'] from rfl,
      String.toList_ofList]
  obtain ⟨empty, hempty, hmap⟩ := map_trimChars_closeLines
    (List.splitOn_ne_nil '\n' (replaceChars ['\r', '\n'] ['\n'] 0 snippet.toList))
  rw [hchars, trimChars_eq_trimBy, trimBy_intercalate htrimmed, bodyLines, ← keepsLines_fold.map_trim, hmap, lineChars,
    splitChars_eq_splitOnP, ← List.splitOn_eq_splitOnP]
  exact (congrArg _ (trimBy_append hempty _)).symm

theorem bodyLines_normalSnippet (snippet : String) : bodyLines (normalSnippet snippet) = bodyLines snippet := by
  rw [bodyLines, toList_normalSnippet]
  by_cases hnil : bodyLines snippet = []
  · rw [hnil]
    rfl
  have hmap : (bodyLines snippet).map trimChars = bodyLines snippet :=
    (List.map_congr_left fun l hl => (mem_bodyLines hl).1.trimBy_eq).trans (List.map_id _)
  rw [List.splitOn_intercalate '\n' (fun l hl => (mem_bodyLines hl).2) hnil, hmap]
  exact (trimmed_trimBy _ _).trimBy_eq

theorem normalSnippet_eq_iff {a b : String} : normalSnippet a = normalSnippet b ↔ bodyLines a = bodyLines b := by
  constructor
  · intro h
    rw [← bodyLines_normalSnippet, h, bodyLines_normalSnippet]
  · intro h
    rw [← String.toList_inj, toList_normalSnippet, toList_normalSnippet, h]

/-! ## Lines of a snippet -/

/-- A line with blanks around it. -/
def PaddedLine (padded line : String) : Prop :=
  '\n' ∉ padded.toList ∧ ∃ pre post, (∀ c ∈ pre ++ post, isBlank c = true) ∧
    padded.toList = pre ++ (line.toList ++ post)

theorem bodyLines_joinWith {ls : List String} (h : ∀ l ∈ ls, '\n' ∉ l.toList) :
    bodyLines (joinWith "\n" ls) = trimBy List.isEmpty (ls.map fun l => trimChars l.toList) := by
  by_cases hnil : ls = []
  · rw [hnil]
    rfl
  have hlines : ∀ l ∈ ls.map String.toList, '\n' ∉ l := by simpa using h
  rw [bodyLines, joinWith, String.toList_intercalate, show "\n".toList = ['\n'] from rfl,
    List.splitOn_intercalate '\n' hlines (by simpa using hnil), List.map_map]
  rfl

theorem normalSnippet_padded {ls ms : List String} (h : List.Forall₂ PaddedLine ls ms) :
    normalSnippet (joinWith "\n" ls) = normalSnippet (joinWith "\n" ms) := by
  have hlines : (∀ l ∈ ls, '\n' ∉ l.toList) ∧ (∀ l ∈ ms, '\n' ∉ l.toList) ∧
      ls.map (fun l => trimChars l.toList) = ms.map fun l => trimChars l.toList := by
    induction h with
    | nil => simp
    | @cons l m ls ms hline h ih =>
      obtain ⟨hl, pre, post, hblank, hchars⟩ := hline
      obtain ⟨hls, hms, hmap⟩ := ih
      have hm : '\n' ∉ m.toList := fun hmem => hl (by simp [hchars, hmem])
      rw [List.forall_mem_append] at hblank
      refine ⟨List.forall_mem_cons.mpr ⟨hl, hls⟩, List.forall_mem_cons.mpr ⟨hm, hms⟩, ?_⟩
      rw [List.map_cons, List.map_cons, hmap, hchars]
      exact congrArg (· :: _) (trimBy_padded hblank.1 hblank.2 m.toList)
  rw [normalSnippet_eq_iff, bodyLines_joinWith hlines.1, bodyLines_joinWith hlines.2.1, hlines.2.2]

theorem normalSnippet_blank_ends {above ls below : List String}
    (h : ∀ l ∈ above ++ (ls ++ below), '\n' ∉ l.toList) (hblank : ∀ l ∈ above ++ below, isBlankText l = true) :
    normalSnippet (joinWith "\n" (above ++ (ls ++ below))) = normalSnippet (joinWith "\n" ls) := by
  have hempty (blank : List String) (h : ∀ l ∈ blank, isBlankText l = true) :
      ∀ l ∈ blank.map fun l => trimChars l.toList, l.isEmpty = true := by
    intro l hl
    obtain ⟨s, hs, rfl⟩ := List.mem_map.mp hl
    have hall : ∀ c ∈ s.toList, isBlank c = true := List.all_eq_true.mp (h s hs)
    rw [trimChars_eq_trimBy, ← List.append_nil s.toList, ← List.nil_append [],
      trimBy_padded hall (List.forall_mem_nil _)]
    rfl
  have hls : ∀ l ∈ ls, '\n' ∉ l.toList := fun l hl => h l (by simp [hl])
  rw [List.forall_mem_append] at hblank
  rw [normalSnippet_eq_iff, bodyLines_joinWith h, bodyLines_joinWith hls, List.map_append, List.map_append,
    trimBy_padded (hempty _ hblank.1) (hempty _ hblank.2)]

theorem normalSnippet_unfold (snippet : String) :
    normalSnippet (replace snippet "\n" "\r\n") = normalSnippet snippet := by
  rw [normalSnippet_eq_iff, bodyLines, replace, String.toList_ofList]
  exact congrArg _ (keepsLines_unfold.map_trim snippet.toList)

namespace Finding

/-! ## The bytes that are hashed -/

theorem append_zero_inj {a a' x x' : List UInt8} (ha : 0 ∉ a) (ha' : 0 ∉ a') (h : a ++ 0 :: x = a' ++ 0 :: x') :
    a = a' ∧ x = x' := by
  have hsplit := congrArg (List.splitOn 0) h
  rw [List.splitOn_append_cons_self_of_not_mem ha, List.splitOn_append_cons_self_of_not_mem ha'] at hsplit
  obtain rfl := (List.cons.inj hsplit).1
  exact ⟨rfl, (List.cons.inj (List.append_cancel_left h)).2⟩

theorem fingerprintBytes_inj {r r' u u' s s' : String} (hr : 0 ∉ Utf8.encode r) (hr' : 0 ∉ Utf8.encode r')
    (hu : 0 ∉ Utf8.encode u) (hu' : 0 ∉ Utf8.encode u') :
    fingerprintBytes r u s = fingerprintBytes r' u' s' ↔ r = r' ∧ u = u' ∧ normalSnippet s = normalSnippet s' := by
  have hencode {a b : String} (h : Utf8.encode a = Utf8.encode b) : a = b :=
    Option.some.inj ((Utf8.decode?_eq_some_iff.mpr h).symm.trans (Utf8.decode?_eq_some_iff.mpr rfl))
  constructor
  · intro h
    rw [fingerprintBytes, fingerprintBytes, List.append_assoc, List.append_assoc] at h
    obtain ⟨hrule, h⟩ := append_zero_inj hr hr' h
    obtain ⟨hunit, h⟩ := append_zero_inj hu hu' h
    exact ⟨hencode hrule, hencode hunit, hencode h⟩
  · rintro ⟨rfl, rfl, h⟩
    rw [fingerprintBytes, fingerprintBytes, h]

theorem mod_of_bigEndian {width n m : Nat} (h : Digest.bigEndian width n = Digest.bigEndian width m) :
    n % Nat.pow 256 width = m % Nat.pow 256 width := by
  induction width with
  | zero => exact (Nat.mod_one n).trans (Nat.mod_one m).symm
  | succ width ih =>
    obtain ⟨hfirst, hrest⟩ := List.cons.inj h
    have hdigit (k : Nat) : (k % 256).toUInt8.toNat = k % 256 := Nat.mod_mod k 256
    have hfirst := congrArg UInt8.toNat hfirst
    rw [hdigit, hdigit] at hfirst
    have hsplit (k : Nat) : k % Nat.pow 256 (width + 1) =
        k % Nat.pow 256 width + Nat.pow 256 width * (k / Nat.pow 256 width % 256) := Nat.mod_pow_succ
    rw [hsplit, hsplit, ih hrest, hfirst]

def offsets (l : Location) : Nat × Nat := (l.startOffset, l.stopOffset)

def WordOffsets (path : List Location) : Prop :=
  ∀ l ∈ path, l.startOffset < UInt32.size ∧ l.stopOffset < UInt32.size

theorem pathBytes_inj {p q : List Location} (hp : WordOffsets p) (hq : WordOffsets q) :
    pathBytes p = pathBytes q ↔ p.map offsets = q.map offsets := by
  constructor
  · intro h
    induction p generalizing q with
    | nil =>
      cases q with
      | nil => rfl
      | cons l q => cases h
    | cons l p ih =>
      cases q with
      | nil => cases h
      | cons l' q =>
        obtain ⟨hl, hp⟩ := List.forall_mem_cons.mp hp
        obtain ⟨hl', hq⟩ := List.forall_mem_cons.mp hq
        obtain ⟨hfirst, hrest⟩ := List.append_inj h rfl
        obtain ⟨hstart, hstop⟩ := List.append_inj hfirst rfl
        have hstart : _ % UInt32.size = _ % UInt32.size := mod_of_bigEndian (List.reverse_inj.mp hstart)
        have hstop : _ % UInt32.size = _ % UInt32.size := mod_of_bigEndian (List.reverse_inj.mp hstop)
        rw [Nat.mod_eq_of_lt hl.1, Nat.mod_eq_of_lt hl'.1] at hstart
        rw [Nat.mod_eq_of_lt hl.2, Nat.mod_eq_of_lt hl'.2] at hstop
        rw [List.map_cons, List.map_cons, ih hp hq hrest, offsets, offsets, hstart, hstop]
  · have hbytes (p : List Location) :
        pathBytes p = (p.map offsets).flatMap fun o => offsetBytes o.1 ++ offsetBytes o.2 := by
      rw [List.flatMap_map]
      rfl
    intro h
    rw [hbytes, hbytes, h]

/-- What the hashes of a finding identify. The normal form of a snippet is normal; it stands for the lines without the
blanks around them and without empty lines at either end, so it does not change with blanks around lines, with blank
lines at either end or with the kind of line ends. The bytes of a fingerprint determine the rule, the unit and the
normal form, unless an identifier holds a zero; the bytes of a path hash determine the offsets of the path. -/
theorem hash_inputs_identify :
    (∀ s, normalSnippet (normalSnippet s) = normalSnippet s) ∧
    (∀ s t, normalSnippet s = normalSnippet t ↔ bodyLines s = bodyLines t) ∧
    (∀ ls ms, List.Forall₂ PaddedLine ls ms → normalSnippet (joinWith "\n" ls) = normalSnippet (joinWith "\n" ms)) ∧
    (∀ above ls below, (∀ l ∈ above ++ (ls ++ below), '\n' ∉ l.toList) →
      (∀ l ∈ above ++ below, isBlankText l = true) →
      normalSnippet (joinWith "\n" (above ++ (ls ++ below))) = normalSnippet (joinWith "\n" ls)) ∧
    (∀ s, normalSnippet (replace s "\n" "\r\n") = normalSnippet s) ∧
    (∀ r r' u u' s s', 0 ∉ Utf8.encode r → 0 ∉ Utf8.encode r' → 0 ∉ Utf8.encode u → 0 ∉ Utf8.encode u' →
      (fingerprintBytes r u s = fingerprintBytes r' u' s' ↔ r = r' ∧ u = u' ∧ normalSnippet s = normalSnippet s')) ∧
    (∀ p q, WordOffsets p → WordOffsets q → (pathBytes p = pathBytes q ↔ p.map offsets = q.map offsets)) ∧
    (∀ r u s, fingerprintOf r u s = Digest.hex (Digest.sha256 (fingerprintBytes r u s))) ∧
    ∀ p, pathHashOf p = Digest.hex (Digest.sha256 (pathBytes p)) := by
  refine ⟨fun s => normalSnippet_eq_iff.mpr (bodyLines_normalSnippet s), fun s t => normalSnippet_eq_iff,
    fun ls ms => normalSnippet_padded, fun above ls below => normalSnippet_blank_ends, normalSnippet_unfold, ?_, ?_,
    fun r u s => rfl, fun p => rfl⟩
  · intro r r' u u' s s'
    exact fingerprintBytes_inj
  · intro p q
    exact pathBytes_inj

theorem hash_inputs_identify_indented :
    normalSnippet (joinWith "\n" ["  f();\r", "\tg();"]) = normalSnippet (joinWith "\n" ["f();", "g();"]) ∧
      fingerprintBytes "R1" "a.py" "f();" ≠ fingerprintBytes "R1" "a.py" "f ();" ∧
      pathBytes [⟨0, 4, 1, 1, 1, 5⟩] ≠ pathBytes [⟨0, 5, 1, 1, 1, 6⟩] := by
  obtain ⟨_, _, hpadded, _, _, hfingerprint, hpath, _⟩ := hash_inputs_identify
  refine ⟨hpadded _ _ (.cons ⟨by decide, [' ', ' '], ['\r'], ?_, by decide⟩
    (.cons ⟨by decide, ['\t'], [], ?_, by decide⟩ .nil)), fun h => ?_, fun h => ?_⟩
  · exact forall_mem_of_all (by decide)
  · exact forall_mem_of_all (by decide)
  · have hsame := ((hfingerprint _ _ _ _ _ _ (by decide) (by decide) (by decide) (by decide)).mp h).2.2
    exact absurd hsame (by decide +kernel)
  · have hsame := (hpath _ _ (by simp [WordOffsets, UInt32.size]) (by simp [WordOffsets, UInt32.size])).mp h
    exact absurd hsame (by decide)

end Finding
end TaintScan
