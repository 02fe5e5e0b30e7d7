import Mathlib
import TaintScan.Proofs.Rule.Evidence

/-! # Names that stand for secrets

A name is cut into words where the letter case changes, and one word or two words side by side are
looked up. So a listed name is found whatever the case of its letters, as long as its spelling is cut
into one word or two.
-/
namespace TaintScan

/-! ## How many words a spelling has -/

/-- The number of words in a name of letters: one starts at the first letter and at each capital that has a small
letter at its side. -/
def wordCount : List Char → Nat
  | [] => 0
  | [_] => 1
  | p :: c :: rest => wordCount (c :: rest) + if c.isUpper && (p.isLower || rest.head?.any Char.isLower) then 1 else 0

theorem startsWord_of_letter {p : Char} (hp : p.isAlpha = true) (c : Char) (next : Option Char) :
    startsWord (some p) c next = (c.isUpper && (p.isLower || next.any Char.isLower)) := by
  rw [startsWord, Option.any_some]
  rcases Bool.or_eq_true_iff.mp hp with hp | hp
  · have hdigit : p.isDigit = false := by
      simp [Char.isUpper, Char.isDigit, UInt32.le_iff_toNat_le] at hp ⊢
      omega
    simp [hp, hdigit]
  · simp [hp]

theorem startsWord_of_separator {prev : Option Char} (hprev : ∀ p ∈ prev, p.isAlphanum = false) (c : Char)
    (next : Option Char) : startsWord prev c next = false := by
  cases prev with
  | none => simp [startsWord]
  | some p =>
    have hp := hprev p rfl
    simp only [Char.isAlphanum, Char.isAlpha, Bool.or_eq_false_iff] at hp
    simp [startsWord, hp]

/-- The words are not empty, there are `n` of them, and joined they are the given letters. -/
structure IsCut (words : List String) (letters : List Char) (n : Nat) : Prop where
  joined : words.flatMap String.toList = letters
  count : words.length = n
  filled : ∀ w ∈ words, w.toList ≠ []

theorem isCut_nil : IsCut [] [] 0 := ⟨rfl, rfl, by simp⟩

theorem IsCut.cons {words : List String} {letters current : List Char} {n : Nat} (h : IsCut words letters n)
    (hcurrent : current ≠ []) : IsCut (closeWord current ++ words) (current.reverse ++ letters) (n + 1) := by
  have hclose : closeWord current = [String.ofList current.reverse] := by simp [closeWord, hcurrent]
  rw [hclose]
  constructor
  · simp [h.joined]
  · simp [h.count]
  · simpa [hcurrent] using h.filled

/-- Behind a letter, the letters are cut at the capitals that `wordCount` counts. -/
theorem wordsFrom_isCut {p : Char} {current cs : List Char} (hp : p.isAlpha = true) (hcurrent : current ≠ [])
    (hcs : ∀ c ∈ cs, c.isAlpha = true) :
    IsCut (wordsFrom (some p) current cs) (current.reverse ++ cs.map Char.toLower) (wordCount (p :: cs)) := by
  induction cs generalizing p current with
  | nil => simpa [wordsFrom, wordCount] using isCut_nil.cons hcurrent
  | cons c rest ih =>
    obtain ⟨hc, hrest⟩ := List.forall_mem_cons.mp hcs
    have halnum : c.isAlphanum = true := by simp [Char.isAlphanum, hc]
    rw [wordsFrom, wordCount, startsWord_of_letter hp]
    simp only [halnum, Bool.not_true, Bool.false_eq_true, if_false]
    split
    · exact (ih hc (List.cons_ne_nil c.toLower []) hrest).cons hcurrent
    · simpa using ih hc (List.cons_ne_nil c.toLower current) hrest

theorem wordsFrom_isCut_of_separator {prev : Option Char} {cs : List Char} (hprev : ∀ p ∈ prev, p.isAlphanum = false)
    (hcs : ∀ c ∈ cs, c.isAlpha = true) : IsCut (wordsFrom prev [] cs) (cs.map Char.toLower) (wordCount cs) := by
  cases cs with
  | nil => exact isCut_nil
  | cons c rest =>
    obtain ⟨hc, hrest⟩ := List.forall_mem_cons.mp hcs
    have halnum : c.isAlphanum = true := by simp [Char.isAlphanum, hc]
    rw [wordsFrom, startsWord_of_separator hprev]
    simpa [halnum] using wordsFrom_isCut hc (List.cons_ne_nil c.toLower []) hrest

theorem wordsFrom_separators {prev : Option Char} {before : List Char} (hprev : ∀ p ∈ prev, p.isAlphanum = false)
    (hbefore : ∀ c ∈ before, c.isAlphanum = false) (cs : List Char) :
    ∃ last : Option Char, (∀ p ∈ last, p.isAlphanum = false) ∧ wordsFrom prev [] (before ++ cs) = wordsFrom last [] cs := by
  induction before generalizing prev with
  | nil => exact ⟨prev, hprev, rfl⟩
  | cons c before ih =>
    obtain ⟨hc, hbefore⟩ := List.forall_mem_cons.mp hbefore
    have hsome : ∀ p ∈ some c, p.isAlphanum = false := by simpa using hc
    simpa [wordsFrom, hc, closeWord] using ih hsome hbefore

/-- The last segment of a dotted name, without the signs that mark a variable. -/
def bareName (target : String) : String :=
  String.ofList ((Text.afterLast '.' target).toList.dropWhile fun c => c == '$' || c == '@')

theorem nameWords_isCut {target : String} (h : ∀ c ∈ (bareName target).toList, c.isAlpha = true) :
    IsCut (nameWords target) ((bareName target).toList.map Char.toLower) (wordCount (bareName target).toList) := by
  have hsigils : ∀ c ∈ (Text.afterLast '.' target).toList.takeWhile (fun c => c == '$' || c == '@'),
      c.isAlphanum = false := by
    intro c hc
    have hsign := List.mem_takeWhile_imp hc
    simp only [Bool.or_eq_true, beq_iff_eq] at hsign
    rcases hsign with rfl | rfl
    all_goals decide
  have hnone : ∀ p ∈ (none : Option Char), p.isAlphanum = false := by simp
  obtain ⟨last, hlast, hwords⟩ := wordsFrom_separators hnone hsigils (bareName target).toList
  have hparts : (Text.afterLast '.' target).toList =
      (Text.afterLast '.' target).toList.takeWhile (fun c => c == '$' || c == '@') ++ (bareName target).toList := by
    rw [bareName, String.toList_ofList, List.takeWhile_append_dropWhile]
  rw [nameWords, hparts, hwords]
  exact wordsFrom_isCut_of_separator hlast h

/-! ## Which spellings are found -/

theorem exists_part_of_mem {words : List String} {w : String} (h : w ∈ words ++ adjacentPairs words) :
    ∃ before part after, words = before ++ part ++ after ∧ part.length ≤ 2 ∧ w.toList = part.flatMap String.toList := by
  rcases List.mem_append.mp h with h | h
  · obtain ⟨before, after, hparts⟩ := List.append_of_mem h
    exact ⟨before, [w], after, by simpa using hparts, by simp, by simp⟩
  · fun_induction adjacentPairs words with
    | case1 a b rest ih =>
      rcases List.mem_cons.mp h with rfl | h
      · exact ⟨[], [a, b], rest, rfl, Nat.le_refl 2, by simp⟩
      · obtain ⟨before, part, after, hparts, hpart, hw⟩ := ih (List.mem_append_right _ h) h
        exact ⟨a :: before, part, after, by rw [hparts]; rfl, hpart, hw⟩
    | case2 => cases h

namespace IsCut

variable {words : List String} {letters : List Char} {n : Nat}

theorem length_lt {before part after : List String} (h : IsCut words letters n)
    (hparts : words = before ++ part ++ after) (hpart : part.length < n) :
    (part.flatMap String.toList).length < letters.length := by
  have hout : before ++ after ≠ [] := by
    intro hnil
    obtain ⟨rfl, rfl⟩ := List.append_eq_nil_iff.mp hnil
    rw [← h.count, hparts] at hpart
    simp at hpart
  obtain ⟨w, hw⟩ := List.exists_mem_of_ne_nil _ hout
  have hmem : w ∈ words := by
    rw [hparts]
    simp only [List.mem_append] at hw ⊢
    tauto
  have hpos : 0 < ((before ++ after).flatMap String.toList).length := by
    rw [List.length_pos_iff]
    intro hnil
    exact h.filled w hmem (List.flatMap_eq_nil_iff.mp hnil w hw)
  have hlength := congrArg List.length h.joined
  rw [hparts] at hlength
  simp only [List.flatMap_append, List.length_append] at hlength hpos
  omega

theorem exists_whole (h : IsCut words letters n) (hn : n ∈ [1, 2]) :
    ∃ w ∈ words ++ adjacentPairs words, w.toList = letters := by
  obtain ⟨rfl, rfl, -⟩ := h
  simp only [List.mem_cons, List.not_mem_nil, or_false] at hn
  rcases hn with hn | hn
  · obtain ⟨w, rfl⟩ := List.length_eq_one_iff.mp hn
    exact ⟨w, by simp, by simp⟩
  · obtain ⟨a, b, rfl⟩ := List.length_eq_two.mp hn
    exact ⟨a ++ b, by simp [adjacentPairs], by simp⟩

end IsCut

variable {target name : String} {names : List String} {letters : List Char} {n : Nat}

theorem isSecretName_iff : isSecretName target names = true ↔
    ∃ w ∈ nameWords target ++ adjacentPairs (nameWords target), ∃ name ∈ names, Text.eqIgnoreCase name w = true := by
  simp only [isSecretName, List.any_eq_true]

theorem eqIgnoreCase_iff {a b : String} :
    Text.eqIgnoreCase a b = true ↔ a.toList.map Char.toLower = b.toList.map Char.toLower := beq_iff_eq

theorem length_of_eqIgnoreCase {a b : String} (h : Text.eqIgnoreCase a b = true) : a.length = b.length := by
  have hlength := congrArg List.length (eqIgnoreCase_iff.mp h)
  rwa [List.length_map, List.length_map, String.length_toList, String.length_toList] at hlength

theorem isSecretName_of_isCut (hcut : IsCut (nameWords target) ((bareName target).toList.map Char.toLower) n)
    (hn : n ∈ [1, 2]) (hname : name ∈ names) (hspelled : Text.eqIgnoreCase (bareName target) name = true) :
    isSecretName target names = true := by
  obtain ⟨w, hw, hletters⟩ := hcut.exists_whole hn
  rw [isSecretName_iff]
  refine ⟨w, hw, name, hname, ?_⟩
  rw [eqIgnoreCase_iff] at hspelled ⊢
  simp [hletters, hspelled]

theorem isSecretName_eq_false (hcut : IsCut (nameWords target) letters n) (hn : n ∉ [1, 2])
    (hlong : ∀ other ∈ names, letters.length ≤ other.length) : isSecretName target names = false := by
  rw [← Bool.not_eq_true, isSecretName_iff]
  rintro ⟨w, hw, other, hother, hspelled⟩
  obtain ⟨before, part, after, hparts, hpart, hflat⟩ := exists_part_of_mem hw
  have hsome : n ≠ 0 := by
    rintro rfl
    rw [List.length_eq_zero_iff.mp hcut.count] at hw
    cases hw
  simp only [List.mem_cons, List.not_mem_nil, or_false, not_or] at hn
  have hlt := hcut.length_lt hparts (by omega)
  have hle := hlong other hother
  rw [length_of_eqIgnoreCase hspelled, ← String.length_toList, hflat] at hle
  omega

/-! ## Which statements are matched -/

/-- The statement stores a text that is not blank, in place of what its targets held. -/
structure Statement.StoresText (s : Statement) (a : ExprArena) (value : String) : Prop where
  kind : s.kind = .assignment ∨ s.kind = .declaration
  replaces : s.compound = false
  literal : (s.operands.head?).bind a.stringLiteral? = some value
  visible : Text.isBlankText value = false

def secretMatch (r : Rule) (s : Statement) (target value : String) : ShapeMatch :=
  ⟨r, s.span, .ofList [("target", target), ("value", value)], r.confidence⟩

namespace Statement.StoresText

variable {s : Statement} {a : ExprArena} {value : String} {r : Rule} {calls : List CallSite} {context : ShapeContext}

section

variable (h : s.StoresText a value)
include h

theorem matchesIn_eq (hr : r.matcher = .syntactic (.hardcodedSecret names)) :
    r.matchesIn s a calls context =
      (s.targets.find? (isSecretName · names)).toList.map fun target => secretMatch r s target value := by
  have hassigns : (s.kind == .assignment || s.kind == .declaration) = true := by
    rcases h.kind with hkind | hkind
    all_goals simp [hkind]
  have hliteral : (s.operands.head? >>= a.stringLiteral?) = some value := h.literal
  rw [Rule.matchesIn, hr]
  simp only [Shape.matchesIn, hassigns, h.replaces, hliteral]
  cases s.targets.find? (isSecretName · names) with
  | none => simp
  | some target => simp [h.visible, secretMatch]

theorem matchStatement_eq (ha : a.Sound) (hoperands : ∀ id ∈ s.operands, id < a.size)
    (rules : List Rule) (context : ShapeContext) :
    ∃ calls, matchStatement rules s a context = .ok (rules.flatMap fun r => r.matchesIn s a calls context) := by
  obtain ⟨calls, hcalls⟩ := a.callsIn_ok ha hoperands
  have hlooked : (s.kind == .unparsed || s.kind == .controlClose) = false := by
    rcases h.kind with hkind | hkind
    all_goals rw [hkind]; decide
  exact ⟨calls, by simp [matchStatement, hlooked, hcalls]⟩

theorem exists_mem_matchesIn (hr : r.matcher = .syntactic (.hardcodedSecret names))
    (hmem : target ∈ s.targets) (hfound : isSecretName target names = true) :
    ∃ stored ∈ s.targets, secretMatch r s stored value ∈ r.matchesIn s a calls context := by
  have hsome : (s.targets.find? (isSecretName · names)).isSome = true := List.find?_isSome.mpr ⟨target, hmem, hfound⟩
  obtain ⟨stored, hstored⟩ := Option.isSome_iff_exists.mp hsome
  refine ⟨stored, List.mem_of_find?_eq_some hstored, ?_⟩
  rw [h.matchesIn_eq hr, hstored]
  simp

theorem matchesIn_eq_nil (hr : r.matcher = .syntactic (.hardcodedSecret names))
    (hnone : ∀ target ∈ s.targets, isSecretName target names = false) : r.matchesIn s a calls context = [] := by
  have hfind : s.targets.find? (isSecretName · names) = none := by simpa using hnone
  rw [h.matchesIn_eq hr, hfind]
  rfl

end

end Statement.StoresText

theorem isAlpha_of_eqIgnoreCase {a b : String} (hb : ∀ c ∈ b.toList, c.isAlpha = true)
    (h : Text.eqIgnoreCase a b = true) : ∀ c ∈ a.toList, c.isAlpha = true := by
  intro c hc
  have hlower : c.toLower ∈ b.toList.map Char.toLower := by
    rw [← eqIgnoreCase_iff.mp h]
    exact List.mem_map_of_mem hc
  obtain ⟨d, hd, heq⟩ := List.mem_map.mp hlower
  rw [← Char.isAlpha_toLower_eq_isAlpha, ← heq, Char.isAlpha_toLower_eq_isAlpha]
  exact hb d hd

/-- Where a target spells a listed name up to the case of its letters, the rule matches if the spelling has one
word or two. Where it has more, only another target or a shorter name makes the rule match. -/
theorem hardcodedSecret_spelled {rules : List Rule} {r : Rule} {s : Statement} {a : ExprArena} {value : String}
    (hr : r ∈ rules) (hmatcher : r.matcher = .syntactic (.hardcodedSecret names)) (hs : s.StoresText a value)
    (ha : a.Sound) (hoperands : ∀ id ∈ s.operands, id < a.size) (htarget : target ∈ s.targets) (hname : name ∈ names)
    (hletters : ∀ c ∈ name.toList, c.isAlpha = true) (hspelled : Text.eqIgnoreCase (bareName target) name = true)
    (context : ShapeContext) :
    ∃ found, matchStatement rules s a context = .ok found ∧
      (wordCount (bareName target).toList ∈ [1, 2] → ∃ stored ∈ s.targets, secretMatch r s stored value ∈ found) ∧
      (s.targets = [target] → (∀ other ∈ names, name.length ≤ other.length) → (∃ m ∈ found, m.rule = r) →
        wordCount (bareName target).toList ∈ [1, 2]) := by
  have hcut := nameWords_isCut (isAlpha_of_eqIgnoreCase hletters hspelled)
  obtain ⟨calls, hfound⟩ := hs.matchStatement_eq ha hoperands rules context
  refine ⟨_, hfound, ?_, ?_⟩
  · intro hwords
    obtain ⟨stored, hstored, hmem⟩ :=
      hs.exists_mem_matchesIn hmatcher htarget (isSecretName_of_isCut hcut hwords hname hspelled)
    exact ⟨stored, hstored, List.mem_flatMap.mpr ⟨r, hr, hmem⟩⟩
  · rintro honly hlong ⟨m, hm, hrule⟩
    by_contra hwords
    obtain ⟨r', -, hmem⟩ := List.mem_flatMap.mp hm
    obtain rfl : r' = r := (Rule.rule_of_mem_matchesIn hmem).symm.trans hrule
    have hlength : ((bareName target).toList.map Char.toLower).length = name.length := by
      rw [List.length_map, String.length_toList]
      exact length_of_eqIgnoreCase hspelled
    have hnone : ∀ target ∈ s.targets, isSecretName target names = false := by
      rw [honly, List.forall_mem_singleton]
      apply isSecretName_eq_false hcut hwords
      rwa [hlength]
    rw [hs.matchesIn_eq_nil hmatcher hnone] at hmem
    cases hmem

namespace SpelledSecret

def rule : Rule := { id := "secret", name := "secret", matcher := .syntactic (.hardcodedSecret ["password", "apikey"]) }

def arena : ExprArena := ⟨#[⟨.literal .string "hunter2", ⟨13, 22⟩⟩], #[1]⟩

def storing (target : String) : Statement :=
  { kind := .assignment, targets := [target], operands := [0], span := ⟨0, 22⟩, controlTag := 0 }

def context : ShapeContext := { isClean := fun _ => true, isUnresolved := fun _ => false, scopeName := "" }

theorem arena_sound : arena.Sound := by
  have hempty : ({} : ExprArena).Sound := ⟨rfl, by simp, by simp⟩
  have hleaf : ∀ child ∈ Expr.children ⟨.literal .string "hunter2", ⟨13, 22⟩⟩, child < ({} : ExprArena).size := by
    decide
  exact hempty.alloc hleaf

theorem storing_storesText (target : String) : (storing target).StoresText arena "hunter2" :=
  ⟨Or.inl rfl, rfl, rfl, by decide⟩

/-- The spelling has two words, and the sign before it is passed over. -/
theorem hardcodedSecret_spelled_two_words :
    wordCount (bareName "self.@apiKey").toList = 2 ∧ Text.eqIgnoreCase (bareName "self.@apiKey") "apikey" = true ∧
    ∃ found, matchStatement [rule] (storing "self.@apiKey") arena context = .ok found ∧
      ∃ stored ∈ ["self.@apiKey"], secretMatch rule (storing "self.@apiKey") stored "hunter2" ∈ found := by
  have hspelled : Text.eqIgnoreCase (bareName "self.@apiKey") "apikey" = true := by decide +kernel
  have hwords : wordCount (bareName "self.@apiKey").toList = 2 := by decide +kernel
  have hletters : ∀ c ∈ "apikey".toList, c.isAlpha = true := List.all_eq_true.mp (by decide +kernel)
  obtain ⟨found, hfound, hmatch, -⟩ :=
    hardcodedSecret_spelled (List.mem_singleton_self rule) rfl (storing_storesText "self.@apiKey") arena_sound
      (by decide) (List.mem_singleton_self _) (by decide) hletters hspelled context
  exact ⟨hwords, hspelled, found, hfound, hmatch (by simp [hwords])⟩

/-- A listed name that its capitals cut into more than two words is not found. -/
theorem hardcodedSecret_missed :
    Text.eqIgnoreCase (bareName "pAsSwOrD") "password" = true ∧
    nameWords "pAsSwOrD" = ["p", "as", "sw", "or", "d"] ∧
    matchStatement [rule] (storing "pAsSwOrD") arena context = .ok [] ∧
    matchStatement [rule] (storing "PASSWORD") arena context =
      .ok [secretMatch rule (storing "PASSWORD") "PASSWORD" "hunter2"] := by
  decide +kernel

end SpelledSecret
end TaintScan
