import TaintScan.Text.Blank

/-! # Trimming

What is trimmed has nothing left to trim at either end, and nothing that is added there changes it. This holds of the
characters of a text as well as of its lines.
-/
namespace TaintScan.Text

variable {α : Type} {p : α → Bool} {l pre post : List α}

def trimBy (p : α → Bool) (l : List α) : List α := ((l.dropWhile p).reverse.dropWhile p).reverse

theorem trimChars_eq_trimBy (cs : List Char) : trimChars cs = trimBy isBlank cs := rfl

structure Trimmed (p : α → Bool) (l : List α) : Prop where
  head : ∀ a ∈ l.head?, p a = false
  last : ∀ a ∈ l.getLast?, p a = false

theorem not_of_head?_dropWhile (p : α → Bool) (l : List α) : ∀ a ∈ (l.dropWhile p).head?, p a = false := by
  intro a ha
  have hnot := List.head?_dropWhile_not p l
  rwa [ha] at hnot

theorem trimmed_trimBy (p : α → Bool) (l : List α) : Trimmed p (trimBy p l) where
  head a ha := by
    obtain ⟨rest, hrest⟩ := List.reverse_prefix.mpr (List.dropWhile_suffix p (l := (l.dropWhile p).reverse))
    rw [List.reverse_reverse] at hrest
    have ha : ((l.dropWhile p).reverse.dropWhile p).reverse.head? = some a := ha
    refine not_of_head?_dropWhile p l a ?_
    rw [← hrest, List.head?_append, ha]
    rfl
  last a ha := by
    rw [trimBy, List.getLast?_reverse] at ha
    exact not_of_head?_dropWhile p _ a ha

theorem Trimmed.trimBy_eq (h : Trimmed p l) : trimBy p l = l := by
  have hdrop {l : List α} (h : ∀ a ∈ l.head?, p a = false) : l.dropWhile p = l := by
    cases l with
    | nil => rfl
    | cons a l => rw [List.dropWhile_cons_of_neg (by simp [h a rfl])]
  have hend : ∀ a ∈ l.reverse.head?, p a = false := by
    rw [List.head?_reverse]
    exact h.last
  rw [trimBy, hdrop h.head, hdrop hend, List.reverse_reverse]

theorem trimBy_padded (hpre : ∀ a ∈ pre, p a = true) (hpost : ∀ a ∈ post, p a = true) (l : List α) :
    trimBy p (pre ++ (l ++ post)) = trimBy p l := by
  have hnone : post.dropWhile p = [] := by
    have hdrop : (post ++ []).dropWhile p = _ := List.dropWhile_append_of_pos hpost
    simpa using hdrop
  rw [trimBy, trimBy, List.dropWhile_append_of_pos hpre, List.dropWhile_append]
  split
  · next hnil => rw [hnone, List.isEmpty_iff.mp hnil]
  · rw [List.reverse_append, List.dropWhile_append_of_pos (by simpa using hpost)]

theorem trimBy_append (h : ∀ a ∈ post, p a = true) (l : List α) : trimBy p (l ++ post) = trimBy p l := by
  have hpre : ∀ a ∈ ([] : List α), p a = true := List.forall_mem_nil _
  exact trimBy_padded hpre h l

theorem mem_of_mem_trimBy {a : α} (h : a ∈ trimBy p l) : a ∈ l :=
  (List.dropWhile_sublist p).subset (List.mem_reverse.mp ((List.dropWhile_sublist p).subset (List.mem_reverse.mp h)))

theorem mem_trimBy {a : α} (ha : a ∈ l) (hp : p a = false) : a ∈ trimBy p l := by
  have hdrop {l : List α} (ha : a ∈ l) : a ∈ l.dropWhile p := by
    rw [← List.takeWhile_append_dropWhile (p := p) (l := l), List.mem_append] at ha
    refine ha.resolve_left fun htake => ?_
    rw [List.all_eq_true.mp List.all_takeWhile a htake] at hp
    cases hp
  exact List.mem_reverse.mpr (hdrop (List.mem_reverse.mpr (hdrop ha)))

theorem toList_trim (s : String) : (trim s).toList = trimBy isBlank s.toList := String.toList_ofList

theorem trim_trim (s : String) : trim (trim s) = trim s := by
  rw [trim, trimChars_eq_trimBy, toList_trim, (trimmed_trimBy _ _).trimBy_eq]
  rfl

end TaintScan.Text
