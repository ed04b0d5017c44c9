import Mathlib.Tactic
import Mathlib.Data.List.Basic
import Mathlib.Data.List.TakeWhile

namespace RoscoM68k

section Words

variable {α : Type} [DecidableEq α] {a x : α} {xs : List α}

-- The maximal runs of members of `xs` other than `a`.
def words (a : α) (xs : List α) : List (List α) := (xs.splitOn a).filter (· ≠ [])

theorem words_nil : words a ([] : List α) = [] := by
  rw [words,List.splitOn_nil]
  rfl

theorem words_separator : words a (a :: xs) = words a xs := by
  rw [words,List.splitOn_cons_eq_if_modifyHead,if_pos (beq_self_eq_true a),List.filter_cons]
  rfl

theorem words_dropWhile (a : α) (xs : List α) : words a (xs.dropWhile (· = a)) = words a xs := by
  induction xs with
  | nil => rfl
  | cons x xs ih =>
    by_cases hx : x = a
    · rw [hx,List.dropWhile_cons_of_pos (by simp),ih,words_separator]
    · rw [List.dropWhile_cons_of_neg (by simpa using hx)]

-- The first field, and those after the separator that ends it.
theorem splitOn_first (a : α) (xs : List α) :
    ∃ fs, xs.splitOn a = xs.takeWhile (· ≠ a) :: fs ∧
      fs.filter (· ≠ []) = words a (xs.dropWhile (· ≠ a)).tail := by
  induction xs with
  | nil => exact ⟨[],List.splitOn_nil a,words_nil.symm⟩
  | cons x xs ih =>
    obtain ⟨fs,hfs,hrest⟩ := ih
    rw [List.splitOn_cons_eq_if_modifyHead]
    by_cases hx : x = a
    · refine ⟨xs.splitOn a,?_,?_⟩
      · rw [if_pos (beq_iff_eq.mpr hx),List.takeWhile_cons_of_neg (by simpa using hx)]
      · rw [List.dropWhile_cons_of_neg (by simpa using hx)]
        rfl
    · refine ⟨fs,?_,?_⟩
      · rw [if_neg (by simpa using hx),hfs,List.modifyHead_cons,
          List.takeWhile_cons_of_pos (by simpa using hx)]
      · rw [hrest,List.dropWhile_cons_of_pos (by simpa using hx)]

theorem words_word (hx : x ≠ a) :
    words a (x :: xs) = (x :: xs).takeWhile (· ≠ a) ::
      words a ((x :: xs).dropWhile (· ≠ a)).tail := by
  obtain ⟨fs,hfs,hrest⟩ := splitOn_first a (x :: xs)
  rw [words,hfs,List.filter_cons,hrest,List.takeWhile_cons_of_pos (by simpa using hx)]
  rfl

omit [DecidableEq α] in
theorem takeWhile_agree {p q : α → Bool} (h : ∀ x ∈ xs, p x = q x) :
    xs.takeWhile p = xs.takeWhile q ∧ xs.dropWhile p = xs.dropWhile q := by
  induction xs with
  | nil => exact ⟨rfl,rfl⟩
  | cons x xs ih =>
    obtain ⟨htake,hdrop⟩ := ih fun y hy => h y (List.mem_cons_of_mem x hy)
    rw [List.takeWhile_cons,List.takeWhile_cons,List.dropWhile_cons,List.dropWhile_cons,
      h x List.mem_cons_self,htake,hdrop]
    exact ⟨rfl,rfl⟩

end Words
end RoscoM68k
