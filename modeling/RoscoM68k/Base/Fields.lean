import Mathlib.Tactic
import Mathlib.Data.List.Basic

namespace RoscoM68k

section Splitting

variable {α : Type} [DecidableEq α] {a c : α} {xs f : List α}

-- A field holds members of the whole, and no separator.
theorem mem_splitOn (hf : f ∈ xs.splitOn a) (hc : c ∈ f) : c ∈ xs ∧ c ≠ a := by
  induction xs generalizing f with
  | nil =>
    rw [List.splitOn_nil,List.mem_singleton] at hf
    exact absurd (hf ▸ hc) List.not_mem_nil
  | cons x xs ih =>
    obtain ⟨g,gs,hg⟩ := List.exists_cons_of_ne_nil (List.splitOn_ne_nil a xs)
    rw [List.splitOn_cons_eq_if_modifyHead] at hf
    by_cases hx : x = a
    · rw [if_pos (beq_iff_eq.mpr hx)] at hf
      rcases List.mem_cons.mp hf with rfl | hf
      · exact absurd hc List.not_mem_nil
      · exact ⟨List.mem_cons_of_mem _ (ih hf hc).1,(ih hf hc).2⟩
    · rw [if_neg (by simpa using hx),hg,List.modifyHead_cons] at hf
      rcases List.mem_cons.mp hf with rfl | hf
      · rcases List.mem_cons.mp hc with rfl | hc
        · exact ⟨List.mem_cons_self,hx⟩
        · have := ih (by rw [hg]; exact List.mem_cons_self) hc
          exact ⟨List.mem_cons_of_mem _ this.1,this.2⟩
      · have := ih (by rw [hg]; exact List.mem_cons_of_mem _ hf) hc
        exact ⟨List.mem_cons_of_mem _ this.1,this.2⟩

end Splitting

theorem intercalate_append {α : Type} {sep : List α} {fs gs : List (List α)} (hf : fs ≠ [])
    (hg : gs ≠ []) :
    sep.intercalate (fs ++ gs) = sep.intercalate fs ++ (sep ++ sep.intercalate gs) := by
  obtain ⟨g,gs,rfl⟩ := List.exists_cons_of_ne_nil hg
  induction fs with
  | nil => exact absurd rfl hf
  | cons f fs ih =>
    cases fs with
    | nil =>
      rw [List.singleton_append,List.intercalate_cons_cons,List.intercalate_singleton,
        List.append_assoc]
    | cons f' fs =>
      have hrest := ih (List.cons_ne_nil f' fs)
      rw [List.cons_append] at hrest
      rw [List.cons_append,List.cons_append,List.intercalate_cons_cons,hrest,
        List.intercalate_cons_cons]
      simp only [List.append_assoc]

end RoscoM68k
