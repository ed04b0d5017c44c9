import Mathlib.Tactic
import Mathlib.Data.List.Basic
import RoscoM68k.Base.Overlay

namespace RoscoM68k
open Function

section Slices

variable {α : Type} {f g : Nat → α} {a b m n x : Nat} {v : α} {xs ys : List α}

-- The values from `a` on, `n` of them.
def slice (f : Nat → α) (a : Nat) : Nat → List α
  | 0 => []
  | n + 1 => f a :: slice f (a + 1) n

@[simp] theorem slice_length (f : Nat → α) (a n : Nat) : (slice f a n).length = n := by
  induction n generalizing a with
  | zero => rfl
  | succ n ih => rw [slice,List.length_cons,ih]

theorem slice_add (f : Nat → α) (a m n : Nat) :
    slice f a (m + n) = slice f a m ++ slice f (a + m) n := by
  induction m generalizing a with
  | zero => simp [slice]
  | succ m ih =>
    have hadd : m + 1 + n = m + n + 1 := by omega
    have hnext : a + 1 + m = a + (m + 1) := by omega
    rw [hadd,slice,slice,ih,hnext]
    rfl

theorem slice_succ (f : Nat → α) (a n : Nat) : slice f a (n + 1) = slice f a n ++ [f (a + n)] :=
  slice_add f a n 1

theorem slice_congr (h : ∀ x, a ≤ x → x < a + n → f x = g x) : slice f a n = slice g a n := by
  induction n generalizing a with
  | zero => rfl
  | succ n ih =>
    rw [slice,slice,h a (Nat.le_refl a) (by omega)]
    rw [ih fun x hx hx' => h x (by omega) (by omega)]

theorem slice_update_below (h : x < a) : slice (update f x v) a n = slice f a n :=
  slice_congr fun _ hy _ => update_of_ne (by omega) v f

theorem slice_update_above (h : a + n ≤ x) : slice (update f x v) a n = slice f a n :=
  slice_congr fun _ _ hy => update_of_ne (by omega) v f

theorem mem_slice (h : v ∈ slice f a n) : ∃ x, a ≤ x ∧ x < a + n ∧ f x = v := by
  induction n generalizing a with
  | zero => exact absurd h List.not_mem_nil
  | succ n ih =>
    obtain rfl | h := List.mem_cons.mp h
    · exact ⟨a,Nat.le_refl a,by omega,rfl⟩
    · obtain ⟨x,hx,hx',hv⟩ := ih h
      exact ⟨x,by omega,by omega,hv⟩

-- A part of a list is the slice that starts as much later.
theorem slice_drop (h : slice f a n = xs ++ ys) : slice f (a + xs.length) ys.length = ys := by
  have hn : n = xs.length + ys.length := by
    rw [← List.length_append,← h,slice_length]
  rw [hn,slice_add] at h
  exact (List.append_inj h (slice_length f a xs.length)).2

theorem slice_take (h : slice f a n = xs ++ ys) : slice f a xs.length = xs := by
  have hn : n = xs.length + ys.length := by
    rw [← List.length_append,← h,slice_length]
  rw [hn,slice_add] at h
  exact (List.append_inj h (slice_length f a xs.length)).1

theorem slice_overlay (h : Apart b xs.length a n) : slice (overlay f b xs) a n = slice f a n := by
  refine slice_congr fun x hx hx' => ?_
  obtain h | h := h
  · exact overlay_above (by omega)
  · exact overlay_below (by omega)

theorem slice_overlay_self (f : Nat → α) (a : Nat) (xs : List α) :
    slice (overlay f a xs) a xs.length = xs := by
  induction xs generalizing f a with
  | nil => rfl
  | cons v xs ih =>
    have hhead : overlay f a (v :: xs) a = v := overlay_inside (Nat.le_refl a) (by simp)
    rw [List.length_cons,slice,hhead,← overlay_cons,ih]

end Slices
end RoscoM68k
