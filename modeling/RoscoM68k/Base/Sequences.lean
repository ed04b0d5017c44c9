import Mathlib.Tactic
import Mathlib.Data.List.Basic

namespace RoscoM68k
open Function

variable {α : Type} [DecidableEq α]

-- `n` right behind `t`, where `t` occurs.
def insertBehind (t n : α) : List α → List α
  | [] => []
  | x :: xs => if x = t then x :: n :: xs else x :: insertBehind t n xs

theorem insertBehind_append {t n : α} {xs : List α} (ys : List α) (h : t ∉ xs) :
    insertBehind t n (xs ++ t :: ys) = xs ++ t :: n :: ys := by
  induction xs with
  | nil => simp [insertBehind]
  | cons x xs ih =>
    obtain ⟨hx,hxs⟩ := not_or.mp (mt List.mem_cons.mpr h)
    simp [insertBehind,Ne.symm hx,ih hxs]

theorem insertBehind_not_mem {t n : α} {xs : List α} (h : t ∉ xs) :
    insertBehind t n xs = xs := by
  induction xs with
  | nil => rfl
  | cons x xs ih =>
    obtain ⟨hx,hxs⟩ := not_or.mp (mt List.mem_cons.mpr h)
    simp [insertBehind,Ne.symm hx,ih hxs]

theorem insertBehind_perm {t n : α} {xs : List α} (h : t ∈ xs) :
    (insertBehind t n xs).Perm (n :: xs) := by
  induction xs with
  | nil => simp at h
  | cons x xs ih =>
    by_cases hx : x = t
    · simp only [insertBehind,if_pos hx]
      exact .swap n x xs
    · have hxs : t ∈ xs := (List.mem_cons.mp h).resolve_left (Ne.symm hx)
      simp only [insertBehind,if_neg hx]
      exact ((ih hxs).cons x).trans (.swap n x xs)

-- Named sequences, of which each holds an element once at most and no two hold the same one.
abbrev Sequences (α : Type) := α → Option (List α)

inductive SeqOp (α : Type) where
  | init (l : α)
  | addHead (l n : α)
  | addTail (l n : α)
  | insertAfter (t n : α)
  | delete (n : α)
  | deleteHead (l : α)
  | deleteTail (l : α)

namespace Sequences

def Holds (A : Sequences α) (n : α) : Prop := ∃ l xs, A l = some xs ∧ n ∈ xs

structure Parted (A : Sequences α) : Prop where
  nodup : ∀ l xs, A l = some xs → xs.Nodup
  apart : ∀ l k xs ys, A l = some xs → A k = some ys → l ≠ k → ∀ x ∈ xs, x ∉ ys

-- The sequences afterwards and the element that is returned.
def apply (A : Sequences α) : SeqOp α → Sequences α × Option α
  | .init l => (update A l (some []),some l)
  | .addHead l n => (update A l ((A l).map (n :: ·)),some n)
  | .addTail l n => (update A l ((A l).map (· ++ [n])),some n)
  | .insertAfter t n => (fun l => (A l).map (insertBehind t n),some n)
  | .delete n => (fun l => (A l).map (List.erase · n),some n)
  | .deleteHead l => (update A l ((A l).map List.tail),(A l).bind List.head?)
  | .deleteTail l => (update A l ((A l).map List.dropLast),(A l).bind List.getLast?)

-- The sequence that an operation works on.
def Operand (A : Sequences α) (k : α) : SeqOp α → Prop
  | .init l => k = l
  | .addHead l _ => k = l
  | .addTail l _ => k = l
  | .insertAfter t _ => ∃ xs, A k = some xs ∧ t ∈ xs
  | .delete n => ∃ xs, A k = some xs ∧ n ∈ xs
  | .deleteHead l => k = l
  | .deleteTail l => k = l

variable {A : Sequences α} {f : List α → List α} {l k n t : α} {xs zs : List α}

-- An operation on whichever sequence holds `t` changes no other.
theorem map_eq_update (h : Parted A) (hl : A l = some xs) (ht : t ∈ xs)
    (hf : ∀ ys, t ∉ ys → f ys = ys) :
    (fun k => (A k).map f) = update A l (some (f xs)) := by
  funext k
  by_cases hk : k = l
  · subst hk
    rw [update_self,hl,Option.map_some]
  · rw [update_of_ne hk]
    cases hy : A k with
    | none => rfl
    | some ys => rw [Option.map_some,hf ys (h.apart l k xs ys hl hy (Ne.symm hk) t ht)]

theorem operand_iff (h : Parted A) (hl : A l = some xs) (ht : t ∈ xs) :
    (∃ ys, A k = some ys ∧ t ∈ ys) ↔ k = l := by
  constructor
  · rintro ⟨ys,hk,hy⟩
    by_contra hne
    exact h.apart l k xs ys hl hk (Ne.symm hne) t ht hy
  · rintro rfl
    exact ⟨xs,hl,ht⟩

theorem Parted.relist (h : Parted A) (hz : zs.Nodup)
    (hn : ∀ k ys, A k = some ys → k ≠ l → ∀ z ∈ zs, z ∉ ys) :
    Parted (update A l (some zs)) where
  nodup := by
    intro k ys hk
    by_cases hkl : k = l
    · subst hkl
      rw [update_self] at hk
      exact Option.some.inj hk ▸ hz
    · rw [update_of_ne hkl] at hk
      exact h.nodup k ys hk
  apart := by
    intro k j xs ys hk hj hne x hx hy
    by_cases hkl : k = l
    · subst hkl
      rw [update_self] at hk
      rw [update_of_ne (Ne.symm hne)] at hj
      exact hn j ys hj (Ne.symm hne) x (Option.some.inj hk ▸ hx) hy
    · rw [update_of_ne hkl] at hk
      by_cases hjl : j = l
      · subst hjl
        rw [update_self] at hj
        exact hn k xs hk hkl x (Option.some.inj hj ▸ hy) hx
      · rw [update_of_ne hjl] at hj
        exact h.apart k j xs ys hk hj hne x hx hy

end Sequences
end RoscoM68k
