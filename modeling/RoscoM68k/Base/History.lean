import Mathlib.Tactic
import Mathlib.Data.List.Basic

namespace RoscoM68k

section History

variable {α : Type} {xs ys : List α} {d n p : Nat}

-- `n` more values, each the one `d` places before it.
def copyBack (d : Nat) : Nat → List α → List α
  | 0, xs => xs
  | n + 1, xs => copyBack d n (xs ++ xs[xs.length - d]?.toList)

theorem copyBack_snoc (hd : 0 < d) (h : d ≤ xs.length) :
    ∃ x, xs[xs.length - d]? = some x ∧ copyBack d (n + 1) xs = copyBack d n (xs ++ [x]) := by
  have hlt : xs.length - d < xs.length := by omega
  have hx := List.getElem?_eq_getElem hlt
  exact ⟨_,hx,by rw [copyBack,hx,Option.toList_some]⟩

@[simp] theorem copyBack_length (hd : 0 < d) (h : d ≤ xs.length) :
    (copyBack d n xs).length = xs.length + n := by
  induction n generalizing xs with
  | zero => rfl
  | succ n ih =>
    obtain ⟨x,-,hnext⟩ := copyBack_snoc (n := n) hd h
    rw [hnext,ih (by simp; omega),List.length_append,List.length_singleton]
    omega

theorem take_snoc {x : α} (h : xs[p]? = some x) : xs.take p ++ [x] = xs.take (p + 1) := by
  rw [List.take_add_one,h,Option.toList_some]

-- A copy from inside a prefix is the prefix so much longer, where the places copied to repeat
-- what is `d` before them. The copy may run into what it has just put there.
theorem copyBack_take (hd : 0 < d) (hp : d ≤ p) (hn : p + n ≤ xs.length)
    (h : ∀ i < n, xs[p + i]? = xs[p - d + i]?) :
    copyBack d n (xs.take p) = xs.take (p + n) := by
  induction n generalizing p with
  | zero => rfl
  | succ n ih =>
    have hlen : (xs.take p).length = p := List.length_take_of_le (by omega)
    have hle : d ≤ (xs.take p).length := by omega
    obtain ⟨x,hx,hnext⟩ := copyBack_snoc (n := n) hd hle
    have hsame : xs[p]? = some x := by
      rw [hlen,List.getElem?_take_of_lt (by omega)] at hx
      rw [← hx]
      exact h 0 (by omega)
    have hrest : ∀ i < n, xs[p + 1 + i]? = xs[p + 1 - d + i]? := by
      intro i hi
      have he := h (i + 1) (by omega)
      have h1 : p + (i + 1) = p + 1 + i := by omega
      have h2 : p - d + (i + 1) = p + 1 - d + i := by omega
      rwa [h1,h2] at he
    have hadd : p + (n + 1) = p + 1 + n := by omega
    rw [hnext,take_snoc hsame,ih (by omega) (by omega) hrest,hadd]

end History
end RoscoM68k
