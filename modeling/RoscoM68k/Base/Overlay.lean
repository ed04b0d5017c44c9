import Mathlib.Tactic
import Mathlib.Data.List.GetD

namespace RoscoM68k
open Function

section Overlay

variable {α : Type} {m : Nat → α} {a b x : Nat} {bs cs : List α}

-- A memory with a list of values laid over it from `a` on.
def overlay (m : Nat → α) (a : Nat) (bs : List α) : Nat → α :=
  fun x => if a ≤ x then (bs[x - a]?).getD (m x) else m x

@[simp] theorem overlay_nil (m : Nat → α) (a : Nat) : overlay m a [] = m := by
  funext x
  simp [overlay]

theorem overlay_below (h : x < a) : overlay m a bs x = m x := if_neg (by omega)

theorem overlay_above (h : a + bs.length ≤ x) : overlay m a bs x = m x := by
  have hn : bs[x - a]? = none := List.getElem?_eq_none (by omega)
  rw [overlay,hn]
  exact ite_self _

theorem overlay_inside (h : a ≤ x) {v : α} (hv : bs[x - a]? = some v) : overlay m a bs x = v := by
  rw [overlay,if_pos h,hv]
  rfl

theorem overlay_cons (v : α) : overlay (update m a v) (a + 1) bs = overlay m a (v :: bs) := by
  funext x
  rcases Nat.lt_trichotomy x a with h | h | h
  · rw [overlay_below (by omega),overlay_below h,update_of_ne (by omega)]
  · subst h
    rw [overlay_below (by omega),update_self,overlay_inside (v := v) le_rfl (by simp)]
  · have he : x - a = x - (a + 1) + 1 := by omega
    rw [overlay,overlay,if_pos (by omega),if_pos (by omega),update_of_ne (by omega),he,
      List.getElem?_cons_succ]

theorem overlay_append : overlay (overlay m a bs) (a + bs.length) cs = overlay m a (bs ++ cs) := by
  induction bs generalizing m a with
  | nil => simp
  | cons b bs ih =>
    have he : a + (b :: bs).length = a + 1 + bs.length := by
      simp only [List.length_cons]
      omega
    rw [← overlay_cons,he,ih,overlay_cons]
    rfl

theorem overlay_snoc (m : Nat → α) (v : α) :
    overlay m a (bs ++ [v]) = update (overlay m a bs) (a + bs.length) v := by
  rw [← overlay_append,← overlay_cons,overlay_nil]

theorem overlay_congr {m' : Nat → α} (h : m x = m' x) : overlay m a bs x = overlay m' a bs x := by
  rw [overlay,overlay,h]

-- Of two parts the later one may come first.
theorem overlay_comm (h : a + bs.length ≤ b) :
    overlay (overlay m b cs) a bs = overlay (overlay m a bs) b cs := by
  funext x
  by_cases hx : x < b
  · rw [overlay_below hx]
    exact overlay_congr (overlay_below hx)
  · have habove : a + bs.length ≤ x := by omega
    rw [overlay_above habove]
    exact overlay_congr (overlay_above habove).symm

-- Two areas that have no place in common.
def Apart (d n s k : Nat) : Prop := d + n ≤ s ∨ s + k ≤ d

end Overlay

section Store

variable {α : Type} {N : Nat} {m : Nat → α} {a x : Nat} {bs cs : List α}

-- One value after the other, in an address space that wraps around at `N`.
def storeList (N : Nat) (m : Nat → α) (a : Nat) : List α → Nat → α
  | [] => m
  | b :: bs => storeList N (update m (a % N) b) (a + 1) bs

-- The addresses it stores to.
def storeAddrs (N : Nat) (a n : Nat) : List Nat := (List.range n).map (fun i => (a + i) % N)

theorem mem_storeAddrs {n : Nat} : x ∈ storeAddrs N a n ↔ ∃ i < n, (a + i) % N = x := by
  simp [storeAddrs]

theorem storeAddrs_append (n k : Nat) :
    storeAddrs N a (n + k) = storeAddrs N a n ++ storeAddrs N (a + n) k := by
  simp only [storeAddrs,List.range_add,List.map_append,List.map_map]
  congr 1
  refine List.map_congr_left (fun i _ => ?_)
  simp only [comp,Nat.add_assoc]

theorem storeList_append (bs cs : List α) :
    storeList N (storeList N m a bs) (a + bs.length) cs = storeList N m a (bs ++ cs) := by
  induction bs generalizing m a with
  | nil => rfl
  | cons b bs ih =>
    have he : a + (b :: bs).length = a + 1 + bs.length := by
      simp only [List.length_cons]
      omega
    rw [he]
    exact ih

theorem storeList_off (h : x ∉ storeAddrs N a bs.length) : storeList N m a bs x = m x := by
  induction bs generalizing m a with
  | nil => rfl
  | cons b bs ih =>
    rw [mem_storeAddrs] at h
    have h0 : x ≠ a % N := fun hx => h ⟨0,by simp,hx.symm⟩
    have ht : x ∉ storeAddrs N (a + 1) bs.length := by
      rw [mem_storeAddrs]
      rintro ⟨i,hi,hx⟩
      exact h ⟨i + 1,by simpa using hi,by rw [← hx]; congr 1; omega⟩
    exact (ih ht).trans (update_of_ne h0 _ _)

-- Below the end of the address space it is an overlay.
theorem storeList_eq (h : a + bs.length ≤ N) : storeList N m a bs = overlay m a bs := by
  induction bs generalizing m a with
  | nil => exact (overlay_nil m a).symm
  | cons b bs ih =>
    simp only [List.length_cons] at h
    rw [storeList,ih (by omega),Nat.mod_eq_of_lt (by omega),overlay_cons]

-- As many stores as there are addresses reach all of them.
theorem storeAddrs_all {n : Nat} (hN : N ≤ n) (hx : x < N) : x ∈ storeAddrs N a n := by
  have hm := Nat.mod_lt a (show 0 < N by omega)
  have hd := Nat.div_add_mod a N
  rw [mem_storeAddrs]
  by_cases hle : a % N ≤ x
  · refine ⟨x - a % N,by omega,?_⟩
    have he : a + (x - a % N) = x + N * (a / N) := by omega
    rw [he,Nat.add_mul_mod_self_left,Nat.mod_eq_of_lt hx]
  · refine ⟨x + N - a % N,by omega,?_⟩
    have he : a + (x + N - a % N) = x + N * (a / N + 1) := by
      rw [Nat.mul_add]
      omega
    rw [he,Nat.add_mul_mod_self_left,Nat.mod_eq_of_lt hx]

end Store
end RoscoM68k
