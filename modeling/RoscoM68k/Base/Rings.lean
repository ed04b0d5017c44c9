import Mathlib.Tactic

namespace RoscoM68k
open Function

section Rings

variable {α : Type} {N r w n : Nat} {f g : Nat → α} {q : List α} {c : α}

-- The values from place `r` on, `n` of them, in a ring of `N` places.
def ringSlice (N : Nat) (f : Nat → α) (r : Nat) : Nat → List α
  | 0 => []
  | n + 1 => f r :: ringSlice N f ((r + 1) % N) n

theorem ringSlice_succ (hr : r < N) (n : Nat) :
    ringSlice N f r (n + 1) = ringSlice N f r n ++ [f ((r + n) % N)] := by
  induction n generalizing r with
  | zero =>
    have hplace : (r + 0) % N = r := Nat.mod_eq_of_lt hr
    rw [hplace]
    rfl
  | succ n ih =>
    have hnext : (r + 1) % N < N := Nat.mod_lt _ (by omega)
    have hplace : ((r + 1) % N + n) % N = (r + (n + 1)) % N := by
      rw [Nat.mod_add_mod]
      congr 1
      omega
    rw [ringSlice,ih hnext,hplace]
    rfl

theorem ringSlice_congr (hr : r < N) (h : ∀ i < n, f ((r + i) % N) = g ((r + i) % N)) :
    ringSlice N f r n = ringSlice N g r n := by
  induction n with
  | zero => rfl
  | succ n ih =>
    rw [ringSlice_succ hr,ringSlice_succ hr,ih fun i hi => h i (by omega),h n n.lt_succ_self]

-- A queue in a ring: the next value out is at `r`, the next one goes in at `w`. One place stays
-- free, so that the places differ unless the queue is empty.
structure RingHolds (N : Nat) (f : Nat → α) (r w : Nat) (q : List α) : Prop where
  read : r < N
  room : q.length < N
  write : w = (r + q.length) % N
  held : ringSlice N f r q.length = q

namespace RingHolds

theorem empty (hr : r < N) : RingHolds N f r r [] where
  read := hr
  room := Nat.zero_lt_of_lt hr
  write := (Nat.mod_eq_of_lt hr).symm
  held := rfl

theorem write_lt (h : RingHolds N f r w q) : w < N := by
  rw [h.write]
  exact Nat.mod_lt _ (Nat.zero_lt_of_lt h.read)

theorem places_eq (h : RingHolds N f r w q) : r = w ↔ q = [] := by
  have hread := h.read
  have hroom := h.room
  rw [h.write]
  constructor
  · intro he
    refine List.length_eq_zero_iff.mp ?_
    by_cases hlt : r + q.length < N
    · rw [Nat.mod_eq_of_lt hlt] at he
      omega
    · rw [Nat.mod_eq_sub_mod (by omega),Nat.mod_eq_of_lt (by omega)] at he
      omega
  · rintro rfl
    exact (Nat.mod_eq_of_lt hread).symm

theorem congr (h : RingHolds N f r w q) (hg : ∀ x < N, g x = f x) : RingHolds N g r w q where
  read := h.read
  room := h.room
  write := h.write
  held := by
    refine (ringSlice_congr h.read fun i _ => ?_).trans h.held
    exact hg _ (Nat.mod_lt _ (Nat.zero_lt_of_lt h.read))

theorem push (h : RingHolds N f r w q) (hroom : q.length + 1 < N) (c : α) :
    RingHolds N (update f w c) r ((w + 1) % N) (q ++ [c]) := by
  have hread := h.read
  have hlen : (q ++ [c]).length = q.length + 1 := List.length_append
  refine ⟨hread,by omega,?_,?_⟩
  · rw [hlen,h.write,Nat.mod_add_mod]
    congr 1
  · rw [hlen,ringSlice_succ hread,← h.write,update_self]
    congr 1
    refine Eq.trans (ringSlice_congr hread fun i hi => update_of_ne ?_ c f) h.held
    rw [h.write]
    intro he
    -- Two places less than a turn apart.
    have hmod : (r + i) ≡ (r + q.length) [MOD N] := he
    have hsame := Nat.ModEq.add_left_cancel' r hmod
    rw [Nat.ModEq,Nat.mod_eq_of_lt (by omega),Nat.mod_eq_of_lt (by omega)] at hsame
    omega

theorem pop (h : RingHolds N f r w (c :: q)) :
    f r = c ∧ RingHolds N f ((r + 1) % N) w q := by
  obtain ⟨hc,hrest⟩ := List.cons.inj h.held
  have hroom := h.room
  rw [List.length_cons] at hroom
  refine ⟨hc,Nat.mod_lt _ (by omega),by omega,?_,hrest⟩
  rw [h.write,Nat.mod_add_mod,List.length_cons]
  congr 1
  omega

end RingHolds
end Rings
end RoscoM68k
