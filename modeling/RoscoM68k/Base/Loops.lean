import Mathlib.Tactic

namespace RoscoM68k
open Function

section Fuel

variable {α : Type} {f : Nat → Option α} {r r' : α}

-- With enough fuel the function comes to `r`.
def Gives (f : Nat → Option α) (r : α) : Prop := ∃ n, ∀ k, n ≤ k → f k = some r

theorem Gives.unique (h : Gives f r) (h' : Gives f r') : r = r' := by
  obtain ⟨n,hn⟩ := h
  obtain ⟨k,hk⟩ := h'
  have he := hn (max n k) (le_max_left n k)
  rw [hk (max n k) (le_max_right n k)] at he
  exact (Option.some.inj he).symm

-- One round more.
theorem Gives.succ (h : Gives (fun n => f (n + 1)) r) : Gives f r := by
  obtain ⟨n,hn⟩ := h
  refine ⟨n + 1,fun k hk => ?_⟩
  obtain ⟨j,rfl⟩ : ∃ j, k = j + 1 := ⟨k - 1,by omega⟩
  exact hn j (by omega)

theorem Gives.of_eq (h : ∀ n, f n = some r) : Gives f r := ⟨0,fun n _ => h n⟩

-- One computation after the other.
theorem Gives.bind {β : Type} {g : Nat → α → Option β} {x : β} (h : Gives f r)
    (h' : Gives (fun n => g n r) x) : Gives (fun n => f n >>= g n) x := by
  obtain ⟨n,hn⟩ := h
  obtain ⟨k,hk⟩ := h'
  refine ⟨max n k,fun j hj => ?_⟩
  change (f j).bind (g j) = some x
  rw [hn j (by omega)]
  exact hk j (by omega)

end Fuel

variable {σ : Type}

-- A `while` loop that may make `n` rounds; `none` is a loop that would make more.
def loop (c : σ → Bool) (f : σ → σ) : Nat → σ → Option σ
  | 0, s => if c s then none else some s
  | n + 1, s => if c s then loop c f n (f s) else some s

namespace Loop

variable {c : σ → Bool} {f : σ → σ} {s t : σ} {n m : Nat}

theorem stop (n : Nat) (h : c s = false) : loop c f n s = some s := by
  cases n with
  | zero => rw [loop,h,if_neg Bool.false_ne_true]
  | succ n => rw [loop,h,if_neg Bool.false_ne_true]

theorem next (h : c s = true) : loop c f (n + 1) s = loop c f n (f s) := by
  rw [loop,h,if_pos rfl]

theorem mono (h : loop c f n s = some t) (hn : n ≤ m) : loop c f m s = some t := by
  induction n generalizing s m with
  | zero =>
    cases hc : c s with
    | false => rwa [stop m hc,← stop 0 hc]
    | true => simp [loop,hc] at h
  | succ n ih =>
    cases hc : c s with
    | false => rwa [stop m hc,← stop (n + 1) hc]
    | true =>
      obtain ⟨k,rfl⟩ : ∃ k, m = k + 1 := ⟨m - 1,by omega⟩
      rw [next hc] at h ⊢
      exact ih h (by omega)

-- The invariant counts rounds, from `k` to at most `n`.
theorem counted_from (I : Nat → σ → Prop) {k : Nat} (hk : k ≤ n) (h : I k s)
    (hstep : ∀ i s, i < n → I i s → c s = true → I (i + 1) (f s))
    (hstop : ∀ s, I n s → c s = false) :
    ∃ i t, loop c f (n - k) s = some t ∧ I i t ∧ i ≤ n ∧ c t = false := by
  obtain ⟨j,hj⟩ : ∃ j, j = n - k := ⟨_,rfl⟩
  rw [← hj]
  induction j generalizing s k with
  | zero =>
    obtain rfl : k = n := by omega
    have hc := hstop s h
    exact ⟨k,s,stop 0 hc,h,hk,hc⟩
  | succ j ih =>
    cases hc : c s with
    | false => exact ⟨k,s,stop _ hc,h,hk,hc⟩
    | true =>
      obtain ⟨i,t,hrun,hi⟩ := ih (by omega) (hstep k s (by omega) h hc) (by omega)
      exact ⟨i,t,(next hc).trans hrun,hi⟩

theorem counted (I : Nat → σ → Prop) (h : I 0 s)
    (hstep : ∀ i s, i < n → I i s → c s = true → I (i + 1) (f s))
    (hstop : ∀ s, I n s → c s = false) :
    ∃ i t, loop c f n s = some t ∧ I i t ∧ i ≤ n ∧ c t = false :=
  counted_from I n.zero_le h hstep hstop

theorem invariant (I : σ → Prop) (hstep : ∀ s, I s → I (f s)) (h : I s)
    (hrun : loop c f n s = some t) : I t := by
  induction n generalizing s with
  | zero =>
    rw [loop] at hrun
    split_ifs at hrun
    rwa [← Option.some.inj hrun]
  | succ n ih =>
    rw [loop] at hrun
    split_ifs at hrun
    · exact ih (hstep s h) hrun
    · rwa [← Option.some.inj hrun]

-- A loop whose condition holds before each of `n` rounds and no longer makes just these.
theorem exactly (hc : ∀ i < n, c (f^[i] s) = true) (hs : c (f^[n] s) = false) (hn : n ≤ m) :
    loop c f m s = some (f^[n] s) := by
  refine mono (n := n) ?_ hn
  clear hn
  induction n generalizing s with
  | zero => exact stop 0 hs
  | succ n ih =>
    have h0 : c s = true := hc 0 n.succ_pos
    rw [next h0,iterate_succ_apply]
    exact ih (fun i hi => hc (i + 1) (by omega)) hs

-- A loop whose condition holds after any of the rounds that it may make would make more.
theorem endless (h : ∀ i ≤ n, c (f^[i] s) = true) : loop c f n s = none := by
  induction n generalizing s with
  | zero =>
    have h0 : c s = true := h 0 le_rfl
    rw [loop,h0,if_pos rfl]
  | succ n ih =>
    have h0 : c s = true := h 0 (Nat.zero_le _)
    rw [next h0]
    exact ih fun i hi => h (i + 1) (Nat.succ_le_succ hi)

theorem gives_stop (h : c s = false) : Gives (fun n => loop c f n s) s :=
  .of_eq fun n => stop n h

theorem gives_next (h : c s = true) (h' : Gives (fun n => loop c f n (f s)) t) :
    Gives (fun n => loop c f n s) t := by
  refine .succ ?_
  simp only [next h]
  exact h'

theorem gives_exactly (hc : ∀ i < n, c (f^[i] s) = true) (hs : c (f^[n] s) = false) :
    Gives (fun m => loop c f m s) (f^[n] s) := ⟨n,fun _ hm => exactly hc hs hm⟩

end Loop
end RoscoM68k
