import Mathlib.Tactic
import Mathlib.Data.List.Chain

namespace RoscoM68k
open Function

variable {α β : Type}

-- `xs` is threaded in both directions: each node's `next` is its right neighbour and each
-- node's `prev` its left one. The two ends are not constrained outwards.
def Linked (next prev : α → α) (xs : List α) : Prop :=
  xs.IsChain (fun x y => next x = y ∧ prev y = x)

namespace Linked

theorem congr {next prev next' prev' : α → α} {xs : List α} (h : Linked next prev xs)
    (hn : ∀ x ∈ xs.dropLast, next' x = next x) (hp : ∀ x ∈ xs.tail, prev' x = prev x) :
    Linked next' prev' xs := by
  induction xs with
  | nil => exact .nil
  | cons x xs ih =>
    cases xs with
    | nil => exact .singleton x
    | cons y xs =>
      obtain ⟨⟨h1,h2⟩,ht⟩ := List.isChain_cons_cons.mp h
      refine List.isChain_cons_cons.mpr ⟨⟨?_,?_⟩,?_⟩
      · rw [hn x (by simp),h1]
      · rw [hp y (by simp),h2]
      · refine ih ht (fun z hz => hn z ?_) (fun z hz => hp z ?_)
        · simpa using Or.inr hz
        · simpa using Or.inr hz

theorem neighbours {next prev : α → α} {pre post : List α} {p q : α}
    (h : Linked next prev (pre ++ p :: q :: post)) : next p = q ∧ prev q = p := by
  have := List.isChain_append_cons_cons.mp h
  exact this.2.1

theorem split {next prev : α → α} {pre post : List α} {p : α} :
    Linked next prev (pre ++ p :: post) ↔
      Linked next prev (pre ++ [p]) ∧ Linked next prev (p :: post) :=
  List.isChain_split

theorem head_next {next prev : α → α} {l e : α} {xs : List α}
    (h : Linked next prev (l :: xs ++ [e])) : next l = (xs ++ [e]).head (by simp) := by
  cases xs with
  | nil => exact (List.isChain_cons_cons.mp h).1.1
  | cons x xs => exact (List.isChain_cons_cons.mp h).1.1

theorem past_end {next prev : α → α} {l e : α} {xs : List α} (hx : next e ∉ xs)
    (he : next e ≠ e) (h : Linked next prev (l :: xs ++ [e])) : l ≠ e := by
  rintro rfl
  have hn := h.head_next
  cases xs with
  | nil => exact he hn
  | cons x xs => exact hx (by simp [hn])

-- Two lists from one header to one end node agree, as long as nothing is linked behind the end.
theorem unique {next prev : α → α} {e : α} {xs ys : List α} (he : next e ≠ e) :
    ∀ {l : α}, next e ∉ xs → next e ∉ ys → Linked next prev (l :: xs ++ [e]) →
      Linked next prev (l :: ys ++ [e]) → xs = ys := by
  induction xs generalizing ys with
  | nil =>
    intro l _ hy h h'
    cases ys with
    | nil => rfl
    | cons y ys =>
      have hy' : y = e := h'.head_next.symm.trans h.head_next
      exact absurd hy' (past_end (by simp_all) he (List.isChain_cons_cons.mp h').2)
  | cons x xs ih =>
    intro l hx hy h h'
    cases ys with
    | nil =>
      have hx' : x = e := h.head_next.symm.trans h'.head_next
      exact absurd hx' (past_end (by simp_all) he (List.isChain_cons_cons.mp h).2)
    | cons y ys =>
      obtain rfl : x = y := h.head_next.symm.trans h'.head_next
      rw [ih (by simp_all) (by simp_all) (List.isChain_cons_cons.mp h).2
        (List.isChain_cons_cons.mp h').2]

variable [DecidableEq α]

theorem insert {next prev : α → α} {pre post : List α} {p q n : α}
    (hd : (pre ++ p :: n :: q :: post).Nodup)
    (h : Linked next prev (pre ++ p :: q :: post)) :
    Linked (update (update next p n) n q) (update (update prev n p) q n)
      (pre ++ p :: n :: q :: post) := by
  obtain ⟨hl,hr⟩ := split.mp h
  obtain ⟨-,hr⟩ := List.isChain_cons_cons.mp hr
  simp only [List.nodup_append,List.nodup_cons,List.mem_cons,not_or] at hd
  obtain ⟨-,⟨⟨hpn,hpq,hpp⟩,⟨hnq,hnp⟩,hqp,-⟩,hpre⟩ := hd
  refine split.mpr ⟨hl.congr ?_ ?_,List.isChain_cons_cons.mpr ⟨⟨?_,?_⟩,
    List.isChain_cons_cons.mpr ⟨⟨?_,?_⟩,?_⟩⟩⟩
  · intro x hx
    rw [List.dropLast_concat] at hx
    have hxp : x ≠ p := hpre x hx p (by simp)
    have hxn : x ≠ n := hpre x hx n (by simp)
    rw [update_of_ne hxn,update_of_ne hxp]
  · intro x hx
    have hx : x ∈ pre ∨ x = p := by simpa using List.mem_of_mem_tail hx
    have hxn : x ≠ n := by
      rcases hx with hx | rfl
      · exact hpre x hx n (by simp)
      · exact hpn
    have hxq : x ≠ q := by
      rcases hx with hx | rfl
      · exact hpre x hx q (by simp)
      · exact hpq
    rw [update_of_ne hxq,update_of_ne hxn]
  · rw [update_of_ne hpn,update_self]
  · rw [update_of_ne hnq,update_self]
  · rw [update_self]
  · rw [update_self]
  · refine congr hr (fun x hx => ?_) (fun x hx => ?_)
    · have hx : x = q ∨ x ∈ post := by simpa using List.mem_of_mem_dropLast hx
      have hxn : x ≠ n := by
        rcases hx with rfl | hx
        · exact Ne.symm hnq
        · exact ne_of_mem_of_not_mem hx hnp
      have hxp : x ≠ p := by
        rcases hx with rfl | hx
        · exact Ne.symm hpq
        · exact ne_of_mem_of_not_mem hx hpp
      rw [update_of_ne hxn,update_of_ne hxp]
    · have hx : x ∈ post := by simpa using hx
      rw [update_of_ne (ne_of_mem_of_not_mem hx hqp),update_of_ne (ne_of_mem_of_not_mem hx hnp)]

theorem delete {next prev : α → α} {pre post : List α} {p q n : α}
    (hd : (pre ++ p :: n :: q :: post).Nodup)
    (h : Linked next prev (pre ++ p :: n :: q :: post)) :
    Linked (update next p q) (update prev q p) (pre ++ p :: q :: post) := by
  obtain ⟨hl,hr⟩ := split.mp h
  obtain ⟨-,hr⟩ := List.isChain_cons_cons.mp hr
  obtain ⟨-,hr⟩ := List.isChain_cons_cons.mp hr
  simp only [List.nodup_append,List.nodup_cons,List.mem_cons,not_or] at hd
  obtain ⟨-,⟨⟨hpn,hpq,hpp⟩,⟨hnq,hnp⟩,hqp,-⟩,hpre⟩ := hd
  refine split.mpr ⟨hl.congr ?_ ?_,List.isChain_cons_cons.mpr ⟨⟨?_,?_⟩,?_⟩⟩
  · intro x hx
    rw [List.dropLast_concat] at hx
    rw [update_of_ne (hpre x hx p (by simp))]
  · intro x hx
    have hx : x ∈ pre ∨ x = p := by simpa using List.mem_of_mem_tail hx
    rcases hx with hx | rfl
    · rw [update_of_ne (hpre x hx q (by simp))]
    · rw [update_of_ne hpq]
  · rw [update_self]
  · rw [update_self]
  · refine congr hr (fun x hx => ?_) (fun x hx => ?_)
    · have hx : x = q ∨ x ∈ post := by simpa using List.mem_of_mem_dropLast hx
      rcases hx with rfl | hx
      · rw [update_of_ne (Ne.symm hpq)]
      · rw [update_of_ne (ne_of_mem_of_not_mem hx hpp)]
    · have hx : x ∈ post := by simpa using hx
      rw [update_of_ne (ne_of_mem_of_not_mem hx hqp)]

end Linked

-- Follow `next` from a node until `stop` holds or `f` yields a result. `none` is a walk that
-- is still running after the given number of nodes.
def firstFrom (next : α → α) (stop : α → Bool) (f : α → Option β) :
    Nat → α → Option (Option β)
  | 0, _ => none
  | fuel + 1, x =>
    if stop x then some none
    else match f x with
      | some b => some (some b)
      | none => firstFrom next stop f fuel (next x)

theorem firstFrom_linked {next prev : α → α} {stop : α → Bool} {f : α → Option β}
    {xs : List α} {t c : α} {fuel : Nat} (h : Linked next prev (xs ++ [t]))
    (hc : (xs ++ [t]).head? = some c) (hs : ∀ x ∈ xs, stop x = false) (ht : stop t = true)
    (hf : xs.length < fuel) : firstFrom next stop f fuel c = some (xs.findSome? f) := by
  induction xs generalizing c fuel with
  | nil =>
    obtain ⟨fuel,rfl⟩ : ∃ k, fuel = k + 1 := ⟨fuel - 1,by simp at hf; omega⟩
    obtain rfl : t = c := by simpa using hc
    simp [firstFrom,ht]
  | cons x xs ih =>
    obtain ⟨fuel,rfl⟩ : ∃ k, fuel = k + 1 := ⟨fuel - 1,by omega⟩
    obtain rfl : x = c := by simpa using hc
    have hx : stop x = false := hs x (by simp)
    simp only [firstFrom,hx,Bool.false_eq_true,if_false,List.findSome?_cons]
    cases f x with
    | some b => rfl
    | none =>
      obtain ⟨y,ys,hy⟩ := List.exists_cons_of_ne_nil (l := xs ++ [t]) (by simp)
      have hn : next x = y := by
        rw [List.cons_append,hy] at h
        exact (List.isChain_cons_cons.mp h).1.1
      have hrest : Linked next prev (xs ++ [t]) := List.IsChain.tail h
      rw [hn]
      exact ih hrest (by rw [hy]; rfl) (fun z hz => hs z (by simp [hz]))
        (by simp only [List.length_cons] at hf; omega)

end RoscoM68k
