import Mathlib.Tactic
import Mathlib.Data.List.Basic

namespace RoscoM68k
namespace Window

-- Items that are sent in order, no more than a window of them ahead of what is acknowledged, over
-- two lines that keep their order but may lose what is on them and carry noise as well. An item can
-- only be told by its number modulo `M`.
structure Net where
  base : Nat
  acked : Nat
  recv : Nat
  data : List (Option Nat)
  acks : List (Option Nat)

def start : Net := ⟨0,0,0,[],[]⟩

variable {w M i n : Nat} {s t : Net} {xs ys rest ans : List (Option Nat)} {d : Option Nat}

-- The receiver takes an item only if it has the number that is waited for, and may acknowledge the
-- last one that it took again. The sender takes an acknowledgement to be about an item of its
-- window, and about all items before it. Only the first item may be sent until it is acknowledged.
inductive Step (w M : Nat) (s : Net) : Net → Prop
  | send (i : Nat) (hlow : s.acked ≤ i) (hbase : i ≤ s.base) (hw : i < s.acked + w)
      (hopen : 0 < i → 0 < s.acked) : Step w M s { s with
        base := max s.base (i + 1)
        data := s.data ++ [some i] }
  | lose (xs ys : List (Option Nat)) (d : Option Nat) (h : s.data = xs ++ d :: ys) :
      Step w M s { s with data := xs ++ ys }
  | disturb (xs ys : List (Option Nat)) (h : s.data = xs ++ ys) :
      Step w M s { s with data := xs ++ none :: ys }
  | skip (d : Option Nat) (rest ans : List (Option Nat)) (h : s.data = d :: rest)
      (ha : ∀ n, some n ∈ ans → n + 1 = s.recv) : Step w M s { s with
        data := rest
        acks := s.acks ++ ans }
  | take (i : Nat) (rest ans : List (Option Nat)) (h : s.data = some i :: rest)
      (hi : i % M = s.recv % M) (ha : ∀ n, some n ∈ ans → n = s.recv) : Step w M s { s with
        recv := s.recv + 1
        data := rest
        acks := s.acks ++ ans }
  | loseAck (xs ys : List (Option Nat)) (d : Option Nat) (h : s.acks = xs ++ d :: ys) :
      Step w M s { s with acks := xs ++ ys }
  | hear (n i a : Nat) (rest : List (Option Nat)) (h : s.acks = some n :: rest)
      (hlow : s.acked ≤ i) (hbase : i < s.base) (hi : i % M = n % M) (ha : s.acked ≤ a)
      (hai : a ≤ i + 1) : Step w M s { s with
        acked := a
        acks := rest }

-- No item on the line is a window behind what has been taken, or a window behind another that was
-- sent before it.
structure Inv (w : Nat) (s : Net) : Prop where
  acked_le : s.acked ≤ s.recv
  recv_le : s.recv ≤ s.base
  base_le : s.base ≤ s.acked + w
  data_lt : ∀ i, some i ∈ s.data → i < s.base ∧ s.recv ≤ i + w
  data_order : s.data.Pairwise fun a b => ∀ i j, a = some i → b = some j → i < j + w
  data_open : ∀ i, some i ∈ s.data → 0 < i → 0 < s.recv
  acks_lt : ∀ n, some n ∈ s.acks → n < s.recv ∧ s.acked ≤ n + 1
  acks_order : s.acks.Pairwise fun a b => ∀ m n, a = some m → b = some n → m ≤ n

namespace Inv

theorem of_start : Inv w start where
  acked_le := le_rfl
  recv_le := le_rfl
  base_le := Nat.zero_le _
  data_lt := by simp [start]
  data_order := .nil
  data_open := by simp [start]
  acks_lt := by simp [start]
  acks_order := .nil

theorem mod_eq {a b m : Nat} (h : a % m = b % m) (hab : a < b + m) (hba : b < a + m) : a = b := by
  obtain hlt | rfl | hlt := lt_trichotomy a b
  · have hd : m ∣ b - a := (Nat.modEq_iff_dvd' hlt.le).mp h
    have hz := Nat.eq_zero_of_dvd_of_lt hd (by omega)
    omega
  · rfl
  · have hd : m ∣ a - b := (Nat.modEq_iff_dvd' hlt.le).mp h.symm
    have hz := Nat.eq_zero_of_dvd_of_lt hd (by omega)
    omega

-- The number that the receiver waits for is that of one item only.
theorem taken (h : Inv w s) (hw : w < M) (hi : some i ∈ s.data) (hm : i % M = s.recv % M) :
    i = s.recv := by
  have hlt := h.data_lt i hi
  have hb := h.base_le
  have ha := h.acked_le
  exact mod_eq hm (by omega) (by omega)

theorem heard (h : Inv w s) (hw : w < M) (hn : some n ∈ s.acks) (hlow : s.acked ≤ i)
    (hbase : i < s.base) (hm : i % M = n % M) : i = n := by
  have hlt := h.acks_lt n hn
  have hb := h.base_le
  have hr := h.recv_le
  exact mod_eq hm (by omega) (by omega)

-- The lines may lose anything.
theorem sublist (h : Inv w s) (hx : xs.Sublist s.data) (hy : ys.Sublist s.acks) :
    Inv w { s with
      data := xs
      acks := ys } where
  acked_le := h.acked_le
  recv_le := h.recv_le
  base_le := h.base_le
  data_lt := fun i hi => h.data_lt i (hx.subset hi)
  data_order := h.data_order.sublist hx
  data_open := fun i hi => h.data_open i (hx.subset hi)
  acks_lt := fun n hn => h.acks_lt n (hy.subset hn)
  acks_order := h.acks_order.sublist hy

theorem disturb (h : Inv w s) (hx : s.data = xs ++ ys) :
    Inv w { s with data := xs ++ none :: ys } := by
  have hmem (i : Nat) (hi : some i ∈ xs ++ none :: ys) : some i ∈ s.data := by
    rw [hx]
    simp only [List.mem_append,List.mem_cons] at hi ⊢
    obtain hi | hi | hi := hi
    · exact .inl hi
    · exact absurd hi (Option.some_ne_none i)
    · exact .inr hi
  have hord := h.data_order
  rw [hx,List.pairwise_append] at hord
  obtain ⟨hxs,hys,hacross⟩ := hord
  constructor
  · exact h.acked_le
  · exact h.recv_le
  · exact h.base_le
  · exact fun i hi => h.data_lt i (hmem i hi)
  · rw [List.pairwise_append,List.pairwise_cons]
    refine ⟨hxs,⟨fun b _ i j ha => absurd ha.symm (Option.some_ne_none i),hys⟩,?_⟩
    intro a ha b hb i j hi hj
    obtain rfl | hb := List.mem_cons.mp hb
    · exact absurd hj.symm (Option.some_ne_none j)
    · exact hacross a ha b hb i j hi hj
  · exact fun i hi => h.data_open i (hmem i hi)
  · exact h.acks_lt
  · exact h.acks_order

theorem send (h : Inv w s) (hlow : s.acked ≤ i) (hbase : i ≤ s.base) (hw : i < s.acked + w)
    (hopen : 0 < i → 0 < s.acked) : Inv w { s with
      base := max s.base (i + 1)
      data := s.data ++ [some i] } := by
  have hb := h.base_le
  have hr := h.recv_le
  have ha := h.acked_le
  have hmem (j : Nat) (hj : some j ∈ s.data ++ [some i]) : some j ∈ s.data ∨ j = i := by
    rw [List.mem_append,List.mem_singleton] at hj
    exact hj.imp_right Option.some.inj
  constructor
  · exact ha
  · exact le_max_of_le_left hr
  · exact max_le hb (show i + 1 ≤ s.acked + w by omega)
  · intro j hj
    dsimp only
    obtain hj | rfl := hmem j hj
    · have hlt := h.data_lt j hj
      omega
    · omega
  · rw [List.pairwise_append]
    refine ⟨h.data_order,List.pairwise_singleton _ _,?_⟩
    rintro a ha' b hb' j j' rfl hj'
    rw [List.mem_singleton] at hb'
    rw [hb'] at hj'
    have hlt := h.data_lt j ha'
    have hij := Option.some.inj hj'
    omega
  · intro j hj hpos
    obtain hj | rfl := hmem j hj
    · exact h.data_open j hj hpos
    · exact lt_of_lt_of_le (hopen hpos) ha
  · exact h.acks_lt
  · exact h.acks_order

-- The first item on the line is gone, and `r` are taken: all of what is left is fresh enough.
theorem arrive {r : Nat} (h : Inv w s) (hd : s.data = d :: rest) (hr : s.recv ≤ r)
    (hr' : r ≤ s.recv + 1) (hnew : r = s.recv ∨ d = some s.recv)
    (ha : ∀ n, some n ∈ ans → n + 1 = r) : Inv w { s with
      recv := r
      data := rest
      acks := s.acks ++ ans } := by
  have hord := h.data_order
  rw [hd,List.pairwise_cons] at hord
  have hmem (i : Nat) (hi : some i ∈ rest) : some i ∈ s.data := by
    rw [hd]
    exact List.mem_cons_of_mem d hi
  have hb := h.base_le
  have hal := h.acked_le
  constructor
  · exact hal.trans hr
  · obtain rfl | rfl := hnew
    · exact h.recv_le
    · have hlt := h.data_lt s.recv (hd ▸ List.mem_cons_self)
      dsimp only
      omega
  · exact hb
  · intro i hi
    have hlt := h.data_lt i (hmem i hi)
    dsimp only
    obtain rfl | rfl := hnew
    · exact hlt
    · have hfirst := hord.1 (some i) hi s.recv i rfl rfl
      omega
  · exact hord.2
  · intro i hi hpos
    have hopen := h.data_open i (hmem i hi) hpos
    dsimp only
    omega
  · intro n hn
    dsimp only at hn ⊢
    obtain hn | hn := List.mem_append.mp hn
    · have hlt := h.acks_lt n hn
      omega
    · have heq := ha n hn
      omega
  · rw [List.pairwise_append]
    refine ⟨h.acks_order,?_,?_⟩
    · apply List.pairwise_of_forall_mem_list
      rintro a hma b hmb m n rfl rfl
      have hm := ha m hma
      have hn := ha n hmb
      omega
    · rintro a hma b hmb m n rfl rfl
      have hm := h.acks_lt m hma
      have hn := ha n hmb
      omega

theorem hear {a : Nat} (h : Inv w s) (hw : w < M) (hx : s.acks = some n :: rest)
    (hlow : s.acked ≤ i) (hbase : i < s.base) (hi : i % M = n % M) (ha : s.acked ≤ a)
    (hai : a ≤ i + 1) : Inv w { s with
      acked := a
      acks := rest } := by
  have hmem : some n ∈ s.acks := by
    rw [hx]
    exact List.mem_cons_self
  have heq := h.heard hw hmem hlow hbase hi
  have hn := h.acks_lt n hmem
  have hord := h.acks_order
  have hb := h.base_le
  rw [hx,List.pairwise_cons] at hord
  constructor
  · dsimp only
    omega
  · exact h.recv_le
  · dsimp only
    omega
  · exact h.data_lt
  · exact h.data_order
  · exact h.data_open
  · intro m hm
    have hlt := h.acks_lt m (by rw [hx]; exact List.mem_cons_of_mem _ hm)
    have hle := hord.1 (some m) hm n m rfl rfl
    dsimp only
    omega
  · exact hord.2

theorem step (h : Inv w s) (hw : w < M) (hs : Step w M s t) : Inv w t := by
  cases hs with
  | send i hlow hbase hwin hopen => exact h.send hlow hbase hwin hopen
  | lose xs ys d hx =>
    refine h.sublist ?_ (List.Sublist.refl s.acks)
    rw [hx]
    exact (List.Sublist.refl xs).append (List.sublist_cons_self d ys)
  | disturb xs ys hx => exact h.disturb hx
  | skip d rest ans hx ha => exact h.arrive hx le_rfl (Nat.le_succ _) (.inl rfl) ha
  | take i rest ans hx hi ha =>
    have heq := h.taken hw (by rw [hx]; exact List.mem_cons_self) hi
    apply h.arrive hx (Nat.le_succ _) le_rfl (.inr (by rw [heq]))
    exact fun n hn => congrArg (· + 1) (ha n hn)
  | loseAck xs ys d hx =>
    refine h.sublist (List.Sublist.refl s.data) ?_
    rw [hx]
    exact (List.Sublist.refl xs).append (List.sublist_cons_self d ys)
  | hear n i a rest hx hlow hbase hi ha hai => exact h.hear hw hx hlow hbase hi ha hai

theorem of_run (hw : w < M) (h : Relation.ReflTransGen (Step w M) start s) : Inv w s := by
  induction h with
  | refl => exact of_start
  | tail _ hs ih => exact ih.step hw hs

end Inv
end Window
end RoscoM68k
