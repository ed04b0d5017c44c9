import Mathlib.Tactic
import Mathlib.Data.List.Lex
import RoscoM68k.Base.Loops
import RoscoM68k.Base.Memory
import RoscoM68k.Base.Slices

namespace RoscoM68k

-- A string of bytes other than NUL, and the NUL that ends it.
def StrAt (m : Mem) (a : Nat) : List UInt8 → Prop
  | [] => m a = 0
  | c :: s => c ≠ 0 ∧ m a = c ∧ StrAt m (a + 1) s

namespace StrAt

variable {m : Mem} {a i : Nat} {s t : List UInt8}

theorem byte (h : StrAt m a s) (hi : i < s.length) : m (a + i) = s[i] := by
  induction s generalizing a i with
  | nil => exact absurd hi (Nat.not_lt_zero i)
  | cons c s ih =>
    cases i with
    | zero => exact h.2.1
    | succ i =>
      have hnext := ih h.2.2 (Nat.lt_of_succ_lt_succ hi)
      rw [Nat.add_right_comm] at hnext
      exact hnext

theorem nonzero (h : StrAt m a s) : ∀ c ∈ s, c ≠ 0 := by
  induction s generalizing a with
  | nil => exact fun c hc => absurd hc List.not_mem_nil
  | cons c s ih =>
    intro d hd
    obtain rfl | hd := List.mem_cons.mp hd
    · exact h.1
    · exact ih h.2.2 d hd

theorem nul (h : StrAt m a s) : m (a + s.length) = 0 := by
  induction s generalizing a with
  | nil => exact h
  | cons c s ih =>
    have hend := ih h.2.2
    rw [Nat.add_assoc,Nat.add_comm 1] at hend
    exact hend

-- There is only one string at an address.
theorem unique (h : StrAt m a s) (h' : StrAt m a t) : s = t := by
  induction s generalizing a t with
  | nil =>
    cases t with
    | nil => rfl
    | cons d t => exact absurd (h'.2.1.symm.trans h) h'.1
  | cons c s ih =>
    cases t with
    | nil => exact absurd (h.2.1.symm.trans h') h.1
    | cons d t =>
      obtain rfl : c = d := h.2.1.symm.trans h'.2.1
      rw [ih h.2.2 h'.2.2]

theorem slice_eq (h : StrAt m a s) : slice m a s.length = s := by
  induction s generalizing a with
  | nil => rfl
  | cons c s ih => rw [List.length_cons,slice,ih h.2.2,h.2.1]

theorem of_slice (h : slice m a s.length = s) (hz : m (a + s.length) = 0) (hn : 0 ∉ s) :
    StrAt m a s := by
  induction s generalizing a with
  | nil => exact hz
  | cons c s ih =>
    obtain ⟨hc,hrest⟩ := List.cons.inj h
    have hnext : a + 1 + s.length = a + (c :: s).length := by
      rw [List.length_cons]
      omega
    have hne : c ≠ 0 := by
      rintro rfl
      exact hn List.mem_cons_self
    exact ⟨hne,hc,ih hrest (hnext ▸ hz) fun hm => hn (List.mem_cons_of_mem c hm)⟩

theorem head (h : StrAt m a s) : m a = s.headD 0 := by
  cases s with
  | nil => exact h
  | cons c s => exact h.2.1

theorem drop (h : StrAt m a (s ++ t)) : StrAt m (a + s.length) t := by
  induction s generalizing a with
  | nil => exact h
  | cons c s ih =>
    have hrest := ih h.2.2
    rw [Nat.add_assoc,Nat.add_comm 1] at hrest
    exact hrest

theorem congr {m' : Mem} (h : StrAt m a s) (hm : ∀ x, a ≤ x → x ≤ a + s.length → m' x = m x) :
    StrAt m' a s := by
  induction s generalizing a with
  | nil => exact (hm a le_rfl le_rfl).trans h
  | cons c s ih =>
    rw [List.length_cons] at hm
    exact ⟨h.1,(hm a le_rfl (by omega)).trans h.2.1,
      ih h.2.2 fun x hx hx' => hm x (by omega) (by omega)⟩

-- A NUL ends the string earlier.
theorem cut (h : StrAt m a (s ++ t)) : StrAt (Function.update m (a + s.length) 0) a s := by
  induction s generalizing a with
  | nil => exact Function.update_self a 0 m
  | cons c s ih =>
    have hrest := ih h.2.2
    rw [Nat.add_assoc,Nat.add_comm 1] at hrest
    have hfirst : Function.update m (a + (s.length + 1)) 0 a = m a :=
      Function.update_of_ne (by omega) 0 m
    exact ⟨h.1,hfirst.trans h.2.1,hrest⟩

end StrAt

-- The sign of `r` is the lexicographic order of two byte strings whose bytes are ordered by `key`.
structure Orders (key : UInt8 → Int) (s t : List UInt8) (r : Int) : Prop where
  below : r < 0 ↔ s.map key < t.map key
  above : 0 < r ↔ t.map key < s.map key

namespace Orders

variable {key : UInt8 → Int} {s t u : List UInt8} {c d : UInt8} {r x y : Int}

theorem nil : Orders key [] [] 0 :=
  ⟨iff_of_false (lt_irrefl 0) (lt_irrefl _),iff_of_false (lt_irrefl 0) (lt_irrefl _)⟩

theorem shorter (hr : r < 0) : Orders key [] (d :: t) r :=
  ⟨iff_of_true hr (List.nil_lt_cons _ _),iff_of_false (by omega) (List.not_lt_nil _)⟩

theorem longer (hr : 0 < r) : Orders key (c :: s) [] r :=
  ⟨iff_of_false (by omega) (List.not_lt_nil _),iff_of_true hr (List.nil_lt_cons _ _)⟩

theorem cons (h : Orders key s t r) (c : UInt8) : Orders key (c :: s) (c :: t) r := by
  constructor
  · rw [h.below,List.map_cons,List.map_cons,List.cons_lt_cons_self]
  · rw [h.above,List.map_cons,List.map_cons,List.cons_lt_cons_self]

-- The first bytes that differ decide.
theorem differ (hk : key c ≠ key d) (hr : r = key c - key d) :
    Orders key (c :: s) (d :: t) r := by
  constructor
  · rw [List.map_cons,List.map_cons,List.cons_lt_cons_iff]
    omega
  · rw [List.map_cons,List.map_cons,List.cons_lt_cons_iff]
    omega

theorem sign_eq (h : Orders key s t x) (h' : Orders key s t y) : x.sign = y.sign := by
  have hb := h.below.trans h'.below.symm
  have ha := h.above.trans h'.above.symm
  obtain hx | rfl | hx := lt_trichotomy x 0
  · rw [Int.sign_eq_neg_one_of_neg hx,Int.sign_eq_neg_one_of_neg (hb.mp hx)]
  · have hy : y = 0 := by omega
    rw [hy]
  · rw [Int.sign_eq_one_of_pos hx,Int.sign_eq_one_of_pos (ha.mp hx)]

theorem swap (h : Orders key s t r) : Orders key t s (-r) := by
  constructor
  · rw [← h.above]
    omega
  · rw [← h.below]
    omega

theorem zero_iff (hinj : Function.Injective key) (h : Orders key s t r) : r = 0 ↔ s = t := by
  have he : s.map key = t.map key ↔ s = t := (List.map_injective_iff.mpr hinj).eq_iff
  rw [← he]
  constructor
  · rintro rfl
    have hb : ¬ s.map key < t.map key := fun hlt => lt_irrefl 0 (h.below.mpr hlt)
    have ha : ¬ t.map key < s.map key := fun hlt => lt_irrefl 0 (h.above.mpr hlt)
    exact le_antisymm (not_lt.mp ha) (not_lt.mp hb)
  · intro he
    have hb : ¬ r < 0 := fun hr => ne_of_lt (h.below.mp hr) he
    have ha : ¬ 0 < r := fun hr => ne_of_gt (h.above.mp hr) he
    omega

theorem le_iff (h : Orders key s t r) : r ≤ 0 ↔ s.map key ≤ t.map key := by
  rw [← not_lt,h.above,not_lt]

theorem trans (h : Orders key s t x) (h' : Orders key t u y) (h'' : Orders key s u r)
    (hx : x ≤ 0) (hy : y ≤ 0) : r ≤ 0 :=
  h''.le_iff.mpr ((h.le_iff.mp hx).trans (h'.le_iff.mp hy))

end Orders
end RoscoM68k
