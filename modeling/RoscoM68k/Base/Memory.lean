import Mathlib.Tactic
import Mathlib.Order.CompletePartialOrder
import Mathlib.Order.Interval.Set.Basic

namespace RoscoM68k

-- The numbers of the registers d0-d7 and a0-a6 are written as numerals.
instance regs_ne_zero : NeZero (15 : Nat) := ⟨by decide⟩

-- Masking all but the low `k` bits of a long rounds it down.
theorem and_high_mask {n k : Nat} (hk : k ≤ 32) (h : n < 2 ^ 32) :
    n &&& (2 ^ (32 - k) - 1) <<< k = n / 2 ^ k * 2 ^ k := by
  have hr : n / 2 ^ k * 2 ^ k = (n >>> k) <<< k := by
    rw [Nat.shiftRight_eq_div_pow,Nat.shiftLeft_eq]
  rw [hr]
  refine Nat.eq_of_testBit_eq (fun i => ?_)
  rw [Nat.testBit_and,Nat.testBit_shiftLeft,Nat.testBit_shiftLeft,Nat.testBit_shiftRight,
    Nat.testBit_two_pow_sub_one]
  by_cases h1 : k ≤ i
  · have h4 : k + (i - k) = i := by omega
    by_cases h2 : i < 32
    · have h3 : i - k < 32 - k := by omega
      simp [h1,h3,h4]
    · have hp : 2 ^ 32 ≤ 2 ^ i := Nat.pow_le_pow_right (by omega) (by omega)
      simp [Nat.testBit_lt_two_pow (lt_of_lt_of_le h hp),h4]
  · simp [h1]

def low32 (n : Nat) : Nat := n % 4294967296

-- An address register with a word as its index.
def indexed (a d : Nat) : Nat :=
  if d % 65536 < 32768 then low32 (a + d % 65536)
  else low32 (a + 4294967296 - 65536 + d % 65536)

theorem indexed_small {a d : Nat} (hd : d % 65536 < 32768) (ha : a + d % 65536 < 4294967296) :
    indexed a d = a + d % 65536 := by
  rw [indexed,if_pos hd]
  exact Nat.mod_eq_of_lt ha

-- Big-endian byte memory. Addresses are unbounded; a stored long keeps its low 32 bits.
abbrev Mem := Nat → UInt8

namespace Mem

def readB (m : Mem) (a : Nat) : Nat := (m a).toNat

def readW (m : Mem) (a : Nat) : Nat := m.readB a * 256 + m.readB (a + 1)

def readL (m : Mem) (a : Nat) : Nat := m.readW a * 65536 + m.readW (a + 2)

def writeB (m : Mem) (a v : Nat) : Mem := fun x => if x = a then UInt8.ofNat v else m x

def writeW (m : Mem) (a v : Nat) : Mem := (m.writeB a (v / 256)).writeB (a + 1) v

def writeL (m : Mem) (a v : Nat) : Mem := (m.writeW a (v / 65536)).writeW (a + 2) v

theorem writeB_update (m : Mem) (a v : Nat) :
    m.writeB a v = Function.update m a (UInt8.ofNat v) := by
  funext x
  rw [writeB,Function.update_apply]

theorem readB_lt (m : Mem) (a : Nat) : m.readB a < 256 := (m a).toNat_lt

theorem readW_lt (m : Mem) (a : Nat) : m.readW a < 65536 := by
  have h0 := m.readB_lt a
  have h1 := m.readB_lt (a + 1)
  simp only [readW]
  omega

theorem readL_lt (m : Mem) (a : Nat) : m.readL a < 4294967296 := by
  have h0 := m.readW_lt a
  have h1 := m.readW_lt (a + 2)
  simp only [readL]
  omega

theorem readB_writeB (m : Mem) (a b v : Nat) :
    (m.writeB a v).readB b = if b = a then v % 256 else m.readB b := by
  simp only [readB,writeB]
  split <;> simp

theorem writeB_of_ne (m : Mem) {a x : Nat} (v : Nat) (h : x ≠ a) : m.writeB a v x = m x :=
  if_neg h

theorem writeW_of_outside (m : Mem) {a x : Nat} (v : Nat) (h : x < a ∨ a + 2 ≤ x) :
    m.writeW a v x = m x := by
  rw [writeW,writeB_of_ne _ _ (by omega),writeB_of_ne _ _ (by omega)]

theorem writeL_of_outside (m : Mem) {a x : Nat} (v : Nat) (h : x < a ∨ a + 4 ≤ x) :
    m.writeL a v x = m x := by
  rw [writeL,writeW_of_outside _ _ (by omega),writeW_of_outside _ _ (by omega)]

theorem readB_congr {m m' : Mem} {a : Nat} (h : m' a = m a) : m'.readB a = m.readB a := by
  rw [readB,readB,h]

theorem readW_congr {m m' : Mem} {a : Nat} (h : ∀ x, a ≤ x → x < a + 2 → m' x = m x) :
    m'.readW a = m.readW a := by
  simp only [readW]
  rw [readB_congr (h a (by omega) (by omega)),readB_congr (h (a + 1) (by omega) (by omega))]

theorem readL_congr {m m' : Mem} {a : Nat} (h : ∀ x, a ≤ x → x < a + 4 → m' x = m x) :
    m'.readL a = m.readL a := by
  simp only [readL]
  rw [readW_congr (fun x h1 h2 => h x h1 (by omega)),
    readW_congr (fun x h1 h2 => h x (by omega) (by omega))]

@[simp] theorem readW_writeW_self (m : Mem) (a v : Nat) :
    (m.writeW a v).readW a = v % 65536 := by
  simp only [readW,writeW,readB_writeB]
  simp
  omega

theorem readW_writeL_high (m : Mem) (a v : Nat) :
    (m.writeL a v).readW a = v / 65536 % 65536 := by
  rw [writeL,readW_congr (fun x h1 h2 => writeW_of_outside _ _ (by omega)),readW_writeW_self]

theorem readW_writeL_low (m : Mem) (a v : Nat) : (m.writeL a v).readW (a + 2) = v % 65536 := by
  rw [writeL,readW_writeW_self]

@[simp] theorem readL_writeL_self (m : Mem) (a v : Nat) :
    (m.writeL a v).readL a = v % 4294967296 := by
  rw [readL,readW_writeL_high,readW_writeL_low]
  omega

theorem readL_writeL_self_of_lt (m : Mem) {a v : Nat} (h : v < 4294967296) :
    (m.writeL a v).readL a = v := by
  rw [readL_writeL_self,Nat.mod_eq_of_lt h]

theorem readL_writeL_apart (m : Mem) {a b : Nat} (v : Nat) (h : a + 4 ≤ b ∨ b + 4 ≤ a) :
    (m.writeL a v).readL b = m.readL b :=
  readL_congr (fun x h1 h2 => writeL_of_outside _ _ (by omega))

theorem readL_writeW_apart (m : Mem) {a b : Nat} (v : Nat) (h : a + 2 ≤ b ∨ b + 4 ≤ a) :
    (m.writeW a v).readL b = m.readL b :=
  readL_congr (fun x h1 h2 => writeW_of_outside _ _ (by omega))

theorem readW_writeL_apart (m : Mem) {a b : Nat} (v : Nat) (h : a + 4 ≤ b ∨ b + 2 ≤ a) :
    (m.writeL a v).readW b = m.readW b :=
  readW_congr (fun x h1 h2 => writeL_of_outside _ _ (by omega))

theorem readW_writeW_apart (m : Mem) {a b : Nat} (v : Nat) (h : a + 2 ≤ b ∨ b + 2 ≤ a) :
    (m.writeW a v).readW b = m.readW b :=
  readW_congr (fun x h1 h2 => writeW_of_outside _ _ (by omega))

-- The two memories hold the same byte at every address of `S`.
def Agree (S : Set Nat) (m m' : Mem) : Prop := ∀ x ∈ S, m' x = m x

theorem Agree.refl (S : Set Nat) (m : Mem) : Agree S m m := fun _ _ => rfl

theorem Agree.trans {S : Set Nat} {m m' m'' : Mem} (h : Agree S m m') (h' : Agree S m' m'') :
    Agree S m m'' := fun x hx => (h' x hx).trans (h x hx)

theorem Agree.mono {S T : Set Nat} {m m' : Mem} (h : Agree S m m') (ht : T ⊆ S) :
    Agree T m m' := fun x hx => h x (ht hx)

theorem Agree.readL {S : Set Nat} {m m' : Mem} (h : Agree S m m') {a : Nat}
    (ha : Set.Ico a (a + 4) ⊆ S) : m'.readL a = m.readL a :=
  readL_congr (fun x h1 h2 => h x (ha ⟨h1,h2⟩))

theorem Agree.readW {S : Set Nat} {m m' : Mem} (h : Agree S m m') {a : Nat}
    (ha : Set.Ico a (a + 2) ⊆ S) : m'.readW a = m.readW a :=
  readW_congr (fun x h1 h2 => h x (ha ⟨h1,h2⟩))

theorem agree_writeL (m : Mem) {S : Set Nat} {a : Nat} (v : Nat)
    (h : ∀ x ∈ S, x < a ∨ a + 4 ≤ x) : Agree S m (m.writeL a v) :=
  fun x hx => writeL_of_outside _ _ (h x hx)

theorem agree_writeW (m : Mem) {S : Set Nat} {a : Nat} (v : Nat)
    (h : ∀ x ∈ S, x < a ∨ a + 2 ≤ x) : Agree S m (m.writeW a v) :=
  fun x hx => writeW_of_outside _ _ (h x hx)

end Mem
end RoscoM68k
