import Mathlib.Tactic

namespace RoscoM68k

section Endian

variable {bs : List UInt8} {n v : Nat}

-- The number that bytes make, the lowest one first.
def littleEndian : List UInt8 → Nat
  | [] => 0
  | b :: bs => b.toNat + littleEndian bs * 256

-- The `n` lowest bytes of a number.
def littleBytes : Nat → Nat → List UInt8
  | 0, _ => []
  | n + 1, v => UInt8.ofNat v :: littleBytes n (v / 256)

def bigEndian (bs : List UInt8) : Nat := littleEndian bs.reverse

def bigBytes (n v : Nat) : List UInt8 := (littleBytes n v).reverse

def byteSwap (n v : Nat) : Nat := littleEndian (bigBytes n v)

theorem littleBytes_length (n v : Nat) : (littleBytes n v).length = n := by
  induction n generalizing v with
  | zero => rfl
  | succ n ih => rw [littleBytes,List.length_cons,ih]

theorem bigBytes_length (n v : Nat) : (bigBytes n v).length = n := by
  rw [bigBytes,List.length_reverse,littleBytes_length]

theorem littleBytes_littleEndian (bs : List UInt8) :
    littleBytes bs.length (littleEndian bs) = bs := by
  induction bs with
  | nil => rfl
  | cons b bs ih =>
    have hb := b.toNat_lt
    have hhigh : (b.toNat + littleEndian bs * 256) / 256 = littleEndian bs := by omega
    have hlow : UInt8.ofNat (b.toNat + littleEndian bs * 256) = b := by
      refine UInt8.toNat.inj ?_
      rw [UInt8.toNat_ofNat']
      omega
    rw [List.length_cons,littleBytes,littleEndian,hhigh,hlow,ih]

theorem byteSwap_littleEndian (h : bs.length = n) :
    byteSwap n (littleEndian bs) = bigEndian bs := by
  rw [← h,byteSwap,bigBytes,littleBytes_littleEndian,bigEndian]

theorem littleBytes_byteSwap (n v : Nat) : littleBytes n (byteSwap n v) = bigBytes n v := by
  have h := littleBytes_littleEndian (bigBytes n v)
  rw [bigBytes_length] at h
  exact h

end Endian

-- A statement about a byte, for all 256 of them.
theorem byte_all {P : UInt8 → Prop} (h : ∀ n : Fin 256, P (UInt8.ofNat n.val)) (c : UInt8) :
    P c := by
  have hc := h ⟨c.toNat,c.toNat_lt⟩
  rwa [UInt8.ofNat_toNat] at hc

end RoscoM68k
