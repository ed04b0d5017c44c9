import Mathlib.Data.Nat.Bitwise
import RoscoM68k.Base.Loops

namespace RoscoM68k

-- The variables of `divmod`, all 32 bits wide.
structure Divmod where
  num : UInt32
  den : UInt32
  bit : UInt32
  res : UInt32

namespace Divmod

def scales (s : Divmod) : Bool :=
  s.den < s.num && s.bit != 0 && s.den &&& ((1 : UInt32) <<< 31) == 0

def scale (s : Divmod) : Divmod :=
  { s with
    den := s.den <<< 1
    bit := s.bit <<< 1 }

def subtracts (s : Divmod) : Bool := s.bit != 0

def subtract (s : Divmod) : Divmod :=
  let s := if s.num ≥ s.den then
    { s with
      num := s.num - s.den
      res := s.res ||| s.bit } else s
  { s with
    bit := s.bit >>> 1
    den := s.den >>> 1 }

end Divmod

-- Each loop may make `fuel` rounds.
def divmod (fuel : Nat) (num den : UInt32) (mod : Bool) : Option UInt32 := do
  let s ← loop Divmod.scales Divmod.scale fuel ⟨num,den,1,0⟩
  let s ← loop Divmod.subtracts Divmod.subtract fuel s
  if mod then s.num else s.res

def divsi3 (fuel : Nat) (dividend divisor : UInt32) : Option UInt32 :=
  divmod fuel dividend divisor false

def modsi3 (fuel : Nat) (dividend divisor : UInt32) : Option UInt32 :=
  divmod fuel dividend divisor true

def udivsi3 (fuel : Nat) (dividend divisor : UInt32) : Option UInt32 :=
  divmod fuel dividend divisor false

def umodsi3 (fuel : Nat) (dividend divisor : UInt32) : Option UInt32 :=
  divmod fuel dividend divisor true

structure Mulsi3 where
  a : UInt32
  b : UInt32
  r : UInt32

namespace Mulsi3

def adds (s : Mulsi3) : Bool := s.a != 0

def add (s : Mulsi3) : Mulsi3 :=
  let s := if s.a &&& 1 != 0 then { s with r := s.r + s.b } else s
  { s with
    a := s.a >>> 1
    b := s.b <<< 1 }

end Mulsi3

def mulsi3 (fuel : Nat) (a b : UInt32) : Option UInt32 :=
  (loop Mulsi3.adds Mulsi3.add fuel ⟨a,b,0⟩).map (·.r)

section Words

variable {a b : UInt32}

theorem toNat_shl (h : a.toNat < 2 ^ 31) : (a <<< 1).toNat = 2 * a.toNat := by
  rw [UInt32.toNat_shiftLeft]
  change a.toNat <<< 1 % 2 ^ 32 = _
  rw [Nat.shiftLeft_eq]
  omega

theorem toNat_shl_mod (a : UInt32) : (a <<< 1).toNat = 2 * a.toNat % 2 ^ 32 := by
  rw [UInt32.toNat_shiftLeft]
  change a.toNat <<< 1 % 2 ^ 32 = _
  rw [Nat.shiftLeft_eq]
  omega

theorem toNat_shr (a : UInt32) : (a >>> 1).toNat = a.toNat / 2 := by
  rw [UInt32.toNat_shiftRight]
  change a.toNat >>> 1 = _
  rw [Nat.shiftRight_eq_div_pow]

theorem top_clear : a &&& ((1 : UInt32) <<< 31) = 0 ↔ a.toNat < 2 ^ 31 := by
  have hlt := a.toNat_lt
  rw [← UInt32.toNat_inj,UInt32.toNat_and]
  change a.toNat &&& 2 ^ 31 = 0 ↔ _
  rw [Nat.and_two_pow,Nat.testBit_eq_decide_div_mod_eq]
  simp only [mul_eq_zero,Bool.toNat_eq_zero,decide_eq_false_iff_not]
  omega

theorem low_set : a &&& 1 ≠ 0 ↔ a.toNat % 2 = 1 := by
  rw [Ne,← UInt32.toNat_inj,UInt32.toNat_and]
  change ¬ a.toNat &&& 1 = 0 ↔ _
  rw [Nat.and_one_is_mod]
  omega

-- A quotient takes its next bit below those it has.
theorem toNat_or_add {n : Nat} (ha : 2 ^ n ∣ a.toNat) (hb : b.toNat < 2 ^ n) :
    (a ||| b).toNat = a.toNat + b.toNat := by
  obtain ⟨q,hq⟩ := ha
  rw [UInt32.toNat_or,hq,Nat.two_pow_add_eq_or_of_lt hb]

end Words

namespace Divmod

variable {s : Divmod} {n d k : Nat}

-- After `k` rounds of the first loop nothing of the divisor is lost.
structure Scaled (num d k : Nat) (s : Divmod) : Prop where
  num : s.num.toNat = num
  den : s.den.toNat = d * 2 ^ k
  bit : s.bit.toNat = 2 ^ k
  res : s.res = 0

theorem scales_iff : s.scales = true ↔
    s.den.toNat < s.num.toNat ∧ s.bit ≠ 0 ∧ s.den.toNat < 2 ^ 31 := by
  rw [scales]
  simp only [Bool.and_eq_true,decide_eq_true_iff,bne_iff_ne,beq_iff_eq,top_clear,and_assoc]
  rfl

theorem Scaled.next (h : Scaled n d k s) (hd : 0 < d) (hc : s.scales = true) :
    Scaled n d (k + 1) s.scale where
  num := h.num
  den := by
    obtain ⟨-,-,hlt⟩ := scales_iff.mp hc
    rw [scale,toNat_shl hlt,h.den,Nat.pow_succ]
    ring
  bit := by
    obtain ⟨-,-,hlt⟩ := scales_iff.mp hc
    have hle : 2 ^ k ≤ d * 2 ^ k := Nat.le_mul_of_pos_left _ hd
    have hden := h.den
    have hbit := h.bit
    rw [scale,toNat_shl (by omega),h.bit,Nat.pow_succ]
    ring
  res := h.res

-- The dividend is below what the second loop can take from it.
theorem Scaled.covers (h : Scaled n d k s) (hd : 0 < d) (hc : s.scales = false) :
    n < d * 2 ^ (k + 1) := by
  have hnum := s.num.toNat_lt
  have hbit : s.bit ≠ 0 := fun hz => by
    have hb := h.bit
    rw [hz] at hb
    exact absurd hb.symm (Nat.two_pow_pos k).ne'
  have hstop : ¬ (s.den.toNat < s.num.toNat ∧ s.bit ≠ 0 ∧ s.den.toNat < 2 ^ 31) := fun hs =>
    Bool.false_ne_true (hc.symm.trans (scales_iff.mpr hs))
  have hpos : 0 < d * 2 ^ k := Nat.mul_pos hd (Nat.two_pow_pos k)
  have hdouble : d * 2 ^ (k + 1) = 2 * (d * 2 ^ k) := by
    rw [Nat.pow_succ]
    ring
  have hn := h.num
  have hden := h.den
  rw [hdouble]
  by_cases hlt : s.den.toNat < s.num.toNat
  · have htop : ¬ s.den.toNat < 2 ^ 31 := fun ht => hstop ⟨hlt,hbit,ht⟩
    omega
  · omega

-- With `k` bits of the quotient left.
structure Divided (num d k : Nat) (s : Divmod) : Prop where
  den : s.den.toNat = d * 2 ^ k / 2
  bit : s.bit.toNat = 2 ^ k / 2
  sum : num = s.res.toNat * d + s.num.toNat
  dvd : 2 ^ k ∣ s.res.toNat
  lt : s.num.toNat < d * 2 ^ k

theorem Scaled.divided (h : Scaled n d k s) (hn : n < d * 2 ^ (k + 1)) :
    Divided n d (k + 1) s where
  den := by
    rw [h.den,Nat.pow_succ,← Nat.mul_assoc,Nat.mul_div_cancel _ (by decide)]
  bit := by
    rw [h.bit,Nat.pow_succ,Nat.mul_div_cancel _ (by decide)]
  sum := by
    rw [h.res,h.num]
    exact (by simp : n = 0 * d + n)
  dvd := by
    rw [h.res]
    exact dvd_zero _
  lt := by
    rw [h.num]
    exact hn

theorem Divided.next (h : Divided n d (k + 1) s) : Divided n d k s.subtract := by
  have hden : s.den.toNat = d * 2 ^ k := by
    rw [h.den,Nat.pow_succ,← Nat.mul_assoc,Nat.mul_div_cancel _ (by decide)]
  have hbit : s.bit.toNat = 2 ^ k := by
    rw [h.bit,Nat.pow_succ,Nat.mul_div_cancel _ (by decide)]
  have hlt := h.lt
  have hsum := h.sum
  have hdvd : 2 ^ k ∣ s.res.toNat := (Nat.pow_dvd_pow 2 k.le_succ).trans h.dvd
  have hdouble : d * 2 ^ (k + 1) = 2 * (d * 2 ^ k) := by
    rw [Nat.pow_succ]
    ring
  by_cases hge : s.num ≥ s.den
  · have hle : s.den.toNat ≤ s.num.toNat := hge
    have hres : (s.res ||| s.bit).toNat = s.res.toNat + 2 ^ k := by
      rw [toNat_or_add h.dvd (by rw [hbit]; exact Nat.pow_lt_pow_succ (by decide)),hbit]
    have hnum : (s.num - s.den).toNat = s.num.toNat - s.den.toNat :=
      UInt32.toNat_sub_of_le _ _ hge
    rw [subtract,if_pos hge]
    refine ⟨by rw [toNat_shr,hden],by rw [toNat_shr,hbit],?_,?_,?_⟩
    · rw [hres,hnum,Nat.add_mul,Nat.mul_comm (2 ^ k)]
      omega
    · rw [hres]
      exact Nat.dvd_add hdvd (Nat.dvd_refl _)
    · rw [hnum]
      omega
  · have hless : s.num.toNat < s.den.toNat := Nat.lt_of_not_le hge
    rw [subtract,if_neg hge]
    refine ⟨by rw [toNat_shr,hden],by rw [toNat_shr,hbit],hsum,hdvd,?_⟩
    change s.num.toNat < d * 2 ^ k
    omega

-- Both loops stop within 32 rounds, and the second leaves quotient and remainder.
theorem scaled_loop (num : UInt32) {den : UInt32} (hd : 0 < den.toNat) :
    ∃ k s, loop scales scale 32 ⟨num,den,1,0⟩ = some s ∧
      Divided num.toNat den.toNat (k + 1) s ∧ k ≤ 31 := by
  have hzero : Scaled num.toNat den.toNat 0 ⟨num,den,1,0⟩ :=
    ⟨rfl,(Nat.mul_one _).symm,rfl,rfl⟩
  have hstop : ∀ s, Scaled num.toNat den.toNat 31 s → s.scales = false := fun s hs => by
    rw [Bool.eq_false_iff]
    intro hc
    obtain ⟨-,-,hlt⟩ := scales_iff.mp hc
    rw [hs.den] at hlt
    have hle : 2 ^ 31 ≤ den.toNat * 2 ^ 31 := Nat.le_mul_of_pos_left _ hd
    omega
  obtain ⟨k,s,hrun,hs,hk,hc⟩ :=
    Loop.counted (n := 31) (fun k s => Scaled num.toNat den.toNat k s) hzero
      (fun k s _ hs hc => hs.next hd hc) hstop
  exact ⟨k,s,Loop.mono hrun (by decide),hs.divided (hs.covers hd hc),hk⟩

theorem subtracts_iff : s.subtracts = true ↔ s.bit.toNat ≠ 0 := by
  rw [subtracts,bne_iff_ne,Ne,← UInt32.toNat_inj]
  rfl

theorem divided_loop (h : Divided n d (k + 1) s) (hk : k ≤ 31) :
    ∃ t, loop subtracts subtract 32 s = some t ∧ Divided n d 0 t := by
  have hstop : ∀ t, Divided n d (k + 1 - (k + 1)) t → t.subtracts = false := fun t ht => by
    rw [Bool.eq_false_iff,Ne,subtracts_iff,ht.bit,Nat.sub_self]
    decide
  have hstep : ∀ i t, i < k + 1 → Divided n d (k + 1 - i) t → t.subtracts = true →
      Divided n d (k + 1 - (i + 1)) t.subtract := fun i t hi ht _ => by
    obtain ⟨j,hj⟩ : ∃ j, k + 1 - i = j + 1 := ⟨k - i,by omega⟩
    rw [hj] at ht
    have hnext : k + 1 - (i + 1) = j := by omega
    rw [hnext]
    exact ht.next
  obtain ⟨i,t,hrun,ht,hi,hc⟩ := Loop.counted (fun i t => Divided n d (k + 1 - i) t) h hstep hstop
  refine ⟨t,Loop.mono hrun (by omega),?_⟩
  have hbit : ¬ t.bit.toNat ≠ 0 := fun hb =>
    Bool.false_ne_true (hc.symm.trans (subtracts_iff.mpr hb))
  rw [ht.bit] at hbit
  obtain hz | ⟨j,hj⟩ : k + 1 - i = 0 ∨ ∃ j, k + 1 - i = j + 1 := by
    cases k + 1 - i with
    | zero => exact .inl rfl
    | succ j => exact .inr ⟨j,rfl⟩
  · rwa [hz] at ht
  · rw [hj,Nat.pow_succ,Nat.mul_div_cancel _ (by decide)] at hbit
    exact absurd (Nat.two_pow_pos j).ne' hbit

-- The first loop shifts its bit out in 32 rounds, whatever the divisor.
theorem scale_terminates (num den : UInt32) :
    ∃ s, loop scales scale 32 ⟨num,den,1,0⟩ = some s := by
  have hstep : ∀ i (s : Divmod), i < 32 → s.bit.toNat = 2 ^ i % 2 ^ 32 → s.scales = true →
      s.scale.bit.toNat = 2 ^ (i + 1) % 2 ^ 32 := fun i s _ hs _ => by
    rw [scale,toNat_shl_mod,hs,Nat.pow_succ]
    omega
  have hstop : ∀ s : Divmod, s.bit.toNat = 2 ^ 32 % 2 ^ 32 → s.scales = false := fun s hs => by
    rw [Bool.eq_false_iff]
    intro hc
    obtain ⟨-,hbit,-⟩ := scales_iff.mp hc
    exact hbit (UInt32.toNat_inj.mp hs)
  obtain ⟨i,s,hrun,-⟩ := Loop.counted (s := ⟨num,den,1,0⟩)
    (fun i (s : Divmod) => s.bit.toNat = 2 ^ i % 2 ^ 32) rfl hstep hstop
  exact ⟨s,hrun⟩

theorem subtract_terminates (s : Divmod) : ∃ t, loop subtracts subtract 32 s = some t := by
  have hbit : ∀ t : Divmod, t.subtract.bit = t.bit >>> 1 := fun t => by
    rw [subtract]
    split <;> rfl
  have hstep : ∀ i (t : Divmod), i < 32 → t.bit.toNat < 2 ^ (32 - i) → t.subtracts = true →
      t.subtract.bit.toNat < 2 ^ (32 - (i + 1)) := fun i t hi ht _ => by
    obtain ⟨j,hj⟩ : ∃ j, 32 - i = j + 1 := ⟨31 - i,by omega⟩
    have hnext : 32 - (i + 1) = j := by omega
    rw [hj,Nat.pow_succ] at ht
    rw [hbit,toNat_shr,hnext]
    omega
  have hstop : ∀ t : Divmod, t.bit.toNat < 2 ^ (32 - 32) → t.subtracts = false := fun t ht => by
    rw [Bool.eq_false_iff,Ne,subtracts_iff]
    omega
  obtain ⟨i,t,hrun,-⟩ := Loop.counted (fun i (t : Divmod) => t.bit.toNat < 2 ^ (32 - i))
    s.bit.toNat_lt hstep hstop
  exact ⟨t,hrun⟩

end Divmod

variable {fuel : Nat} {num den : UInt32}

theorem divmod_terminates (h : 32 ≤ fuel) (num den : UInt32) (mod : Bool) :
    ∃ r, divmod fuel num den mod = some r := by
  obtain ⟨s,hs⟩ := Divmod.scale_terminates num den
  obtain ⟨t,ht⟩ := Divmod.subtract_terminates s
  refine ⟨if mod then t.num else t.res,?_⟩
  rw [divmod,Loop.mono hs h,Option.bind_eq_bind,Option.bind_some,Loop.mono ht h]
  cases mod <;> rfl

theorem divmod_eq (h : 32 ≤ fuel) (num : UInt32) (hd : 0 < den.toNat) :
    divmod fuel num den false = some (num / den) ∧ divmod fuel num den true = some (num % den) := by
  obtain ⟨k,s,hs,hdiv,hk⟩ := Divmod.scaled_loop num hd
  obtain ⟨t,ht,hend⟩ := Divmod.divided_loop hdiv hk
  have hlt : t.num.toNat < den.toNat := by
    have hl := hend.lt
    rwa [Nat.pow_zero,Nat.mul_one] at hl
  have hsum := hend.sum
  have hq : t.res = num / den := by
    rw [← UInt32.toNat_inj,UInt32.toNat_div,hsum,Nat.add_comm,Nat.add_mul_div_right _ _ hd,
      Nat.div_eq_of_lt hlt,Nat.zero_add]
  have hr : t.num = num % den := by
    rw [← UInt32.toNat_inj,UInt32.toNat_mod,hsum,Nat.add_comm,Nat.add_mul_mod_self_right,
      Nat.mod_eq_of_lt hlt]
  simp only [divmod,Loop.mono hs h,Loop.mono ht h,Option.bind_eq_bind,Option.bind_some]
  exact ⟨congrArg some hq,congrArg some hr⟩

namespace Mulsi3

-- What is added and what is still to be added make up the product.
structure Adds (a b k : Nat) (s : Mulsi3) : Prop where
  left : s.a.toNat < 2 ^ (32 - k)
  sum : (s.r.toNat + s.a.toNat * s.b.toNat) % 2 ^ 32 = a * b % 2 ^ 32

theorem adds_iff {s : Mulsi3} : s.adds = true ↔ s.a.toNat ≠ 0 := by
  rw [adds,bne_iff_ne,Ne,← UInt32.toNat_inj]
  rfl

theorem Adds.next {a b k : Nat} {s : Mulsi3} (h : Adds a b k s) (hk : k < 32) :
    Adds a b (k + 1) s.add := by
  have hleft := h.left
  have hsum := h.sum
  obtain ⟨j,hj⟩ : ∃ j, 32 - k = j + 1 := ⟨31 - k,by omega⟩
  have hnext : 32 - (k + 1) = j := by omega
  rw [hj,Nat.pow_succ] at hleft
  have hhalf : (s.a >>> 1).toNat < 2 ^ (32 - (k + 1)) := by
    rw [toNat_shr,hnext]
    omega
  obtain ⟨q,hq⟩ : ∃ q, q = s.a.toNat / 2 := ⟨_,rfl⟩
  by_cases hodd : s.a &&& 1 ≠ 0
  · have hlow := low_set.mp hodd
    have ha : s.a.toNat = 2 * q + 1 := by omega
    have hadd : s.add = ⟨s.a >>> 1,s.b <<< 1,s.r + s.b⟩ := by
      simp only [add,bne_iff_ne]
      rw [if_pos hodd]
    rw [hadd]
    refine ⟨hhalf,?_⟩
    simp only [toNat_shr,toNat_shl_mod,UInt32.toNat_add,← hq]
    rw [← hsum,ha,Nat.mod_add_mod,Nat.add_mod,Nat.mul_mod_mod,← Nat.add_mod]
    congr 1
    ring
  · have hlow : ¬ s.a.toNat % 2 = 1 := fun ho => hodd (low_set.mpr ho)
    have ha : s.a.toNat = 2 * q := by omega
    have hadd : s.add = ⟨s.a >>> 1,s.b <<< 1,s.r⟩ := by
      simp only [add,bne_iff_ne]
      rw [if_neg hodd]
    rw [hadd]
    refine ⟨hhalf,?_⟩
    simp only [toNat_shr,toNat_shl_mod,← hq]
    rw [← hsum,ha,Nat.add_mod,Nat.mul_mod_mod,← Nat.add_mod]
    congr 1
    ring

end Mulsi3

theorem mulsi3_eq (h : 32 ≤ fuel) (a b : UInt32) : mulsi3 fuel a b = some (a * b) := by
  have hstop : ∀ s, Mulsi3.Adds a.toNat b.toNat 32 s → s.adds = false := fun s hs => by
    have hleft := hs.left
    rw [Bool.eq_false_iff,Ne,Mulsi3.adds_iff]
    omega
  have hzero : Mulsi3.Adds a.toNat b.toNat 0 ⟨a,b,0⟩ :=
    ⟨a.toNat_lt,congrArg (· % 2 ^ 32) (Nat.zero_add _)⟩
  obtain ⟨k,s,hrun,hs,-,hc⟩ := Loop.counted (fun k s => Mulsi3.Adds a.toNat b.toNat k s) hzero
    (fun k s hk hs _ => hs.next hk) hstop
  have hz : s.a.toNat = 0 := by
    by_contra hne
    exact Bool.false_ne_true (hc.symm.trans (Mulsi3.adds_iff.mpr hne))
  have hsum := hs.sum
  rw [hz,Nat.zero_mul,Nat.add_zero,Nat.mod_eq_of_lt s.r.toNat_lt] at hsum
  have hr : s.r = a * b := by rw [← UInt32.toNat_inj,hsum,UInt32.toNat_mul]
  rw [mulsi3,Loop.mono hrun h,Option.map_some,hr]

theorem unsigned_support (h : 32 ≤ fuel) (num den : UInt32) :
    (∀ mod, ∃ r, divmod fuel num den mod = some r) ∧
      (∃ p, mulsi3 fuel num den = some p ∧ p.toNat = num.toNat * den.toNat % 2 ^ 32) ∧
      (den ≠ 0 → ∃ q r, udivsi3 fuel num den = some q ∧ umodsi3 fuel num den = some r ∧
        num.toNat = q.toNat * den.toNat + r.toNat ∧ r.toNat < den.toNat) := by
  refine ⟨divmod_terminates h num den,⟨_,mulsi3_eq h num den,UInt32.toNat_mul num den⟩,?_⟩
  intro hne
  have hd : 0 < den.toNat := Nat.pos_of_ne_zero fun hz => hne (UInt32.toNat_inj.mp hz)
  obtain ⟨hq,hr⟩ := divmod_eq h num hd
  refine ⟨_,_,hq,hr,?_,?_⟩
  · rw [UInt32.toNat_div,UInt32.toNat_mod,Nat.mul_comm]
    exact (Nat.div_add_mod _ _).symm
  · rw [UInt32.toNat_mod]
    exact Nat.mod_lt _ hd

theorem unsigned_support_large : (∀ mod, ∃ r, divmod 32 0xffffffff 0x80000001 mod = some r) ∧
    (∃ p, mulsi3 32 0xffffffff 0x80000001 = some p ∧
      p.toNat = UInt32.toNat 0xffffffff * UInt32.toNat 0x80000001 % 2 ^ 32) ∧
    ((0x80000001 : UInt32) ≠ 0 → ∃ q r, udivsi3 32 0xffffffff 0x80000001 = some q ∧
      umodsi3 32 0xffffffff 0x80000001 = some r ∧
      UInt32.toNat 0xffffffff = q.toNat * UInt32.toNat 0x80000001 + r.toNat ∧
      r.toNat < UInt32.toNat 0x80000001) :=
  unsigned_support (Nat.le_refl 32) 0xffffffff 0x80000001

section Signs

-- What a 32-bit pattern is to signed arithmetic.
def signed (n : Nat) : Int := if n < 2 ^ 31 then n else n - 2 ^ 32

theorem signed_low {n : Nat} (h : n < 2 ^ 31) : signed n = n := if_pos h

theorem signed_high {n : Nat} (h : ¬ n < 2 ^ 31) (hn : n < 2 ^ 32) :
    signed n = -((2 ^ 32 - n : Nat) : Int) := by
  rw [signed,if_neg h]
  omega

theorem toInt_signed (u : UInt32) : u.toInt32.toInt = signed u.toNat := by
  change u.toBitVec.toInt = _
  rw [BitVec.toInt_eq_toNat_cond,signed]
  change (if 2 * u.toNat < 2 ^ 32 then (u.toNat : Int) else u.toNat - ((2 ^ 32 : Nat) : Int)) = _
  split <;> split <;> omega

-- The operands for which a division of their patterns is one of their values.
def SignsFit (a b : Int) : Prop :=
  0 ≤ a ∧ 0 < b ∨ 0 ≤ a ∧ b < 0 ∧ a < -b ∨ a < 0 ∧ b = 1 ∨ a < 0 ∧ a = b

instance (a b : Int) : Decidable (SignsFit a b) := inferInstanceAs (Decidable (_ ∨ _ ∨ _ ∨ _))

variable {n d : Nat}

def Truncates (n d : Nat) : Prop :=
  signed (n / d) = (signed n).tdiv (signed d) ∧ signed (n % d) = (signed n).tmod (signed d)

theorem truncates_low (hn : n < 2 ^ 31) (hd : d < 2 ^ 31) : Truncates n d := by
  have hq : n / d < 2 ^ 31 := Nat.lt_of_le_of_lt (Nat.div_le_self n d) hn
  have hr : n % d < 2 ^ 31 := Nat.lt_of_le_of_lt (Nat.mod_le n d) hn
  rw [Truncates,signed_low hq,signed_low hr,signed_low hn,signed_low hd]
  exact ⟨rfl,rfl⟩

theorem truncates_divisor (hn : n < 2 ^ 31) (hd : ¬ d < 2 ^ 31) (hd' : d < 2 ^ 32) :
    Truncates n d ↔ n < 2 ^ 32 - d := by
  have hlt : n < d := by omega
  rw [Truncates,Nat.div_eq_of_lt hlt,Nat.mod_eq_of_lt hlt,signed_high hd hd',signed_low hn,
    Int.tdiv_neg,Int.tmod_neg,signed_low (by decide)]
  obtain ⟨m,hm⟩ : ∃ m, m = 2 ^ 32 - d := ⟨_,rfl⟩
  rw [← hm]
  have hpos : 0 < m := by omega
  have hq : (n : Int).tdiv m = (n / m : Nat) := rfl
  have hr : (n : Int).tmod m = (n % m : Nat) := rfl
  rw [hq,hr]
  constructor
  · rintro ⟨hz,-⟩
    exact (Nat.div_eq_zero_iff_lt hpos).mp (by omega)
  · intro hl
    rw [Nat.div_eq_of_lt hl,Nat.mod_eq_of_lt hl]
    exact ⟨rfl,rfl⟩

theorem truncates_dividend (hn : ¬ n < 2 ^ 31) (hn' : n < 2 ^ 32) (hd : d < 2 ^ 31) (hpos : 0 < d) :
    Truncates n d ↔ d = 1 := by
  constructor
  · rintro ⟨hq,-⟩
    by_contra hne
    have hone : 1 ≤ n / d := (Nat.one_le_div_iff hpos).mpr (by omega)
    have hhalf : n / d ≤ n / 2 := Nat.div_le_div_left (by omega) (by decide)
    rw [signed_low (by omega),signed_high hn hn',signed_low hd,Int.neg_tdiv] at hq
    obtain ⟨q,hnat⟩ : ∃ q : Nat, ((2 ^ 32 - n : Nat) : Int).tdiv d = q := ⟨_,rfl⟩
    rw [hnat] at hq
    omega
  · rintro rfl
    rw [Truncates,Nat.div_one,Nat.mod_one,signed_high hn hn',signed_low (n := 1) (by decide)]
    exact ⟨(Int.tdiv_one _).symm,(Int.tmod_one _).symm⟩

theorem truncates_both (hn : ¬ n < 2 ^ 31) (hn' : n < 2 ^ 32) (hd : ¬ d < 2 ^ 31)
    (hd' : d < 2 ^ 32) : Truncates n d ↔ n = d := by
  obtain ⟨p,hp⟩ : ∃ p, p = 2 ^ 32 - n := ⟨_,rfl⟩
  obtain ⟨m,hm⟩ : ∃ m, m = 2 ^ 32 - d := ⟨_,rfl⟩
  have hpos : 0 < m := by omega
  have hquot : (-(p : Int)).tdiv (-(m : Int)) = (p / m : Nat) := Int.neg_tdiv_neg p m
  have hrem : (-(m : Int)).tmod (-(m : Int)) = 0 := Int.tmod_self
  constructor
  · rintro ⟨hq,-⟩
    rw [signed_high hn hn',signed_high hd hd',← hp,← hm,hquot] at hq
    obtain hlt | hge := Nat.lt_or_ge n d
    · rw [Nat.div_eq_of_lt hlt,signed_low (by decide)] at hq
      have hone : 1 ≤ p / m := (Nat.one_le_div_iff hpos).mpr (by omega)
      omega
    · have hone : n / d = 1 := Nat.div_eq_of_lt_le (by omega) (by omega)
      rw [hone,signed_low (by decide)] at hq
      have hle : m ≤ p := (Nat.one_le_div_iff hpos).mp (by omega)
      omega
  · rintro rfl
    rw [Truncates,Nat.div_self (by omega),Nat.mod_self,signed_high hn hn',← hp,
      Int.tdiv_self (by omega),Int.tmod_self]
    exact ⟨rfl,rfl⟩

theorem truncates_iff (hn : n < 2 ^ 32) (hd : d < 2 ^ 32) (hpos : 0 < d) :
    Truncates n d ↔ SignsFit (signed n) (signed d) := by
  by_cases hnl : n < 2 ^ 31
  · by_cases hdl : d < 2 ^ 31
    · rw [signed_low hnl,signed_low hdl]
      exact iff_of_true (truncates_low hnl hdl) (.inl (by omega))
    · rw [truncates_divisor hnl hdl hd,signed_low hnl,signed_high hdl hd,SignsFit]
      omega
  · by_cases hdl : d < 2 ^ 31
    · rw [truncates_dividend hnl hn hdl hpos,signed_high hnl hn,signed_low hdl,SignsFit]
      omega
    · rw [truncates_both hnl hn hdl hd,signed_high hnl hn,signed_high hdl hd,SignsFit]
      omega

end Signs

theorem toInt_pattern (a : Int32) : a.toInt = signed a.toUInt32.toNat := toInt_signed a.toUInt32

theorem signed_support (h : 32 ≤ fuel) (a b : Int32) (hb : b ≠ 0) :
    (∃ q r, divsi3 fuel a.toUInt32 b.toUInt32 = some q ∧
        modsi3 fuel a.toUInt32 b.toUInt32 = some r ∧
        q.toInt32.toInt = a.toInt.tdiv b.toInt ∧ r.toInt32.toInt = a.toInt.tmod b.toInt) ↔
      SignsFit a.toInt b.toInt := by
  have hd : 0 < b.toUInt32.toNat := Nat.pos_of_ne_zero fun hz =>
    hb (Int32.toBitVec.inj (congrArg UInt32.toBitVec (UInt32.toNat_inj.mp hz)))
  obtain ⟨hq,hr⟩ := divmod_eq h a.toUInt32 hd
  have hquot : (a.toUInt32 / b.toUInt32).toInt32.toInt =
      signed (a.toUInt32.toNat / b.toUInt32.toNat) := toInt_signed _
  have hrem : (a.toUInt32 % b.toUInt32).toInt32.toInt =
      signed (a.toUInt32.toNat % b.toUInt32.toNat) := toInt_signed _
  rw [toInt_pattern a,toInt_pattern b,← truncates_iff a.toUInt32.toNat_lt b.toUInt32.toNat_lt hd,
    Truncates,← hquot,← hrem]
  constructor
  · rintro ⟨q,r,hq',hr',hcond⟩
    obtain rfl := Option.some.inj (hq.symm.trans hq')
    obtain rfl := Option.some.inj (hr.symm.trans hr')
    exact hcond
  · intro hcond
    exact ⟨_,_,hq,hr,hcond⟩

theorem signed_support_equal :
    (∃ q r, divsi3 32 (Int32.toUInt32 (-7)) (Int32.toUInt32 (-7)) = some q ∧
      modsi3 32 (Int32.toUInt32 (-7)) (Int32.toUInt32 (-7)) = some r ∧
      q.toInt32.toInt = (Int32.toInt (-7)).tdiv (Int32.toInt (-7)) ∧
      r.toInt32.toInt = (Int32.toInt (-7)).tmod (Int32.toInt (-7))) ↔
    SignsFit (Int32.toInt (-7)) (Int32.toInt (-7)) :=
  signed_support (Nat.le_refl 32) (-7) (-7) (by decide)

-- The quotient of -6 by 2 comes out positive.
theorem signed_unsupported : divsi3 32 (Int32.toUInt32 (-6)) (Int32.toUInt32 2) = some 0x7ffffffd ∧
    UInt32.toInt32 0x7ffffffd ≠ -3 ∧ (Int32.toInt (-6)).tdiv (Int32.toInt 2) = -3 := by
  decide +kernel

end RoscoM68k
