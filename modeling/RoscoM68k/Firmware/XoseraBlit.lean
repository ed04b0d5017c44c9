import Mathlib.Data.BitVec
import RoscoM68k.Base.Blitter

namespace RoscoM68k

-- The registers of the Xosera blitter; a write to the last of them starts an operation.
structure BlitRegs where
  ctrl : BitVec 16
  andc : BitVec 16
  xor : BitVec 16
  modS : BitVec 16
  srcS : BitVec 16
  modD : BitVec 16
  dstD : BitVec 16
  shift : BitVec 16
  lines : BitVec 16
  words : BitVec 16

-- One mask bit for each nibble of a word.
def spread (mask : BitVec 4) : BitVec 16 :=
  (if mask.getLsbD 3 then 0xf000#16 else 0#16) ||| (if mask.getLsbD 2 then 0x0f00#16 else 0#16) |||
  (if mask.getLsbD 1 then 0x00f0#16 else 0#16) ||| (if mask.getLsbD 0 then 0x000f#16 else 0#16)

-- The first-word mask lies in bits 12-15, the last-word mask in bits 8-11.
def BlitRegs.mask (R : BlitRegs) (first last : Bool) : BitVec 4 :=
  (if first then R.shift.extractLsb' 12 4 else 0xf#4) &&&
  (if last then R.shift.extractLsb' 8 4 else 0xf#4)

-- What the blitter does without transparency and without a nibble shift, which no caller asks for.
def BlitRegs.op (R : BlitRegs) : Blit (BitVec 16) where
  fixed := if R.ctrl.getLsbD 0 then some R.srcS else none
  src := R.srcS.toNat
  modS := R.modS.toNat
  dst := R.dstD.toNat
  modD := R.modD.toNat
  lines := R.lines.toNat
  words := R.words.toNat
  merge first last old s :=
    let m := spread (R.mask first last)
    ((s &&& ~~~R.andc) ^^^ R.xor) &&& m ||| old &&& ~~~m

-- Video memory has 64K words.
def BlitRegs.run (R : BlitRegs) (vram : Nat → BitVec 16) : Nat → BitVec 16 := R.op.run 65536 vram

-- The nibbles of a word from the left.
def nibble (v : BitVec 16) (k : Nat) : BitVec 4 := v.extractLsb' (12 - 4 * k) 4

theorem spread_bit : ∀ (mask : BitVec 4) (i : Fin 16),
    (spread mask).getLsbD i = mask.getLsbD (i / 4) := by
  decide

theorem nibble_bit {k i : Nat} (v : BitVec 16) (hi : i < 4) :
    (nibble v k).getLsbD i = v.getLsbD (12 - 4 * k + i) := by
  rw [nibble,BitVec.getLsbD_extractLsb',decide_eq_true hi,Bool.true_and]

theorem nibble_merge (mask : BitVec 4) (new old : BitVec 16) {k : Nat} (hk : k < 4) :
    nibble (new &&& spread mask ||| old &&& ~~~spread mask) k =
      if mask.getLsbD (3 - k) then nibble new k else nibble old k := by
  refine BitVec.eq_of_getLsbD_eq (fun i hi => ?_)
  obtain ⟨j,hj⟩ : ∃ j : Fin 16, j.val = 12 - 4 * k + i := ⟨⟨12 - 4 * k + i,by omega⟩,rfl⟩
  have hq : j.val / 4 = 3 - k := by omega
  have hlt : j.val < 16 := j.isLt
  have hs := spread_bit mask j
  rw [hq] at hs
  rw [nibble_bit _ hi,← hj,BitVec.getLsbD_or,BitVec.getLsbD_and,BitVec.getLsbD_and,
    BitVec.getLsbD_not,hs,decide_eq_true hlt,Bool.true_and]
  cases mask.getLsbD (3 - k) with
  | false =>
    rw [if_neg Bool.false_ne_true,nibble_bit _ hi,← hj]
    simp
  | true =>
    rw [if_pos rfl,nibble_bit _ hi,← hj]
    simp

-- No part of a word is left out, and nothing is done to a word on its way.
structure BlitRegs.Plain (R : BlitRegs) : Prop where
  andc : R.andc = 0
  xor : R.xor = 0
  shift : R.shift = 0xff00

namespace BlitRegs

variable {R : BlitRegs}

theorem Plain.merge (h : R.Plain) (first last : Bool) (old s : BitVec 16) :
    R.op.merge first last old s = s := by
  have hmask : R.mask first last = 0xf#4 := by
    rw [BlitRegs.mask,h.shift]
    cases first <;> cases last <;> decide
  have hones : spread 0xf#4 = BitVec.allOnes 16 := by decide
  have hzero : (0 : BitVec 16) = 0#16 := rfl
  change ((s &&& ~~~R.andc) ^^^ R.xor) &&& spread (R.mask first last) |||
    old &&& ~~~spread (R.mask first last) = s
  rw [hmask,hones,h.andc,h.xor,hzero,BitVec.not_zero,BitVec.not_allOnes,BitVec.and_allOnes,
    BitVec.xor_zero,BitVec.and_allOnes,BitVec.and_zero,BitVec.or_zero]

-- The number of words, and the place of the i-th of them.
def total (R : BlitRegs) : Nat := (R.lines.toNat + 1) * (R.words.toNat + 1)

def place (R : BlitRegs) (a mod : BitVec 16) (i : Nat) : Nat :=
  R.op.place a.toNat mod.toNat i % 65536

-- The words that an operation writes, each with a mark.
def runMarked (R : BlitRegs) (vram : Nat → BitVec 16 × Bool) : Nat → BitVec 16 × Bool :=
  R.op.marked.run 65536 vram

theorem runMarked_fst (R : BlitRegs) (vram : Nat → BitVec 16 × Bool) :
    unmark (R.runMarked vram) = R.run (unmark vram) := by
  rw [runMarked,Blit.marked_run,writes_fst,run,Blit.run_eq]

theorem Plain.runMarked_copy (h : R.Plain) (hc : R.ctrl = 0) (vram : Nat → BitVec 16 × Bool) :
    R.runMarked vram = writes (R.place R.dstD R.modD)
      (fun i m => (unmark m (R.place R.srcS R.modS i),true)) R.total vram := by
  have hfixed : R.op.fixed = none := by
    rw [BlitRegs.op,hc]
    rfl
  rw [runMarked,Blit.marked_run]
  refine (writes_congr (fun i _ => rfl) (fun i _ => ?_)).symm
  funext m
  rw [Blit.step,Blit.value,h.merge,Blit.source,hfixed]
  rfl

theorem Plain.runMarked_fill (h : R.Plain) (hc : R.ctrl = 1) (vram : Nat → BitVec 16 × Bool) :
    R.runMarked vram = writes (R.place R.dstD R.modD) (fun _ _ => (R.srcS,true)) R.total vram := by
  have hfixed : R.op.fixed = some R.srcS := by
    rw [BlitRegs.op,hc]
    rfl
  rw [runMarked,Blit.marked_run]
  refine (writes_congr (fun i _ => rfl) (fun i _ => ?_)).symm
  funext m
  rw [Blit.step,Blit.value,h.merge,Blit.source,hfixed]
  rfl

-- The places of a line are one after the other.
theorem place_line {a i : Nat} (mod : BitVec 16) (hi : i < R.words.toNat + 1) (ha : a + i < 65536) :
    R.place (BitVec.ofNat 16 a) mod i = a + i := by
  have hdiv : i / (R.words.toNat + 1) = 0 := Nat.div_eq_of_lt hi
  have hmod : i % (R.words.toNat + 1) = i := Nat.mod_eq_of_lt hi
  have hlt : a < 65536 := by omega
  change ((BitVec.ofNat 16 a).toNat + i / (R.words.toNat + 1) * (R.words.toNat + 1 + mod.toNat) +
    i % (R.words.toNat + 1)) % 65536 = a + i
  rw [hdiv,hmod,BitVec.toNat_ofNat,Nat.zero_mul,Nat.add_zero,Nat.mod_eq_of_lt (a := a) hlt]
  exact Nat.mod_eq_of_lt ha

end BlitRegs

end RoscoM68k
