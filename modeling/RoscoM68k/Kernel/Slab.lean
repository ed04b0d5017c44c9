import RoscoM68k.Kernel.Pmm
import RoscoM68k.Kernel.Bitmap

namespace RoscoM68k

-- SLAB_META_START $3e0, and in the metadata NODE_SIZE $08, NODE_TYPE $0c, SLAB_BASE $10 and
-- SLAB_BMP $14.
def slabMeta (p : Nat) : Nat := p + 0x3e0
def slabBmp (a : Nat) : Nat := a + 0x14

def slabInit (K : Image) (s : Machine) : Machine :=
  { s with mem := listInit (listInit s.mem K.partialSlabs) K.fullSlabs }

-- The loop over partial_slabs. d2 is the block count, d0 what the last search left there.
def slabScan (K : Image) (m : Mem) (d2 : BitVec 8) :
    Nat → BitVec 32 → Nat → Option (Option (Nat × BitVec 32))
  | 0, _, _ => none
  | fuel + 1, d0, a0 =>
    if a0 = K.partialSlabs + 4 then some none
    else
      let d0 := bitmapFindNClear (moveByte d2 d0) (bits m (slabBmp a0))
      if lowByte d0 = 0xFF#8 then slabScan K m d2 fuel d0 (nodeNext m a0)
      else some (some (a0,d0))

-- Both mark loops: `op` sets or clears one bit of the bitmap at a1.
def markLoop (op : Mem → Nat → BitVec 32 → Mem) (a1 : Nat) : Nat → Mem → BitVec 32 → Mem × BitVec 32
  | 0, m, d0 => (m,d0)
  | d1 + 1, m, d0 => markLoop op a1 d1 (op m a1 d0) (d0 + 1#32)

-- From the label alloc_block on.
def slabAllocBlock (K : Image) (m : Mem) (a0 a1 : Nat) (d0 : BitVec 32) (d2 : BitVec 8) :
    Mem × Nat :=
  let r := markLoop bitmapSet (slabBmp a1) d2.toNat m d0
  let m := r.1
  let m :=
    if m.readL (slabBmp a1) = 0xFFFFFFFF then
      let h := listDeleteHead m K.partialSlabs
      listAddHead h.1 r.2.toNat K.fullSlabs h.2
    else m
  (m,wrap (a0 + (d0 <<< 5).toNat))

def slabSetUp (m : Mem) (d0 a1 : Nat) : Mem :=
  (((m.writeL (a1 + 0xc) 0x200).writeL (a1 + 8) 0x400).writeL (a1 + 0x10) d0).writeL
    (slabBmp a1) 0x80000000

-- From the label alloc_slab on.
def slabAllocSlab (K : Image) (s : Machine) (d2 : BitVec 8) : Option (Machine × Nat) :=
  match pmmAlloc K s 0x400 with
  | none => none
  | some (s,d0) =>
    if d0 = 0 then some (s.enableInterrupts,0)
    else
      let a1 := slabMeta d0
      let m := listAddHead (slabSetUp s.mem d0 a1) d0 K.partialSlabs a1
      let r := slabAllocBlock K m (a1 - 0x3e0) a1 0#32 d2
      some ({ s with mem := r.1 }.enableInterrupts,r.2)

-- What follows the two checks of the argument.
def slabAllocChecked (K : Image) (s : Machine) (d0 : BitVec 32) : Option (Machine × Nat) :=
  let s := s.disableInterrupts
  let d2 := lowByte d0
  match slabScan K s.mem d2 addressSpace d0 (nodeNext s.mem K.partialSlabs) with
  | none => none
  | some (some (a0,d0)) =>
    let r := slabAllocBlock K s.mem (a0 - 0x3e0) a0 d0 d2
    some ({ s with mem := r.1 }.enableInterrupts,r.2)
  | some none => slabAllocSlab K s d2

def slabAlloc (K : Image) (s : Machine) (d0 : BitVec 32) : Option (Machine × Nat) :=
  if lowByte d0 = 0#8 then some (s,d0.toNat)
  else if 31 < (lowByte d0).toNat then some (s,0)
  else slabAllocChecked K s d0

def slabFree (K : Image) (s : Machine) (a0 d1 : Nat) : Option Machine :=
  let base := a0 &&& 0xFFFFFC00
  let d0 := (a0 - base) / 32
  let a1 := slabBmp (slabMeta base)
  let s := s.disableInterrupts
  let m := (markLoop bitmapClear a1 d1 s.mem (BitVec.ofNat 32 d0)).1
  if m.readL a1 = 0x80000000 then
    let a1 := a1 - 0x14
    (pmmFree K { s with mem := listNodeDelete m a1 } (a1 - 0x3e0) 0x400).map
      Machine.enableInterrupts
  else some { s with mem := m }.enableInterrupts

end RoscoM68k
