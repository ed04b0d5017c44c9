import RoscoM68k.Base.Memory
import RoscoM68k.Base.Slices
import RoscoM68k.Firmware.LzgDecode

namespace RoscoM68k
open Function

namespace LzgMini

-- The lengths less 1.
def lengthDecodeLut : List UInt8 :=
  [1,2,3,4,5,6,7,8,9,10,11,12,13,14,15,16,
    17,18,19,20,21,22,23,24,25,26,27,28,34,47,71,127]

-- What ends a decoding before `.done`: a branch to `.fail`, or that no more rounds are allowed.
inductive Exit where
  | fail (mem : Mem)
  | stuck

-- A branch to `.fail` unless the condition holds.
def orFail (mem : Mem) (p : Prop) [Decidable p] : Except Exit Unit :=
  if p then .ok () else .error (.fail mem)

-- How many rounds a loop makes that ends in a `dbf` of `d`.
def dbfRounds (d : Nat) : Nat := d % 65536 + 1

def getUINT32 (m : Mem) (a0 d0 : Nat) : Nat :=
  (m (low32 (a0 + d0))).toNat <<< 24 ||| (m (low32 (a0 + d0 + 1))).toNat <<< 16 |||
    (m (low32 (a0 + d0 + 2))).toNat <<< 8 ||| (m (low32 (a0 + d0 + 3))).toNat

-- The registers that stay the same in the main loop: inEnd, outEnd, out and d1-d4.
structure Frame where
  a2 : Nat
  a3 : Nat
  a6 : Nat
  markers : Markers

structure Regs where
  mem : Mem
  a0 : Nat
  a1 : Nat

-- Where a symbol leads: to `.literal`, or to `.copy` with an offset and a length less 1.
inductive Branch where
  | literal (a0 : Nat)
  | copy (d5 d6 a0 : Nat)

def lengthOf (b : UInt8) : Nat := (lengthDecodeLut.getD (b &&& 0x1f).toNat 0).toNat

namespace Frame

def marker4 (f : Frame) (m : Mem) (a0 : Nat) : Except Exit Branch := do
  orFail m (a0 < f.a2)
  let b := m a0
  let a0 := low32 (a0 + 1)
  if b = 0 then .ok (.literal a0)
  else .ok (.copy ((b >>> 5).toNat + 1) (lengthOf b) a0)

def marker3 (f : Frame) (m : Mem) (a0 : Nat) : Except Exit Branch := do
  orFail m (a0 < f.a2)
  let b := m a0
  let a0 := low32 (a0 + 1)
  if b = 0 then .ok (.literal a0)
  else .ok (.copy ((b &&& 0x3f).toNat + 8) ((b >>> 6).toNat + 2) a0)

def marker2 (f : Frame) (m : Mem) (a0 : Nat) : Except Exit Branch := do
  orFail m (a0 < f.a2)
  let b := m a0
  let a0 := low32 (a0 + 1)
  if b = 0 then .ok (.literal a0)
  else
    orFail m (a0 < f.a2)
    -- The second byte replaces the low byte of the word.
    let d5 := b.toNat <<< 3 / 256 * 256 + (m a0).toNat
    .ok (.copy (d5 + 8) (lengthOf b) (low32 (a0 + 1)))

def marker1 (f : Frame) (m : Mem) (a0 : Nat) : Except Exit Branch := do
  orFail m (a0 < f.a2)
  let b := m a0
  let a0 := low32 (a0 + 1)
  if b = 0 then .ok (.literal a0)
  else
    orFail m (low32 (a0 + 1) < f.a2)
    let b2 := m a0
    let a0 := low32 (a0 + 1)
    let b3 := m a0
    let d5 := (b >>> 5).toNat <<< 16 ||| b2.toNat <<< 8 ||| b3.toNat
    .ok (.copy (d5 + 2056) (lengthOf b) (low32 (a0 + 1)))

def branch (f : Frame) (m : Mem) (d7 : UInt8) (a0 : Nat) : Except Exit Branch :=
  if d7 = f.markers.marker1 then f.marker1 m a0
  else if d7 = f.markers.marker2 then f.marker2 m a0
  else if d7 = f.markers.marker3 then f.marker3 m a0
  else if d7 = f.markers.marker4 then f.marker4 m a0
  else .ok (.literal a0)

end Frame

-- `n` bytes from `a4` on to `a1` on, one after the other.
def copyLoop : Nat → Nat → Regs → Regs
  | 0, _, s => s
  | n + 1, a4, s => copyLoop n (low32 (a4 + 1))
      { s with
        mem := update s.mem s.a1 (s.mem a4)
        a1 := low32 (s.a1 + 1) }

namespace Frame

def literal (f : Frame) (d7 : UInt8) (s : Regs) : Except Exit Regs := do
  orFail s.mem (s.a1 < f.a3)
  .ok { s with
    mem := update s.mem s.a1 d7
    a1 := low32 (s.a1 + 1) }

def copy (f : Frame) (d5 d6 : Nat) (s : Regs) : Except Exit Regs := do
  orFail s.mem (low32 (s.a1 + d6) < f.a3)
  let a4 := low32 (s.a1 + 4294967296 - d5)
  orFail s.mem (f.a6 ≤ a4)
  .ok (copyLoop (dbfRounds d6) a4 s)

def round (f : Frame) (s : Regs) : Except Exit Regs := do
  orFail s.mem (s.a0 < f.a2)
  let d7 := s.mem s.a0
  match ← f.branch s.mem d7 (low32 (s.a0 + 1)) with
  | .literal a0 => f.literal d7 { s with a0 := a0 }
  | .copy d5 d6 a0 => f.copy d5 d6 { s with a0 := a0 }

-- The loop may make `n` rounds.
def mainLoop (f : Frame) : Nat → Regs → Except Exit Regs
  | 0, _ => .error .stuck
  | n + 1, s => do
    let s ← f.round s
    if s.a0 < f.a2 then mainLoop f n s else .ok s

end Frame

def csLoop (m : Mem) : Nat → Nat → UInt16 × UInt16 → UInt16 × UInt16
  | 0, _, s => s
  | n + 1, a4, s => csLoop m n (low32 (a4 + 1)) (checksumOp s (m a4))

-- From `.csloop` on. The data are at `a0`, and in front of them is the byte with the method.
def decodeData (fuel : Nat) (m : Mem) (a0 a1 a2 a3 decodedSize encodedSize d6 : Nat) :
    Except Exit Regs := do
  let rounds := dbfRounds (low32 (encodedSize + 4294967295))
  orFail m (joinSums (csLoop m rounds a0 (1,0)) = d6)
  let d7 := m (low32 (a0 + 4294967295))
  if d7 = LZG_METHOD_COPY then
    orFail m (encodedSize = decodedSize)
    .ok (copyLoop rounds a0 ⟨m,a0,a1⟩)
  else
    orFail m (d7 = LZG_METHOD_LZG1)
    orFail m (low32 (a0 + 3) < a2)
    let markers := ⟨m a0,m (low32 (a0 + 1)),m (low32 (a0 + 2)),m (low32 (a0 + 3))⟩
    Frame.mainLoop ⟨a2,a3,a1,markers⟩ fuel ⟨m,low32 (a0 + 4),a1⟩

def decode (fuel : Nat) (m : Mem) (a0 d0 a1 d1 : Nat) : Except Exit (Mem × Nat) := do
  orFail m (LZG_HEADER_SIZE ≤ d0)
  orFail m (m a0 = 0x4c)
  orFail m (m (low32 (a0 + 1)) = 0x5a)
  orFail m (m (low32 (a0 + 2)) = 0x47)
  let decodedSize := getUINT32 m a0 3
  let encodedSize := getUINT32 m a0 7
  let d6 := getUINT32 m a0 11
  orFail m (decodedSize ≤ d1)
  orFail m (low32 (encodedSize + LZG_HEADER_SIZE) ≤ d0)
  let a2 := low32 (a0 + d0)
  let a3 := low32 (a1 + decodedSize)
  let a0 := low32 (a0 + LZG_HEADER_SIZE)
  let s ← if a0 = a2 then .ok ⟨m,a0,a1⟩
    else decodeData fuel m a0 a1 a2 a3 decodedSize encodedSize d6
  orFail s.mem (s.a1 = a3)
  .ok (s.mem,decodedSize)

-- The memory and d2.
def LZG_Decode (fuel : Nat) (m : Mem) (a0 d0 a1 d1 : Nat) : Option (Mem × Nat) :=
  match decode fuel m a0 d0 a1 d1 with
  | .ok r => some r
  | .error (.fail m) => some (m,0)
  | .error .stuck => none

end LzgMini
end RoscoM68k
