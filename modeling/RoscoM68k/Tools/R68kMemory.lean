import RoscoM68k.Base.Endian
import RoscoM68k.Base.Memory
import RoscoM68k.Base.Slices

namespace RoscoM68k
open Function

-- A memory of the emulator: the memory of the host from its store on, its size, and the offsets
-- that have been accessed. The host is little-endian.
structure EmuMemory where
  store : Mem
  size : Nat
  accesses : List Nat

namespace EmuMemory

-- Every access checks its first byte only.
def read (n : Nat) (swap : Nat → Nat) (ones : Nat) (s : EmuMemory) (address : Nat) :
    Nat × EmuMemory :=
  if address < s.size then
    (swap (littleEndian (slice s.store address n)),
      { s with accesses := s.accesses ++ List.range' address n })
  else (ones,s)

def write (n : Nat) (swap : Nat → Nat) (s : EmuMemory) (address data : Nat) : EmuMemory :=
  if address < s.size then
    { s with
      store := overlay s.store address (littleBytes n (swap data))
      accesses := s.accesses ++ List.range' address n }
  else s

def read32 : EmuMemory → Nat → Nat × EmuMemory := read 4 (byteSwap 4) 0xffffffff

def read16 : EmuMemory → Nat → Nat × EmuMemory := read 2 (byteSwap 2) 0xffff

def read8 : EmuMemory → Nat → Nat × EmuMemory := read 1 id 0xff

def write32 : EmuMemory → Nat → Nat → EmuMemory := write 4 (byteSwap 4)

def write16 : EmuMemory → Nat → Nat → EmuMemory := write 2 (byteSwap 2)

def write8 : EmuMemory → Nat → Nat → EmuMemory := write 1 id

-- `none` is a file that cannot be opened, and what it returns is whether the file has been read.
def loadData (s : EmuMemory) (baseAddr : Nat) (file : Option (List UInt8)) : Bool × EmuMemory :=
  match file with
  | none => (false,s)
  | some bytes =>
    if s.size < bytes.length then (false,s)
    else (true,{ s with
      store := overlay s.store baseAddr bytes
      accesses := s.accesses ++ List.range' baseAddr bytes.length })

end EmuMemory

inductive Width where
  | byte
  | word
  | long

def Width.bytes : Width → Nat
  | .byte => 1
  | .word => 2
  | .long => 4

inductive MemoryOp where
  | read (w : Width) (address : Nat)
  | write (w : Width) (address data : Nat)
  | loadData (baseAddr : Nat) (file : Option (List UInt8))

inductive MemoryResult where
  | value (v : Nat)
  | done
  | thrown

namespace EmuMemory

def readWidth (s : EmuMemory) (address : Nat) : Width → Nat × EmuMemory
  | .byte => s.read8 address
  | .word => s.read16 address
  | .long => s.read32 address

def writeWidth (s : EmuMemory) (address data : Nat) : Width → EmuMemory
  | .byte => s.write8 address data
  | .word => s.write16 address data
  | .long => s.write32 address data

def step (s : EmuMemory) : MemoryOp → MemoryResult × EmuMemory
  | .read w address => (.value (s.readWidth address w).1,(s.readWidth address w).2)
  | .write w address data => (.done,s.writeWidth address data w)
  | .loadData baseAddr file =>
    (if (s.loadData baseAddr file).1 then .done else .thrown,(s.loadData baseAddr file).2)

def run (s : EmuMemory) : List MemoryOp → List MemoryResult × EmuMemory
  | [] => ([],s)
  | op :: ops => ((s.step op).1 :: ((s.step op).2.run ops).1,((s.step op).2.run ops).2)

end EmuMemory

-- A file has a place at `baseAddr` for each of its bytes.
def FileFits (size baseAddr : Nat) (bytes : List UInt8) : Prop :=
  bytes = [] ∨ baseAddr + bytes.length ≤ size

instance (size baseAddr : Nat) (bytes : List UInt8) : Decidable (FileFits size baseAddr bytes) :=
  inferInstanceAs (Decidable (_ ∨ _))

-- What is meant: bytes that keep what has been written to them last, and ones outside.
def seenByte (size : Nat) (m : Mem) (a : Nat) : UInt8 := if a < size then m a else 0xff

def MemoryOp.meant (size : Nat) (m : Mem) : MemoryOp → MemoryResult × Mem
  | .read w address => (.value (bigEndian (slice (seenByte size m) address w.bytes)),m)
  | .write w address data => (.done,overlay m address (bigBytes w.bytes data))
  | .loadData _ none => (.thrown,m)
  | .loadData baseAddr (some bytes) =>
    if FileFits size baseAddr bytes then (.done,overlay m baseAddr bytes) else (.thrown,m)

def meantRun (size : Nat) (m : Mem) : List MemoryOp → List MemoryResult × Mem
  | [] => ([],m)
  | op :: ops =>
    ((op.meant size m).1 :: (meantRun size (op.meant size m).2 ops).1,
      (meantRun size (op.meant size m).2 ops).2)

-- A run accesses its own bytes only, comes to what is meant, and leaves what is meant.
def MemoryKeeps (size : Nat) (store : Mem) (ops : List MemoryOp) : Prop :=
  (∀ a ∈ ((EmuMemory.mk store size []).run ops).2.accesses, a < size) ∧
    ((EmuMemory.mk store size []).run ops).1 = (meantRun size store ops).1 ∧
      ∀ a < size, ((EmuMemory.mk store size []).run ops).2.store a = (meantRun size store ops).2 a

-- Operations that do not straddle the end.
def MemoryOp.Within (size : Nat) : MemoryOp → Prop
  | .read w address => address < size → address + w.bytes ≤ size
  | .write w address _ => address < size → address + w.bytes ≤ size
  | .loadData _ none => True
  | .loadData baseAddr (some bytes) => bytes.length ≤ size → FileFits size baseAddr bytes

end RoscoM68k
