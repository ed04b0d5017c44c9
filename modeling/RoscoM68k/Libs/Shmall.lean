import RoscoM68k.Base.Loops
import RoscoM68k.Base.Memory
import RoscoM68k.Base.Overlay
import RoscoM68k.Base.Slices

namespace RoscoM68k
open Function

def PLATFORM_THRESHOLD : Nat := 16

-- sizeof(chunk_type), and alignof(chunk_type), which is 2 in the ABI of the m68k.
def CHUNK_SIZE : Nat := 4
def CHUNK_ALIGN : Nat := 2

-- The body of a loop that ends with dbf on a 16-bit counter.
def dbf {σ : Type} (f : σ → σ) : Nat → σ → σ
  | 0, s => f s
  | n + 1, s => dbf f n (f s)

structure Clearing where
  mem : Mem
  bdst : Nat
  countLeft : Nat

namespace Clearing

def byte (s : Clearing) : Clearing := ⟨update s.mem s.bdst 0,s.bdst + 1,s.countLeft - 1⟩

-- clr.l (bdst)+
def chunk (s : Clearing) : Clearing :=
  { s with
    mem := s.mem.writeL s.bdst 0
    bdst := s.bdst + CHUNK_SIZE }

def fastLoop (s : Clearing) : Clearing :=
  let chunksLeft := s.countLeft / CHUNK_SIZE
  let loopCounter := (chunksLeft - 1) % 65536
  let chunksToLoop := loopCounter + 1
  dbf chunk loopCounter { s with countLeft := s.countLeft - chunksToLoop * CHUNK_SIZE }

def bytes (n : Nat) (s : Clearing) : Option Clearing := loop (fun s => 0 < s.countLeft) byte n s

end Clearing

def memClear (m : Mem) (dst count : Nat) (n : Nat) : Option Mem := do
  let s : Clearing := ⟨m,dst,count⟩
  let s ←
    if s.countLeft < PLATFORM_THRESHOLD then some s
    else do
      let s ← loop (fun s => s.bdst % CHUNK_ALIGN ≠ 0) Clearing.byte n s
      loop (fun s => CHUNK_SIZE ≤ s.countLeft) Clearing.fastLoop n s
  let s ← s.bytes n
  some s.mem

-- Where the platform has no fast loop.
def plainClear (m : Mem) (dst count : Nat) (n : Nat) : Option Mem := do
  let s ← Clearing.bytes n ⟨m,dst,count⟩
  some s.mem

structure Copying where
  mem : Mem
  bdst : Nat
  bsrc : Nat
  countLeft : Nat

namespace Copying

def byte (s : Copying) : Copying :=
  ⟨update s.mem s.bdst (s.mem s.bsrc),s.bdst + 1,s.bsrc + 1,s.countLeft - 1⟩

-- move.l (bsrc)+,(bdst)+
def chunk (s : Copying) : Copying :=
  { s with
    mem := s.mem.writeL s.bdst (s.mem.readL s.bsrc)
    bdst := s.bdst + CHUNK_SIZE
    bsrc := s.bsrc + CHUNK_SIZE }

def fastLoop (s : Copying) : Copying :=
  let chunksLeft := s.countLeft / CHUNK_SIZE
  let loopCounter := (chunksLeft - 1) % 65536
  let chunksToLoop := loopCounter + 1
  dbf chunk loopCounter { s with countLeft := s.countLeft - chunksToLoop * CHUNK_SIZE }

def bytes (n : Nat) (s : Copying) : Option Copying := loop (fun s => 0 < s.countLeft) byte n s

end Copying

def memCopy (m : Mem) (dst src count : Nat) (n : Nat) : Option Mem := do
  let s : Copying := ⟨m,dst,src,count⟩
  let s ←
    if s.countLeft < PLATFORM_THRESHOLD then some s
    else if s.bdst % CHUNK_ALIGN ≠ s.bsrc % CHUNK_ALIGN then some s
    else do
      let s ← loop (fun s => s.bdst % CHUNK_ALIGN ≠ 0 ∨ s.bsrc % CHUNK_ALIGN ≠ 0) Copying.byte n s
      loop (fun s => CHUNK_SIZE ≤ s.countLeft) Copying.fastLoop n s
  let s ← s.bytes n
  some s.mem

def plainCopy (m : Mem) (dst src count : Nat) (n : Nat) : Option Mem := do
  let s ← Copying.bytes n ⟨m,dst,src,count⟩
  some s.mem

-- heap_alloc and heap_free, with all that the heap is in memory. A pointer 0 is NULL.
structure Heap where
  alloc : Mem → Nat → Nat × Mem
  free : Mem → Nat → Mem

def malloc (H : Heap) (m : Mem) (size : Nat) : Nat × Mem := H.alloc m size

def free (H : Heap) (m : Mem) (ptr : Nat) : Mem := if ptr ≠ 0 then H.free m ptr else m

def getHead (p : Nat) : Nat := p - 8

-- The `size` of the node of a block.
def blockSize (m : Mem) (p : Nat) : Nat := m.readL (getHead p + 4)

def calloc (H : Heap) (m : Mem) (num size : Nat) (n : Nat) : Option (Nat × Mem) :=
  let total := num * size % 4294967296
  let (mem,m) := malloc H m total
  if mem ≠ 0 ∧ 0 < total then do
    let m ← memClear m mem total n
    some (mem,m)
  else some (mem,m)

def realloc (H : Heap) (m : Mem) (ptr newSize : Nat) (n : Nat) : Option (Nat × Mem) :=
  let (newPtr,m) := malloc H m newSize
  if ptr ≠ 0 ∧ newPtr ≠ 0 ∧ 0 < newSize then do
    let oldSize := blockSize m ptr
    let copySize := if oldSize < newSize then oldSize else newSize
    let m ← memCopy m newPtr ptr copySize n
    some (newPtr,free H m ptr)
  else some (newPtr,m)

end RoscoM68k
