import RoscoM68k.Base.Loops
import RoscoM68k.Base.Memory
import RoscoM68k.Base.Rings
import RoscoM68k.Base.Slices

namespace RoscoM68k
open Function

-- Memory, and the addresses of the accesses to data of ring buffers so far.
structure Uart where
  mem : Mem
  touched : List Nat

-- Interrupt handlers call it with the ring in A2 and the character in D0.
def duartBufferChar (s : Uart) (a2 : Nat) (d0 : UInt8) : Uart :=
  let a := indexed (a2 + 6) (s.mem.readW (a2 + 2))
  let d1 := s.mem.readW (a2 + 2)
  let d2 := s.mem.readW (a2 + 4)
  let m : Mem := update s.mem a d0
  ⟨m.writeW (a2 + 2) ((d1 + 1) % 65536 &&& d2),s.touched ++ [a]⟩

-- The registers that a routine which takes characters out works on, and what it has stored at A1
-- so far.
structure Unbuffering where
  uart : Uart
  a1 : Nat
  d0 : Nat
  d1 : Nat
  stored : List UInt8

def Unbuffering.copy (a0 d3 : Nat) (s : Unbuffering) : Unbuffering :=
  let a := indexed a0 s.d1
  let c := s.uart.mem a
  { uart := ⟨update s.uart.mem (s.a1 % 2 ^ 32) c,s.uart.touched ++ [a]⟩
    a1 := s.a1 + 1
    d0 := (s.d0 + 1) % 65536
    d1 := (s.d1 + 1) % 65536 &&& d3
    stored := s.stored ++ [c] }

-- The read pointer goes back to the ring.
def Unbuffering.done (rb : Nat) (s : Unbuffering) : Unbuffering :=
  { s with uart := ⟨s.uart.mem.writeW rb s.d1,s.uart.touched⟩ }

def duartUnbuffer (s : Uart) (rb outBuffer n : Nat) : Option Unbuffering := do
  let d1 := s.mem.readW rb
  let d2 := s.mem.readW (rb + 2)
  let d3 := s.mem.readW (rb + 4)
  let t ← loop (fun t => t.d1 ≠ d2) (Unbuffering.copy (rb + 6) d3) n ⟨s,outBuffer,0,d1,[]⟩
  some (t.done rb)

def duartUnbufferOne (s : Uart) (rb outBuffer : Nat) : Unbuffering :=
  let d1 := s.mem.readW rb
  let d2 := s.mem.readW (rb + 2)
  let d3 := s.mem.readW (rb + 4)
  let t : Unbuffering := ⟨s,outBuffer,0,d1,[]⟩
  if d1 = d2 then t else (t.copy (rb + 6) d3).done rb

inductive RingCall where
  | bufferChar (d0 : UInt8)
  | unbuffer (outBuffer : Nat)
  | unbufferOne (outBuffer : Nat)

-- What comes of a call: the count that it returns, what it has stored, and as much of its buffer as
-- it has counted.
structure Outcome where
  count : Nat
  stored : List UInt8
  buffer : List UInt8

def Unbuffering.outcome (t : Unbuffering) (outBuffer : Nat) : Outcome × Uart :=
  (⟨t.d0,t.stored,slice t.uart.mem outBuffer t.d0⟩,t.uart)

-- The routines that take characters out mask the interrupts in which characters are buffered, so
-- that the calls come one after the other.
def RingCall.run (rb : Nat) (s : Uart) (n : Nat) (call : RingCall) : Option (Outcome × Uart) :=
  match call with
  | .bufferChar d0 => some (⟨0,[],[]⟩,duartBufferChar s rb d0)
  | .unbuffer out => (duartUnbuffer s rb out n).map (·.outcome out)
  | .unbufferOne out => some ((duartUnbufferOne s rb out).outcome out)

def ringRun (rb : Nat) : List RingCall → Uart → Nat → Option (List Outcome × Uart)
  | [], s, _ => some ([],s)
  | c :: cs, s, n => do
    let r ← c.run rb s n
    let rs ← ringRun rb cs r.2 n
    some (r.1 :: rs.1,rs.2)

-- The calls on a queue without bounds: what they hand over, and what then waits.
def RingCall.hands (q : List UInt8) : RingCall → List UInt8
  | .bufferChar _ => []
  | .unbuffer _ => q
  | .unbufferOne _ => q.take 1

def RingCall.leaves (q : List UInt8) : RingCall → List UInt8
  | .bufferChar d0 => q ++ [d0]
  | .unbuffer _ => []
  | .unbufferOne _ => q.drop 1

def handedBy : List UInt8 → List RingCall → List (List UInt8)
  | _, [] => []
  | q, c :: cs => c.hands q :: handedBy (c.leaves q) cs

def waitingAfter : List UInt8 → List RingCall → List UInt8
  | q, [] => q
  | q, c :: cs => waitingAfter (c.leaves q) cs

def RingCall.buffers : RingCall → List UInt8
  | .bufferChar d0 => [d0]
  | _ => []

-- A consumer's buffer of `n` bytes beside a ring of `size`.
def OutBuffer (rb size out n : Nat) : Prop := out + n ≤ 2 ^ 32 ∧ Apart out n rb (6 + size)

def RingCall.Allowed (rb size : Nat) (q : List UInt8) : RingCall → Prop
  | .bufferChar _ => q.length + 1 ≤ size - 1
  | .unbuffer out => OutBuffer rb size out q.length
  | .unbufferOne out => OutBuffer rb size out (q.take 1).length

def AllAllowed (rb size : Nat) : List UInt8 → List RingCall → Prop
  | _, [] => True
  | q, c :: cs => c.Allowed rb size q ∧ AllAllowed rb size (c.leaves q) cs

-- A ring of `2 ^ k` bytes with a queue in it.
structure RingAt (rb k : Nat) (m : Mem) (q : List UInt8) : Prop where
  small : k ≤ 15
  top : rb + 6 + 2 ^ k ≤ 2 ^ 32
  mask : m.readW (rb + 4) = 2 ^ k - 1
  holds : RingHolds (2 ^ k) (fun i => m (rb + 6 + i)) (m.readW rb) (m.readW (rb + 2)) q

-- The data of the ring that has been accessed since.
def InData (rb k : Nat) (s s' : Uart) : Prop :=
  ∃ ys, s'.touched = s.touched ++ ys ∧ ∀ y ∈ ys, rb + 6 ≤ y ∧ y < rb + 6 + 2 ^ k

namespace InData

variable {rb k : Nat} {s s' s'' : Uart}

theorem refl (s : Uart) : InData rb k s s :=
  ⟨[],(List.append_nil _).symm,fun _ hy => absurd hy List.not_mem_nil⟩

theorem trans (h : InData rb k s s') (h' : InData rb k s' s'') : InData rb k s s'' := by
  obtain ⟨ys,hys,hin⟩ := h
  obtain ⟨zs,hzs,hin'⟩ := h'
  refine ⟨ys ++ zs,by rw [hzs,hys,List.append_assoc],fun y hy => ?_⟩
  obtain hy | hy := List.mem_append.mp hy
  · exact hin y hy
  · exact hin' y hy

end InData
end RoscoM68k
