import RoscoM68k.Libs.UartBuffer

namespace RoscoM68k
open Function

def DUART_MRA : Nat := 0x00
def DUART_CSRA : Nat := 0x02
def DUART_SRA : Nat := 0x02
def DUART_CRA : Nat := 0x04
def DUART_IMR : Nat := 0x0a
def DUART_MRB : Nat := 0x10
def DUART_SRB : Nat := 0x12
def DUART_CSRB : Nat := 0x12
def DUART_CRB : Nat := 0x14
def VECADDR : Nat := 0x45 * 4

-- What the program is linked to, and what the firmware answers: the base address of a character
-- device is the first field of its structure.
structure DebugTarget where
  handler : Nat
  catchException : Nat
  debugLevel7 : Nat
  uartB : Nat
  vecBase : Nat
  deviceSupport : Bool
  deviceCount : Nat
  device : Nat → Option Nat

-- `frames` counts the exception frames made up for ctrl-C; `asking` is a call of getDebugChar that
-- waits for the device.
structure Debugger where
  uart : Uart
  ringbufA : Nat
  ringbufB : Nat
  baseaddr : Nat
  chain : Nat
  intrFlag : Nat
  frames : Nat
  writes : List (Nat × UInt8)
  asking : Bool

namespace Debugger

def register (s : Debugger) (base offset : Nat) (d : UInt8) : Debugger :=
  { s with writes := s.writes ++ [(base + offset,d)] }

def installUart (s : Debugger) (base csr cr mr : Nat) : Debugger :=
  (((s.register base csr 0x88).register base cr 0x10).register base mr 0x13).register base mr 0x07

def duartInstallInterrupt (T : DebugTarget) (s : Debugger) (base uartA uartB : Nat) : Debugger :=
  let s := { s with ringbufA := uartA }
  let s := if uartA = 0 then s else s.installUart base DUART_CSRA DUART_CRA DUART_MRA
  let s := { s with ringbufB := uartB }
  let s := if uartB = 0 then s else s.installUart base DUART_CSRB DUART_CRB DUART_MRB
  let s := { s with
    baseaddr := base
    chain := s.uart.mem.readL VECADDR
    uart := ⟨s.uart.mem.writeL VECADDR T.handler,s.uart.touched⟩ }
  s.register base DUART_IMR 0x28

def exceptionHandler (T : DebugTarget) (handler : Nat) (s : Debugger) (n : Nat) : Debugger :=
  { s with uart := ⟨s.uart.mem.writeL (T.vecBase + 4 * n) handler,s.uart.touched⟩ }

def setDebugTraps (T : DebugTarget) (s : Debugger) : Debugger :=
  let s := (List.range' 2 22).foldl (exceptionHandler T T.catchException) s
  let s := exceptionHandler T T.debugLevel7 s 31
  let s := exceptionHandler T T.catchException s 33
  let s := exceptionHandler T T.catchException s 47
  (List.range' 48 7).foldl (exceptionHandler T T.catchException) s

-- `none` is a start that returns false.
def startDebugger (T : DebugTarget) (s : Debugger) : Option Debugger :=
  if T.deviceSupport = false then none
  else if T.deviceCount < 2 then none
  else (T.device 1).map fun base => (s.duartInstallInterrupt T base 0 T.uartB).setDebugTraps T

end Debugger

-- What a round of the loops of the handler reads of the chip.
structure Poll where
  isr : UInt8
  rb : UInt8

def Poll.ready (p : Poll) (bit : Nat) : Bool := p.isr.toNat.testBit bit

namespace Debugger

-- The status is read at the offset of its register, without the base address.
def errorCheck (s : Debugger) (sr : Nat) : Debugger :=
  let d0 := s.uart.mem.readB sr &&& 0xf0
  if d0 = 0 then s
  else if d0.testBit 4 then s.register s.baseaddr DUART_CRA 0x40 else s

def loopA (s : Debugger) : List Poll → Debugger
  | [] => s
  | p :: ps =>
    if p.ready 1 then
      let s := s.errorCheck DUART_SRA
      loopA { s with uart := duartBufferChar s.uart s.ringbufA p.rb } ps
    else s

-- Ctrl-C makes a frame, once in an interrupt; other characters are buffered.
def receive (s : Debugger) (c : UInt8) : Debugger :=
  if c = 3 then
    if s.intrFlag = 0 then { s with frames := s.frames + 1, intrFlag := 1 } else s
  else { s with uart := duartBufferChar s.uart s.ringbufB c }

def loopB (s : Debugger) : List Poll → Debugger
  | [] => s
  | p :: ps => if p.ready 5 then loopB ((s.errorCheck DUART_SRB).receive p.rb) ps else s

def handler (s : Debugger) (a b : List Poll) : Debugger :=
  let s := { s with intrFlag := 0 }
  let s := if s.ringbufA = 0 then s else s.loopA a
  if s.ringbufB = 0 then s else s.loopB b

end Debugger

-- A call of getDebugChar looks into the ring first and comes back with what it finds. Otherwise the
-- call waits for the device, and interrupts may come in between.
inductive DebugEvent where
  | interrupt (a b : List Poll)
  | ask (buf : Nat)
  | answer (c : UInt8)

-- An event, with what getDebugChar comes back with in it.
def Debugger.step (T : DebugTarget) (s : Debugger) : DebugEvent → Option (Option UInt8 × Debugger)
  | .interrupt a b => some (none,s.handler a b)
  | .ask buf =>
    let t := duartUnbufferOne s.uart T.uartB buf
    if s.asking then none
    else if t.d0 % 256 = 0 then some (none,{ s with uart := t.uart, asking := true })
    else some (some (t.uart.mem buf),{ s with uart := t.uart })
  | .answer c => if s.asking then some (some c,{ s with asking := false }) else none

def debugRun (T : DebugTarget) (s : Debugger) :
    List DebugEvent → Option (List (Option UInt8) × Debugger)
  | [] => some ([],s)
  | e :: es => do
    let r ← s.step T e
    let rs ← debugRun T r.2 es
    some (r.1 :: rs.1,rs.2)

-- The characters that the handler takes, but for ctrl-C.
def DebugEvent.inputs : DebugEvent → List UInt8
  | .interrupt _ b => ((b.takeWhile (·.ready 5)).map (·.rb)).filter (· ≠ 3)
  | _ => []

def DebugEvent.IsCall : DebugEvent → Prop
  | .interrupt _ _ => False
  | _ => True

def DebugEvent.arrivals : DebugEvent → List UInt8
  | .answer c => [c]
  | e => e.inputs

def DebugEvent.answered : DebugEvent → Option UInt8
  | .answer c => some c
  | _ => none

-- What has been received is waiting until it is returned, the oldest first. A call that looks for a
-- character takes the oldest, and comes back with one of the device only when none waits.
def keepsInput : List UInt8 → List DebugEvent → List (Option UInt8) → Prop
  | w, .interrupt a b :: es, o :: os =>
    o = none ∧ keepsInput (w ++ (DebugEvent.interrupt a b).inputs) es os
  | w, .ask _ :: es, o :: os => o = w.head? ∧ keepsInput w.tail es os
  | w, .answer c :: es, o :: os => w = [] ∧ o = some c ∧ keepsInput [] es os
  | _, _, _ => True

-- The structure is in cleared memory, away from the vectors.
structure Booted (T : DebugTarget) (s : Debugger) : Prop where
  low : 0x400 ≤ T.uartB
  top : T.uartB + 1030 ≤ 2 ^ 32
  vectors : Apart T.vecBase 0x400 T.uartB 1030
  bss : ∀ x, T.uartB ≤ x → x < T.uartB + 1030 → s.uart.mem x = 0

end RoscoM68k
