import Mathlib.Tactic
import Mathlib.Data.List.Nodup
import RoscoM68k.Base.Loops
import RoscoM68k.Base.Memory

namespace RoscoM68k
open Function

-- The bits of the output port, and the bit of the input port.
abbrev SPI_SCK_B : Nat := 4
abbrev SPI_COPI_B : Nat := 6
abbrev SPI_CIPO_B : Nat := 2
abbrev RED_LED_B : Nat := 3

def SPI_SCK : BitVec 8 := 1#8 <<< SPI_SCK_B
def SPI_COPI : BitVec 8 := 1#8 <<< SPI_COPI_B
def RED_LED : BitVec 8 := 1#8 <<< RED_LED_B

def DUART_BASE_MBR2 : BitVec 32 := 0xf00001#32
def R_INPUTPORT : BitVec 32 := 0x1a#32
def W_OPR_SETCMD : BitVec 32 := 0x1c#32
def W_OPR_RESETCMD : BitVec 32 := 0x1e#32
def SDB_SYSFLAGS : BitVec 32 := 0x40a#32

def DUART_INPUT : BitVec 32 := DUART_BASE_MBR2 + R_INPUTPORT
def DUART_OUT_LO : BitVec 32 := DUART_BASE_MBR2 + W_OPR_SETCMD
def OUT_LO_OFFSET : BitVec 32 := W_OPR_SETCMD - R_INPUTPORT
def OUT_HI_OFFSET : BitVec 32 := W_OPR_RESETCMD - W_OPR_SETCMD
def DUART_OUT_HI : BitVec 32 := DUART_OUT_LO + OUT_HI_OFFSET

-- `reg` holds d0-d7 at 0-7 and a0-a6 at 8-14, `stack` the longs from the stack pointer on, which
-- lie apart from the buffers. `levels` are the levels of the output pins after each of the writes
-- to them, `input` is what the input port gives to each of its reads.
structure Spi where
  reg : Fin 15 → BitVec 32
  stack : List (BitVec 32)
  pc : BitVec 32
  ram : BitVec 32 → BitVec 8
  pins : BitVec 8
  levels : List (BitVec 8)
  input : Nat → BitVec 8
  reads : Nat

namespace Spi

def byte (s : Spi) (r : Fin 15) : BitVec 8 := (s.reg r).setWidth 8

def moveL (s : Spi) (r : Fin 15) (v : BitVec 32) : Spi := { s with reg := update s.reg r v }

def moveB (s : Spi) (r : Fin 15) (v : BitVec 8) : Spi :=
  s.moveL r ((s.reg r).extractLsb' 8 24 ++ v)

def output (s : Spi) (p : BitVec 8) : Spi :=
  { s with
    pins := p
    levels := s.levels ++ [p] }

-- A write to one of the two output registers puts the pins of its mask low or high.
def store (s : Spi) (a : BitVec 32) (v : BitVec 8) : Spi :=
  if a = DUART_OUT_LO then s.output (s.pins &&& ~~~v)
  else if a = DUART_OUT_HI then s.output (s.pins ||| v)
  else { s with ram := update s.ram a v }

def load (s : Spi) (a : BitVec 32) : BitVec 8 × Spi :=
  if a = DUART_INPUT then (s.input s.reads,{ s with reads := s.reads + 1 })
  else (s.ram a,s)

-- The long at 4n(sp).
def atSp (s : Spi) (n : Nat) : BitVec 32 := s.stack.getD n 0

-- movem.l of some of the registers, with the first of them at the lowest address.
def movemPush (s : Spi) (is : List (Fin 15)) : Spi := { s with stack := is.map s.reg ++ s.stack }

def movemPop (s : Spi) (is : List (Fin 15)) : Spi :=
  is.foldl (fun s i =>
    { s with
      reg := update s.reg i (s.stack.headD 0)
      stack := s.stack.tail }) s

def rts (s : Spi) : Spi :=
  { s with
    pc := s.stack.headD 0
    stack := s.stack.tail }

end Spi

-- The registers of one of the two send routines.
structure SendRegs where
  data : Fin 15
  lo : Fin 15
  hi : Fin 15
  sck : Fin 15
  copi : Fin 15
  both : Fin 15
  outLo : Fin 15
  outHi : Fin 15

-- The masks of the next bit, for the pins to put low and for those to put high.
def nextMasks (R : SendRegs) (s : Spi) : Spi :=
  let carry := (s.byte R.data).msb
  let s := s.moveB R.data (s.byte R.data + s.byte R.data)
  let s := s.moveB R.hi (if carry then 0xff#8 else 0#8)
  let s := s.moveB R.hi (s.byte R.hi &&& s.byte R.copi)
  let s := s.moveB R.lo (s.byte R.hi)
  s.moveB R.lo (s.byte R.lo ^^^ s.byte R.both)

def sendBit (R : SendRegs) (s : Spi) : Spi :=
  let s := nextMasks R s
  let s := s.store (s.reg R.outLo) (s.byte R.lo)
  let s := s.store (s.reg R.outHi) (s.byte R.hi)
  s.store (s.reg R.outHi) (s.byte R.sck)

def sendByteRegs : SendRegs where
  data := 0
  lo := 4
  hi := 5
  sck := 1
  copi := 2
  both := 3
  outLo := 8
  outHi := 9

def sendBufferRegs : SendRegs where
  data := 1
  lo := 5
  hi := 6
  sck := 2
  copi := 3
  both := 4
  outLo := 9
  outHi := 10

def loadSendMasks (R : SendRegs) (s : Spi) : Spi :=
  let s := s.moveL R.outLo DUART_OUT_LO
  let s := s.moveL R.outHi (s.reg R.outLo + OUT_HI_OFFSET)
  let s := s.moveL R.sck (SPI_SCK.setWidth 32)
  let s := s.moveL R.copi (SPI_COPI.setWidth 32)
  s.moveL R.both ((SPI_SCK ||| SPI_COPI).setWidth 32)

def spiSendByte (s : Spi) : Spi :=
  let s := s.moveB 0 ((s.atSp 1).setWidth 8)
  let s := s.movemPush [2,3,4,5]
  let s := loadSendMasks sendByteRegs s
  let s := (sendBit sendByteRegs)^[8] s
  (s.movemPop [2,3,4,5]).rts

-- The activity LED, if the flag says so. `out` holds the register that puts it on or off.
def activity (out : Fin 15) (s : Spi) : Spi :=
  let (flags,s) := s.load SDB_SYSFLAGS
  if flags.getLsbD 1 then s.store (s.reg out) RED_LED else s

-- What the two buffer routines differ in: the registers they save, the masks, the register that
-- puts the LED on, the one that puts it off, and the round of their loop.
structure BufferCode where
  saved : List (Fin 15)
  load : Spi → Spi
  lit : Fin 15
  dark : Fin 15
  next : Spi → Spi

-- The loop may make `fuel` rounds after its first.
def transferBuffer (B : BufferCode) (fuel : Nat) (s : Spi) : Option Spi :=
  let s := s.moveL 0 (s.atSp 2)
  if (s.reg 0).toInt ≤ 0 then some s.rts
  else
    let s := s.moveL 8 (s.atSp 1)
    let s := s.movemPush B.saved
    let s := activity B.lit (B.load s)
    (loop (fun s => s.reg 0 != 0) B.next fuel (B.next s)).map fun s =>
      ((activity B.dark s).movemPop B.saved).rts

def sendNext (s : Spi) : Spi :=
  let (v,s) := s.load (s.reg 8)
  let s := (s.moveL 8 (s.reg 8 + 1)).moveB 1 v
  let s := (sendBit sendBufferRegs)^[8] s
  s.moveL 0 (s.reg 0 - 1)

def sendBufferCode : BufferCode where
  saved := [2,3,4,5,6,10]
  load := loadSendMasks sendBufferRegs
  lit := 9
  dark := 10
  next := sendNext

def spiSendBuffer (fuel : Nat) (s : Spi) : Option Spi := transferBuffer sendBufferCode fuel s

structure ReadRegs where
  data : Fin 15
  temp : Fin 15
  sck : Fin 15
  cipo : Fin 15
  input : Fin 15
  outLo : Fin 15
  outHi : Fin 15

def readBit (R : ReadRegs) (s : Spi) : Spi :=
  let s := s.store (s.reg R.outLo) (s.byte R.sck)
  let (v,s) := s.load (s.reg R.input)
  let zero := !v.getLsbD ((s.reg R.cipo).toNat % 8)
  let s := s.moveB R.temp (if zero then 0#8 else 0xff#8)
  let s := s.moveB R.data (s.byte R.data - s.byte R.temp)
  s.store (s.reg R.outHi) (s.byte R.sck)

def shiftData (R : ReadRegs) (s : Spi) : Spi := s.moveB R.data (s.byte R.data + s.byte R.data)

def readByteRegs : ReadRegs where
  data := 0
  temp := 3
  sck := 1
  cipo := 2
  input := 8
  outLo := 9
  outHi := 10

def readBufferRegs : ReadRegs where
  data := 4
  temp := 3
  sck := 1
  cipo := 2
  input := 9
  outLo := 10
  outHi := 11

def loadReadMasks (R : ReadRegs) (s : Spi) : Spi :=
  let s := s.moveL R.input DUART_INPUT
  let s := s.moveL R.outLo (s.reg R.input + OUT_LO_OFFSET)
  let s := s.moveL R.outHi (s.reg R.outLo + OUT_HI_OFFSET)
  let s := s.moveL R.sck (SPI_SCK.setWidth 32)
  s.moveL R.cipo (BitVec.ofNat 32 SPI_CIPO_B)

def spiReadByte (s : Spi) : Spi :=
  let s := s.movemPush [2,3,10]
  let s := (loadReadMasks readByteRegs s).moveL 0 0
  let s := readBit readByteRegs s
  let s := (readBit readByteRegs ∘ shiftData readByteRegs)^[7] s
  (s.movemPop [2,3,10]).rts

-- The accumulator d4 keeps what it holds.
def readNext (s : Spi) : Spi :=
  let s := (readBit readBufferRegs ∘ shiftData readBufferRegs)^[8] s
  let s := s.store (s.reg 8) (s.byte 4)
  let s := s.moveL 8 (s.reg 8 + 1)
  s.moveL 0 (s.reg 0 - 1)

def readBufferCode : BufferCode where
  saved := [2,3,4,10,11]
  load := loadReadMasks readBufferRegs
  lit := 10
  dark := 11
  next := readNext

def spiReadBuffer (fuel : Nat) (s : Spi) : Option Spi := transferBuffer readBufferCode fuel s

-- The calls that C code makes, with their arguments.
inductive SpiCall where
  | sendByte (byte : BitVec 32)
  | sendBuffer (data count : BitVec 32)
  | readByte
  | readBuffer (data count : BitVec 32)

def SpiCall.args : SpiCall → List (BitVec 32)
  | .sendByte byte => [byte]
  | .sendBuffer data count => [data,count]
  | .readByte => []
  | .readBuffer data count => [data,count]

-- The caller pushes the arguments and the return address, and takes the arguments off again.
def Spi.enter (s : Spi) (ret : BitVec 32) (args : List (BitVec 32)) : Spi :=
  { s with stack := ret :: args ++ s.stack }

def Spi.leave (s : Spi) (args : List (BitVec 32)) : Spi :=
  { s with stack := s.stack.drop args.length }

def spiCall (fuel : Nat) (ret : BitVec 32) (c : SpiCall) (s : Spi) : Option Spi :=
  let s := s.enter ret c.args
  let r := match c with
    | .sendByte _ => some (spiSendByte s)
    | .sendBuffer _ _ => spiSendBuffer fuel s
    | .readByte => some (spiReadByte s)
    | .readBuffer _ _ => spiReadBuffer fuel s
  r.map fun s => s.leave c.args

def spiCalls (fuel : Nat) (ret : BitVec 32) (cs : List SpiCall) (s : Spi) : Option Spi :=
  cs.foldlM (fun s c => spiCall fuel ret c s) s

end RoscoM68k
