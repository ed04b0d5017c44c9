import Mathlib.Data.BitVec
import Mathlib.Logic.Function.Basic
import RoscoM68k.Kernel.TaskFrame

namespace RoscoM68k
open Function

-- A processor with its two stacks as the words on them, which no other access goes to. `reg` holds
-- d0-d7 at 0-7 and a0-a6 at 8-14, `input` the characters that are received.
structure M68k where
  reg : Fin 15 → BitVec 32
  mem : Mem
  sr : BitVec 16
  usp : List (BitVec 16)
  ssp : List (BitVec 16)
  pc : BitVec 32
  input : Nat → BitVec 8

namespace M68k

abbrev d0 : Fin 15 := 0
abbrev d1 : Fin 15 := 1
abbrev d2 : Fin 15 := 2
abbrev d3 : Fin 15 := 3
abbrev a0 : Fin 15 := 8
abbrev a1 : Fin 15 := 9

def word (m : M68k) (r : Fin 15) : BitVec 16 := (m.reg r).setWidth 16

def byte (m : M68k) (r : Fin 15) : BitVec 8 := (m.reg r).setWidth 8

def setL (m : M68k) (r : Fin 15) (v : BitVec 32) : M68k := { m with reg := update m.reg r v }

def setW (m : M68k) (r : Fin 15) (v : BitVec 16) : M68k :=
  m.setL r ((m.reg r).extractLsb' 16 16 ++ v)

def setB (m : M68k) (r : Fin 15) (v : BitVec 8) : M68k :=
  m.setL r ((m.reg r).extractLsb' 8 24 ++ v)

def readB (m : M68k) (a : Nat) : BitVec 8 := (m.mem a).toBitVec

def readW (m : M68k) (a : Nat) : BitVec 16 := m.readB a ++ m.readB (a + 1)

def writeB (m : M68k) (a : Nat) (v : BitVec 8) : M68k := { m with mem := m.mem.writeB a v.toNat }

-- The handlers run in supervisor mode.
def pushW (m : M68k) (v : BitVec 16) : M68k := { m with ssp := v :: m.ssp }

def pushL (m : M68k) (v : BitVec 32) : M68k := (m.pushW (v.setWidth 16)).pushW (v.extractLsb' 16 16)

def popW (m : M68k) : Option (BitVec 16 × M68k) :=
  match m.ssp with
  | [] => none
  | v :: ssp => some (v,{ m with ssp })

def popL (m : M68k) : Option (BitVec 32 × M68k) := do
  let (h,m) ← m.popW
  let (l,m) ← m.popW
  some (h ++ l,m)

-- move.l (A7)+,r
def popTo (r : Fin 15) (m : M68k) : Option M68k := do
  let (v,m) ← m.popL
  some (m.setL r v)

-- What a subroutine takes off at its end is the address that it was called with.
def bsr (ret : BitVec 32) (body : M68k → Option M68k) (m : M68k) : Option M68k := do
  let m ← body (m.pushL ret)
  let (pc,m) ← m.popL
  if pc = ret then some m else none

def formatWord (m : M68k) (cpu : Cpu) (offset : BitVec 16) : M68k :=
  match cpu with
  | .m68000 => m
  | .m68010 => m.pushW offset

-- A trap: the frame has the address of the instruction after it.
def trap (m : M68k) (cpu : Cpu) (offset : BitVec 16) : M68k :=
  let m := m.formatWord cpu offset
  let m := m.pushL (m.pc + 2)
  let m := m.pushW m.sr
  { m with sr := m.sr &&& 0x7fff ||| 0x2000 }

-- The other formats are those of other exceptions, or of none.
def dropFormat (m : M68k) (cpu : Cpu) : Option M68k :=
  match cpu with
  | .m68000 => some m
  | .m68010 => do
    let (f,m) ← m.popW
    if f.extractLsb' 12 4 = 0 then some m else none

def rte (m : M68k) (cpu : Cpu) : Option M68k := do
  let (sr,m) ← m.popW
  let (pc,m) ← m.popL
  let m ← m.dropFormat cpu
  some { m with sr, pc }

end M68k
open M68k

-- A routine behind one of the firmware's function pointers. It may change some of the registers and
-- memory, and it balances the stack.
structure EfpRoutine (mods : List (Fin 15)) where
  run : M68k → M68k
  reg : ∀ m, ∀ r ∉ mods, (run m).reg r = m.reg r
  usp : ∀ m, (run m).usp = m.usp
  ssp : ∀ m, (run m).ssp = m.ssp
  input : ∀ m, (run m).input = m.input

-- The one that returns a character in d0.
structure EfpReceive where
  run : M68k → M68k
  reg : ∀ m, ∀ r ≠ d0, (run m).reg r = m.reg r
  usp : ∀ m, (run m).usp = m.usp
  ssp : ∀ m, (run m).ssp = m.ssp
  char : ∀ m, (run m).byte d0 = m.input 0
  input : ∀ m, (run m).input = fun n => m.input (n + 1)

-- A C function, to which the longs that are its arguments belong.
structure CFunction (args : Nat) where
  run : M68k → M68k
  usp : ∀ m, (run m).usp = m.usp
  length : ∀ m, (run m).ssp.length = m.ssp.length
  ssp : ∀ m, (run m).ssp.drop (2 * args) = m.ssp.drop (2 * args)

-- A routine keeps a1 or has it saved by the FW_ routine that calls it.
structure Easy68kConsole where
  print : EfpRoutine [a0,a1]
  println : EfpRoutine [a0,a1]
  printchar : EfpRoutine [a1]
  recvchar : EfpReceive
  clrscr : EfpRoutine [a1]
  movexy : EfpRoutine [a1]
  printSigned : CFunction 1
  printUnsigned : CFunction 2
  printSignedWidth : CFunction 2

def EFP_PRINT : Nat := 0x420
def EFP_PRINTLN : Nat := 0x424
def EFP_PRINTCHAR : Nat := 0x428
def EFP_RECVCHAR : Nat := 0x434
def EFP_CLRSCR : Nat := 0x438
def EFP_MOVEXY : Nat := 0x43c
def SDB_UPTICKS : Nat := 0x408

inductive Easy68kTask where
  | printlnLen
  | printLen
  | readlnStr
  | displaynumSigned
  | readlnNum
  | readChar
  | sendChar
  | checkRecv
  | getTicks
  | halt
  | epilogue
  | moveXY
  | setEcho
  | printlnSz
  | printSz
  | displaynumUnsigned
  | setDisplayOpts
  | printSzPrintNum
  | printSzReadNum
  | displaynumSignedWidth

-- Where the variables, the texts and the handlers are, and where a handler goes on after its bsr.
-- The register that tells whether a character is there exists on some boards only.
structure Easy68kImage where
  echoOn : Nat
  promptOn : Nat
  lfDisplay : Nat
  szCrlf : BitVec 32
  readlnPrompt : BitVec 32
  readnumPrompt : BitVec 32
  handler : Easy68kTask → BitVec 32
  back : Easy68kTask → BitVec 32
  mfpRsr : Option Nat

def jumpTable : List Easy68kTask :=
  [.printlnLen,.printLen,.readlnStr,.displaynumSigned,.readlnNum,.readChar,.sendChar,.checkRecv,
    .getTicks,.halt,.epilogue,.moveXY,.setEcho,.printlnSz,.printSz,.displaynumUnsigned,
    .setDisplayOpts,.printSzPrintNum,.printSzReadNum,.epilogue,.displaynumSignedWidth]

-- A loop of a handler: its body, the dbra that counts its rounds, and the way out.
inductive LoopLabel where
  | body
  | dbra
  | done

def M68k.dbra (m : M68k) (r : Fin 15) : LoopLabel × M68k :=
  let m := m.setW r (m.word r - 1)
  if m.word r = 0xffff then (.done,m) else (.body,m)

-- The body may go on anywhere; at most `fuel` steps.
def runLoop (count : Fin 15) (body : M68k → Option (LoopLabel × M68k)) :
    Nat → LoopLabel → M68k → Option M68k
  | _, .done, m => some m
  | 0, _, _ => none
  | fuel + 1, .dbra, m =>
    let (l,m) := m.dbra count
    runLoop count body fuel l m
  | fuel + 1, .body, m => do
    let (l,m) ← body m
    runLoop count body fuel l m

namespace Easy68k

-- FW_PRINT and the like save a1 around the call of a function pointer.
def fw (efp : Nat) (run : M68k → M68k) (m : M68k) : Option M68k :=
  let m := m.pushL (m.reg a1)
  let m := m.setL a1 (BitVec.ofNat 32 (m.mem.readL efp))
  (run m).popTo a1

section Handlers

variable (C : Easy68kConsole) (I : Easy68kImage) (cpu : Cpu) (fuel : Nat)

def FW_PRINT : M68k → Option M68k := fw EFP_PRINT C.print.run
def FW_PRINTLN : M68k → Option M68k := fw EFP_PRINTLN C.println.run
def FW_PRINTCHAR : M68k → Option M68k := fw EFP_PRINTCHAR C.printchar.run
def FW_RECVCHAR : M68k → Option M68k := fw EFP_RECVCHAR C.recvchar.run
def FW_CLRSCR : M68k → Option M68k := fw EFP_CLRSCR C.clrscr.run
def FW_MOVEXY : M68k → Option M68k := fw EFP_MOVEXY C.movexy.run

-- The arguments of a C function are taken off after it: addq #4,A7 or addq #8,A7.
def callC {args : Nat} (f : CFunction args) (m : M68k) : M68k :=
  let m := f.run m
  { m with ssp := m.ssp.drop (2 * args) }

def epilogue (m : M68k) : Option M68k := do
  let m ← m.popTo d0
  m.rte cpu

def epilogue2 (m : M68k) : Option M68k := do
  let m ← m.popTo d0
  m.rte cpu

def printLenBody (m : M68k) : Option (LoopLabel × M68k) := do
  let m := m.setB d0 (m.readB (m.reg a1).toNat)
  let m := m.setL a1 (m.reg a1 + 1)
  let m ← FW_PRINTCHAR C m
  some (.dbra,m)

def printLenImpl (m : M68k) : Option M68k := runLoop d1 (printLenBody C) fuel .dbra m

def printlnLen (m : M68k) : Option M68k := do
  let m ← m.bsr (I.back .printlnLen) (printLenImpl C fuel)
  let m := m.setL a0 I.szCrlf
  let m ← FW_PRINT C m
  epilogue cpu m

def printLen (m : M68k) : Option M68k := do
  let m ← m.bsr (I.back .printLen) (printLenImpl C fuel)
  epilogue cpu m

-- The end of a line, where it is wanted.
def newline (m : M68k) : Option M68k := do
  let m := m.setB d2 (m.readB I.lfDisplay)
  if m.byte d2 = 0 then some m
  else
    let m := m.setB d0 0x0d
    let m ← FW_PRINTCHAR C m
    let m := m.setB d0 0x0a
    FW_PRINTCHAR C m

def prompt (text : BitVec 32) (m : M68k) : Option M68k := do
  let m := m.setB d2 (m.readB I.promptOn)
  if m.byte d2 = 0 then some m
  else
    let m := m.setL a0 text
    FW_PRINT C m

-- The echo flag is in d2.
def echo (m : M68k) : Option M68k := if m.byte d2 = 0 then some m else FW_PRINTCHAR C m

-- move.b v,(A1)+
def storeA1 (m : M68k) (v : BitVec 8) : M68k :=
  let m := m.writeB (m.reg a1).toNat v
  m.setL a1 (m.reg a1 + 1)

def readlnStrBody (m : M68k) : Option (LoopLabel × M68k) := do
  let m ← FW_RECVCHAR C m
  if m.byte d0 = 0x0d then some (.done,m)
  else
    let m ← echo C (storeA1 m (m.byte d0))
    some (.dbra,m)

-- The length is 80 less the room that is left.
def lineLength (m : M68k) : M68k :=
  let m := m.setW d0 80
  let m := m.setW d1 (m.word d1 + 1)
  let m := m.setW d0 (m.word d0 - m.word d1)
  m.setW d1 (m.word d0)

def readlnStr (m : M68k) : Option M68k := do
  let m := m.pushL (m.reg a1)
  let m := m.pushL (m.reg d2)
  let m ← prompt C I I.readlnPrompt m
  let m := m.setB d2 (m.readB I.echoOn)
  let m := m.setW d1 80
  let m ← runLoop d1 (readlnStrBody C) fuel .dbra m
  let m ← newline C I (storeA1 m 0)
  let m ← (lineLength m).popTo d2
  let m ← m.popTo a1
  epilogue cpu m

def displaynumSigned (m : M68k) : Option M68k :=
  let m := m.pushL (m.reg d1)
  epilogue cpu (callC C.printSigned m)

-- Ten times d1 and a digit.
def addDigit (m : M68k) : M68k :=
  let m := m.setL d0 (m.reg d0 - 0x30)
  let m := m.setL d2 (m.reg d1)
  let m := m.setL d1 (m.reg d1 <<< 2)
  let m := m.setL d1 (m.reg d1 + m.reg d2)
  let m := m.setL d1 (m.reg d1 <<< 1)
  m.setL d1 (m.reg d1 + m.reg d0)

def readlnNumBody (m : M68k) : Option (LoopLabel × M68k) := do
  let m := m.setB d2 (m.readB I.echoOn)
  let m ← FW_RECVCHAR C m
  if m.byte d0 = 0x0d then some (.done,m)
  else if m.byte d0 < 0x30 then some (.body,m)
  else if 0x39 < m.byte d0 then some (.body,m)
  else
    let m ← echo C m
    some (.dbra,addDigit m)

def readlnNumImpl (m : M68k) : Option M68k := do
  let m := m.pushL (m.reg d2)
  let m := m.pushL (m.reg d3)
  let m ← prompt C I I.readnumPrompt m
  let m := m.setL d1 (m.reg d1 ^^^ m.reg d1)
  let m := m.setW d3 10
  let m ← runLoop d3 (readlnNumBody C I) fuel .dbra m
  let m ← newline C I m
  let m ← m.popTo d3
  m.popTo d2

def readlnNum (m : M68k) : Option M68k := do
  let m ← m.bsr (I.back .readlnNum) (readlnNumImpl C I fuel)
  epilogue cpu m

def readChar (m : M68k) : Option M68k := do
  let m ← FW_RECVCHAR C m
  epilogue cpu (m.setL d1 (m.reg d0))

def sendChar (m : M68k) : Option M68k := do
  let m := m.setL d0 (m.reg d1)
  let m ← FW_PRINTCHAR C m
  epilogue cpu m

def checkRecv (m : M68k) : Option M68k :=
  match I.mfpRsr with
  | none => epilogue2 cpu (m.setB d1 0)
  | some rsr =>
    let m := m.setB d0 (m.readB rsr)
    if (m.byte d0).getLsbD 7 then epilogue2 cpu (m.setB d1 1) else epilogue2 cpu (m.setB d1 0)

def getTicks (m : M68k) : Option M68k := epilogue2 cpu (m.setW d1 (m.readW SDB_UPTICKS))

def moveXY (m : M68k) : Option M68k :=
  (if m.word d1 = 0xff00 then FW_CLRSCR C m else FW_MOVEXY C m) >>= epilogue2 cpu

def setEcho (m : M68k) : Option M68k := epilogue2 cpu (m.writeB I.echoOn (m.byte d1))

-- Tasks 13 and 14.
def printA1 (print : M68k → Option M68k) (m : M68k) : Option M68k := do
  let m := m.pushL (m.reg a0)
  let m := m.setL a0 (m.reg a1)
  let m ← print m
  let m := m.setL a1 (m.reg a0)
  let m ← m.popTo a0
  epilogue2 cpu m

def printlnSz : M68k → Option M68k := printA1 cpu (FW_PRINTLN C)

def printSz : M68k → Option M68k := printA1 cpu (FW_PRINT C)

def displaynumUnsigned (m : M68k) : Option M68k :=
  let m := m.pushL (m.reg d2)
  let m := m.pushL (m.reg d1)
  epilogue2 cpu (callC C.printUnsigned m)

-- The moves lack a #: they take what is at the addresses 0 and 1.
def setDisplayOpts (m : M68k) : Option M68k :=
  if m.byte d1 = 0 then epilogue2 cpu (m.writeB I.promptOn (m.readB 0))
  else if m.byte d1 = 1 then epilogue2 cpu (m.writeB I.promptOn (m.readB 1))
  else if m.byte d1 = 2 then epilogue2 cpu (m.writeB I.lfDisplay (m.readB 0))
  else if m.byte d1 = 3 then epilogue2 cpu (m.writeB I.lfDisplay (m.readB 1))
  else epilogue2 cpu m

def printSzPrintNum (m : M68k) : Option M68k := do
  let m := m.pushL (m.reg a0)
  let m := m.setL a0 (m.reg a1)
  let m ← FW_PRINT C m
  let m := m.pushL (m.reg d1)
  let m ← (callC C.printSigned m).popTo a0
  epilogue2 cpu m

def printSzReadNum (m : M68k) : Option M68k := do
  let m := m.pushL (m.reg a0)
  let m := m.setL a0 (m.reg a1)
  let m ← FW_PRINT C m
  let m ← m.bsr (I.back .printSzReadNum) (readlnNumImpl C I fuel)
  let m ← m.popTo a0
  epilogue2 cpu m

def displaynumSignedWidth (m : M68k) : Option M68k :=
  let m := m.pushL (m.reg d2)
  let m := m.pushL (m.reg d1)
  epilogue2 cpu (callC C.printSignedWidth m)

-- The firmware's halt does not come back.
def handler (m : M68k) : Easy68kTask → Option M68k
  | .printlnLen => printlnLen C I cpu fuel m
  | .printLen => printLen C I cpu fuel m
  | .readlnStr => readlnStr C I cpu fuel m
  | .displaynumSigned => displaynumSigned C cpu m
  | .readlnNum => readlnNum C I cpu fuel m
  | .readChar => readChar C cpu m
  | .sendChar => sendChar C cpu m
  | .checkRecv => checkRecv I cpu m
  | .getTicks => getTicks cpu m
  | .halt => none
  | .epilogue => epilogue cpu m
  | .moveXY => moveXY C cpu m
  | .setEcho => setEcho I cpu m
  | .printlnSz => printlnSz C cpu m
  | .printSz => printSz C cpu m
  | .displaynumUnsigned => displaynumUnsigned C cpu m
  | .setDisplayOpts => setDisplayOpts I cpu m
  | .printSzPrintNum => printSzPrintNum C cpu m
  | .printSzReadNum => printSzReadNum C I cpu fuel m
  | .displaynumSignedWidth => displaynumSignedWidth C cpu m

-- A task number that is out of range leaves with the number still on the stack.
def trap15Handler (m : M68k) : Option M68k := do
  let m := m.pushL (m.reg d0)
  if 20 < m.reg d0 then m.rte cpu
  else
    let m := m.setL d0 (m.reg d0 + m.reg d0)
    let m := m.setL d0 (m.reg d0 + m.reg d0)
    let task ← jumpTable[(m.word d0).toNat / 4]?
    let m := m.setL a0 (I.handler task)
    handler C I cpu fuel m task

def TRAP_15_VECTOR_ADDR : BitVec 16 := 0xbc

-- From the trap to the instruction that the processor goes on with.
def trap15 (m : M68k) : Option M68k :=
  trap15Handler C I cpu fuel (m.trap cpu TRAP_15_VECTOR_ADDR)

end Handlers
end Easy68k

end RoscoM68k
