import RoscoM68k.Base.Memory

namespace RoscoM68k

def PORT_RWDATA : Nat := 0xf80000
def PORT_WREG_SETUP : Nat := 2
def PORT_WPALETTE : Nat := 4
def IRQ2_HANDLER : Nat := 0x68

def LINELENGTH : Nat := 80
def DWLINELENGTH : Nat := LINELENGTH / 4
def LINECOUNT : Nat := 24
def DISPLAYSIZE : Nat := LINELENGTH * LINECOUNT
def DWDISPLAYSIZE : Nat := DISPLAYSIZE / 4

def VRAM_HIGH : Nat := 0
def VRAM_LOW : Nat := 0
def VRAM_MID_PAGE0_W : Nat := 0x40
def VRAM_MID_PAGE1_W : Nat := 0x60

def BACKGROUND1 : Nat := 0x27
def BACKGROUND2 : Nat := 0x02
def FOREGROUND1 : Nat := 0x47
def FOREGROUND2 : Nat := 0x04
def DISPMODE : Nat := 0
def VDP_REG2_PAGE0 : Nat := 3

def CURPOS : Nat := 0x500
def DISPLAYSTART : Nat := 0x502
def CURSORCOUNT : Nat := 0x504
def CURRENTPAGE : Nat := 0x506
def SHOWCURSOR : Nat := 0x508
def BUFFER : Nat := 0x50a

-- The end of the data block, which the comment in the source gives.
def BLOCK_END : Nat := 0xc8a

-- What the font, the handler and the header are linked to.
structure ConsoleRom where
  fontBegin : Nat
  fontEnd : Nat
  vblankHandler : Nat
  szHeader : Nat

-- Writes to memory by absolute addresses or A1, and what is meant for the chip, by A0.
inductive ConsoleWrite where
  | memory (addr size : Nat)
  | vdp (addr data : Nat)

-- Delays, the stack and the interrupt mask are left out.
structure Console where
  d0 : Nat
  d1 : Nat
  d2 : Nat
  d3 : Nat
  a0 : Nat
  a1 : Nat
  mem : Mem
  writes : List ConsoleWrite

-- The low word or byte of a register is replaced.
def withWord (d w : Nat) : Nat := d / 65536 * 65536 + w % 65536

def withByte (d b : Nat) : Nat := d / 256 * 256 + b % 256

def signedWord (w : Nat) : Int := if w % 65536 < 32768 then w % 65536 else w % 65536 - 65536

namespace Console

def curpos (s : Console) : Nat := s.mem.readW CURPOS

def displaystart (s : Console) : Nat := s.mem.readW DISPLAYSTART

def storeB (s : Console) (addr v : Nat) : Console :=
  { s with
    mem := s.mem.writeB addr v
    writes := s.writes ++ [.memory addr 1] }

def storeW (s : Console) (addr v : Nat) : Console :=
  { s with
    mem := s.mem.writeW addr v
    writes := s.writes ++ [.memory addr 2] }

def storeL (s : Console) (addr v : Nat) : Console :=
  { s with
    mem := s.mem.writeL addr v
    writes := s.writes ++ [.memory addr 4] }

-- A byte for the chip. Where A0 is not its base, it ends up in memory.
def port (s : Console) (offset v : Nat) : Console :=
  { s with
    mem := s.mem.writeB (low32 (s.a0 + offset)) v
    writes := s.writes ++ [.vdp (low32 (s.a0 + offset)) (v % 256)] }

def clearLong (s : Console) : Console := { s.storeL s.a1 0 with a1 := low32 (s.a1 + 4) }

-- The loops of `move.l #0,(A1)+`.
def clearLongs (s : Console) : Nat → Console
  | 0 => s
  | n + 1 => s.clearLong.clearLongs n

def clearBuffer (s : Console) : Console :=
  let s := { s with
    d1 := withWord s.d1 DWDISPLAYSIZE
    a1 := BUFFER }.clearLongs DWDISPLAYSIZE
  { s with d1 := withWord s.d1 0xffff }

def copyByte (s : Console) : Console :=
  let s := s.port 0 (s.mem.readB (indexed s.a1 s.d0))
  let w := (s.d0 + 1) % 65536
  { s with d0 := if w = DISPLAYSIZE then 0 else withWord s.d0 w }

def copyLoop (s : Console) : Nat → Console
  | 0 => s
  | n + 1 => s.copyByte.copyLoop n

-- Bits 14 to 16 of an address go to register 14, and bits 0 to 7 follow.
def vramAddr (s : Console) (high low : Nat) : Console :=
  ((s.port PORT_WREG_SETUP high).port PORT_WREG_SETUP 0x8e).port PORT_WREG_SETUP low

-- What BUFFERFLIP does ahead of its loop.
def flipSetup (s : Console) : Console :=
  let s := s.vramAddr VRAM_HIGH VRAM_LOW
  let s := s.storeB CURRENTPAGE (s.d0 % 256)
  let s := s.port PORT_WREG_SETUP
    (if s.d0 % 256 = 0 then VRAM_MID_PAGE0_W else VRAM_MID_PAGE1_W)
  { s with d0 := withWord s.d0 s.displaystart }

-- D1 and D2 are saved.
def bufferFlip (s : Console) : Console := s.flipSetup.copyLoop DISPLAYSIZE

-- The place on the screen of the position in D1, with the display start in D2.
def vramPos (s : Console) : Nat :=
  let diff := (s.d1 % 65536 + 65536 - s.d2 % 65536) % 65536
  if signedWord s.d1 ≥ signedWord s.d2 then diff else (diff + DISPLAYSIZE) % 65536

-- D3 is saved.
def setupVramWrite (s : Console) : Console :=
  let pos := s.vramPos
  let s := s.vramAddr 0 (pos % 256)
  let mid := (pos &&& 0x3f00) >>> 8
  s.port PORT_WREG_SETUP (if s.mem.readB CURRENTPAGE = 0 then mid ||| 0x40 else mid ||| 0x60)

-- The registers that V9958_CON_PUTCHAR pushes and pops.
def restore (s saved : Console) : Console :=
  { s with
    d1 := saved.d1
    d2 := saved.d2
    d3 := saved.d3
    a0 := saved.a0
    a1 := saved.a1 }

-- The loop after `dbra D1`, whose count is the low word of D1.
def dbraLoop (body : Console → Option Console) (s : Console) : Nat → Option Console
  | 0 => some { s with d1 := withWord s.d1 0xffff }
  | n + 1 => do
    let s ← body { s with d1 := withWord s.d1 n }
    dbraLoop body s n

-- The rest of the line is printed over, character by character.
def carriageReturn (putchar : Console → Option Console) (s : Console) : Option Console :=
  let w := s.d1 % 65536
  let s := { s with d2 := w % LINELENGTH * 65536 + w / LINELENGTH }
  let s := { s with d2 := s.d2 % 65536 * 65536 + s.d2 / 65536 }
  let s := { s with
    d1 := withWord s.d1 (LINELENGTH + 65536 - s.d2 % 65536)
    d0 := withByte s.d0 0 }
  s.dbraLoop putchar (s.d1 % 65536)

-- The cell at D1 and two more in video memory, where a cursor may be.
def eraseCell (s : Console) : Console :=
  let s := s.setupVramWrite
  let s := ((s.port 0 0).port 0 0).port 0 0
  (s.storeB (indexed s.a1 s.d1) 0).storeW CURPOS (s.d1 % 65536)

def backspace (s : Console) : Console :=
  let s := { s with
    a1 := BUFFER
    d2 := withWord s.d2 s.displaystart }
  if s.d2 % 65536 = s.d1 % 65536 then s
  else { s with d1 := withWord s.d1 (s.d1 % 65536 + 65535) }.eraseCell

def moveStart (s : Console) : Console :=
  let start := (s.d2 + LINELENGTH) % 65536
  let s := { s with d2 := withWord s.d2 (if start = DISPLAYSIZE then 0 else start) }
  s.storeW DISPLAYSTART (s.d2 % 65536)

-- The start of the line is found with the whole of D1.
def clearLine (s : Console) : Console :=
  let s := { s with
    a1 := low32 (s.a1 + s.d1)
    d2 := withWord s.d2 DWLINELENGTH }.clearLongs DWLINELENGTH
  { s with d2 := withWord s.d2 0xffff }

def scroll (s : Console) : Console :=
  let s := s.moveStart.clearLine
  { s with
    a1 := BUFFER
    d0 := withByte s.d0 (255 - s.mem.readB CURRENTPAGE) }.bufferFlip

-- From .NOTBS to the new CURPOS.
def printCell (s : Console) : Console :=
  let s := { s with
    a1 := BUFFER
    d2 := withWord s.d2 s.displaystart }
  let s := s.storeB (indexed s.a1 s.d1) (s.d0 % 256)
  let s := s.setupVramWrite.port 0 (s.d0 % 256)
  let w := (s.d1 + 1) % 65536
  let s := { s with d1 := withWord s.d1 (if w = DISPLAYSIZE then 0 else w) }
  s.storeW CURPOS (s.d1 % 65536)

def justPrint (s : Console) : Console :=
  let s := s.printCell
  if s.d1 % 65536 = s.d2 % 65536 then s.scroll else s

-- V9958_CON_PUTCHAR, with room on the stack for `depth` calls of itself.
def putchar : Nat → Console → Option Console
  | 0, _ => none
  | depth + 1, s =>
    if s.d0 % 256 = 10 then some s
    else
      let t := { s with
        a0 := PORT_RWDATA
        d1 := withWord s.d1 s.curpos }
      if s.d0 % 256 = 13 then (t.carriageReturn (putchar depth)).map (·.restore s)
      else if s.d0 % 256 = 8 then some (t.backspace.restore s)
      else some (t.justPrint.restore s)

-- V9958_CON_CLRSCR. The buffer goes to wherever the caller's A0 points.
def clrscr (s : Console) : Console :=
  let t := s.clearBuffer.storeW CURPOS 0
  let t := { t with
    a0 := s.a0
    d1 := withWord t.d1 s.d1
    d2 := withWord t.d2 s.d2
    a1 := BUFFER }
  { t with d0 := withByte t.d0 (255 - t.mem.readB CURRENTPAGE) }.bufferFlip

def ports (s : Console) (data : List (Nat × Nat)) : Console :=
  data.foldl (fun s p => s.port p.1 p.2) s

def setupData : List (Nat × Nat) :=
  [(PORT_WREG_SETUP,0),(PORT_WREG_SETUP,0x90),(PORT_WPALETTE,BACKGROUND1),
    (PORT_WPALETTE,BACKGROUND2),(PORT_WPALETTE,FOREGROUND1),(PORT_WPALETTE,FOREGROUND2),
    (PORT_WREG_SETUP,0x10),(PORT_WREG_SETUP,0x87),(PORT_WREG_SETUP,0x0a),(PORT_WREG_SETUP,0x88),
    (PORT_WREG_SETUP,2),(PORT_WREG_SETUP,0x84),(PORT_WREG_SETUP,VDP_REG2_PAGE0),
    (PORT_WREG_SETUP,0x82),(PORT_WREG_SETUP,DISPMODE),(PORT_WREG_SETUP,0x89),
    (PORT_WREG_SETUP,0),(PORT_WREG_SETUP,0x8e),(PORT_WREG_SETUP,0),(PORT_WREG_SETUP,0x50)]

def displayData : List (Nat × Nat) :=
  [(PORT_WREG_SETUP,0x04),(PORT_WREG_SETUP,0x80),(PORT_WREG_SETUP,0x70),(PORT_WREG_SETUP,0x81)]

def fillPattern (s : Console) : Console :=
  { s.port 0 (s.mem.readB s.a1) with a1 := low32 (s.a1 + 1) }

def fillPatterns (s : Console) : Nat → Console
  | 0 => s
  | n + 1 => s.fillPattern.fillPatterns n

-- The loop over the header, up to its NUL.
def printHeader (depth : Nat) (s : Console) : List UInt8 → Option Console
  | [] => some { s with
      a1 := low32 (s.a1 + 1)
      d0 := withByte s.d0 0 }
  | c :: cs => do
    let s ← putchar depth { s with
      a1 := low32 (s.a1 + 1)
      d0 := withByte s.d0 c.toNat }
    printHeader depth s cs

def headerText : String :=
  "                                ___ ___ _\r" ++
  " ___ ___ ___ __ ___       _____|  _| . | |_\r" ++
  "|  _| . |_ -| _| . |     |     | . | . | '_|\r" ++
  "|_| |___|___|__|___|_____|_|_|_|___|___|_,_|\r" ++
  "                   |_____|  Classic 2.50.DEV\r" ++
  "\r\r"

-- Up to the NUL.
def szHeader : List UInt8 := headerText.toList.map fun c => UInt8.ofNat c.toNat

-- The parts of V9958_CON_INIT: the data area, the handler and the chip, the font, the display.
def clearData (s : Console) : Console :=
  let s := { s with
    a1 := CURPOS
    d1 := withWord s.d1 0x1e2 }.clearLongs 0x1e2
  { s with d1 := withWord s.d1 0xffff }

def setupChip (rom : ConsoleRom) (s : Console) : Console :=
  (s.storeL IRQ2_HANDLER rom.vblankHandler).ports setupData

def loadFont (s : Console) (rom : ConsoleRom) : Console :=
  let s := { s with
    a1 := rom.fontBegin
    d0 := low32 (rom.fontEnd + 4294967296 - rom.fontBegin) }
  let s := s.fillPatterns (s.d0 % 65536)
  { s with d0 := withWord s.d0 0xffff }

def firstFlip (s : Console) : Console :=
  let s := s.clearBuffer
  { s with
    a1 := BUFFER
    d0 := withByte s.d0 0 }.bufferFlip

def init (rom : ConsoleRom) (depth : Nat) (s : Console) : Option Console := do
  let t := (setupChip rom { s with a0 := PORT_RWDATA }.clearData).loadFont rom
  let t := t.firstFlip.ports displayData
  let t ← { t with a1 := rom.szHeader }.printHeader depth szHeader
  some { t with
    d0 := s.d0
    d1 := s.d1
    d2 := s.d2
    a0 := s.a0
    a1 := s.a1 }

end Console

-- The registers of a caller.
structure ConsoleRegs where
  d0 : UInt32
  d1 : UInt32
  d2 : UInt32
  d3 : UInt32
  a0 : UInt32
  a1 : UInt32

inductive ConsoleCall where
  | putchar (r : ConsoleRegs)
  | clrscr (r : ConsoleRegs)

namespace Console

def enter (s : Console) (r : ConsoleRegs) : Console :=
  { s with
    d0 := r.d0.toNat
    d1 := r.d1.toNat
    d2 := r.d2.toNat
    d3 := r.d3.toNat
    a0 := r.a0.toNat
    a1 := r.a1.toNat }

def call (depth : Nat) (s : Console) : ConsoleCall → Option Console
  | .putchar r => putchar depth (s.enter r)
  | .clrscr r => some (s.enter r).clrscr

def calls (depth : Nat) (s : Console) : List ConsoleCall → Option Console
  | [] => some s
  | q :: qs => do
    let s ← s.call depth q
    s.calls depth qs

end Console
end RoscoM68k
