import Mathlib.Tactic

namespace RoscoM68k

-- The low 16 bits of a sum, and of a difference.
def u16 (n : Nat) : Nat := n % 65536

def sub16 (a b : Nat) : Nat := u16 (a + 65536 - b % 65536)

-- The registers of the video device that the driver reads.
structure Xosera where
  monres848 : Bool
  paLineLen : Nat
  paHvFscale : Nat

def Xosera.vidWidth (d : Xosera) : Nat := if d.monres848 then 848 else 640

def Xosera.vidHeight (_ : Xosera) : Nat := 480

-- What a reconfiguration does to the registers is up to the device.
abbrev Reconfig := Nat → Xosera → Xosera

-- What the driver has the device do. A cell is kept with the bounds of the screen.
inductive ScreenOp where
  | cell (addr base limit : Nat) (color data : UInt8)
  | clear (start stop : Nat) (color : UInt8)
  | scrollUp
  | scrollDown
  | visualbell (invert : Bool)
  | mode (gfxCtrl tileCtrl dispAddr lineLen : Nat)
  | defaultColors
  | color (n rgb : Nat)
  | eraseCursor (addr : Nat)

structure TermFlags where
  newline : Bool := false
  noAutowrap : Bool := false
  hideCursor : Bool := false
  noblinkCursor : Bool := false
  bright : Bool := false
  dim : Bool := false
  reverse : Bool := false
  passthru : Bool := false

-- The part of xansiterm_data that is about the screen.
structure Screen where
  curAddr : Nat
  cursorDrawn : Bool
  vramBase : Nat
  vramSize : Nat
  vramEnd : Nat
  vramMemend : Nat
  lineLen : Nat
  linesHigh : Nat
  cursorGlyph : Nat
  cursorMask : Nat
  cols : Nat
  rows : Nat
  x : Nat
  y : Nat
  saveX : Nat
  saveY : Nat
  hSize : Nat
  vSize : Nat
  gfxCtrl : Nat
  tileCtrl : List Nat
  curFont : Nat
  defColor : UInt8
  curColor : UInt8
  color : UInt8
  flags : TermFlags
  lcf : Bool
  saveLcf : Bool
  xosera : Xosera
  ops : List ScreenOp

namespace Screen

def emit (s : Screen) (op : ScreenOp) : Screen := { s with ops := s.ops ++ [op] }

def calcAddr (s : Screen) (x y : Nat) : Nat := u16 (s.vramBase + u16 (y * s.cols) + x)

def calcCurAddr (s : Screen) : Screen := { s with curAddr := s.calcAddr s.x s.y }

def checkLcf (s : Screen) : Screen :=
  if s.lcf then
    if sub16 s.curAddr s.vramBase ≥ s.vramSize then
      { s with
        lcf := false
        curAddr := u16 (s.vramBase + sub16 s.vramSize s.cols) }.emit .scrollUp
    else { s with lcf := false }
  else s

-- The cell is written at the address before the increment.
def putCell (s : Screen) (cdata : UInt8) : Screen :=
  { s with
    curAddr := u16 (s.curAddr + 1)
    x := u16 (s.x + 1) }.emit (.cell s.curAddr s.vramBase s.vramEnd s.color cdata)

def endOfLine (s : Screen) : Screen :=
  if s.x ≥ s.cols then
    if s.flags.noAutowrap then
      { s with
        curAddr := sub16 s.curAddr 1
        x := sub16 s.cols 1 }
    else
      { s with
        x := 0
        y := if u16 (s.y + 1) ≥ s.rows then sub16 s.rows 1 else u16 (s.y + 1)
        lcf := true }
  else s

def drawchar (s : Screen) (cdata : UInt8) : Screen := (s.checkLcf.putCell cdata).endOfLine

def clear (s : Screen) (start stop : Nat) : Screen :=
  if start > stop then s.emit (.clear stop start s.color) else s.emit (.clear start stop s.color)

-- A fraction takes its share off a size.
def scaled (size frac : Nat) : Nat := if frac ≠ 0 then size - size / (frac + 1) else size

def tileW (gfxCtrl : Nat) : Nat :=
  let bpp := (gfxCtrl >>> 4) &&& 0x3
  let hRpt := ((gfxCtrl >>> 2) &&& 0x3) + 1
  (if gfxCtrl &&& 0x40 = 0 ∨ bpp < 2 then 8 else if bpp = 2 then 4 else 1) * hRpt

def tileH (gfxCtrl tileCtrl : Nat) : Nat :=
  let vRpt := (gfxCtrl &&& 0x3) + 1
  (if gfxCtrl &&& 0x40 ≠ 0 then 1 else (tileCtrl &&& 0xf) + 1) * vRpt

-- A length of text that the user has given, or what fits.
def textLen (user size tile : Nat) : Nat := if user = 0 then size / tile else user

def textLenUp (user size tile : Nat) : Nat := if user = 0 then (size + tile - 1) / tile else user

-- Only the memory that no mode before has used is cleared.
def clearMore (s : Screen) (clearEnd : Nat) : Screen :=
  if s.vramMemend < clearEnd then
    { s.clear s.vramMemend clearEnd with vramMemend := clearEnd }
  else s

-- A coordinate inside the new mode.
def clip (v n : Nat) : Nat := if v ≥ n then sub16 n 1 else v

def setMode (s : Screen) (tileCtrl : Nat) : Screen :=
  let hSize := scaled s.xosera.vidWidth ((s.xosera.paHvFscale &&& 0x0700) >>> 8)
  let vSize := scaled s.xosera.vidHeight (s.xosera.paHvFscale &&& 0x7)
  let rows := textLen s.linesHigh vSize (tileH s.gfxCtrl tileCtrl)
  let cols := textLen s.lineLen hSize (tileW s.gfxCtrl)
  { s with
    hSize := hSize
    vSize := vSize
    vramSize := u16 (cols * rows)
    vramEnd := u16 (s.vramBase + u16 (cols * rows))
    cols := cols
    rows := rows
    curColor := s.defColor
    color := s.defColor
    x := clip s.x cols
    y := clip s.y rows
    xosera := { s.xosera with paLineLen := cols } }.emit
      (.mode s.gfxCtrl tileCtrl s.vramBase cols)

def clearEnd (s : Screen) (tileCtrl : Nat) : Nat :=
  let rowsRu := textLenUp s.linesHigh s.vSize (tileH s.gfxCtrl tileCtrl)
  let colsRu := textLenUp s.lineLen s.hSize (tileW s.gfxCtrl)
  u16 (s.vramBase + u16 (colsRu * rowsRu))

def reset (resetColormap : Bool) (s : Screen) : Option Screen := do
  let tileCtrl ← s.tileCtrl[s.curFont]?
  let s := s.setMode tileCtrl
  let s := if resetColormap then s.emit .defaultColors else s
  some (s.clearMore (s.clearEnd tileCtrl)).calcCurAddr

def cls (s : Screen) : Screen :=
  { s.clear s.vramBase s.vramEnd with
    curAddr := s.vramBase
    x := 0
    y := 0
    lcf := false }

def scrollDown (s : Screen) : Screen := s.emit .scrollDown

end Screen

inductive Ctrl where
  | bel
  | bs
  | ht
  | lf
  | vt
  | ff
  | cr
  | other
  deriving DecidableEq

def Ctrl.ofByte (cdata : UInt8) : Ctrl :=
  if cdata = 0x07 then .bel
  else if cdata = 0x08 then .bs
  else if cdata = 0x09 then .ht
  else if cdata = 0x0a then .lf
  else if cdata = 0x0b then .vt
  else if cdata = 0x0c then .ff
  else if cdata = 0x0d then .cr
  else .other

namespace Screen

-- With an automatic line length, changes of the device's mode are followed.
def detectMode (s : Screen) : Option Screen :=
  if s.lineLen = 0 ∧ (s.hSize ≠ s.xosera.vidWidth ∨ s.vSize ≠ s.xosera.vidHeight ∨
      s.cols ≠ s.xosera.paLineLen) then s.reset false
  else some s

-- What follows the switch where the cursor's row may have changed.
def afterCtrl (s : Screen) : Screen :=
  if s.y ≥ s.rows then
    { s with
      lcf := false
      curAddr := sub16 s.curAddr s.cols
      y := sub16 s.y 1 }.emit .scrollUp
  else { s with lcf := false }

def backspace (s : Screen) : Screen :=
  if s.x > 0 then
    { s with
      x := s.x - 1
      curAddr := sub16 s.curAddr 1 }
  else s

def tab (s : Screen) : Screen :=
  let nx := u16 (s.x / 8 * 8 + 8)
  if sub16 s.cols nx ≥ 8 then
    { s with
      curAddr := u16 (s.curAddr + sub16 nx s.x)
      x := nx }
  else
    { s with
      curAddr := u16 (sub16 s.curAddr s.x + s.cols)
      x := 0
      y := u16 (s.y + 1) }

def returnCarriage (s : Screen) : Screen :=
  { s with
    curAddr := sub16 s.curAddr s.x
    x := 0 }

def lineFeed (s : Screen) : Screen :=
  let s := { s with
    curAddr := u16 (s.curAddr + s.cols)
    y := u16 (s.y + 1) }
  if s.flags.newline then s.returnCarriage else s

def verticalTab (s : Screen) : Screen :=
  let t := { s with
    curAddr := sub16 s.curAddr s.cols
    y := sub16 s.y 1 }
  if t.y ≥ t.rows then
    { t with
      curAddr := u16 (t.curAddr + t.cols)
      y := u16 (t.y + 1) }.scrollDown
  else t

def ctrl (s : Screen) : Ctrl → Screen
  | .bel => s.emit (.visualbell false)
  | .bs => s.backspace
  | .ht => s.tab.afterCtrl
  | .lf => s.lineFeed.afterCtrl
  | .vt => s.verticalTab.afterCtrl
  | .ff => s.cls
  | .cr => s.returnCarriage.afterCtrl
  | .other => s

def processctrl (s : Screen) (cdata : UInt8) : Option Screen := do
  let s ← s.detectMode
  some (s.ctrl (.ofByte cdata))

def processchar (s : Screen) (cdata : UInt8) : Option Screen :=
  if cdata ≥ 0x20 ∨ s.flags.passthru then some (s.drawchar cdata) else s.processctrl cdata

-- A cursor that UPDATECURSOR has drawn.
def eraseCursor (s : Screen) : Screen :=
  if s.cursorDrawn then { s with cursorDrawn := false }.emit (.eraseCursor s.curAddr) else s

end Screen
end RoscoM68k
