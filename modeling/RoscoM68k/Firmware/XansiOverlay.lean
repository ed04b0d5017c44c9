import RoscoM68k.Firmware.XansiParser
import RoscoM68k.Firmware.XansiScroll

namespace RoscoM68k
open Function

-- Foreground and background change places.
def swapColors (w : BitVec 16) : BitVec 16 :=
  ((w &&& 0xf000) >>> 4) ||| ((w &&& 0x0f00) <<< 4) ||| (w &&& 0x00ff)

-- The loop runs from the first word of the screen as often as the end of the screen says.
def Screen.invertWords (s : Screen) (vram : Nat → BitVec 16) : Nat → BitVec 16 :=
  writes (fun i => u16 (s.vramBase + i)) (fun i m => swapColors (m (u16 (s.vramBase + i))))
    s.vramEnd vram

-- What an operation does to video memory. Neither the shape of the screen nor the colour changes
-- between an operation that depends on it and the end of the char that it is for, so `s` is the
-- screen as that char leaves it.
def ScreenOp.onVram (blitter : Bool) (s : Screen) (vram : Nat → BitVec 16) :
    ScreenOp → Nat → BitVec 16
  | .cell addr _ _ c data => update vram addr (c.toBitVec ++ data.toBitVec)
  | .clear start stop c =>
    writes (fun i => u16 (start + i)) (fun _ _ => c.toBitVec ++ 0x20#8)
      (sub16 (sub16 stop start) 1 + 1) vram
  | .scrollUp => unmark (s.xansiScrollUp blitter (idlePort.load vram))
  | .scrollDown => unmark (s.xansiScrollDown blitter (idlePort.load vram))
  | .visualbell invert =>
    if invert then s.invertWords vram else s.invertWords (s.invertWords vram)
  | .mode _ _ _ _ => vram
  | .defaultColors => vram
  | .color _ _ => vram
  | .eraseCursor _ => vram

-- The driver's data with those of the cursor that is shown, and video memory. The last two are no
-- data of the driver: video memory as it is without a cursor, and where the last one was drawn.
structure XansiVideo where
  td : Xansi
  vram : Nat → BitVec 16
  cursorSave : BitVec 16
  cursorWord : BitVec 16
  text : Nat → BitVec 16
  drawnAt : Nat

-- What UPDATECURSOR reads from the device besides the mode.
structure CursorInput where
  timer : BitVec 8
  paGfxCtrl : Nat
  paDispAddr : Nat

namespace Screen

def gfxChange (s : Screen) (r : CursorInput) : Prop :=
  (s.gfxCtrl ^^^ r.paGfxCtrl) &&& 0x007f ≠ 0 ∨ s.vramBase ≠ r.paDispAddr ∨
    s.hSize ≠ s.xosera.vidWidth ∨ s.vSize ≠ s.xosera.vidHeight ∨
    s.xosera.paLineLen ≠ (if s.lineLen ≠ 0 then s.lineLen else s.cols)

instance (s : Screen) (r : CursorInput) : Decidable (s.gfxChange r) :=
  inferInstanceAs (Decidable (_ ∨ _))

-- Foreground and background are swapped, and made to differ from those of the word below.
def cursorColor (s : Screen) (data : BitVec 16) : BitVec 16 :=
  let color := s.color.toBitVec.setWidth 16
  let c := ((color &&& 0x0f) <<< 12) ||| ((color &&& 0xf0) <<< 4)
  let c := if (c ^^^ data) &&& 0x0f00 = 0 then c ^^^ 0x0800 else c
  if (c ^^^ data) &&& 0xf000 = 0 then c ^^^ 0x8000 else c

def newCursor (s : Screen) (data : BitVec 16) : BitVec 16 :=
  let c := s.cursorColor data
  if s.cursorMask ≠ 0 then
    let glyph := BitVec.ofNat 16 s.cursorGlyph
    let mask := BitVec.ofNat 16 s.cursorMask
    let c := (glyph &&& mask ||| c &&& ~~~mask) &&& 0xff00
    let data := glyph &&& mask ||| data &&& ~~~mask
    c ||| (data &&& 0x00ff)
  else c ||| (data &&& 0x00ff)

end Screen

namespace XansiVideo

-- Text output, the operations of which are those that the driver's data have more than before.
def output (blitter : Bool) (v : XansiVideo) (td : Xansi) : XansiVideo :=
  let ops := td.screen.ops.drop v.td.screen.ops.length
  { v with
    td := td
    vram := ops.foldl (ScreenOp.onVram blitter td.screen) v.vram
    text := ops.foldl (ScreenOp.onVram blitter td.screen) v.text }

def drawCursor (v : XansiVideo) (r : CursorInput) : XansiVideo :=
  let s := v.td.screen
  if s.cursorDrawn then v
  else if s.gfxChange r then v
  else
    let data := v.vram s.curAddr
    { v with
      td := v.td.onScreen { s with cursorDrawn := true }
      vram := update v.vram s.curAddr (s.newCursor data)
      cursorSave := data
      cursorWord := s.newCursor data
      drawnAt := s.curAddr }

-- Nothing is put back where the cursor was overwritten.
def eraseCursor (v : XansiVideo) : XansiVideo :=
  let s := v.td.screen
  if s.cursorDrawn then
    let v := { v with td := v.td.onScreen s.eraseCursor }
    if v.vram s.curAddr = v.cursorWord then { v with vram := update v.vram s.curAddr v.cursorSave }
    else v
  else v

section Calls

variable (R : Reconfig) (blitter : Bool)

def printLoop (v : XansiVideo) : List UInt8 → Option XansiVideo
  | [] => some v
  | c :: cs =>
    if c = 0 then some v
    else do
      let td ← v.td.next R c
      (v.output blitter td).printLoop cs

def xansitermPrint (v : XansiVideo) (str : List UInt8) : Option XansiVideo :=
  v.eraseCursor.printLoop R blitter str

def xansitermPrintchar (v : XansiVideo) (cdata : UInt8) : Option XansiVideo :=
  if cdata ≠ 0 then v.xansitermPrint R blitter [cdata,0]
  else
    let v := v.eraseCursor
    if v.td.state = TSTATE_NORMAL ∧ v.td.screen.flags.passthru then
      some (v.output blitter (v.td.onScreen (v.td.screen.drawchar 0)))
    else some v

def xansitermSetcursor (v : XansiVideo) (showcursor : Bool) : XansiVideo :=
  let v := v.eraseCursor
  let s := v.td.screen
  { v with td := v.td.onScreen (s.setFlags { s.flags with hideCursor := ¬ showcursor }) }

-- A hidden cursor does not wrap. The cursor blinks with bit 3 of the timer's high byte.
def xansitermUpdatecursor (v : XansiVideo) (r : CursorInput) : XansiVideo :=
  let s := v.td.screen
  if s.flags.hideCursor then v
  else
    let cursorOn := s.flags.noblinkCursor || r.timer &&& 0x08 ≠ 0
    let v := v.output blitter (v.td.onScreen s.checkLcf)
    if cursorOn then v.drawCursor r else v.eraseCursor

def xansitermErasecursor (v : XansiVideo) : XansiVideo := v.eraseCursor

end Calls
end XansiVideo

inductive CursorCall where
  | print (str : List UInt8)
  | printchar (cdata : UInt8)
  | setcursor (showcursor : Bool)
  | updatecursor (r : CursorInput)
  | erasecursor

def CursorCall.run (R : Reconfig) (blitter : Bool) (v : XansiVideo) :
    CursorCall → Option XansiVideo
  | .print str => v.xansitermPrint R blitter str
  | .printchar cdata => v.xansitermPrintchar R blitter cdata
  | .setcursor showcursor => some (v.xansitermSetcursor showcursor)
  | .updatecursor r => some (v.xansitermUpdatecursor blitter r)
  | .erasecursor => some v.xansitermErasecursor

def cursorCalls (R : Reconfig) (blitter : Bool) (v : XansiVideo) :
    List CursorCall → Option XansiVideo
  | [] => some v
  | q :: qs => do
    let v ← q.run R blitter v
    cursorCalls R blitter v qs

-- From the initialisation on, after which video memory is anything.
def cursorSession (R : Reconfig) (blitter : Bool) (d : Xosera) (verCode : UInt8 × UInt8 × UInt8)
    (vram : Nat → BitVec 16) (qs : List CursorCall) : Option XansiVideo := do
  let td ← xansiInit R d verCode
  cursorCalls R blitter
    { td := td
      vram := vram
      cursorSave := 0
      cursorWord := 0
      text := vram
      drawnAt := 0 } qs

end RoscoM68k
