import RoscoM68k.Firmware.Xansi

namespace RoscoM68k

def TSTATE_NORMAL : Nat := 0
def TSTATE_ILLEGAL : Nat := 1
def TSTATE_ESC : Nat := 2
def TSTATE_CSI : Nat := 3
def MAX_CSI_PARMS : Nat := 16
def MAX_QUERY_LEN : Nat := 16
def XANSI_TERMINAL_REVISION : Nat := 3
def XR_PA_GFX_CTRL : Nat := 0x10

def ansiToVgaColor : List UInt8 := [0,4,2,6,1,5,3,7]

-- The rest of xansiterm_data. An index outside an array is `none`.
structure Xansi where
  screen : Screen
  state : Nat
  csiParms : List Nat
  numParms : Nat
  intermediateChar : UInt8
  sendIndex : Int
  sendBuffer : List UInt8
  verCode : UInt8 × UInt8 × UInt8

-- For numbers up to 999. The first two digits are uint16_t.
def strDec (num : Nat) : List UInt8 :=
  let hundreds := if num ≥ 100 then num / 100 % 65536 else 0
  let n := num - hundreds * 100
  let tens := if num ≥ 10 then n / 10 % 65536 else 0
  (if num ≥ 100 then [UInt8.ofNat (0x30 + hundreds)] else []) ++
    (if num ≥ 10 then [UInt8.ofNat (0x30 + tens)] else []) ++
    [UInt8.ofNat (0x30 + (n - tens * 10))]

-- One char after the other from `i` on.
def writeChars (buf : List UInt8) (i : Nat) : List UInt8 → Option (List UInt8)
  | [] => some buf
  | c :: cs => if i < buf.length then writeChars (buf.set i c) (i + 1) cs else none

inductive EscFinal where
  | csi
  | ris
  | decsc
  | decrc
  | font (n : Nat)
  | ind
  | ri
  | nel
  | id
  | del
  | other
  deriving DecidableEq

def EscFinal.ofByte (cdata : UInt8) : EscFinal :=
  if cdata = 0x9b ∨ cdata = 0x5b then .csi
  else if cdata = 0x63 then .ris
  else if cdata = 0x37 then .decsc
  else if cdata = 0x38 then .decrc
  else if cdata = 0x28 ∨ cdata = 0x29 ∨ cdata = 0x2a ∨ cdata = 0x2b then
    .font (cdata &&& 0x03).toNat
  else if cdata = 0x44 then .ind
  else if cdata = 0x4d then .ri
  else if cdata = 0x45 then .nel
  else if cdata = 0x5a then .id
  else if cdata = 0x7f then .del
  else .other

inductive CsiFinal where
  | cuu
  | cud
  | cuf
  | cub
  | cup
  -- With `on` for h and not for l.
  | mode (on : Bool)
  | dsr
  | da
  | scp
  | rcp
  | ed
  | el
  | sgr
  | other
  deriving DecidableEq

def CsiFinal.ofByte (cdata : UInt8) : CsiFinal :=
  if cdata = 0x41 then .cuu
  else if cdata = 0x42 then .cud
  else if cdata = 0x43 then .cuf
  else if cdata = 0x44 then .cub
  else if cdata = 0x48 ∨ cdata = 0x66 then .cup
  else if cdata = 0x68 then .mode true
  else if cdata = 0x6c then .mode false
  else if cdata = 0x6e then .dsr
  else if cdata = 0x63 then .da
  else if cdata = 0x73 then .scp
  else if cdata = 0x75 then .rcp
  else if cdata = 0x4a then .ed
  else if cdata = 0x4b then .el
  else if cdata = 0x6d then .sgr
  else .other

namespace Screen

def saveCursor (s : Screen) : Screen :=
  { s with
    saveX := s.x
    saveY := s.y
    saveLcf := s.lcf }

def restoreCursor (s : Screen) : Screen :=
  { s with
    x := s.saveX
    y := s.saveY
    lcf := s.saveLcf }

def cursorDown (s : Screen) : Screen :=
  if u16 (s.y + 1) ≥ s.rows then { s with y := sub16 (u16 (s.y + 1)) 1 }.emit .scrollUp
  else { s with y := u16 (s.y + 1) }

def reverseIndex (s : Screen) : Screen :=
  if sub16 s.y 1 ≥ s.rows then { s with y := u16 (sub16 s.y 1 + 1) }.scrollDown
  else { s with y := sub16 s.y 1 }

-- The row is compared with the number of columns.
def nextLine (s : Screen) : Screen :=
  if u16 (s.y + 1) ≥ s.cols then
    { s with
      x := 0
      y := sub16 s.cols 1 }.emit .scrollUp
  else
    { s with
      x := 0
      y := u16 (s.y + 1) }

def cursorUp (s : Screen) (num : Nat) : Screen :=
  { s with y := if sub16 s.y num ≥ s.rows then 0 else sub16 s.y num }

def cursorDownBy (s : Screen) (num : Nat) : Screen :=
  { s with y := clip (u16 (s.y + num)) s.rows }

def cursorRight (s : Screen) (num : Nat) : Screen :=
  { s with
    lcf := false
    x := clip (u16 (s.x + num)) s.cols }

def cursorLeft (s : Screen) (num : Nat) : Screen :=
  { s with x := if sub16 s.x num ≥ s.cols then 0 else sub16 s.x num }

-- Row and column count from 1, and 0 is 1.
def cursorPosition (s : Screen) (row col : Nat) : Screen :=
  { s with
    lcf := false
    x := clip (col - 1) s.cols
    y := clip (row - 1) s.rows }

def swapNibbles (c : UInt8) : UInt8 := ((c &&& 0xf0) >>> 4) ||| ((c &&& 0x0f) <<< 4)

def screenReverse (s : Screen) : Screen :=
  { s with
    defColor := swapNibbles s.defColor
    color := swapNibbles s.color
    curColor := swapNibbles s.curColor }.emit (.visualbell true)

-- CSI ?3h and CSI ?3l, between 848 and 640 columns of pixels.
def videoMode (R : Reconfig) (s : Screen) (on : Bool) : Option Screen :=
  let res := if on then 848 else 640
  if s.xosera.vidWidth ≠ res then do
    let config := if res = 640 then 0 else 1
    let s ← { s with xosera := R config s.xosera }.reset true
    some s.cls
  else some s

def setFlags (s : Screen) (flags : TermFlags) : Screen := { s with flags := flags }

def mode (R : Reconfig) (s : Screen) (question on : Bool) (num : Nat) : Option Screen :=
  if question then
    if num = 3 then s.videoMode R on
    else if num = 5 then some s.screenReverse
    else if num = 7 then
      let s := s.checkLcf
      some (s.setFlags { s.flags with noAutowrap := ¬ on })
    else if num = 12 then some (s.setFlags { s.flags with noblinkCursor := ¬ on })
    else if num = 25 then some (s.setFlags { s.flags with hideCursor := ¬ on })
    else some s
  else if num = 20 then some (s.setFlags { s.flags with newline := on })
  else some s

def eraseDisplay (s : Screen) (num : Nat) : Screen :=
  if num = 0 then s.clear (s.calcAddr 0 s.y) s.vramEnd
  else if num = 1 then s.clear s.vramBase (s.calcAddr (sub16 s.cols 1) s.y)
  else if num = 2 then s.clear s.vramBase s.vramEnd
  else s

def eraseLine (s : Screen) (num : Nat) : Screen :=
  if num = 0 then s.clear s.curAddr (s.calcAddr (sub16 s.cols 1) s.y)
  else if num = 1 then s.clear (s.calcAddr 0 s.y) s.curAddr
  else if num = 2 then s.clear (s.calcAddr 0 s.y) (s.calcAddr (sub16 s.cols 1) s.y)
  else s

def setFore (c col : UInt8) : UInt8 := (c &&& 0xf0) ||| col

def setBack (c col : UInt8) : UInt8 := (c &&& (0x0f : UInt8)) ||| (col <<< (4 : UInt8))

-- The switch over the code of a parameter, without 68.
def sgrCode (s : Screen) (code : Nat) (col : UInt8) : Screen :=
  if code = 0 then
    { s with
      flags := { s.flags with
        bright := false
        dim := false
        reverse := false
        passthru := false }
      curColor := s.defColor }
  else if code = 1 then
    s.setFlags { s.flags with
      dim := false
      bright := true }
  else if code = 2 then
    s.setFlags { s.flags with
      bright := false
      dim := true }
  else if code = 7 then s.setFlags { s.flags with reverse := true }
  else if code = 8 then s.setFlags { s.flags with passthru := true }
  else if code = 39 then { s with curColor := setFore s.curColor (s.defColor &&& 0xf) }
  else if 30 ≤ code ∧ code ≤ 37 then { s with curColor := setFore s.curColor col }
  else if code = 38 then
    { s with
      defColor := setFore s.defColor col
      curColor := setFore s.curColor col }
  else if code = 49 then { s with curColor := setBack s.curColor (s.defColor >>> 4) }
  else if 40 ≤ code ∧ code ≤ 47 then { s with curColor := setBack s.curColor col }
  else if code = 48 then
    { s with
      defColor := setBack s.defColor col
      curColor := setBack s.curColor col }
  else s

def effectiveColor (s : Screen) : Screen :=
  let c := if s.flags.reverse then swapNibbles s.curColor else s.curColor
  let c := if s.flags.dim then c &&& 0xf7 else c
  { s with color := if s.flags.bright then c ||| 0x08 else c }

end Screen

namespace Xansi

-- A reply with its NUL. `sendIndex` is set first.
def sendReply (td : Xansi) (bs : List UInt8) : Option Xansi := do
  let buf ← writeChars td.sendBuffer 0 (bs ++ [0])
  some { td with
    sendIndex := 0
    sendBuffer := buf }

def vt101Id : List UInt8 := [0x1b,0x5b,0x3f,0x31,0x3b,0x30,0x63]

def beginCsiOrEsc (td : Xansi) (c : UInt8) : Xansi :=
  { td with
    state := if c = 0x1b then TSTATE_ESC else TSTATE_CSI
    intermediateChar := 0
    numParms := 0
    csiParms := List.replicate MAX_CSI_PARMS 0 }

def onScreen (td : Xansi) (s : Screen) : Xansi := { td with screen := s }

def toNormal (td : Xansi) : Xansi := { td with state := TSTATE_NORMAL }

def processEsc (td : Xansi) (cdata : UInt8) : Option Xansi :=
  let td := td.toNormal
  let s := td.screen
  match EscFinal.ofByte cdata with
  | .csi => some (td.beginCsiOrEsc cdata)
  | .ris => do
    let s ← (s.setFlags {}).reset true
    some (td.onScreen s.cls)
  | .decsc => some (td.onScreen s.saveCursor)
  | .decrc => some (td.onScreen s.restoreCursor.calcCurAddr)
  | .font n => do
    let s ← { s with curFont := n }.reset false
    some (td.onScreen s)
  | .ind => some (td.onScreen s.cursorDown.calcCurAddr)
  | .ri => some (td.onScreen s.reverseIndex.calcCurAddr)
  | .nel => some (td.onScreen s.nextLine.calcCurAddr)
  | .id => td.sendReply vt101Id
  | .del => some { td with state := TSTATE_ESC }
  | .other => some td

def parm (td : Xansi) (i : Nat) : Option Nat := td.csiParms[i]?

-- SGR 68: the values at `i` and behind it, if there are enough.
def roscoCmd (td : Xansi) (i : Nat) : Option Xansi :=
  if i + 3 < td.numParms then do
    let cmd ← td.parm (i + 1)
    let n ← td.parm (i + 2)
    let parm0 ← td.parm (i + 3)
    let s := td.screen
    if cmd = 0 then
      some (td.onScreen
        (if n = 1 then { s with vramBase := parm0 }
        else if n = 2 then { s with lineLen := parm0 }
        else if n = 3 then { s with linesHigh := parm0 }
        else s))
    else if cmd = 10 then
      if n < 256 ∧ i + 3 + 2 < td.numParms then do
        let g ← td.parm (i + 4)
        let b ← td.parm (i + 5)
        let rgb := ((parm0 &&& 0xf0) <<< 4) ||| (g &&& 0xf0) ||| ((b &&& 0xf0) >>> 4)
        some (td.onScreen (s.emit (.color n rgb)))
      else some td
    else if cmd = 12 then
      if n < 4 then
        if n < s.tileCtrl.length then
          some (td.onScreen { s with tileCtrl := s.tileCtrl.set n parm0 })
        else none
      else some td
    else if cmd = 20 then
      some (td.onScreen (if n = XR_PA_GFX_CTRL then { s with gfxCtrl := parm0 } else s))
    else if cmd = 30 then
      some (td.onScreen
        (if n = 1 then { s with cursorGlyph := parm0 }
        else if n = 2 then { s with cursorMask := parm0 }
        else s))
    else some td
  else some td

def isColorCode (code : Nat) : Prop :=
  30 ≤ code ∧ code ≤ 39 ∨ 40 ≤ code ∧ code ≤ 49 ∨ 90 ≤ code ∧ code ≤ 97 ∨ 100 ≤ code ∧ code ≤ 107

instance (code : Nat) : Decidable (isColorCode code) := inferInstanceAs (Decidable (_ ∨ _))

def setsDefault (code : Nat) : Bool := code = 38 ∨ code = 48

-- The code modulo ten, or the third parameter of 38;5;n and 48;5;n.
def colorParm (td : Xansi) (i code : Nat) : Option UInt8 :=
  if ¬ setsDefault code ∨ i + 2 ≥ td.numParms then some (UInt8.ofNat (code % 10))
  else do
    let m ← td.parm (i + 1)
    if m ≠ 5 then some (UInt8.ofNat (code % 10))
    else do
      let n ← td.parm (i + 2)
      some (UInt8.ofNat (n &&& 0xf))

-- From ANSI colors to those of VGA. The light ranges go to the normal ones.
def vgaColor (code : Nat) (col : UInt8) : Option (Nat × UInt8) :=
  if isColorCode code ∧ col < 8 then do
    let c ← ansiToVgaColor[col.toNat]?
    some (if code ≥ 90 then (if code < 100 then 30 else 40,c + 8) else (code,c))
  else some (code,col)

def sgrSwitch (td : Xansi) (i code : Nat) (col : UInt8) : Option Xansi :=
  if code = 68 then td.roscoCmd i else some (td.onScreen (td.screen.sgrCode code col))

-- The body of the loop over the parameters, and whether the rest is left out.
def sgrParm (td : Xansi) (i : Nat) : Option (Bool × Xansi) := do
  let code ← td.parm i
  let col ← td.colorParm i code
  let (vgaCode,vgaCol) ← vgaColor code col
  let td ← td.sgrSwitch i vgaCode vgaCol
  some (setsDefault code || code = 68,td.onScreen td.screen.effectiveColor)

-- With `k` parameters left from `i` on.
def sgrLoop (td : Xansi) (i : Nat) : Nat → Option Xansi
  | 0 => some td
  | k + 1 => do
    let (stop,td) ← td.sgrParm i
    if stop then some td else td.sgrLoop (i + 1) k

def sgr (td : Xansi) : Option Xansi :=
  let td := if td.numParms = 0 then { td with numParms := 1 } else td
  td.sgrLoop 0 td.numParms

def reportStatus (td : Xansi) (num : Nat) : Option Xansi :=
  if num = 5 then td.sendReply [0x1b,0x5b,0x30,0x6e]
  else if num = 6 then
    td.sendReply ([0x1b,0x5b] ++ strDec (td.screen.y + 1) ++ [0x3b] ++ strDec (td.screen.x + 1) ++
      [0x52])
  else some td

def identify (td : Xansi) (num : Nat) : Option Xansi :=
  if td.intermediateChar = 0 then
    if num = 0 then td.sendReply vt101Id
    else if num = 68 then
      td.sendReply ([0x1b,0x5b,0x3f] ++ strDec 68 ++
        [0x3b,td.verCode.1,0x3b,td.verCode.2.1,td.verCode.2.2,0x3b] ++
        strDec XANSI_TERMINAL_REVISION ++ [0x63])
    else some td
  else some td

def csiFinal (R : Reconfig) (td : Xansi) (numZ : Nat) : CsiFinal → Option Xansi
  | .cuu => some (td.onScreen (td.screen.cursorUp (if numZ = 0 then 1 else numZ)))
  | .cud => some (td.onScreen (td.screen.cursorDownBy (if numZ = 0 then 1 else numZ)))
  | .cuf => some (td.onScreen (td.screen.cursorRight (if numZ = 0 then 1 else numZ)))
  | .cub => some (td.onScreen (td.screen.cursorLeft (if numZ = 0 then 1 else numZ)))
  | .cup => do
    let col ← td.parm 1
    let row ← td.parm 0
    some (td.onScreen (td.screen.cursorPosition row col))
  | .mode on => do
    let s ← td.screen.mode R (td.intermediateChar = 0x3f) on (if numZ = 0 then 1 else numZ)
    some (td.onScreen s)
  | .dsr => td.reportStatus numZ
  | .da => td.identify numZ
  | .scp => some (td.onScreen td.screen.saveCursor)
  | .rcp => some (td.onScreen td.screen.restoreCursor)
  | .ed => some (td.onScreen (td.screen.eraseDisplay numZ))
  | .el => some (td.onScreen (td.screen.eraseLine numZ))
  | .sgr => td.sgr
  | .other => some td

def processCsi (R : Reconfig) (td : Xansi) (cdata : UInt8) : Option Xansi := do
  let td := td.toNormal
  let numZ ← td.parm 0
  let td ← td.csiFinal R numZ (.ofByte cdata)
  some (td.onScreen td.screen.calcCurAddr)

def setParm (td : Xansi) (i v : Nat) : Option Xansi :=
  if i < td.csiParms.length then some { td with csiParms := td.csiParms.set i v } else none

def toIllegal (td : Xansi) : Xansi := { td with state := TSTATE_ILLEGAL }

-- A digit at the end of the last parameter, which stays at 65535 where it would wrap.
def digit (td : Xansi) (d : Nat) : Option Xansi := do
  let td := if td.numParms = 0 then { td with numParms := 1 } else td
  let v ← td.parm (td.numParms - 1)
  let v := u16 (v * 10)
  td.setParm (td.numParms - 1) (if u16 (v + d) < v then 65535 else u16 (v + d))

def semicolon (td : Xansi) : Xansi :=
  let td := { td with numParms := (td.numParms + 1) % 256 }
  if td.numParms ≥ MAX_CSI_PARMS then td.toIllegal else td

-- Chars are signed: those with the high bit are below a blank.
def parseCsi (R : Reconfig) (td : Xansi) (cdata : UInt8) : Option Xansi :=
  let cclass := cdata &&& 0xf0
  if cdata ≥ 0x80 ∨ cdata ≤ 0x20 ∨ cdata = 0x7f then some td
  else if cclass = 0x20 then some { td with intermediateChar := cdata }
  else if cclass = 0x30 then
    if cdata - 0x30 ≤ 9 then td.digit (cdata - 0x30).toNat
    else if cdata = 0x3b then some td.semicolon
    else if td.intermediateChar ≠ 0 ∨ cdata = 0x3a then some td.toIllegal
    else some { td with intermediateChar := cdata }
  else if cclass ≥ 0x40 then td.processCsi R cdata
  else some td.toIllegal

def byState (R : Reconfig) (td : Xansi) (cdata : UInt8) : Option Xansi :=
  if td.state = TSTATE_NORMAL then do
    let s ← td.screen.processchar cdata
    some (td.onScreen s)
  else if cdata = 0x18 ∨ cdata = 0x1a then some td.toNormal
  else if td.state = TSTATE_ESC then td.processEsc cdata
  else if td.state = TSTATE_CSI then td.parseCsi R cdata
  else if td.state = TSTATE_ILLEGAL then
    if 0x40 ≤ cdata ∧ cdata < 0x80 then some td.toNormal else some td
  else some td

-- The body of the loop in PRINT.
def next (R : Reconfig) (td : Xansi) (cdata : UInt8) : Option Xansi :=
  if cdata &&& 0x7f = 0x1b then
    if td.state ≥ TSTATE_ESC ∧ td.screen.flags.passthru then td.toNormal.byState R cdata
    else some (td.beginCsiOrEsc cdata)
  else td.byState R cdata

-- Up to the NUL.
def printLoop (R : Reconfig) (td : Xansi) : List UInt8 → Option Xansi
  | [] => some td
  | c :: cs =>
    if c = 0 then some td
    else do
      let td ← td.next R c
      td.printLoop R cs

def print (R : Reconfig) (td : Xansi) (str : List UInt8) : Option Xansi :=
  (td.onScreen td.screen.eraseCursor).printLoop R str

def printchar (R : Reconfig) (td : Xansi) (cdata : UInt8) : Option Xansi :=
  if cdata ≠ 0 then td.print R [cdata,0]
  else
    let td := td.onScreen td.screen.eraseCursor
    if td.state = TSTATE_NORMAL ∧ td.screen.flags.passthru then
      some (td.onScreen (td.screen.drawchar 0))
    else some td

-- A char of the reply, or 0.
def recvquery (td : Xansi) : Option (UInt8 × Xansi) :=
  if td.sendIndex ≥ 0 then do
    let cdata ← td.sendBuffer[td.sendIndex.toNat]?
    let next ← td.sendBuffer[(td.sendIndex + 1).toNat]?
    some (cdata,{ td with sendIndex := if next = 0 then -1 else td.sendIndex + 1 })
  else some (0,td)

end Xansi

-- The cleared data with the defaults.
def xansiCleared (d : Xosera) : Screen :=
  { curAddr := 0
    cursorDrawn := false
    vramBase := 0
    vramSize := 0
    vramEnd := 0
    vramMemend := 0
    lineLen := 0
    linesHigh := 0
    cursorGlyph := 0
    cursorMask := 0
    cols := 0
    rows := 0
    x := 0
    y := 0
    saveX := 0
    saveY := 0
    hSize := 0
    vSize := 0
    gfxCtrl := 0
    tileCtrl := [0x000f,0x0807,0x0c07,0x1007]
    curFont := 0
    defColor := 0x17
    curColor := 0
    color := 0
    flags := {}
    lcf := false
    saveLcf := false
    xosera := d
    ops := [] }

-- xansiterm_INIT without the banner, which is printed like any other text.
def xansiInit (R : Reconfig) (d : Xosera) (verCode : UInt8 × UInt8 × UInt8) : Option Xansi := do
  let s ← (xansiCleared (R 1 d)).reset true
  some
    { screen := s
      state := TSTATE_NORMAL
      csiParms := List.replicate MAX_CSI_PARMS 0
      numParms := 0
      intermediateChar := 0
      sendIndex := -1
      sendBuffer := List.replicate MAX_QUERY_LEN 0
      verCode := verCode }

inductive TermCall where
  | print (str : List UInt8)
  | printchar (cdata : UInt8)
  | recvquery

def TermCall.run (R : Reconfig) (td : Xansi) : TermCall → Option Xansi
  | .print str => td.print R str
  | .printchar cdata => td.printchar R cdata
  | .recvquery => td.recvquery.map Prod.snd

def termCalls (R : Reconfig) (td : Xansi) : List TermCall → Option Xansi
  | [] => some td
  | q :: qs => do
    let td ← q.run R td
    termCalls R td qs

end RoscoM68k
