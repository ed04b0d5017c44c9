import RoscoM68k.Base.Memory
import RoscoM68k.Firmware.Lzg

namespace RoscoM68k
open Function

def LZG_MAX_RUN_LENGTH : Nat := 128

def lengthEncodeLut : List Nat :=
  [0,1,2,3,4,5,6,7,8,9,10,11,12,13,14,15,
    16,17,18,19,20,21,22,23,24,25,26,27,28,29,29,29,
    29,29,29,30,30,30,30,30,30,30,30,30,30,30,30,30,
    31,31,31,31,31,31,31,31,31,31,31,31,31,31,31,31,
    31,31,31,31,31,31,31,31,32,32,32,32,32,32,32,32,
    32,32,32,32,32,32,32,32,32,32,32,32,32,32,32,32,
    32,32,32,32,32,32,32,32,32,32,32,32,32,32,32,32,
    32,32,32,32,32,32,32,32,32,32,32,32,32,32,32,32,
    33]

def lengthQuantLut : List Nat :=
  [0,1,2,3,4,5,6,7,8,9,10,11,12,13,14,15,
    16,17,18,19,20,21,22,23,24,25,26,27,28,29,29,29,
    29,29,29,35,35,35,35,35,35,35,35,35,35,35,35,35,
    48,48,48,48,48,48,48,48,48,48,48,48,48,48,48,48,
    48,48,48,48,48,48,48,48,72,72,72,72,72,72,72,72,
    72,72,72,72,72,72,72,72,72,72,72,72,72,72,72,72,
    72,72,72,72,72,72,72,72,72,72,72,72,72,72,72,72,
    72,72,72,72,72,72,72,72,72,72,72,72,72,72,72,72,
    128]

structure TuneParams where
  window : Nat
  maxMatches : Nat
  goodLength : Nat
  deriving DecidableEq, Repr

def tuningParameters : Fin 9 → TuneParams
  | 0 => ⟨2048,30,35⟩
  | 1 => ⟨4096,40,48⟩
  | 2 => ⟨8192,50,72⟩
  | 3 => ⟨16384,60,72⟩
  | 4 => ⟨32768,70,72⟩
  | 5 => ⟨65536,80,72⟩
  | 6 => ⟨131072,150,128⟩
  | 7 => ⟨262144,250,128⟩
  | 8 => ⟨524288,524288,128⟩

structure EncoderConfig where
  level : Int
  fast : Bool
  deriving DecidableEq, Repr

-- The level, clamped to [1, 9], less 1.
def EncoderConfig.tuned (c : EncoderConfig) : Fin 9 :=
  if c.level < 1 then 0
  else if 9 < c.level then 8
  else Fin.ofNat 9 (c.level - 1).toNat

structure HistRec where
  count : Nat
  symbol : UInt8
  deriving DecidableEq, Repr

-- What hist_rec_compare finds to be at most zero.
def histRecLe (h1 h2 : HistRec) : Bool :=
  if h1.count ≠ h2.count then h1.count ≤ h2.count else h1.symbol ≤ h2.symbol

def histogram (inp : List UInt8) : List HistRec :=
  inp.foldl (fun hist x => hist.modify x.toNat (fun h => { h with count := h.count + 1 }))
    ((List.range 256).map (fun i => ⟨0,UInt8.ofNat i⟩))

def determineMarkers (inp : List UInt8) : Except Fault Markers := do
  let hist := (histogram inp).mergeSort histRecLe
  let h0 ← entry hist 0
  let h1 ← entry hist 1
  let h2 ← entry hist 2
  let h3 ← entry hist 3
  .ok ⟨h0.symbol,h1.symbol,h2.symbol,h3.symbol⟩

-- Positions in the input: for a position, the one before it that starts with the same symbols,
-- and for such symbols the last position with them.
structure SearchAccel where
  tab : Nat → Option Nat
  last : Nat → Option Nat

def SearchAccel.init : SearchAccel := ⟨fun _ => none,fun _ => none⟩

-- What stays the same while a block is encoded.
structure Encoder where
  inp : List UInt8
  outsize : Nat
  params : TuneParams
  fast : Bool
  markers : Markers

namespace Encoder

def preMatch (E : Encoder) : Nat := if E.fast then 3 else 2

def lastIndex (E : Encoder) (pos : Nat) : Except Fault Nat := do
  if E.fast then
    let b0 ← entry E.inp pos
    let b1 ← entry E.inp (pos + 1)
    let b2 ← entry E.inp (pos + 2)
    .ok (b0.toNat <<< 16 ||| b1.toNat <<< 8 ||| b2.toNat)
  else
    let b0 ← entry E.inp pos
    let b1 ← entry E.inp (pos + 1)
    .ok (b0.toNat <<< 8 ||| b1.toNat)

def updateLastPos (E : Encoder) (sa : SearchAccel) (pos : Nat) : Except Fault SearchAccel := do
  if E.inp.length ≤ pos + 2 then .ok sa
  else
    let lIdx ← E.lastIndex pos
    .ok {
      tab := update sa.tab (pos &&& (E.params.window - 1)) (sa.last lIdx)
      last := update sa.last lIdx (some pos) }

-- `n` positions from `pos` on.
def updateRun (E : Encoder) : Nat → Nat → SearchAccel → Except Fault SearchAccel
  | 0, _, sa => .ok sa
  | n + 1, pos, sa => do
    let sa ← E.updateLastPos sa pos
    updateRun E n (pos + 1) sa

-- Where the symbols from `cmp1` on first differ from those at `cmp2`, within `n`.
def compareRun (E : Encoder) : Nat → Nat → Nat → Except Fault Nat
  | 0, cmp1, _ => .ok cmp1
  | n + 1, cmp1, cmp2 => do
    let x ← entry E.inp cmp1
    let y ← entry E.inp cmp2
    if x = y then compareRun E n (cmp1 + 1) (cmp2 + 1) else .ok cmp1

def matchWin (length dist symbolCost : Nat) : Int :=
  if dist ≤ 8 ∨ (length ≤ 6 ∧ dist ≤ 71) then (length + symbolCost : Int) - 3
  else if 2056 ≤ dist then (length + symbolCost : Int) - 4 - 1
  else (length + symbolCost : Int) - 4

structure BestMatch where
  length : Nat
  win : Int
  offset : Nat
  deriving DecidableEq, Repr

-- A round of the search at `pos2`: the best match so far, and whether it is good enough.
def tryMatch (E : Encoder) (pos pos2 endStr symbolCost : Nat) (b : BestMatch) :
    Except Fault (BestMatch × Bool) := do
  let x ← entry E.inp (pos + b.length)
  let y ← entry E.inp (pos2 + b.length)
  if x = y then
    let cmp1 ← E.compareRun (endStr - (pos + E.preMatch)) (pos + E.preMatch) (pos2 + E.preMatch)
    let length ← entry lengthQuantLut (cmp1 - pos)
    if b.length < length then
      let dist := pos - pos2
      let win := matchWin length dist symbolCost
      if b.win < win then
        .ok (⟨length,win,dist⟩,decide (E.params.goodLength ≤ length ∨ endStr ≤ cmp1))
      else .ok (b,false)
    else .ok (b,false)
  else .ok (b,false)

-- The first argument is maxMatches.
def searchLoop (E : Encoder) (tab : Nat → Option Nat) (pos minPos endStr symbolCost : Nat) :
    Nat → Option Nat → BestMatch → Except Fault BestMatch
  | 0, _, b => .ok b
  | _ + 1, none, b => .ok b
  | n + 1, some pos2, b => do
    if minPos < pos2 then
      let (b,stop) ← E.tryMatch pos pos2 endStr symbolCost b
      if stop then .ok b
      else searchLoop E tab pos minPos endStr symbolCost n (tab (pos2 &&& (E.params.window - 1))) b
    else .ok b

-- The length, or zero, and the offset.
def findMatch (E : Encoder) (sa : SearchAccel) (pos symbolCost : Nat) :
    Except Fault (Nat × Nat) := do
  let minPos := if E.params.window ≤ pos then pos - E.params.window else 0
  let endStr := if E.inp.length < pos + LZG_MAX_RUN_LENGTH then E.inp.length
    else pos + LZG_MAX_RUN_LENGTH
  let pos2 := sa.tab (pos &&& (E.params.window - 1))
  let b ← E.searchLoop sa.tab pos minPos endStr symbolCost E.params.maxMatches pos2 ⟨2,0,0⟩
  if 0 < b.win then .ok (b.length,b.offset) else .ok (0,b.offset)

-- Bytes behind `dst`; if they do not fit the encoder gives up compressing.
def emit (E : Encoder) (dst bs : List UInt8) : Except Fault (List UInt8) := do
  checkBounds (LZG_HEADER_SIZE + dst.length + bs.length ≤ E.outsize)
  .ok (dst ++ bs)

def emitCopy (E : Encoder) (dst : List UInt8) (length offset : Nat) :
    Except Fault (List UInt8) := do
  if length ≤ 6 ∧ 9 ≤ offset ∧ offset ≤ 71 then
    E.emit dst [E.markers.marker3,UInt8.ofNat ((length - 3) <<< 6 ||| (offset - 8))]
  else if offset ≤ 8 then
    let lengthEnc ← entry lengthEncodeLut length
    E.emit dst [E.markers.marker4,UInt8.ofNat ((offset - 1) <<< 5 ||| (lengthEnc - 2))]
  else if 2056 ≤ offset then
    let lengthEnc ← entry lengthEncodeLut length
    let offset := offset - 2056
    E.emit dst [E.markers.marker1,UInt8.ofNat ((offset >>> 11 &&& 0xe0) ||| (lengthEnc - 2)),
      UInt8.ofNat (offset >>> 8),UInt8.ofNat offset]
  else
    let lengthEnc ← entry lengthEncodeLut length
    let offset := offset - 8
    E.emit dst [E.markers.marker2,UInt8.ofNat ((offset >>> 3 &&& 0xe0) ||| (lengthEnc - 2)),
      UInt8.ofNat offset]

end Encoder

structure Encoding where
  src : Nat
  dst : List UInt8
  sa : SearchAccel

namespace Encoder

def encodeRound (E : Encoder) (s : Encoding) : Except Fault Encoding := do
  let symbol ← entry E.inp s.src
  let isMarkerSymbol := E.markers.isMarkerSymbol symbol
  let symbolCost := if isMarkerSymbol then 2 else 1
  let sa ← E.updateLastPos s.sa s.src
  let (length,offset) ← E.findMatch sa s.src symbolCost
  if 0 < length then
    let dst ← E.emitCopy s.dst length offset
    let sa ← E.updateRun (length - 1) (s.src + 1) sa
    .ok ⟨s.src + length,dst,sa⟩
  else
    let dst ← E.emit s.dst [symbol]
    if isMarkerSymbol then
      let dst ← E.emit dst [0]
      .ok ⟨s.src + 1,dst,sa⟩
    else .ok ⟨s.src + 1,dst,sa⟩

-- The loop may make `n` rounds.
def encodeLoop (E : Encoder) : Nat → Encoding → Except Fault (List UInt8)
  | 0, s => if s.src < E.inp.length then .error .access else .ok s.dst
  | n + 1, s => do
    if s.src < E.inp.length then
      let s ← E.encodeRound s
      encodeLoop E n s
    else .ok s.dst

def encodeData (E : Encoder) : Except Fault (List UInt8) := do
  let m := E.markers
  let dst ← E.emit [] [m.marker1,m.marker2,m.marker3,m.marker4]
  E.encodeLoop E.inp.length ⟨0,dst,.init⟩

end Encoder

def LZG_MaxEncodedSize (insize : Nat) : Nat := low32 (LZG_HEADER_SIZE + insize)

-- What is put into `out`; a refusal returns 0.
def LZG_Encode (inp : List UInt8) (outsize : Nat) (config : EncoderConfig) :
    Except Fault (List UInt8) := do
  checkBounds (low32 (LZG_HEADER_SIZE + inp.length) ≤ outsize)
  let markers ← determineMarkers inp
  match Encoder.encodeData ⟨inp,outsize,tuningParameters config.tuned,config.fast,markers⟩ with
  | .ok data => .ok (withHeader inp.length LZG_METHOD_LZG1 data)
  | .error .refused => .ok (withHeader inp.length LZG_METHOD_COPY inp)
  | .error .access => .error .access

end RoscoM68k
