import RoscoM68k.Base.Faults
import RoscoM68k.Base.History

namespace RoscoM68k

def LZG_METHOD_COPY : UInt8 := 0
def LZG_METHOD_LZG1 : UInt8 := 1
def LZG_HEADER_SIZE : Nat := 16

def lengthDecodeLut : List Nat :=
  [2,3,4,5,6,7,8,9,10,11,12,13,14,15,16,17,
    18,19,20,21,22,23,24,25,26,27,28,29,35,48,72,128]

def getUint32 (inp : List UInt8) (offs : Nat) : Except Fault Nat := do
  let b0 ← entry inp offs
  let b1 ← entry inp (offs + 1)
  let b2 ← entry inp (offs + 2)
  let b3 ← entry inp (offs + 3)
  .ok (b0.toNat <<< 24 ||| b1.toNat <<< 16 ||| b2.toNat <<< 8 ||| b3.toNat)

-- The two sums `a` and `b`.
def checksumOp (s : UInt16 × UInt16) (x : UInt8) : UInt16 × UInt16 :=
  let a := s.1 + x.toUInt16
  (a,s.2 + a)

-- `n` rounds of eight bytes each.
def checksumEights : Nat → List UInt8 → UInt16 × UInt16 → List UInt8 × (UInt16 × UInt16)
  | 0, data, s => (data,s)
  | n + 1, data, s => checksumEights n (data.drop 8) ((data.take 8).foldl checksumOp s)

def joinSums (s : UInt16 × UInt16) : Nat := s.2.toNat <<< 16 ||| s.1.toNat

def calcChecksum (data : List UInt8) : Nat :=
  let (data,s) := checksumEights (data.length / 8) data (1,0)
  joinSums (data.foldl checksumOp s)

def LZG_DecodedSize (inp : List UInt8) : Except Fault Nat := do
  if inp.length < 7 then .ok 0
  else
    let c0 ← entry inp 0
    let c1 ← entry inp 1
    let c2 ← entry inp 2
    if c0 ≠ 0x4c ∨ c1 ≠ 0x5a ∨ c2 ≠ 0x47 then .ok 0
    else getUint32 inp 3

def bytes32 (n : Nat) : List UInt8 :=
  [UInt8.ofNat (n >>> 24),UInt8.ofNat (n >>> 16),UInt8.ofNat (n >>> 8),UInt8.ofNat n]

-- The header in front of the encoded data.
def withHeader (decodedSize : Nat) (method : UInt8) (data : List UInt8) : List UInt8 :=
  [0x4c,0x5a,0x47] ++ bytes32 decodedSize ++ bytes32 data.length ++ bytes32 (calcChecksum data) ++
    [method] ++ data

structure Markers where
  marker1 : UInt8
  marker2 : UInt8
  marker3 : UInt8
  marker4 : UInt8
  deriving DecidableEq, Repr

def Markers.isMarkerSymbol (m : Markers) (x : UInt8) : Bool :=
  x = m.marker1 ∨ x = m.marker2 ∨ x = m.marker3 ∨ x = m.marker4

-- What is left of the input, from `src` to `inEnd`, and what there is of the output, up to `dst`.
structure Decoding where
  rest : List UInt8
  out : List UInt8
  deriving DecidableEq, Repr

def putByte (outsize : Nat) (out : List UInt8) (b : UInt8) : Except Fault (List UInt8) :=
  if out.length < outsize then .ok (out ++ [b]) else .error .access

-- A length and an offset, and the input behind them.
structure Copy where
  length : Nat
  offset : Nat
  rest : List UInt8
  deriving DecidableEq, Repr

def copyParameters (m : Markers) (symbol b : UInt8) (rest : List UInt8) : Except Fault Copy := do
  if symbol = m.marker1 then
    checkBounds (2 ≤ rest.length)
    let length ← entry lengthDecodeLut (b &&& 0x1f).toNat
    let (b2,rest) ← takeByte rest
    let (b3,rest) ← takeByte rest
    .ok ⟨length,((b &&& 0xe0).toNat <<< 11 ||| b2.toNat <<< 8 ||| b3.toNat) + 2056,rest⟩
  else if symbol = m.marker2 then
    checkBounds (1 ≤ rest.length)
    let length ← entry lengthDecodeLut (b &&& 0x1f).toNat
    let (b2,rest) ← takeByte rest
    .ok ⟨length,((b &&& 0xe0).toNat <<< 3 ||| b2.toNat) + 8,rest⟩
  else if symbol = m.marker3 then
    .ok ⟨(b >>> 6).toNat + 3,(b &&& 0x3f).toNat + 8,rest⟩
  else
    let length ← entry lengthDecodeLut (b &&& 0x1f).toNat
    .ok ⟨length,(b >>> 5).toNat + 1,rest⟩

-- How many bytes the unrolled loop copies.
def unrolled (length : Nat) : Nat :=
  if 1 ≤ length ∧ length ≤ 29 then length else length - 29 + 29

def copyHistory (outsize offset : Nat) : Nat → List UInt8 → Except Fault (List UInt8)
  | 0, out => .ok out
  | n + 1, out => do
    if out.length < offset then .error .access
    else
      let b ← entry out (out.length - offset)
      let out ← putByte outsize out b
      copyHistory outsize offset n out

def decodeRound (outsize : Nat) (m : Markers) (s : Decoding) : Except Fault Decoding := do
  let (symbol,rest) ← takeByte s.rest
  if !m.isMarkerSymbol symbol then
    checkBounds (s.out.length < outsize)
    let out ← putByte outsize s.out symbol
    .ok ⟨rest,out⟩
  else
    checkBounds (1 ≤ rest.length)
    let (b,rest) ← takeByte rest
    if b ≠ 0 then
      let c ← copyParameters m symbol b rest
      checkBounds (c.offset ≤ s.out.length ∧ s.out.length + c.length ≤ outsize)
      let out ← copyHistory outsize c.offset (unrolled c.length) s.out
      .ok ⟨c.rest,out⟩
    else
      checkBounds (s.out.length < outsize)
      let out ← putByte outsize s.out symbol
      .ok ⟨rest,out⟩

-- The loop may make `n` rounds.
def decodeLoop (outsize : Nat) (m : Markers) : Nat → Decoding → Except Fault (List UInt8)
  | 0, s => if s.rest = [] then .ok s.out else .error .access
  | n + 1, s => do
    if s.rest = [] then .ok s.out
    else
      let s ← decodeRound outsize m s
      decodeLoop outsize m n s

-- The copy 1:1 of `n` bytes.
def copyPlain (outsize : Nat) : Nat → Decoding → Except Fault (List UInt8)
  | 0, s => .ok s.out
  | n + 1, s => do
    let (b,rest) ← takeByte s.rest
    let out ← putByte outsize s.out b
    copyPlain outsize n ⟨rest,out⟩

-- What follows the header.
def decodeData (outsize decodedSize encodedSize : Nat) (method : UInt8) (src : List UInt8) :
    Except Fault (List UInt8) := do
  if method = LZG_METHOD_COPY then
    checkBounds (decodedSize = encodedSize)
    copyPlain outsize decodedSize ⟨src,[]⟩
  else
    checkBounds (4 ≤ src.length)
    let (marker1,src) ← takeByte src
    let (marker2,src) ← takeByte src
    let (marker3,src) ← takeByte src
    let (marker4,src) ← takeByte src
    let out ← decodeLoop outsize ⟨marker1,marker2,marker3,marker4⟩ src.length ⟨src,[]⟩
    checkBounds (out.length = decodedSize)
    .ok out

-- The size that is returned and the bytes that are in `out`; a refusal returns 0.
def LZG_Decode (inp : List UInt8) (outsize : Nat) : Except Fault (Nat × List UInt8) := do
  checkBounds (LZG_HEADER_SIZE ≤ inp.length)
  let c0 ← entry inp 0
  let c1 ← entry inp 1
  let c2 ← entry inp 2
  checkBounds (c0 = 0x4c ∧ c1 = 0x5a ∧ c2 = 0x47)
  let decodedSize ← getUint32 inp 3
  checkBounds (decodedSize ≤ outsize)
  let encodedSize ← getUint32 inp 7
  checkBounds (encodedSize = inp.length - LZG_HEADER_SIZE)
  let checksum ← getUint32 inp 11
  checkBounds (calcChecksum ((inp.drop LZG_HEADER_SIZE).take encodedSize) = checksum)
  let method ← entry inp 15
  checkBounds (method ≤ LZG_METHOD_LZG1)
  let out ← decodeData outsize decodedSize encodedSize method (inp.drop LZG_HEADER_SIZE)
  .ok (decodedSize,out)

end RoscoM68k
