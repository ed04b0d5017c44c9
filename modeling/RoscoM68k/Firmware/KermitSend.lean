import RoscoM68k.Firmware.KermitRun

namespace RoscoM68k
namespace Kermit

def REMAINL : Nat := 6

-- The part of k_data that fills a packet from a file or a string. `xdata` is as long as `size`
-- says, `input` what has not been read, and `c` the character that has been read last.
structure Sender where
  s_maxlen : Int
  bct : Nat
  s_ctlq : UInt8
  ebq : UInt8
  ebqflg : Bool
  rptq : UInt8
  rptflg : Bool
  s_rpt : Nat
  s_first : Int
  s_remain : List UInt8
  xdata : List UInt8
  osize : Nat
  c : Option UInt8
  input : List UInt8
  deriving DecidableEq, Repr

namespace Sender

def emit (k : Sender) (bs : List UInt8) : Sender := { k with xdata := k.xdata ++ bs }

-- A character of which the low seven bits are `a7`, with the control prefix if it needs one.
def quoteChar (k : Sender) (a7 a : UInt8) : List UInt8 :=
  if a7 < 32 ∨ a7 = 127 then [k.s_ctlq,ctl a]
  else if a7 = k.s_ctlq ∨ (k.ebqflg ∧ a7 = k.ebq) ∨ (k.rptflg ∧ a7 = k.rptq) then [k.s_ctlq,a]
  else [a]

def encodeChar (k : Sender) (a : UInt8) : List UInt8 :=
  let a7 := a &&& 127
  if k.ebqflg ∧ a &&& 128 ≠ 0 then k.ebq :: k.quoteChar a7 a7 else k.quoteChar a7 a

def encode (k : Sender) (a : UInt8) (next : Option UInt8) : Sender :=
  if k.rptflg then
    if next = some a then
      let k := { k with s_rpt := k.s_rpt + 1 }
      if k.s_rpt < 94 then k
      else if k.s_rpt = 94 then
        ({ k with s_rpt := 0 }.emit [k.rptq,tochar k.s_rpt]).emit (k.encodeChar a)
      else k.emit (k.encodeChar a)
    -- A pair is written out, by two calls of encode without a character behind `a`.
    else if k.s_rpt = 1 then
      let k := { k with s_rpt := 0 }.emit (k.encodeChar a)
      let k :=
        if (k.xdata.length : Int) ≤ k.s_maxlen - 4 then { k with osize := k.xdata.length } else k
      k.emit (k.encodeChar a)
    else if 1 < k.s_rpt then
      ({ k with s_rpt := 0 }.emit [k.rptq,tochar (k.s_rpt + 1)]).emit (k.encodeChar a)
    else k.emit (k.encodeChar a)
  else k.emit (k.encodeChar a)

-- Keeps what does not fit the packet for the next one.
def saved (k : Sender) : Except Fault Sender :=
  let rest := k.xdata.drop k.osize
  if rest.length < REMAINL then
    .ok { k with
      s_remain := rest
      xdata := k.xdata.take k.osize }
  else .error .access

def maxlen (k : Sender) : Int := k.s_maxlen - k.bct - 3

-- The loop of getpkt, with the current character and what is still to be read.
def getpktLoop (k : Sender) (c : UInt8) : List UInt8 → Except Fault Sender
  | [] =>
    let k := { k with
      s_first := -1
      osize := k.xdata.length
      c := none
      input := [] }.encode c none
    if k.maxlen < k.xdata.length then k.saved else .ok k
  | next :: input =>
    let k := { k with
      osize := k.xdata.length
      c := some next
      input := input }.encode c (some next)
    if (k.xdata.length : Int) = k.maxlen then .ok k
    else if k.maxlen < k.xdata.length then k.saved
    else getpktLoop k next input

-- With the remains of the last packet in front.
def getpktFill (k : Sender) : Except Fault Sender :=
  let k := { k with
    xdata := k.s_remain
    s_remain := [] }
  if k.s_first = -1 then .ok k
  else
    match k.c with
    | some c => k.getpktLoop c k.input
    | none => .ok k

def getpkt (k : Sender) : Except Fault Sender :=
  if k.s_first = 1 then
    match k.input with
    | [] => .ok { k with
        s_first := -1
        s_remain := []
        c := none
        xdata := [] }
    | c :: input => { k with
        s_first := 0
        s_remain := []
        c := some c
        input := input }.getpktFill
  else if k.s_first = -1 ∧ k.s_remain = [] then .ok { k with xdata := [] }
  else k.getpktFill

-- The data fields of one D packet after the other, until sdata finds none. There may be `n`.
def sdata : Nat → Sender → Except Fault (List (List UInt8))
  | 0, _ => .ok []
  | n + 1, k => do
    let k ← k.getpkt
    if k.xdata = [] then .ok []
    else
      let fields ← sdata n k
      .ok (k.xdata :: fields)

end Sender
end Kermit
end RoscoM68k
