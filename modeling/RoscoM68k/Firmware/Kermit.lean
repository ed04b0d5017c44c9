import RoscoM68k.Base.Faults

namespace RoscoM68k
namespace Kermit

def SOH : UInt8 := 0x01
def LF : UInt8 := 0x0a
def CR : UInt8 := 0x0d
def SP : UInt8 := 0x20

def P_WSLOTS : Nat := 31
def P_PKTLEN : Nat := 4096
def OBUFLEN : Nat := 1024
def FN_MAX : Nat := 1024
def DATE_MAX : Nat := 20
def SIZEBUFL : Nat := 32
def P_RETRY : Int := 10
def P_S_TIMO : Nat := 40

def CAP_LP : Nat := 2
def CAP_SW : Nat := 4
def CAP_AT : Nat := 8

def tochar (n : Nat) : UInt8 := UInt8.ofNat (n + 32)
def xunchar (ch : UInt8) : Nat := (ch - SP).toNat
def ctl (ch : UInt8) : UInt8 := ch ^^^ 64

-- What a short holds after it has been set to `n`.
def short (n : Int) : Int := (n + 32768) % 65536 - 32768

-- The bytes of a string in front of its NUL.
def untilNul (s : List UInt8) : List UInt8 := s.takeWhile (· ≠ 0)

-- A string in a buffer that it must not reach the end of.
def cstring (s : List UInt8) : Except Fault (List UInt8) :=
  if 0 ∈ s then .ok (untilNul s) else .error .access

def chk2 (pkt : List UInt8) : UInt16 := pkt.foldl (fun chk b => chk + b.toUInt16) 0

def chk1 (pkt : List UInt8) : Nat :=
  let chk := (chk2 pkt).toNat
  ((chk &&& 0xc0) >>> 6) + chk &&& 0x3f

def crcta : List UInt16 :=
  [0,0x1081,0x2102,0x3183,0x4204,0x5285,0x6306,0x7387,
    0x8408,0x9489,0xa50a,0xb58b,0xc60c,0xd68d,0xe70e,0xf78f]

def crctb : List UInt16 :=
  [0,0x1189,0x2312,0x329b,0x4624,0x57ad,0x6536,0x74bf,
    0x8c48,0x9dc1,0xaf5a,0xbed3,0xca6c,0xdbe5,0xe97e,0xf8f7]

def crcStep (crc : UInt16) (b : UInt8) : UInt16 :=
  let c := crc ^^^ b.toUInt16
  (crc >>> 8) ^^^ (crcta.getD ((c &&& 0xf0) >>> 4).toNat 0 ^^^ crctb.getD (c &&& 0x0f).toNat 0)

def chk3 (pkt : List UInt8) : UInt16 := pkt.foldl crcStep 0

-- The block check of a type, as spkt adds it.
def blockCheck (bct : Nat) (pkt : List UInt8) : List UInt8 :=
  match bct with
  | 1 => [tochar (chk1 pkt)]
  | 2 =>
    let j := (chk2 pkt).toNat
    [tochar (j >>> 6 &&& 0x3f),tochar (j &&& 0x3f)]
  | 3 =>
    let crc := (chk3 pkt).toNat
    [tochar ((crc &&& 0xf000) >>> 12),tochar (crc >>> 6 &&& 0x3f),tochar (crc &&& 0x3f)]
  | _ => []

-- The fields in front of the data.
def header (bct : Nat) (typ : UInt8) (seq len : Nat) : List UInt8 :=
  let j := len + bct
  if 94 < j + 2 then
    let long := [tochar 0,tochar seq,typ,tochar (j / 95),tochar (j % 95)]
    long ++ [tochar (chk1 (untilNul long))]
  else [tochar (j + 2),tochar seq,typ]

-- From the length field to the end of the data, which is what the block check is about.
def body (bct : Nat) (typ : UInt8) (seq : Nat) (data : List UInt8) : List UInt8 :=
  header bct typ seq data.length ++ data

def frame (bct : Nat) (typ : UInt8) (seq : Nat) (data : List UInt8) : List UInt8 :=
  let body := body bct typ seq data
  body ++ blockCheck bct (untilNul body)

inductive Status where
  | ok
  | done
  | error
  deriving DecidableEq, Repr

-- The protocol states that a receiver takes.
inductive RState where
  | wait
  | file
  | attr
  | data
  deriving DecidableEq, Repr

structure Packet where
  len : Int
  seq : Int
  typ : UInt8
  rtr : Int
  deriving DecidableEq, Repr

-- The part of k_data that a receiver uses, and of k_response. `sent` is what txd has been given
-- so far, packet by packet, and `written` what writef has.
structure KData where
  state : RState
  r_seq : Nat
  bct : Nat
  parity : Nat
  retry : Int
  ebq : UInt8
  rptq : UInt8
  r_ctlq : UInt8
  s_eom : UInt8
  rptflg : Bool
  capas : Nat
  window : Nat
  binary : Bool
  opktbuf : List UInt8
  ipktbuf : List UInt8
  ipktinfo : List Packet
  obuf : List UInt8
  filename : List UInt8
  filedate : List UInt8
  filesize : Int
  sofar : Nat
  sent : List (List UInt8)
  written : List UInt8

namespace KData

def setInfo (k : KData) (n : Nat) (f : Packet → Packet) : KData :=
  { k with ipktinfo := k.ipktinfo.modify n f }

def freerslot (k : KData) (n : Nat) : KData := k.setInfo n fun i => { i with len := 0 }

-- The slot, unless all are taken.
def getrslot (k : KData) : KData × Option Nat :=
  match k.ipktinfo.findIdx? (·.len < 1) with
  | some n => (k.setInfo n fun i => { i with len := -1, seq := -1, typ := SP },some n)
  | none => (k,none)

def spkt (k : KData) (typ : UInt8) (seq : Nat) (data : List UInt8) : Except Fault KData :=
  let buf := [SOH] ++ frame k.bct typ seq data ++ [k.s_eom]
  if buf.length < P_PKTLEN + 8 then
    .ok { k with
      opktbuf := buf
      sent := k.sent ++ [buf] }
  else .error .access

-- Counts a retry of a slot, and whether there have been too many.
def retried (k : KData) (slot : Nat) : Except Fault (KData × Bool) := do
  let i ← entry k.ipktinfo slot
  .ok (k.setInfo slot fun i => { i with rtr := short (i.rtr + 1) },decide (k.retry < i.rtr))

def nak (k : KData) (seq slot : Nat) : Except Fault (Status × KData) := do
  let k ← k.spkt 0x4e seq []
  let (k,tooMany) ← k.retried slot
  .ok (if tooMany then .error else .ok,k)

def ack (k : KData) (seq : Nat) (text : List UInt8) : Except Fault KData := do
  let k ← k.spkt 0x59 seq text
  .ok { k with r_seq := (k.r_seq + 1) % 64 }

def epkt (k : KData) (msg : String) : Except Fault KData :=
  { k with bct := 1 }.spkt 0x45 0 (msg.toList.map fun c : Char => UInt8.ofNat c.toNat)

def resend (k : KData) : KData :=
  if k.opktbuf = [] then k else { k with sent := k.sent ++ [k.opktbuf] }

end KData

end Kermit
end RoscoM68k
