import RoscoM68k.Firmware.Kermit

namespace RoscoM68k
namespace Kermit

-- A byte of the buffer, by its distance from `base`.
def byteAt (buf : List UInt8) (base : Nat) (i : Int) : Except Fault UInt8 :=
  if 0 ≤ base + i then entry buf (base + i).toNat else .error .access

def putAt (buf : List UInt8) (base : Nat) (i : Int) (b : UInt8) : Except Fault (List UInt8) :=
  if 0 ≤ base + i ∧ base + i < buf.length then .ok (buf.set (base + i).toNat b)
  else .error .access

def prefixable (b : UInt8) : Bool := 32 < b ∧ b < 63 ∨ 95 < b ∧ b < 127

-- Characters of a signed type equal a byte only if they are not negative.
def isChar (a c : UInt8) : Bool := c < 128 ∧ a = c

section Parameters

-- The last of the capability fields.
def lastCapas (buf : List UInt8) (p : Nat) (datalen : Int) : Nat → Nat → Except Fault Nat
  | 0, y => .ok y
  | n + 1, y => do
    let b ← byteAt buf p (y - 1)
    if xunchar b % 2 = 1 ∧ (y : Int) ≤ datalen then lastCapas buf p datalen n (y + 1)
    else .ok y

-- Of a capability that the other side does not have.
def without (capas x cap : Nat) : Nat :=
  if x &&& cap = 0 ∧ capas &&& cap ≠ 0 then capas - cap else capas

namespace KData

-- The parameter `n` of those at `p`, if there are so many.
def sparField (k : KData) (p : Nat) (datalen : Int) (n : Nat) (set : KData → UInt8 → KData) :
    Except Fault KData := do
  if (n : Int) ≤ datalen then
    let b ← byteAt k.ipktbuf p ((n : Int) - 1)
    .ok (set k b)
  else .ok k

def setEom (k : KData) (b : UInt8) : KData := { k with s_eom := UInt8.ofNat (xunchar b) }

def setCtlq (k : KData) (b : UInt8) : KData := { k with r_ctlq := b }

def setEbq (k : KData) (b : UInt8) : KData :=
  let k := { k with ebq := b }
  if prefixable b then { k with parity := if k.parity = 0 then 1 else k.parity }
  else if b = 0x59 ∧ k.parity ≠ 0 then { k with ebq := 0x26 }
  else k

def setBct (k : KData) (b : UInt8) : KData :=
  let bct : Int := (b.toNat : Int) - 0x30
  { k with bct := if bct < 1 ∨ 3 < bct then 1 else bct.toNat }

def setRptq (k : KData) (b : UInt8) : KData :=
  if prefixable b then
    { k with
      rptq := b
      rptflg := true }
  else k

-- Recovery and locking shifts are never among the capabilities.
def setCapas (k : KData) (b : UInt8) : KData :=
  let x := xunchar b
  let capas := without (without (without k.capas x CAP_LP) x CAP_SW) x CAP_AT
  { k with capas := without (without capas 0 16) 0 32 }

def setWindow (k : KData) (b : UInt8) : KData :=
  let x := xunchar b
  let window := if P_WSLOTS < x then P_WSLOTS else x
  let window := if window < 1 then 1 else window
  { k with
    window := window
    retry := if 1 < window ∧ k.retry < window then (window : Int) + 1 else k.retry }

-- Behind which parameter the window size is.
def capasField (k : KData) (p : Nat) (datalen : Int) : Except Fault Nat :=
  if 10 ≤ datalen then lastCapas k.ipktbuf p datalen datalen.toNat 10 else .ok 0

-- How long the packets may be that are sent is not kept, as a receiver never asks.
def spar (k : KData) (p : Nat) (datalen : Int) : Except Fault KData := do
  let k ← k.sparField p datalen 5 setEom
  let k ← k.sparField p datalen 6 setCtlq
  let k ← k.sparField p datalen 7 setEbq
  let k ← k.sparField p datalen 8 setBct
  let k ← k.sparField p datalen 9 setRptq
  let k ← k.sparField p datalen 10 setCapas
  let y ← k.capasField p datalen
  if k.capas &&& CAP_SW = 0 then .ok k else k.sparField p datalen (y + 1) setWindow

def rpar (k : KData) : Except Fault KData := do
  let k := if k.ebq = 0x59 ∧ k.parity ≠ 0 then { k with ebq := 0x26 } else k
  let d := [tochar 94,tochar P_S_TIMO,tochar 0,ctl 0,tochar CR.toNat,0x23,k.ebq,
    UInt8.ofNat (k.bct + 0x30),k.rptq,tochar k.capas,tochar k.window,tochar (P_PKTLEN / 95),
    tochar (P_PKTLEN % 95)]
  let b := k.bct
  let k ← { k with bct := 1 }.ack 0 (untilNul d)
  .ok { k with bct := b }

end KData
end Parameters

section Data

-- How data are coded.
structure Prefixes where
  parity : Nat
  ebq : UInt8
  rptq : UInt8
  rptflg : Bool
  r_ctlq : UInt8
  deriving DecidableEq, Repr

-- A byte behind a control prefix.
def uncontrol (a : UInt8) : UInt8 :=
  let a7 := a &&& 0x7f
  if 0x40 ≤ a7 ∧ a7 ≤ 0x5f ∨ a7 = 0x3f then ctl a else a

namespace Prefixes

def decodeControl (x : Prefixes) (a : UInt8) (rest : List UInt8) :
    Except Fault (UInt8 × List UInt8) := do
  if isChar a x.r_ctlq then
    let (a,rest) ← takeByte rest
    .ok (uncontrol a,rest)
  else .ok (a,rest)

def decodeEighth (x : Prefixes) (a : UInt8) (rest : List UInt8) :
    Except Fault (UInt8 × List UInt8) := do
  if x.parity ≠ 0 ∧ isChar a x.ebq then
    let (a,rest) ← takeByte rest
    let (a,rest) ← x.decodeControl (a &&& 0x7f) rest
    .ok (a ||| 0x80,rest)
  else x.decodeControl a rest

-- A byte, how many times it is meant, and what is behind it.
def decodeChar (x : Prefixes) (a : UInt8) (rest : List UInt8) :
    Except Fault (Nat × UInt8 × List UInt8) := do
  if x.rptflg ∧ isChar a x.rptq then
    let (count,rest) ← takeByte rest
    let (a,rest) ← takeByte rest
    let (a,rest) ← x.decodeEighth a rest
    .ok (if xunchar count = 0 then 1 else xunchar count,a,rest)
  else
    let (a,rest) ← x.decodeEighth a rest
    .ok (1,a,rest)

-- The loop may make `n` rounds.
def decodeLoop (x : Prefixes) : Nat → List UInt8 → List UInt8 → Except Fault (List UInt8)
  | 0, _, _ => .error .access
  | n + 1, inbuf, out => do
    let (a,rest) ← takeByte inbuf
    if a = 0 then .ok out
    else
      let (rpt,a,rest) ← x.decodeChar a rest
      decodeLoop x n rest (out ++ List.replicate rpt a)

end Prefixes

namespace KData

def prefixes (k : KData) : Prefixes := ⟨k.parity,k.ebq,k.rptq,k.rptflg,k.r_ctlq⟩

def putObuf (k : KData) (a : UInt8) : KData :=
  let obuf := k.obuf ++ [a]
  if obuf.length = OBUFLEN then
    { k with
      obuf := []
      written := k.written ++ obuf
      sofar := k.sofar + OBUFLEN }
  else { k with obuf := obuf }

-- To the file.
def decode (k : KData) (p : Nat) : Except Fault KData := do
  let inbuf := k.ipktbuf.drop p
  let out ← k.prefixes.decodeLoop inbuf.length inbuf []
  .ok (out.foldl putObuf k)

def decodeFilename (k : KData) (p : Nat) : Except Fault KData := do
  let inbuf := k.ipktbuf.drop p
  let out ← k.prefixes.decodeLoop inbuf.length inbuf []
  if out.length < FN_MAX then .ok { k with filename := out } else .error .access

def flush (k : KData) : KData :=
  { k with
    obuf := []
    written := k.written ++ k.obuf
    sofar := k.sofar + k.obuf.length }

end KData
end Data

section Attributes

-- A long.
def long (n : Int) : Int := (n + 2147483648) % 4294967296 - 2147483648

def stringnum (s : List UInt8) : Int :=
  ((s.dropWhile (· = SP)).takeWhile fun c => 0x30 ≤ c ∧ c ≤ 0x39).foldl
    (fun n c => long (n * 10 + (c.toNat - 0x30))) 0

-- `aln` bytes for a buffer of `size`, which must have room for a NUL behind them, and the rest.
def field (size aln : Nat) (s : List UInt8) : Except Fault (List UInt8 × List UInt8) :=
  if s.length < aln then .error .access
  else if min aln size < size then .ok ((s.take aln).take size,s.drop aln)
  else .error .access

structure Attributes where
  binary : Option Bool
  fsize : Int
  fsizek : Int
  filedate : List UInt8

def gattrLoop : Nat → List UInt8 → Attributes → Except Fault Attributes
  | 0, _, _ => .error .access
  | n + 1, s, r => do
    let (c,s) ← takeByte s
    if c = 0 then .ok r
    else
      let (aln,s) ← takeByte s
      let aln := xunchar aln
      if c = 0x21 then
        let (sizebuf,s) ← field SIZEBUFL aln s
        gattrLoop n s { r with fsizek := stringnum (untilNul sizebuf) }
      else if c = 0x22 then
        let (sizebuf,s) ← field SIZEBUFL aln s
        gattrLoop n s { r with
          binary := match sizebuf with
            | 0x41 :: _ => some false
            | 0x42 :: _ => some true
            | _ => r.binary }
      else if c = 0x23 then
        let (filedate,s) ← field DATE_MAX aln s
        gattrLoop n s { r with filedate := untilNul filedate }
      else if c = 0x31 then
        let (sizebuf,s) ← field SIZEBUFL aln s
        gattrLoop n s { r with fsize := stringnum (untilNul sizebuf) }
      else if s.length < aln then .error .access
      else gattrLoop n (s.drop aln) r

namespace KData

def gattr (k : KData) (p : Nat) : Except Fault KData := do
  let s := k.ipktbuf.drop p
  let r ← gattrLoop s.length s ⟨none,-1,-1,k.filedate⟩
  .ok { k with
    binary := r.binary.getD k.binary
    filedate := r.filedate
    filesize := if -1 < r.fsize then r.fsize
      else if -1 < r.fsizek then long (r.fsizek * 1024) else k.filesize }

end KData
end Attributes

section Blocks

-- A packet with parameters always has a check of type 1.
def checkType (bct : Nat) (t : UInt8) : Nat := if t = 0x53 then 1 else bct

-- An error packet may have a check of type 1 where another type is in use: it is one byte long,
-- and what seemed to be the rest of the check are data.
def errorCheck (buf : List UInt8) (slot p : Nat) (datalen : Int) (pbc : List UInt8) :
    Except Fault (List UInt8 × Bool) := do
  match pbc with
  | [b0,b1] =>
    let tried ← putAt buf p datalen b0
    let tried ← putAt tried p (datalen + 1) 0
    let pkt ← cstring (tried.drop slot)
    if xunchar b1 = chk1 pkt then .ok (tried,true)
    else
      let buf ← putAt tried p datalen 0
      .ok (buf,false)
  | [b0,b1,b2] =>
    let tried ← putAt buf p datalen b0
    let tried ← putAt tried p (datalen + 1) b1
    let tried ← putAt tried p (datalen + 2) 0
    let pkt ← cstring (tried.drop slot)
    if xunchar b2 = chk1 pkt then .ok (tried,true)
    else
      let buf ← putAt tried p datalen 0
      .ok (buf,false)
  | _ => .ok (buf,false)

def goodCheck (pbc pkt : List UInt8) : Bool :=
  match pbc with
  | [b0] => xunchar b0 = chk1 pkt
  | [b0,b1] => (xunchar b0 <<< 6 ||| xunchar b1) = (chk2 pkt).toNat
  | [b0,b1,b2] =>
    (xunchar b0 <<< 12 ||| xunchar b1 <<< 6 ||| xunchar b2) = (chk3 pkt).toNat
  | _ => false

-- What a packet turns out to be.
inductive Parsed where
  | echo
  | badHeader
  | badCheck
  | good (seq : Nat) (t : UInt8) (p : Nat) (datalen : Int)

end Blocks

namespace KData

section Transitions

-- With the packet that has been waited for. Its data are at `p`.
def inWait (k : KData) (slot : Nat) (t : UInt8) (p : Nat) (datalen : Int) :
    Except Fault (Status × KData) := do
  if t = 0x53 then
    let k ← k.spar p datalen
    let k ← k.rpar
    .ok (.ok,{ k with state := .file }.freerslot slot)
  else
    let k ← k.epkt "Unexpected packet type"
    .ok (.error,k.freerslot slot)

def inFile (k : KData) (slot : Nat) (t : UInt8) (p : Nat) : Except Fault (Status × KData) := do
  if t = 0x46 then
    let k ← k.decodeFilename p
    let k := { k with
      state := .attr
      filedate := []
      filesize := 0
      sofar := 0 }
    let k ← k.ack k.r_seq (untilNul k.filename)
    .ok (.ok,k.freerslot slot)
  else if t = 0x42 then
    let k ← (k.freerslot slot).ack k.r_seq []
    .ok (.done,k.freerslot slot)
  else
    let k ← k.epkt "Unexpected packet type"
    .ok (.error,k.freerslot slot)

def inAttr (k : KData) (slot : Nat) (t : UInt8) (p : Nat) : Except Fault (Status × KData) := do
  if t = 0x41 then
    let k ← k.gattr p
    let k ← (k.freerslot slot).ack k.r_seq [0x59]
    .ok (.ok,k)
  else if t = 0x44 then
    let k := { k with
      obuf := []
      sofar := 0
      state := .data }
    let k ← k.decode p
    let k ← (k.freerslot slot).ack k.r_seq []
    .ok (.ok,k)
  else if t = 0x5a then
    let k := { k with
      obuf := []
      sofar := 0
      state := .file }
    let k ← k.ack k.r_seq []
    -- The case ends in a break, and behind the switch there is an error.
    .ok (.error,k.freerslot slot)
  else
    let k ← k.epkt "Unexpected packet type"
    .ok (.error,k)

def inData (k : KData) (slot : Nat) (t : UInt8) (p : Nat) : Except Fault (Status × KData) := do
  if t = 0x44 then
    let k ← k.decode p
    let k ← (k.freerslot slot).ack k.r_seq []
    .ok (.ok,k)
  else if t = 0x5a then
    let k := { k.flush with state := .file }
    let k ← (k.freerslot slot).ack k.r_seq []
    .ok (.ok,k)
  else
    let k ← k.epkt "Unexpected packet type"
    .ok (.error,k)

def transition (k : KData) (slot : Nat) (t : UInt8) (p : Nat) (datalen : Int) :
    Except Fault (Status × KData) :=
  match k.state with
  | .wait => k.inWait slot t p datalen
  | .file => k.inFile slot t p
  | .attr => k.inAttr slot t p
  | .data => k.inData slot t p

-- A packet that has passed its check.
def checked (k : KData) (slot seq : Nat) (t : UInt8) (p : Nat) (datalen : Int) :
    Except Fault (Status × KData) := do
  if t = 0x45 then .ok (.error,k)
  else if seq = k.r_seq then
    (k.setInfo slot fun i => { i with rtr := 0 }).transition slot t p datalen
  else
    let k := k.freerslot slot
    let prev := if k.r_seq = 0 then 63 else k.r_seq - 1
    if seq = prev then
      let (k,tooMany) ← k.retried slot
      if tooMany then
        let k ← k.epkt "Too many retries"
        .ok (.error,k)
      else .ok (.ok,k.resend)
    else k.nak k.r_seq slot

end Transitions

section Checks

-- Where the data of a packet are, and how long they are said to be; nothing if the header of a
-- long packet is bad, and then the NUL behind the header stays.
def dataField (k : KData) (slot len : Nat) : Except Fault (KData × Option (Nat × Int)) := do
  if len = 0 then
    let x1 ← byteAt k.ipktbuf slot 3
    let x2 ← byteAt k.ipktbuf slot 4
    let c ← byteAt k.ipktbuf slot 5
    let buf ← putAt k.ipktbuf slot 5 0
    let header ← cstring (buf.drop slot)
    if xunchar c ≠ chk1 header then .ok ({ k with ipktbuf := buf },none)
    else .ok (k,some (slot + 6,(xunchar x1 * 95 + xunchar x2 : Nat) - k.bct))
  else .ok (k,some (slot + 3,(len : Int) - k.bct - 2))

-- The check of a packet, which ends in a NUL then.
def checkPacket (k : KData) (slot : Nat) (t : UInt8) (p : Nat) (datalen : Int) (chklen : Nat) :
    Except Fault (KData × Bool) := do
  let pbc ← (List.range chklen).mapM fun i : Nat => byteAt k.ipktbuf p (datalen + i)
  let buf ← putAt k.ipktbuf p datalen 0
  let pkt ← cstring (buf.drop slot)
  if goodCheck pbc pkt then .ok ({ k with ipktbuf := buf },true)
  else if t = 0x45 ∧ 1 < chklen then
    let (buf,good) ← errorCheck buf slot p datalen pbc
    .ok ({ k with ipktbuf := buf },good)
  else .ok ({ k with ipktbuf := buf },false)

def noted (k : KData) (slot len seq : Nat) (t : UInt8) : KData :=
  k.setInfo slot fun i => { i with
    len := len
    seq := seq
    typ := t }

def parse (k : KData) (slot : Nat) : Except Fault (KData × Parsed) := do
  let b0 ← byteAt k.ipktbuf slot 0
  let b1 ← byteAt k.ipktbuf slot 1
  let t ← byteAt k.ipktbuf slot 2
  let len := xunchar b0
  let seq := xunchar b1
  let k := k.noted slot len seq t
  if t = 0x4e ∨ t = 0x59 then .ok (k,.echo)
  else
    match ← k.dataField slot len with
    | (k,none) => .ok (k,.badHeader)
    | (k,some (p,datalen)) =>
      let datalen := if t = 0x53 then (len : Int) - 3 else datalen
      let (k,good) ← k.checkPacket slot t p datalen (checkType k.bct t)
      .ok (k,if good then .good seq t p datalen else .badCheck)

-- K_RUN, for `n` bytes that have been received in a slot.
def kermit (k : KData) (slot n : Nat) : Except Fault (Status × KData) := do
  let k := k.setInfo slot fun i => { i with len := n }
  if n < 4 then k.nak k.r_seq slot
  else
    match ← k.parse slot with
    | (k,.echo) => .ok (.ok,k.freerslot slot)
    | (k,.badHeader) => (k.freerslot slot).nak k.r_seq slot
    | (k,.badCheck) =>
      let (_,k) ← (k.freerslot slot).nak k.r_seq slot
      .ok (.ok,k)
    | (k,.good seq t p datalen) => k.checked slot seq t p datalen

end Checks

-- K_INIT. What is in the buffers and in the retry counters is left as it is.
def init (ipktbuf : List UInt8) (ipktinfo : List Packet) : KData where
  state := .wait
  r_seq := 0
  bct := 3
  parity := 0
  retry := P_RETRY
  ebq := 0x59
  rptq := 0x7e
  r_ctlq := 0x23
  s_eom := CR
  rptflg := false
  capas := CAP_LP ||| CAP_SW ||| CAP_AT
  window := P_WSLOTS
  binary := true
  opktbuf := []
  ipktbuf := ipktbuf
  ipktinfo := ipktinfo.map fun i => { i with len := 0 }
  obuf := []
  filename := []
  filedate := []
  filesize := 0
  sofar := 0
  sent := []
  written := []

section Reception

def readpkt (k : KData) : Bool → List UInt8 → List UInt8 → Option (List UInt8 × Nat × List UInt8)
  | _, _, [] => none
  | flag, stored, x :: rest =>
    let c := if k.parity = 0 then x else x &&& 0x7f
    if flag = false ∧ c ≠ SOH then readpkt k flag stored rest
    else if c = SOH then readpkt k true stored rest
    else if c = CR ∨ c = LF then some (stored,stored.length,rest)
    else if P_PKTLEN < stored.length then some (stored,0,rest)
    else readpkt k flag (stored ++ [x]) rest

-- Puts bytes into the buffer of a slot. The buffers of the slots overlap: each begins one byte
-- behind the one before it.
def store (k : KData) (slot : Nat) (stored : List UInt8) : Except Fault KData :=
  if slot + stored.length ≤ k.ipktbuf.length then
    .ok { k with
      ipktbuf := k.ipktbuf.take slot ++ stored ++ k.ipktbuf.drop (slot + stored.length) }
  else .error .access

-- A free slot with what readpkt has stored and returned. Without a slot the bytes would go to
-- address 0.
def place (k : KData) (stored : List UInt8) (n : Nat) : Except Fault (KData × Nat) :=
  match k.getrslot with
  | (_,none) => .error .access
  | (k,some slot) => do
    let k ← k.store slot stored
    .ok (if n < 1 then k.freerslot slot else k,slot)

-- One round of the loop of receive_kernel.
def receive (k : KData) (stored : List UInt8) (n : Nat) : Except Fault (Status × KData) := do
  let (k,slot) ← k.place stored n
  k.kermit slot n

inductive Loaded where
  | waiting (k : KData)
  | failed (k : KData)
  | loaded (k : KData)

-- Each round takes one byte at least of what is sent.
def receiveLoop : Nat → KData → List UInt8 → Except Fault Loaded
  | 0, k, _ => .ok (.waiting k)
  | n + 1, k, sent =>
    match k.readpkt false [] sent with
    | none => .ok (.waiting k)
    | some (stored,len,rest) => do
      match ← k.receive stored len with
      | (.ok,k) => receiveLoop n k rest
      | (.done,k) => .ok (.loaded k)
      | (.error,k) => .ok (.failed k)

end Reception

end KData

-- What is behind the load pointer in the end is what has been written. `ipktbuf` and `ipktinfo`
-- are as they are found.
def receive_kernel (ipktbuf : List UInt8) (ipktinfo : List Packet) (sent : List UInt8) :
    Except Fault KData.Loaded :=
  KData.receiveLoop (sent.length + 1) (KData.init ipktbuf ipktinfo) sent

end Kermit
end RoscoM68k
