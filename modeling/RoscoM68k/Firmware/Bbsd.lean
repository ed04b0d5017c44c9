import Mathlib.Tactic

namespace RoscoM68k

def R1_READY_STATE : UInt8 := 0x00
def R1_IDLE_STATE : UInt8 := 0x01
def R1_ILLEGAL_COMMAND : UInt8 := 0x04

def BBSD_RESET_CYCLES : Nat := 10
def BBSD_IDLE_TIMEOUT : Nat := 20
def BBSD_MAX_IDLE_RETRIES : Nat := 5
def BBSD_MAX_ACMD41_RETRIES : Nat := 400
def BBSD_COMMAND_WAIT_RETRIES : Nat := 100
def BBSD_COMMAND_RESPONSE_RETRIES : Nat := 400

inductive BBSDCardType where
  | v1
  | v2
  | sdhc
  | unknown
  deriving DecidableEq

inductive BBSDInitStatus where
  | ok
  | idleFailed
  | cmd8Failed
  | acmd41Failed
  deriving DecidableEq

-- The firmware is built with SD_BLOCK_READ_ONLY, which leaves these two fields.
structure BBSDCard where
  initialized : Bool
  type : BBSDCardType

-- What the card returns byte by byte (0xFF after it has gone quiet), how much of it has been
-- read, what has been sent, and whether the chip select is asserted.
structure CardBus where
  bytes : Nat → UInt8
  read : Nat
  sent : List UInt8
  cs0 : Bool

namespace CardBus

def assertCs0 (s : CardBus) : CardBus := { s with cs0 := true }

def deassertCs0 (s : CardBus) : CardBus := { s with cs0 := false }

def sendByte (s : CardBus) (b : UInt8) : CardBus := { s with sent := s.sent ++ [b] }

def recvByte (s : CardBus) : UInt8 × CardBus := (s.bytes s.read,{ s with read := s.read + 1 })

def waitForCard (s : CardBus) : Nat → Bool × CardBus
  | 0 => (false,s)
  | n + 1 =>
    let (b,s) := s.recvByte
    if b = 0xff then (true,s) else waitForCard s n

def sendBytes (s : CardBus) (bs : List UInt8) : CardBus := bs.foldl sendByte s

def resetCard (s : CardBus) : CardBus :=
  s.deassertCs0.sendBytes (List.replicate BBSD_RESET_CYCLES 0xff)

-- The loop for the response, with `n` more bytes allowed.
def response (s : CardBus) : Nat → UInt8 × CardBus
  | 0 => s.recvByte
  | n + 1 =>
    let (b,s) := s.recvByte
    if b &&& 0x80 ≠ 0 then response s n else (b,s)

def crc (command : UInt8) : UInt8 :=
  if command = 8 then 0x87 else if command = 0 then 0x95 else 0xff

def rawSdCommandForce (s : CardBus) (command : UInt8) (arg : UInt32) (force : Bool) :
    UInt8 × CardBus :=
  let (ready,s) := s.assertCs0.waitForCard BBSD_COMMAND_WAIT_RETRIES
  if !ready && !force then (0xff,s)
  else
    let s := s.sendByte (command ||| 0x40)
    let s := s.sendBytes
      [(arg >>> 24).toUInt8,(arg >>> 16).toUInt8,(arg >>> 8).toUInt8,arg.toUInt8]
    (s.sendByte (crc command)).response BBSD_COMMAND_RESPONSE_RETRIES

def rawSdCommand (s : CardBus) (command : UInt8) (arg : UInt32) : UInt8 × CardBus :=
  s.rawSdCommandForce command arg false

def rawSdAcommand (s : CardBus) (command : UInt8) (arg : UInt32) : UInt8 × CardBus :=
  let (_,s) := s.rawSdCommand 55 0
  s.rawSdCommand command arg

-- The loop of `send_idle`.
def idleTries (s : CardBus) : Nat → Bool × CardBus
  | 0 => (false,s)
  | n + 1 =>
    let (r,s) := s.rawSdCommandForce 0 0 true
    if r = R1_IDLE_STATE then (true,s) else idleTries s n

def sendIdle (s : CardBus) : Bool × CardBus := s.idleTries BBSD_IDLE_TIMEOUT

def getCardType (s : CardBus) : BBSDCardType × CardBus :=
  let (r,s) := s.rawSdCommand 8 0x1aa
  if r &&& R1_ILLEGAL_COMMAND ≠ 0 then (.v1,s)
  else
    let (_,s) := s.recvByte
    let (_,s) := s.recvByte
    let (_,s) := s.recvByte
    let (result,s) := s.recvByte
    if result = 0xaa then (.v2,s) else (.unknown,s)

def tryAcmd41 (s : CardBus) (supports : UInt32) : Nat → Bool × CardBus
  | 0 => (false,s)
  | n + 1 =>
    let (r,s) := s.rawSdAcommand 41 supports
    if r = R1_READY_STATE then (true,s) else tryAcmd41 s supports n

-- The loop at the start of BBSD_initialize; `false` is its way out to `finally`.
def resetTries (s : CardBus) : Nat → Bool × CardBus
  | 0 => (true,s)
  | n + 1 =>
    let (idle,s) := s.resetCard.sendIdle
    if idle then (true,s)
    else if n = 0 then (false,s)
    else resetTries s n

end CardBus

def bbsdCommand (sd : BBSDCard) (s : CardBus) (command : UInt8) (arg : UInt32) : UInt8 × CardBus :=
  if sd.initialized then s.rawSdCommand command arg else (0xff,s)

-- `finally`
def bbsdFinally (sd : BBSDCard) (result : BBSDInitStatus) (s : CardBus) :
    BBSDInitStatus × BBSDCard × CardBus := (result,sd,s.deassertCs0)

-- After ACMD41: `initialized` and the type are set, and the CRC is disabled.
def bbsdReady (sd : BBSDCard) (type : BBSDCardType) (s : CardBus) :
    BBSDInitStatus × BBSDCard × CardBus :=
  let sd := { sd with
    initialized := true
    type := type }
  bbsdFinally sd .ok (bbsdCommand sd s 59 0).2

-- The OCR of a version 2 card; `result` has been OK from the start.
def bbsdReadOcr (sd : BBSDCard) (type : BBSDCardType) (s : CardBus) :
    BBSDInitStatus × BBSDCard × CardBus :=
  let (r,s) := s.rawSdCommand 58 0
  if r ≠ 0 then bbsdFinally sd .ok s
  else
    let (ocr,s) := s.recvByte
    let type := if ocr &&& 0xc0 = 0xc0 then .sdhc else type
    let (_,s) := s.recvByte
    let (_,s) := s.recvByte
    let (_,s) := s.recvByte
    bbsdReady sd type s

def bbsdActivate (sd : BBSDCard) (type : BBSDCardType) (s : CardBus) :
    BBSDInitStatus × BBSDCard × CardBus :=
  let supports := if type = .v2 then 0x40000000 else 0
  let (ready,s) := s.tryAcmd41 supports BBSD_MAX_ACMD41_RETRIES
  if ready then
    if type = .v2 then bbsdReadOcr sd type s else bbsdReady sd type s
  else bbsdFinally sd .acmd41Failed s

def bbsdInitialize (sd : BBSDCard) (s : CardBus) : BBSDInitStatus × BBSDCard × CardBus :=
  let (idle,s) := s.resetTries BBSD_MAX_IDLE_RETRIES
  if !idle then bbsdFinally sd .idleFailed s
  else
    let (type,s) := s.getCardType
    if type = .unknown then bbsdFinally sd .cmd8Failed s
    else bbsdActivate sd type s

-- A card of version 2 that is ready, but does not take the command for its OCR.
def OcrRefused (s : CardBus) : Prop :=
  ∃ s1 s2 s3, s.resetTries BBSD_MAX_IDLE_RETRIES = (true,s1) ∧ s1.getCardType = (.v2,s2) ∧
    s2.tryAcmd41 0x40000000 BBSD_MAX_ACMD41_RETRIES = (true,s3) ∧ (s3.rawSdCommand 58 0).1 ≠ 0

-- What is told of the card is so.
structure Truthful (r : BBSDInitStatus × BBSDCard × CardBus) : Prop where
  deasserted : r.2.2.cs0 = false
  ok : r.1 = .ok ↔ r.2.1.initialized = true ∧ r.2.1.type ≠ .unknown
  error : r.1 ≠ .ok → r.2.1.initialized = false

section Statuses

variable {sd : BBSDCard} {s : CardBus} {type : BBSDCardType}

theorem finally_error {result : BBSDInitStatus} (h : sd.initialized = false) (hr : result ≠ .ok) :
    Truthful (bbsdFinally sd result s) where
  deasserted := rfl
  ok := iff_of_false hr fun hi => Bool.false_ne_true (h.symm.trans hi.1)
  error := fun _ => h

theorem ready_truthful (ht : type ≠ .unknown) : Truthful (bbsdReady sd type s) where
  deasserted := rfl
  ok := iff_of_true rfl ⟨rfl,ht⟩
  error := fun h => absurd rfl h

theorem readOcr_truthful (h : sd.initialized = false) (ht : type ≠ .unknown) :
    Truthful (bbsdReadOcr sd type s) ↔ (s.rawSdCommand 58 0).1 = 0 := by
  rw [bbsdReadOcr]
  obtain ⟨r,t⟩ := s.rawSdCommand 58 0
  dsimp only
  by_cases hr : r ≠ 0
  · rw [if_pos hr]
    refine iff_of_false (fun hok => ?_) hr
    have hset := (hok.ok.mp rfl).1
    exact Bool.false_ne_true (h.symm.trans hset)
  · rw [if_neg hr]
    refine iff_of_true (ready_truthful ?_) (not_not.mp hr)
    split
    · nofun
    · exact ht

theorem activate_truthful (h : sd.initialized = false) (ht : type ≠ .unknown) :
    Truthful (bbsdActivate sd type s) ↔ ¬ (type = .v2 ∧ ∃ t,
      s.tryAcmd41 0x40000000 BBSD_MAX_ACMD41_RETRIES = (true,t) ∧ (t.rawSdCommand 58 0).1 ≠ 0) := by
  rw [bbsdActivate]
  by_cases hv : type = .v2
  · rw [if_pos hv]
    obtain ⟨ready,t⟩ := s.tryAcmd41 0x40000000 BBSD_MAX_ACMD41_RETRIES
    dsimp only
    cases ready with
    | false =>
      refine iff_of_true (finally_error h (by decide)) ?_
      rintro ⟨-,u,he,-⟩
      exact Bool.false_ne_true (Prod.mk.inj he).1
    | true =>
      rw [if_pos rfl,if_pos hv,readOcr_truthful h ht]
      constructor
      · rintro hz ⟨-,u,he,hne⟩
        obtain ⟨-,rfl⟩ := Prod.mk.inj he
        exact hne hz
      · intro hnot
        by_contra hne
        exact hnot ⟨hv,t,rfl,hne⟩
  · rw [if_neg hv]
    refine iff_of_true ?_ fun hn => hv hn.1
    obtain ⟨ready,t⟩ := s.tryAcmd41 0 BBSD_MAX_ACMD41_RETRIES
    dsimp only
    cases ready with
    | false => exact finally_error h (by decide)
    | true =>
      rw [if_pos rfl,if_neg hv]
      exact ready_truthful ht

end Statuses
-- How many bytes a step reads at most; all waiting is counted.
def Reads (n : Nat) (s s' : CardBus) : Prop := s'.read ≤ s.read + n

section Counts

variable {n m : Nat} {s t u : CardBus}

theorem Reads.trans (h : Reads n s t) (h' : Reads m t u) : Reads (n + m) s u := by
  unfold Reads at *
  omega

theorem Reads.mono (h : Reads n s t) (hn : n ≤ m) : Reads m s t := by
  unfold Reads at *
  omega

theorem reads_recv (s : CardBus) : Reads 1 s s.recvByte.2 := Nat.le_refl _

theorem sendBytes_read (s : CardBus) (bs : List UInt8) : (s.sendBytes bs).read = s.read := by
  induction bs generalizing s with
  | nil => rfl
  | cons b bs ih => exact ih (s.sendByte b)

theorem reads_wait (s : CardBus) (n : Nat) : Reads n s (s.waitForCard n).2 := by
  induction n generalizing s with
  | zero => exact Nat.le_refl _
  | succ n ih =>
    have hone := reads_recv s
    rw [CardBus.waitForCard]
    dsimp only
    split
    · exact hone.mono (by omega)
    · exact (hone.trans (ih s.recvByte.2)).mono (by omega)

theorem reads_response (s : CardBus) (n : Nat) : Reads (n + 1) s (s.response n).2 := by
  induction n generalizing s with
  | zero => exact reads_recv s
  | succ n ih =>
    have hone := reads_recv s
    rw [CardBus.response]
    dsimp only
    split
    · exact (hone.trans (ih s.recvByte.2)).mono (by omega)
    · exact hone.mono (by omega)

theorem reads_force (s : CardBus) (command : UInt8) (arg : UInt32) (force : Bool) :
    Reads 501 s (s.rawSdCommandForce command arg force).2 := by
  have hwait : Reads 100 s (s.assertCs0.waitForCard BBSD_COMMAND_WAIT_RETRIES).2 :=
    reads_wait s.assertCs0 BBSD_COMMAND_WAIT_RETRIES
  rw [CardBus.rawSdCommandForce]
  revert hwait
  generalize s.assertCs0.waitForCard BBSD_COMMAND_WAIT_RETRIES = r
  intro hwait
  dsimp only
  split
  · exact hwait.mono (by decide)
  · generalize [(arg >>> 24).toUInt8,(arg >>> 16).toUInt8,(arg >>> 8).toUInt8,arg.toUInt8] = bs
    obtain ⟨t,ht⟩ : ∃ t, t = ((r.2.sendByte (command ||| 0x40)).sendBytes bs).sendByte
        (CardBus.crc command) := ⟨_,rfl⟩
    have hsent : t.read = r.2.read := by
      rw [ht]
      exact sendBytes_read (r.2.sendByte (command ||| 0x40)) bs
    have hresponse := reads_response t BBSD_COMMAND_RESPONSE_RETRIES
    unfold Reads at *
    rw [hsent] at hresponse
    rw [← ht]
    unfold BBSD_COMMAND_RESPONSE_RETRIES at *
    omega

theorem reads_command (s : CardBus) (command : UInt8) (arg : UInt32) :
    Reads 501 s (s.rawSdCommand command arg).2 := reads_force s command arg false

theorem reads_acommand (s : CardBus) (command : UInt8) (arg : UInt32) :
    Reads 1002 s (s.rawSdAcommand command arg).2 :=
  (reads_command s 55 0).trans (reads_command _ command arg)

theorem reads_idle (s : CardBus) (n : Nat) : Reads (501 * n) s (s.idleTries n).2 := by
  induction n generalizing s with
  | zero => exact Nat.le_refl _
  | succ n ih =>
    have hone := reads_force s 0 0 true
    rw [CardBus.idleTries]
    dsimp only
    split
    · exact hone.mono (by omega)
    · exact (hone.trans (ih _)).mono (by omega)

theorem reads_reset (s : CardBus) (n : Nat) : Reads (10020 * n) s (s.resetTries n).2 := by
  induction n generalizing s with
  | zero => exact Nat.le_refl _
  | succ n ih =>
    have hsent : s.resetCard.read = s.read := sendBytes_read _ _
    have hone : Reads 10020 s s.resetCard.sendIdle.2 := by
      have hidle := reads_idle s.resetCard BBSD_IDLE_TIMEOUT
      unfold Reads at *
      rw [hsent] at hidle
      exact hidle
    rw [CardBus.resetTries]
    dsimp only
    split
    · exact hone.mono (by omega)
    · split
      · exact hone.mono (by omega)
      · exact (hone.trans (ih _)).mono (by omega)

theorem reads_four (s : CardBus) :
    Reads 4 s s.recvByte.2.recvByte.2.recvByte.2.recvByte.2 := Nat.le_refl _

theorem reads_type (s : CardBus) : Reads 505 s s.getCardType.2 := by
  have hone := reads_command s 8 0x1aa
  rw [CardBus.getCardType]
  generalize s.rawSdCommand 8 0x1aa = r at hone ⊢
  dsimp only
  split
  · exact hone.mono (by decide)
  · have hfive := hone.trans (reads_four r.2)
    split
    · exact hfive
    · exact hfive

theorem reads_acmd41 (s : CardBus) (supports : UInt32) (n : Nat) :
    Reads (1002 * n) s (s.tryAcmd41 supports n).2 := by
  induction n generalizing s with
  | zero => exact Nat.le_refl _
  | succ n ih =>
    have hone := reads_acommand s 41 supports
    rw [CardBus.tryAcmd41]
    dsimp only
    split
    · exact hone.mono (by omega)
    · exact (hone.trans (ih _)).mono (by omega)

theorem reads_ready (sd : BBSDCard) (type : BBSDCardType) (s : CardBus) :
    Reads 501 s (bbsdReady sd type s).2.2 := reads_command s 59 0

theorem reads_ocr (sd : BBSDCard) (type : BBSDCardType) (s : CardBus) :
    Reads 1006 s (bbsdReadOcr sd type s).2.2 := by
  have hone := reads_command s 58 0
  rw [bbsdReadOcr]
  generalize s.rawSdCommand 58 0 = r at hone ⊢
  dsimp only
  split
  · exact hone.mono (by decide)
  · exact (hone.trans (reads_four r.2)).trans (reads_ready sd _ _)

theorem reads_activate (sd : BBSDCard) (type : BBSDCardType) (s : CardBus) :
    Reads 401806 s (bbsdActivate sd type s).2.2 := by
  have hone := reads_acmd41 s (if type = .v2 then 0x40000000 else 0) BBSD_MAX_ACMD41_RETRIES
  rw [bbsdActivate]
  dsimp only
  generalize s.tryAcmd41 (if type = .v2 then 0x40000000 else 0) BBSD_MAX_ACMD41_RETRIES = r
    at hone ⊢
  split
  · split
    · exact hone.trans (reads_ocr sd type r.2)
    · exact (hone.trans (reads_ready sd type r.2)).mono (by decide)
  · exact hone.mono (by decide)

theorem initialize_reads (sd : BBSDCard) (s : CardBus) :
    Reads 452411 s (bbsdInitialize sd s).2.2 := by
  have hone := reads_reset s BBSD_MAX_IDLE_RETRIES
  rw [bbsdInitialize]
  generalize s.resetTries BBSD_MAX_IDLE_RETRIES = r at hone ⊢
  dsimp only
  split
  · exact hone.mono (by decide)
  · have htwo := hone.trans (reads_type r.2)
    generalize r.2.getCardType = q at htwo ⊢
    split
    · exact htwo.mono (by decide)
    · exact htwo.trans (reads_activate sd q.1 q.2)

end Counts

theorem initialize_truthful (sd : BBSDCard) (s : CardBus) (h : sd.initialized = false) :
    (bbsdInitialize sd s).2.2.read ≤ s.read + 452411 ∧
      (Truthful (bbsdInitialize sd s) ↔ ¬ OcrRefused s) := by
  refine ⟨initialize_reads sd s,?_⟩
  rw [bbsdInitialize,OcrRefused]
  obtain ⟨idle,s1⟩ := s.resetTries BBSD_MAX_IDLE_RETRIES
  dsimp only
  cases idle with
  | false =>
    refine iff_of_true (finally_error h (by decide)) ?_
    rintro ⟨t,u,v,he,-⟩
    exact Bool.false_ne_true (Prod.mk.inj he).1
  | true =>
    obtain ⟨type,s2,htype⟩ : ∃ type s2, s1.getCardType = (type,s2) := ⟨_,_,rfl⟩
    rw [if_neg (by decide),htype]
    dsimp only
    by_cases hu : type = .unknown
    · rw [if_pos hu]
      refine iff_of_true (finally_error h (by decide)) ?_
      rintro ⟨t,u,v,he,ht,-⟩
      obtain ⟨-,rfl⟩ := Prod.mk.inj he
      rw [hu] at htype
      exact absurd (Prod.mk.inj (htype.symm.trans ht)).1 (by decide)
    · rw [if_neg hu,activate_truthful h hu]
      refine not_congr ⟨?_,?_⟩
      · rintro ⟨rfl,t,ht,hne⟩
        exact ⟨s1,s2,t,rfl,htype,ht,hne⟩
      · rintro ⟨t,u,v,he,ht,hv,hne⟩
        obtain ⟨-,rfl⟩ := Prod.mk.inj he
        obtain ⟨rfl,rfl⟩ := Prod.mk.inj (htype.symm.trans ht)
        exact ⟨rfl,v,hv,hne⟩

def blankCard : BBSDCard := ⟨false,.unknown⟩

-- A card that answers with the given bytes, and then stays quiet.
def cardBus (bs : List UInt8) : CardBus := ⟨fun i => bs.getD i 0xff,0,[],false⟩

-- Idle, version 2, ready at once, and its OCR refused with an illegal command.
def refusingBus : CardBus :=
  cardBus [0xff,0x01,0xff,0x01,0,0,1,0xaa,0xff,0x01,0xff,0x00,0xff,0x05]

theorem initialize_truthful_refusing :
    (bbsdInitialize blankCard refusingBus).2.2.read ≤ refusingBus.read + 452411 ∧
      (Truthful (bbsdInitialize blankCard refusingBus) ↔ ¬ OcrRefused refusingBus) :=
  initialize_truthful blankCard refusingBus rfl

theorem initialize_untruthful : (bbsdInitialize blankCard refusingBus).1 = .ok ∧
    (bbsdInitialize blankCard refusingBus).2.1.initialized = false := by decide +kernel

end RoscoM68k
