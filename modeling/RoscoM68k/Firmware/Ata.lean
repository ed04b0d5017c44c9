import RoscoM68k.Base.Memory
import RoscoM68k.Base.Slices

namespace RoscoM68k

def OP_TIMEOUT : Nat := 500000

def ATA_MASTER : UInt8 := 0x0
def ATA_SLAVE : UInt8 := 0x1

def ATA_SR_BSY : UInt8 := 0x80
def ATA_SR_DRQ : UInt8 := 0x08
def ATA_SR_ERR : UInt8 := 0x01

def ATA_CMD_READ_PIO : UInt16 := 0x20
def ATA_CMD_WRITE_PIO : UInt16 := 0x30

structure ATADevice where
  deviceNum : UInt8

-- A command with what the other registers say when a drive takes it.
structure AtaCommand where
  code : UInt16
  drive : Nat
  sector : Nat
  count : Nat
  deriving DecidableEq

-- The registers, what the status registers return one time after the other, the commands so far,
-- the place of the next data word, the disks by drive and sector, the memory of the host, and the
-- static variable of the driver.
structure AtaBus where
  devsel : UInt16
  sectorCount : UInt16
  lba7to0 : UInt16
  lba15to8 : UInt16
  lba23to16 : UInt16
  status : Nat → UInt16
  polls : Nat
  commands : List AtaCommand
  drive : Nat
  sector : Nat
  word : Nat
  disk : Nat → Nat → Mem
  mem : Mem
  selectedDrive : UInt8

-- `__builtin_bswap16`
def bswap16 (w : Nat) : Nat := w % 256 * 256 + w / 256

namespace AtaBus

-- How the drives read the address registers: four bits of the first, eight of the others.
def addressed (s : AtaBus) (code : UInt16) : AtaCommand where
  code := code
  drive := s.devsel.toNat / 16 % 2
  sector := s.devsel.toNat % 16 * 16777216 + s.lba23to16.toNat % 256 * 65536 +
    s.lba15to8.toNat % 256 * 256 + s.lba7to0.toNat % 256
  count := s.sectorCount.toNat % 256

def command (s : AtaBus) (code : UInt16) : AtaBus :=
  let c := s.addressed code
  { s with
    commands := s.commands ++ [c]
    drive := c.drive
    sector := c.sector
    word := 0 }

def atPoll (s : AtaBus) (p : Nat) : AtaBus := { s with polls := p }

def readStatus (s : AtaBus) : UInt16 × AtaBus := (s.status s.polls,s.atPoll (s.polls + 1))

-- The first byte of a word on the disk is its low byte.
def readData (s : AtaBus) : Nat × AtaBus :=
  let m := s.disk s.drive s.sector
  (m.readB (2 * s.word) + m.readB (2 * s.word + 1) * 256,{ s with word := s.word + 1 })

def writeData (s : AtaBus) (w : Nat) : AtaBus :=
  { s with
    disk := fun d n =>
      if d = s.drive ∧ n = s.sector then
        ((s.disk d n).writeB (2 * s.word) w).writeB (2 * s.word + 1) (w / 256)
      else s.disk d n
    word := s.word + 1 }

def ataSelectDrive (s : AtaBus) (i : UInt8) : AtaBus :=
  if i ≠ s.selectedDrive then
    { s with
      devsel := if i = ATA_MASTER then 0xa0 else 0xb0
      selectedDrive := i }
  else s

-- The loop with `n` more counts before the timeout; the last look is too late.
def awaitReady (s : AtaBus) : Nat → Bool × AtaBus
  | 0 => (false,s.readStatus.2)
  | n + 1 =>
    let (w,s) := s.readStatus
    if w &&& 0x00c0 ≠ 0x0040 then awaitReady s n else (true,s)

def ataAwaitReady (s : AtaBus) : Bool × AtaBus := s.awaitReady OP_TIMEOUT

def ataDelayForABit (s : AtaBus) : AtaBus :=
  s.readStatus.2.readStatus.2.readStatus.2.readStatus.2

-- `retry`, with `n` more looks before the timeout.
def retry (s : AtaBus) : Nat → Bool × AtaBus
  | 0 => (false,s)
  | n + 1 =>
    let (w,s) := s.readStatus
    if (w &&& 0xff).toUInt8 &&& ATA_SR_BSY ≠ 0 then retry s n else (true,s)

-- `retry2`; the look after the last one is for an error only.
def retry2 (s : AtaBus) : Nat → Bool × AtaBus
  | 0 => (false,s.readStatus.2)
  | n + 1 =>
    let (w,s) := s.readStatus
    if (w &&& 0xff).toUInt8 &&& ATA_SR_ERR ≠ 0 then (false,s)
    else if (w &&& 0xff).toUInt8 &&& ATA_SR_DRQ = 0 then retry2 s n
    else (true,s)

def ataPoll (s : AtaBus) : Bool × AtaBus :=
  let (idle,s) := s.ataDelayForABit.retry (OP_TIMEOUT + 1)
  if !idle then (false,s) else s.retry2 (OP_TIMEOUT + 1)

-- The registers for one sector.
def setSector (s : AtaBus) (lba : UInt32) (drive : UInt8) : AtaBus :=
  let cmd : UInt8 := if drive = ATA_MASTER then 0xe0 else 0xf0
  { s with
    devsel := (cmd ||| (lba >>> 24 &&& 0x0f).toUInt8).toUInt16
    sectorCount := 1
    lba7to0 := lba.toUInt8.toUInt16
    lba15to8 := (lba >>> 8).toUInt8.toUInt16
    lba23to16 := (lba >>> 16).toUInt8.toUInt16 }

-- The words from the `i`-th on.
def readWords (buf : Nat) (s : AtaBus) (i : Nat) : Nat → AtaBus
  | 0 => s
  | n + 1 =>
    let (w,s) := s.readData
    readWords buf { s with mem := s.mem.writeW (buf + i * 2) (bswap16 w) } (i + 1) n

def writeWords (buf : Nat) (s : AtaBus) (i : Nat) : Nat → AtaBus
  | 0 => s
  | n + 1 => writeWords buf (s.writeData (bswap16 (s.mem.readW (buf + i * 2)))) (i + 1) n

-- `ata_read_one` and `ata_write_one` are the same but for the command and the transfer.
def ataOne (code : UInt16) (transfer : AtaBus → Nat → AtaBus) (s : AtaBus) (buf : Nat)
    (lba : UInt32) (drive : UInt8) : Bool × AtaBus :=
  if drive ≠ ATA_MASTER ∧ drive ≠ ATA_SLAVE then (false,s)
  else
    let (ready,s) := s.ataAwaitReady
    if !ready then (false,s)
    else
      let (ok,s) := ((s.setSector lba drive).command code).ataPoll
      if !ok then (false,s) else (true,(transfer s buf).ataDelayForABit)

def readSector (s : AtaBus) (buf : Nat) : AtaBus := readWords buf s 0 256

def writeSector (s : AtaBus) (buf : Nat) : AtaBus := writeWords buf s 0 256

def ataReadOne : AtaBus → Nat → UInt32 → UInt8 → Bool × AtaBus :=
  ataOne ATA_CMD_READ_PIO readSector

def ataWriteOne : AtaBus → Nat → UInt32 → UInt8 → Bool × AtaBus :=
  ataOne ATA_CMD_WRITE_PIO writeSector

-- The rounds from `i` on, `n` of them, in the loops of `ata_read` and `ata_write`.
def sectors (one : AtaBus → Nat → UInt32 → UInt8 → Bool × AtaBus) (lba num : UInt32)
    (drive : UInt8) (s : AtaBus) (buf : Nat) (i : UInt32) : Nat → UInt32 × AtaBus
  | 0 => (num,s)
  | n + 1 =>
    let (ok,s) := one s buf (lba + i) drive
    if !ok then (i,s) else sectors one lba num drive s (buf + 512) (i + 1) n

def ataRead (s : AtaBus) (buf : Nat) (lba num : UInt32) (drive : UInt8) : UInt32 × AtaBus :=
  sectors ataReadOne lba num drive (s.ataSelectDrive drive) buf 0 num.toNat

def ataWrite (s : AtaBus) (buf : Nat) (lba num : UInt32) (drive : UInt8) : UInt32 × AtaBus :=
  sectors ataWriteOne lba num drive (s.ataSelectDrive drive) buf 0 num.toNat

def ataReadSectors (s : AtaBus) (buf : Nat) (lba num : UInt32) (dev : ATADevice) :
    UInt32 × AtaBus := s.ataRead buf lba num dev.deviceNum

def ataWriteSectors (s : AtaBus) (buf : Nat) (lba num : UInt32) (dev : ATADevice) :
    UInt32 × AtaBus := s.ataWrite buf lba num dev.deviceNum

end AtaBus

-- The first of `n` answers from `p` on that satisfies `P` is the one at `q`.
def FirstAnswer (P : UInt16 → Prop) (st : Nat → UInt16) (n p q : Nat) : Prop :=
  p ≤ q ∧ q < p + n ∧ P (st q) ∧ ∀ x, p ≤ x → x < q → ¬ P (st x)

def DriveReady (w : UInt16) : Prop := w &&& 0x00c0 = 0x0040

def DriveIdle (w : UInt16) : Prop := (w &&& 0xff).toUInt8 &&& ATA_SR_BSY = 0

def DriveFailed (w : UInt16) : Prop := (w &&& 0xff).toUInt8 &&& ATA_SR_ERR ≠ 0

-- An error, or a request for the data.
def DriveAnswered (w : UInt16) : Prop := DriveFailed w ∨ (w &&& 0xff).toUInt8 &&& ATA_SR_DRQ ≠ 0

-- A drive gets ready in time.
def GetsReady (st : Nat → UInt16) (p : Nat) : Prop := ∃ a, FirstAnswer DriveReady st OP_TIMEOUT p a

-- From `p` on it gets ready, then idle, and then comes with the data rather than an error, each
-- in time; the next answer is the one at `q`.
def SectorServed (st : Nat → UInt16) (p q : Nat) : Prop :=
  ∃ a b c, FirstAnswer DriveReady st OP_TIMEOUT p a ∧
    FirstAnswer DriveIdle st (OP_TIMEOUT + 1) (a + 5) b ∧
    FirstAnswer DriveAnswered st (OP_TIMEOUT + 1) (b + 1) c ∧
    ¬ DriveFailed (st c) ∧ q = c + 5

section Answers

variable {P : UInt16 → Prop} {st : Nat → UInt16} {n p q q' : Nat}

theorem FirstAnswer.unique (h : FirstAnswer P st n p q) (h' : FirstAnswer P st n p q') :
    q = q' := by
  obtain ⟨hle,-,hp,hnone⟩ := h
  obtain ⟨hle',-,hp',hnone'⟩ := h'
  rcases Nat.lt_trichotomy q q' with hlt | heq | hlt
  · exact absurd hp (hnone' q hle hlt)
  · exact heq
  · exact absurd hp' (hnone q' hle' hlt)

theorem FirstAnswer.here (h : P (st p)) : FirstAnswer P st (n + 1) p p :=
  ⟨le_rfl,by omega,h,fun x hx hx' => absurd hx' (by omega)⟩

-- The answer at `p` is not the one.
theorem firstAnswer_next (h : ¬ P (st p)) :
    FirstAnswer P st (n + 1) p q ↔ FirstAnswer P st n (p + 1) q := by
  constructor
  · rintro ⟨hle,hlt,hp,hnone⟩
    have hne : p ≠ q := by
      rintro rfl
      exact h hp
    exact ⟨by omega,by omega,hp,fun x hx hx' => hnone x (by omega) hx'⟩
  · rintro ⟨hle,hlt,hp,hnone⟩
    refine ⟨by omega,by omega,hp,fun x hx hx' => ?_⟩
    by_cases he : x = p
    · rwa [he]
    · exact hnone x (by omega) hx'

theorem FirstAnswer.eq_here (h : FirstAnswer P st n p q) (hp : P (st p)) : q = p := by
  obtain ⟨hle,-,-,hnone⟩ := h
  by_contra hne
  exact hnone p le_rfl (by omega) hp

theorem firstAnswer_none : ¬ FirstAnswer P st 0 p q := fun ⟨hle,hlt,_⟩ => by omega

theorem SectorServed.unique (h : SectorServed st p q) (h' : SectorServed st p q') : q = q' := by
  obtain ⟨a,b,c,ha,hb,hc,-,rfl⟩ := h
  obtain ⟨a',b',c',ha',hb',hc',-,rfl⟩ := h'
  obtain rfl := ha.unique ha'
  obtain rfl := hb.unique hb'
  rw [hc.unique hc']

end Answers

section Polls

-- Where the loop comes to, whether the drive gets ready or not.
theorem awaitReady_spec (s : AtaBus) (n : Nat) :
    (∃ q, FirstAnswer DriveReady s.status n s.polls q ∧ s.awaitReady n = (true,s.atPoll (q + 1))) ∨
    (∀ q, ¬ FirstAnswer DriveReady s.status n s.polls q) ∧
      ∃ p, s.awaitReady n = (false,s.atPoll p) := by
  induction n generalizing s with
  | zero => exact .inr ⟨fun _ => firstAnswer_none,_,rfl⟩
  | succ n ih =>
    rw [AtaBus.awaitReady]
    dsimp only [AtaBus.readStatus]
    by_cases hready : s.status s.polls &&& 0x00c0 = 0x0040
    · rw [if_neg (not_not.mpr hready)]
      exact .inl ⟨s.polls,.here hready,rfl⟩
    · rw [if_pos hready]
      simp only [firstAnswer_next (P := DriveReady) hready]
      exact ih (s.atPoll (s.polls + 1))

theorem retry_spec (s : AtaBus) (n : Nat) :
    (∃ q, FirstAnswer DriveIdle s.status n s.polls q ∧ s.retry n = (true,s.atPoll (q + 1))) ∨
    (∀ q, ¬ FirstAnswer DriveIdle s.status n s.polls q) ∧ ∃ p, s.retry n = (false,s.atPoll p) := by
  induction n generalizing s with
  | zero => exact .inr ⟨fun _ => firstAnswer_none,s.polls,rfl⟩
  | succ n ih =>
    rw [AtaBus.retry]
    dsimp only [AtaBus.readStatus]
    by_cases hidle : (s.status s.polls &&& 0xff).toUInt8 &&& ATA_SR_BSY = 0
    · rw [if_neg (not_not.mpr hidle)]
      exact .inl ⟨s.polls,.here hidle,rfl⟩
    · rw [if_pos hidle]
      simp only [firstAnswer_next (P := DriveIdle) hidle]
      exact ih (s.atPoll (s.polls + 1))

theorem retry2_spec (s : AtaBus) (n : Nat) :
    (∃ q, FirstAnswer DriveAnswered s.status n s.polls q ∧ ¬ DriveFailed (s.status q) ∧
      s.retry2 n = (true,s.atPoll (q + 1))) ∨
    (∀ q, FirstAnswer DriveAnswered s.status n s.polls q → DriveFailed (s.status q)) ∧
      ∃ p, s.retry2 n = (false,s.atPoll p) := by
  induction n generalizing s with
  | zero => exact .inr ⟨fun _ hq => absurd hq firstAnswer_none,_,rfl⟩
  | succ n ih =>
    rw [AtaBus.retry2]
    dsimp only [AtaBus.readStatus]
    by_cases hfailed : (s.status s.polls &&& 0xff).toUInt8 &&& ATA_SR_ERR ≠ 0
    · rw [if_pos hfailed]
      refine .inr ⟨fun q hq => ?_,_,rfl⟩
      rwa [hq.eq_here (.inl hfailed)]
    · rw [if_neg hfailed]
      by_cases hnone : (s.status s.polls &&& 0xff).toUInt8 &&& ATA_SR_DRQ = 0
      · rw [if_pos hnone]
        have hno : ¬ DriveAnswered (s.status s.polls) := not_or.mpr ⟨hfailed,not_not.mpr hnone⟩
        simp only [firstAnswer_next hno]
        exact ih (s.atPoll (s.polls + 1))
      · rw [if_neg hnone]
        exact .inl ⟨s.polls,.here (.inr hnone),hfailed,rfl⟩

theorem ataDelay_eq (s : AtaBus) : s.ataDelayForABit = s.atPoll (s.polls + 4) := rfl

-- A drive that is given a command gets idle and comes with the data.
theorem ataPoll_spec (s : AtaBus) :
    (∃ b c, FirstAnswer DriveIdle s.status (OP_TIMEOUT + 1) (s.polls + 4) b ∧
      FirstAnswer DriveAnswered s.status (OP_TIMEOUT + 1) (b + 1) c ∧ ¬ DriveFailed (s.status c) ∧
      s.ataPoll = (true,s.atPoll (c + 1))) ∨
    (∀ b c, FirstAnswer DriveIdle s.status (OP_TIMEOUT + 1) (s.polls + 4) b →
      FirstAnswer DriveAnswered s.status (OP_TIMEOUT + 1) (b + 1) c → DriveFailed (s.status c)) ∧
      ∃ p, s.ataPoll = (false,s.atPoll p) := by
  rw [AtaBus.ataPoll]
  generalize OP_TIMEOUT + 1 = n
  rw [ataDelay_eq]
  obtain ⟨b,hb,hretry⟩ | ⟨hnone,p,hretry⟩ := retry_spec (s.atPoll (s.polls + 4)) n
  · rw [hretry]
    dsimp only
    rw [if_neg (by decide)]
    obtain ⟨c,hc,hok,hretry2⟩ | ⟨hfail,p,hretry2⟩ := retry2_spec (s.atPoll (b + 1)) n
    · exact .inl ⟨b,c,hb,hc,hok,hretry2⟩
    · refine .inr ⟨fun b' c hb' hc => ?_,p,hretry2⟩
      obtain rfl := hb.unique hb'
      exact hfail c hc
  · rw [hretry]
    exact .inr ⟨fun b c hb _ => absurd hb (hnone b),p,rfl⟩

end Polls

section Commands

variable {s : AtaBus} {lba : UInt32} {drive : UInt8}

-- `t` is `s` after a command, and whatever the registers and the answers so far are.
structure Commanded (c : AtaCommand) (s t : AtaBus) : Prop where
  commands : t.commands = s.commands ++ [c]
  drive : t.drive = c.drive
  sector : t.sector = c.sector
  word : t.word = 0
  status : t.status = s.status
  disk : t.disk = s.disk
  mem : t.mem = s.mem

-- The command that is sent for a sector keeps 28 bits of its number.
def sectorCommand (code : UInt16) (lba : Nat) (drive : UInt8) : AtaCommand :=
  ⟨code,drive.toNat,lba % 268435456,1⟩

theorem devsel_bits (x : Fin 16) :
    (0xe0 ||| UInt8.ofNat x.val).toUInt16.toNat / 16 % 2 = 0 ∧
    (0xf0 ||| UInt8.ofNat x.val).toUInt16.toNat / 16 % 2 = 1 ∧
    (0xe0 ||| UInt8.ofNat x.val).toUInt16.toNat % 16 = x.val ∧
    (0xf0 ||| UInt8.ofNat x.val).toUInt16.toNat % 16 = x.val := by
  revert x
  decide

theorem addressed_setSector (s : AtaBus) (code : UInt16) (lba : UInt32)
    (hdrive : drive = ATA_MASTER ∨ drive = ATA_SLAVE) :
    (s.setSector lba drive).addressed code = sectorCommand code lba.toNat drive := by
  obtain ⟨x,hx⟩ : ∃ x : Fin 16, x.val = lba.toNat / 16777216 % 16 :=
    ⟨⟨lba.toNat / 16777216 % 16,by omega⟩,rfl⟩
  have htop : (lba >>> 24 &&& 0x0f).toUInt8 = UInt8.ofNat x.val := by
    refine UInt8.toNat_inj.mp ?_
    rw [hx,UInt32.toNat_toUInt8,UInt32.toNat_and,UInt32.toNat_shiftRight,UInt8.toNat_ofNat',
      Nat.shiftRight_eq_div_pow]
    change (lba.toNat / 16777216 &&& 2 ^ 4 - 1) % 2 ^ 8 = _
    rw [Nat.and_two_pow_sub_one_eq_mod]
  have h7 : lba.toUInt8.toUInt16.toNat = lba.toNat % 256 := rfl
  have h15 : (lba >>> 8).toUInt8.toUInt16.toNat = lba.toNat / 256 % 256 := by
    rw [UInt8.toNat_toUInt16,UInt32.toNat_toUInt8,UInt32.toNat_shiftRight,
      Nat.shiftRight_eq_div_pow]
    rfl
  have h23 : (lba >>> 16).toUInt8.toUInt16.toNat = lba.toNat / 65536 % 256 := by
    rw [UInt8.toNat_toUInt16,UInt32.toNat_toUInt8,UInt32.toNat_shiftRight,
      Nat.shiftRight_eq_div_pow]
    rfl
  have hcount : (1 : UInt16).toNat % 256 = 1 := rfl
  have hsector : lba.toNat / 16777216 % 16 * 16777216 + lba.toNat / 65536 % 256 % 256 * 65536 +
      lba.toNat / 256 % 256 % 256 * 256 + lba.toNat % 256 % 256 = lba.toNat % 268435456 := by
    omega
  obtain ⟨hmaster,hslave,hmaster',hslave'⟩ := devsel_bits x
  rw [AtaBus.setSector,AtaBus.addressed,htop,sectorCommand]
  dsimp only
  rw [h7,h15,h23,hcount]
  obtain rfl | rfl := hdrive
  · rw [if_pos rfl,hmaster,hmaster',hx,hsector]
    rfl
  · rw [if_neg (by decide),hslave,hslave',hx,hsector]
    rfl

theorem command_commanded (s : AtaBus) (code : UInt16) (lba : UInt32)
    (hdrive : drive = ATA_MASTER ∨ drive = ATA_SLAVE) :
    Commanded (sectorCommand code lba.toNat drive) s ((s.setSector lba drive).command code) := by
  have hc := addressed_setSector s code lba hdrive
  rw [AtaBus.command,hc]
  exact ⟨rfl,rfl,rfl,rfl,rfl,rfl,rfl⟩

end Commands

section One

variable {s : AtaBus} {buf : Nat} {lba : UInt32} {drive : UInt8} {code : UInt16}
  {transfer : AtaBus → Nat → AtaBus}

-- A transfer has to do with the data alone.
structure DataOnly (transfer : AtaBus → Nat → AtaBus) : Prop where
  status : ∀ s buf, (transfer s buf).status = s.status
  polls : ∀ s buf, (transfer s buf).polls = s.polls
  commands : ∀ s buf, (transfer s buf).commands = s.commands

-- What comes of one sector: nothing when the drive does not get ready, a command without data
-- when it fails then, and a transfer otherwise.
theorem ataOne_spec (s : AtaBus) (buf : Nat) (lba : UInt32) (code : UInt16)
    (hdrive : drive = ATA_MASTER ∨ drive = ATA_SLAVE) (ht : DataOnly transfer) :
    (¬ GetsReady s.status s.polls ∧
      ∃ p, AtaBus.ataOne code transfer s buf lba drive = (false,s.atPoll p)) ∨
    (GetsReady s.status s.polls ∧ ∃ u, Commanded (sectorCommand code lba.toNat drive) s u ∧
      ((∃ q, SectorServed s.status s.polls q ∧
        AtaBus.ataOne code transfer s buf lba drive = (true,(transfer u buf).atPoll q)) ∨
      ((∀ q, ¬ SectorServed s.status s.polls q) ∧
        AtaBus.ataOne code transfer s buf lba drive = (false,u)))) := by
  have hok : ¬ (drive ≠ ATA_MASTER ∧ drive ≠ ATA_SLAVE) :=
    fun hn => hdrive.elim hn.1 hn.2
  rw [AtaBus.ataOne,if_neg hok,AtaBus.ataAwaitReady]
  obtain ⟨a,ha,hawait⟩ | ⟨hnone,p,hawait⟩ := awaitReady_spec s OP_TIMEOUT
  · refine .inr ⟨⟨a,ha⟩,?_⟩
    obtain ⟨t,hcommanded⟩ : ∃ t, t = ((s.atPoll (a + 1)).setSector lba drive).command code :=
      ⟨_,rfl⟩
    have hc := command_commanded (s.atPoll (a + 1)) code lba hdrive
    have hpolls : t.polls = a + 1 := by
      rw [hcommanded]
      rfl
    rw [hawait]
    dsimp only
    rw [if_neg (by decide)]
    rw [← hcommanded] at hc ⊢
    have hstatus : t.status = s.status := hc.status
    have hspec := ataPoll_spec t
    rw [hstatus,hpolls] at hspec
    obtain ⟨b,c,hb,hdata,hgood,hpoll⟩ | ⟨hfail,p,hpoll⟩ := hspec
    · refine ⟨t.atPoll (c + 1),?_,.inl ⟨c + 5,⟨a,b,c,ha,hb,hdata,hgood,rfl⟩,?_⟩⟩
      · exact ⟨hc.commands,hc.drive,hc.sector,hc.word,hc.status,hc.disk,hc.mem⟩
      · rw [hpoll]
        dsimp only
        rw [if_neg (by decide),ataDelay_eq,ht.polls]
        rfl
    · refine ⟨t.atPoll p,?_,.inr ⟨?_,?_⟩⟩
      · exact ⟨hc.commands,hc.drive,hc.sector,hc.word,hc.status,hc.disk,hc.mem⟩
      · rintro q ⟨a',b,c,ha',hb,hdata,hgood,-⟩
        obtain rfl := ha.unique ha'
        exact hgood (hfail b c hb hdata)
      · rw [hpoll]
        rfl
  · refine .inl ⟨fun ⟨a,ha⟩ => hnone a ha,p,?_⟩
    rw [hawait]
    rfl

end One

section Data

theorem bswap16_pair (a b : UInt8) :
    bswap16 (a.toNat + b.toNat * 256) = a.toNat * 256 + b.toNat := by
  have ha := a.toNat_lt
  have hb := b.toNat_lt
  unfold bswap16
  omega

-- A stored byte keeps the low eight bits.
theorem writeB_eq (m : Mem) (a v : Nat) {b : UInt8} (h : v % 256 = b.toNat) :
    m.writeB a v = overlay m a [b] := by
  have hb : UInt8.ofNat v = b := UInt8.toNat_inj.mp (UInt8.toNat_ofNat'.trans h)
  rw [← overlay_cons,overlay_nil,Mem.writeB_update,hb]

theorem writeB_pair (m : Mem) (a : Nat) {v w : Nat} {b c : UInt8} (hb : v % 256 = b.toNat)
    (hc : w % 256 = c.toNat) : (m.writeB a v).writeB (a + 1) w = overlay m a [b,c] := by
  rw [writeB_eq m a v hb,writeB_eq _ (a + 1) w hc]
  exact overlay_append

theorem slice_pair (f : Nat → UInt8) (a n : Nat) :
    slice f a (2 * (n + 1)) = [f a,f (a + 1)] ++ slice f (a + 2) (2 * n) := rfl

theorem readWords_eq (buf : Nat) (s : AtaBus) (i n : Nat) : AtaBus.readWords buf s i n =
    { s with
      word := s.word + n
      mem := overlay s.mem (buf + i * 2)
        (slice (s.disk s.drive s.sector) (2 * s.word) (2 * n)) } := by
  induction n generalizing s i with
  | zero =>
    rw [AtaBus.readWords]
    dsimp only [slice]
    rw [overlay_nil,Nat.add_zero]
  | succ n ih =>
    obtain ⟨b,hb⟩ : ∃ b, b = s.disk s.drive s.sector (2 * s.word) := ⟨_,rfl⟩
    obtain ⟨c,hc⟩ : ∃ c, c = s.disk s.drive s.sector (2 * s.word + 1) := ⟨_,rfl⟩
    have hbyte := b.toNat_lt
    have hbyte' := c.toNat_lt
    have hstore : s.mem.writeW (buf + i * 2) (bswap16 (b.toNat + c.toNat * 256)) =
        overlay s.mem (buf + i * 2) [b,c] := by
      rw [bswap16_pair,Mem.writeW]
      exact writeB_pair _ _ (by omega) (by omega)
    have hnext : buf + (i + 1) * 2 = buf + i * 2 + [b,c].length := by
      change _ = buf + i * 2 + 2
      omega
    have hword : 2 * (s.word + 1) = 2 * s.word + 2 := by omega
    have hcount : s.word + 1 + n = s.word + (n + 1) := by omega
    rw [AtaBus.readWords]
    dsimp only [AtaBus.readData]
    rw [Mem.readB,Mem.readB,← hb,← hc,hstore,ih]
    dsimp only
    rw [hnext,overlay_append,hword,slice_pair,← hb,← hc,hcount]

-- The disks with bytes laid over one sector.
def laidOver (disk : Nat → Nat → Mem) (d n a : Nat) (bs : List UInt8) : Nat → Nat → Mem :=
  fun d' n' => if d' = d ∧ n' = n then overlay (disk d' n') a bs else disk d' n'

theorem writeWords_eq (buf : Nat) (s : AtaBus) (i n : Nat) : AtaBus.writeWords buf s i n =
    { s with
      word := s.word + n
      disk := laidOver s.disk s.drive s.sector (2 * s.word)
        (slice s.mem (buf + i * 2) (2 * n)) } := by
  induction n generalizing s i with
  | zero =>
    have hsame : laidOver s.disk s.drive s.sector (2 * s.word) [] = s.disk := by
      funext d k
      rw [laidOver,overlay_nil]
      exact ite_self _
    rw [AtaBus.writeWords]
    dsimp only [slice]
    rw [hsame,Nat.add_zero]
  | succ n ih =>
    obtain ⟨b,hb⟩ : ∃ b, b = s.mem (buf + i * 2) := ⟨_,rfl⟩
    obtain ⟨c,hc⟩ : ∃ c, c = s.mem (buf + i * 2 + 1) := ⟨_,rfl⟩
    have hbyte := b.toNat_lt
    have hbyte' := c.toNat_lt
    have hload : bswap16 (s.mem.readW (buf + i * 2)) = c.toNat * 256 + b.toNat := by
      rw [Mem.readW,Mem.readB,Mem.readB,← hb,← hc,Nat.add_comm,bswap16_pair]
    have hstore (m : Mem) : (m.writeB (2 * s.word) (c.toNat * 256 + b.toNat)).writeB
        (2 * s.word + 1) ((c.toNat * 256 + b.toNat) / 256) = overlay m (2 * s.word) [b,c] :=
      writeB_pair _ _ (by omega) (by omega)
    have hdata : s.writeData (c.toNat * 256 + b.toNat) =
        { s with
          word := s.word + 1
          disk := laidOver s.disk s.drive s.sector (2 * s.word) [b,c] } := by
      rw [AtaBus.writeData]
      simp only [hstore]
      rfl
    have hnext : buf + (i + 1) * 2 = buf + i * 2 + 2 := by omega
    have hword : 2 * (s.word + 1) = 2 * s.word + [b,c].length := by
      change _ = 2 * s.word + 2
      omega
    have hcount : s.word + 1 + n = s.word + (n + 1) := by omega
    have hlaid (bs : List UInt8) : laidOver (laidOver s.disk s.drive s.sector (2 * s.word) [b,c])
        s.drive s.sector (2 * (s.word + 1)) bs =
        laidOver s.disk s.drive s.sector (2 * s.word) ([b,c] ++ bs) := by
      funext d k
      simp only [laidOver]
      split
      · rw [hword,overlay_append]
      · rfl
    rw [AtaBus.writeWords,hload,hdata,ih]
    dsimp only
    rw [hlaid,hnext,slice_pair,← hb,← hc,hcount]

end Data
end RoscoM68k
