import RoscoM68k.Firmware.BbsdWrite

namespace RoscoM68k

def BBSD_BLOCK_START_TIMEOUT : Nat := 200

-- The card in a build without SD_BLOCK_READ_ONLY.
structure PartialCard extends BBSDCard where
  haveCurrentBlock : Bool
  currentBlockStart : UInt32
  currentBlockOffset : UInt16
  canPartialRead : Bool

namespace CardBus

def waitForBlockStart (s : CardBus) : Nat → Bool × CardBus
  | 0 => (false,s)
  | n + 1 =>
    let (status,s) := s.recvByte
    if status ≠ 0xff then (decide (status = BLOCK_START),s) else waitForBlockStart s n

def recvBuffer (s : CardBus) : Nat → List UInt8 × CardBus
  | 0 => ([],s)
  | n + 1 =>
    let (b,s) := s.recvByte
    let (bs,s) := recvBuffer s n
    (b :: bs,s)

end CardBus

-- The card is told to read a block, and has to come with its start.
def startBlock (sd : BBSDCard) (s : CardBus) (block : UInt32) : Bool × CardBus :=
  let (r,s) := bbsdCommand sd s 17 (addressableBlock sd block)
  if r ≠ 0 then (false,s) else s.waitForBlockStart BBSD_BLOCK_START_TIMEOUT

namespace PartialCard

def readdresses (sd : PartialCard) (block : UInt32) (startOfs : UInt16) : Bool :=
  !sd.haveCurrentBlock || decide (block ≠ sd.currentBlockStart) ||
    decide (startOfs < sd.currentBlockOffset)

def seekBlock (sd : PartialCard) (s : CardBus) (block : UInt32) (startOfs : UInt16) :
    Bool × PartialCard × CardBus :=
  if sd.readdresses block startOfs then
    let (started,s) := startBlock sd.toBBSDCard s block
    if !started then (false,sd,s)
    else
      (true,{ sd with
        haveCurrentBlock := true
        currentBlockStart := block
        currentBlockOffset := 0 },s)
  else (true,sd,s)

-- `n` rounds of the loop that skips the bytes before the offset.
def skipBytes (sd : PartialCard) (s : CardBus) : Nat → PartialCard × CardBus
  | 0 => (sd,s)
  | n + 1 =>
    skipBytes { sd with currentBlockOffset := sd.currentBlockOffset + 1 } s.recvByte.2 n

-- `n` rounds of the loop that reads what is left; its test counts once more at the end.
def drainBytes (sd : PartialCard) (s : CardBus) : Nat → PartialCard × CardBus
  | 0 => ({ sd with currentBlockOffset := sd.currentBlockOffset + 1 },s)
  | n + 1 =>
    drainBytes { sd with currentBlockOffset := sd.currentBlockOffset + 1 } s.recvByte.2 n

def finishBlock (sd : PartialCard) (s : CardBus) : PartialCard × CardBus :=
  if !sd.canPartialRead then
    let (sd,s) := sd.drainBytes s (513 - sd.currentBlockOffset.toNat)
    (sd,s.recvByte.2.recvByte.2)
  else (sd,s)

end PartialCard

-- What a call returns, and the bytes that it stores from the start of the buffer on.
structure ReadResult where
  ok : Bool
  stored : List UInt8
  sd : PartialCard
  bus : CardBus

-- Once the card is at the block: what is before the part, the part, which is received with `n`
-- bytes, and what is after it.
def PartialCard.readPart (sd : PartialCard) (s : CardBus) (startOfs count : UInt16) (n : Nat) :
    ReadResult :=
  let (sd,s) := sd.skipBytes s (startOfs.toNat - sd.currentBlockOffset.toNat)
  let (bytes,s) := s.recvBuffer n
  let sd := { sd with currentBlockOffset := sd.currentBlockOffset + count }
  let (sd,s) := sd.finishBlock s
  ⟨true,bytes,sd,s.deassertCs0⟩

def bbsdReadData (sd : PartialCard) (s : CardBus) (block : UInt32) (startOfs count : UInt16) :
    ReadResult :=
  if !sd.initialized || decide (512 < startOfs.toNat + count.toNat) then ⟨false,[],sd,s⟩
  else if count = 0 then ⟨true,[],sd,s⟩
  else
    let (found,sd,s) := sd.seekBlock s block startOfs
    if !found then ⟨false,[],sd,s.deassertCs0⟩ else sd.readPart s startOfs count 512

structure ReadCall where
  block : UInt32
  startOfs : UInt16
  count : UInt16

-- A call of a run, with the states before it and what comes of it.
structure ReadStep where
  call : ReadCall
  sd : PartialCard
  bus : CardBus
  result : ReadResult

def readRun (sd : PartialCard) (s : CardBus) : List ReadCall → List ReadStep
  | [] => []
  | c :: cs =>
    let r := bbsdReadData sd s c.block c.startOfs c.count
    ⟨c,sd,s,r⟩ :: readRun r.sd r.bus cs

-- The block that a card has at an address.
def blockAt (sd : BBSDCard) (a : UInt32) : Nat :=
  if sd.type = .sdhc then a.toNat else a.toNat / 512

-- The 512 bytes of the block that the card is asked for when it is told to read this one.
def blockAsked (blocks : Nat → Nat → UInt8) (sd : BBSDCard) (block : UInt32) : List UInt8 :=
  slice (blocks (blockAt sd (addressableBlock sd block))) 0 512

-- When a call addresses the card and gets on, the card comes with the block at the address.
def Answers (blocks : Nat → Nat → UInt8) (o : ReadStep) : Prop :=
  let t := (startBlock o.sd.toBBSDCard o.bus o.call.block).2
  o.sd.readdresses o.call.block o.call.startOfs = true → o.call.count ≠ 0 → o.result.ok = true →
    slice t.bytes t.read 512 = blockAsked blocks o.sd.toBBSDCard o.call.block

-- The bytes that the call asks for are stored, and nothing more.
def PartRead (blocks : Nat → Nat → UInt8) (o : ReadStep) : Prop :=
  o.result.stored =
    slice (blocks o.call.block.toNat) o.call.startOfs.toNat o.call.count.toNat

-- The call asks for nothing, or for a whole block that has the bytes of its address.
def AsksWhole (blocks : Nat → Nat → UInt8) (o : ReadStep) : Prop :=
  o.call.count = 0 ∨ o.call.count = 512 ∧
    blockAsked blocks o.sd.toBBSDCard o.call.block = slice (blocks o.call.block.toNat) 0 512

-- A block that has been started has been read from.
def PartialCard.Begun (sd : PartialCard) : Prop :=
  sd.haveCurrentBlock = true → sd.currentBlockOffset ≠ 0

section Steps

variable {sd sd' : PartialCard} {s s' : CardBus} {block : UInt32} {startOfs count : UInt16}

theorem recvBuffer_eq (s : CardBus) (n : Nat) :
    s.recvBuffer n = (slice s.bytes s.read n,{ s with read := s.read + n }) := by
  induction n generalizing s with
  | zero => rfl
  | succ n ih =>
    have hread : s.read + 1 + n = s.read + (n + 1) := by omega
    rw [CardBus.recvBuffer]
    dsimp only [CardBus.recvByte]
    rw [ih,slice]
    dsimp only
    rw [hread]

theorem skipBytes_eq (sd : PartialCard) (s : CardBus) (n : Nat) : sd.skipBytes s n =
    ({ sd with currentBlockOffset := sd.currentBlockOffset + UInt16.ofNat n },
      { s with read := s.read + n }) := by
  induction n generalizing sd s with
  | zero =>
    have hsame : sd.currentBlockOffset + UInt16.ofNat 0 = sd.currentBlockOffset :=
      UInt16.add_zero _
    rw [hsame]
    rfl
  | succ n ih =>
    have hread : s.read + 1 + n = s.read + (n + 1) := by omega
    have hofs : sd.currentBlockOffset + 1 + UInt16.ofNat n =
        sd.currentBlockOffset + UInt16.ofNat (n + 1) := by
      rw [UInt16.add_assoc,UInt16.ofNat_add,UInt16.add_comm (UInt16.ofNat n)]
      rfl
    rw [PartialCard.skipBytes,ih]
    dsimp only [CardBus.recvByte]
    rw [hread,hofs]

theorem drainBytes_eq (sd : PartialCard) (s : CardBus) (n : Nat) : sd.drainBytes s n =
    ({ sd with currentBlockOffset := sd.currentBlockOffset + UInt16.ofNat n + 1 },
      { s with read := s.read + n }) := by
  induction n generalizing sd s with
  | zero =>
    have hsame : sd.currentBlockOffset + UInt16.ofNat 0 = sd.currentBlockOffset :=
      UInt16.add_zero _
    rw [hsame]
    rfl
  | succ n ih =>
    have hread : s.read + 1 + n = s.read + (n + 1) := by omega
    have hofs : sd.currentBlockOffset + 1 + UInt16.ofNat n =
        sd.currentBlockOffset + UInt16.ofNat (n + 1) := by
      rw [UInt16.add_assoc,UInt16.ofNat_add,UInt16.add_comm (UInt16.ofNat n)]
      rfl
    rw [PartialCard.drainBytes,ih]
    dsimp only [CardBus.recvByte]
    rw [hread,hofs]

theorem seekBlock_found (h : sd.seekBlock s block startOfs = (true,sd',s')) :
    sd'.currentBlockOffset ≤ startOfs ∧ (sd.readdresses block startOfs = true →
      sd'.currentBlockOffset = 0 ∧ s' = (startBlock sd.toBBSDCard s block).2) := by
  rw [PartialCard.seekBlock] at h
  cases hre : sd.readdresses block startOfs with
  | false =>
    rw [hre,if_neg Bool.false_ne_true] at h
    obtain ⟨-,he⟩ := Prod.mk.inj h
    obtain ⟨rfl,-⟩ := Prod.mk.inj he
    refine ⟨?_,fun ht => absurd ht Bool.false_ne_true⟩
    simp only [PartialCard.readdresses,Bool.or_eq_false_iff,decide_eq_false_iff_not] at hre
    exact UInt16.not_lt.mp hre.2
  | true =>
    rw [hre,if_pos rfl] at h
    obtain ⟨started,t,hstart⟩ : ∃ started t, startBlock sd.toBBSDCard s block = (started,t) :=
      ⟨_,_,rfl⟩
    rw [hstart] at h ⊢
    cases started with
    | false =>
      obtain ⟨hf,-⟩ := Prod.mk.inj h
      exact absurd hf Bool.false_ne_true
    | true =>
      obtain ⟨-,he⟩ := Prod.mk.inj h
      obtain ⟨rfl,rfl⟩ := Prod.mk.inj he
      exact ⟨UInt16.zero_le,fun _ => ⟨rfl,rfl⟩⟩

theorem seekBlock_refused (h : sd.seekBlock s block startOfs = (false,sd',s')) : sd' = sd := by
  rw [PartialCard.seekBlock] at h
  split at h
  · obtain ⟨started,t,hstart⟩ : ∃ started t, startBlock sd.toBBSDCard s block = (started,t) :=
      ⟨_,_,rfl⟩
    rw [hstart] at h
    cases started with
    | false =>
      obtain ⟨-,he⟩ := Prod.mk.inj h
      exact (Prod.mk.inj he).1.symm
    | true =>
      obtain ⟨hf,-⟩ := Prod.mk.inj h
      exact absurd hf.symm Bool.false_ne_true
  · obtain ⟨hf,-⟩ := Prod.mk.inj h
    exact absurd hf.symm Bool.false_ne_true

-- The drain leaves the offset at 514.
theorem finishBlock_begun (h : sd.currentBlockOffset ≠ 0)
    (hle : sd.currentBlockOffset.toNat ≤ 512) :
    (sd.finishBlock s).1.currentBlockOffset ≠ 0 := by
  rw [PartialCard.finishBlock]
  split
  · rw [drainBytes_eq]
    dsimp only
    have hend : sd.currentBlockOffset + UInt16.ofNat (513 - sd.currentBlockOffset.toNat) = 513 := by
      refine UInt16.toNat_inj.mp ?_
      rw [UInt16.toNat_add,UInt16.toNat_ofNat']
      change _ = 513
      omega
    rw [hend]
    decide
  · exact h

theorem readPart_spec (sd : PartialCard) (s : CardBus) (startOfs count : UInt16) (n : Nat) {k : Nat}
    (hk : k = startOfs.toNat - sd.currentBlockOffset.toNat) :
    (sd.readPart s startOfs count n).ok = true ∧
    (sd.readPart s startOfs count n).stored = slice s.bytes (s.read + k) n ∧
    ∃ s', (sd.readPart s startOfs count n).sd = (PartialCard.finishBlock { sd with
      currentBlockOffset := sd.currentBlockOffset + UInt16.ofNat k + count } s').1 := by
  rw [PartialCard.readPart,← hk,skipBytes_eq]
  dsimp only
  rw [recvBuffer_eq]
  exact ⟨rfl,rfl,_,rfl⟩

-- What a successful call that asks for bytes has done.
theorem readData_stored (hok : (bbsdReadData sd s block startOfs count).ok = true)
    (hcount : count ≠ 0) :
    startOfs.toNat + count.toNat ≤ 512 ∧ ∃ sd' s', sd.seekBlock s block startOfs = (true,sd',s') ∧
      (bbsdReadData sd s block startOfs count).stored = slice s'.bytes
        (s'.read + (startOfs.toNat - sd'.currentBlockOffset.toNat)) 512 := by
  revert hok
  rw [bbsdReadData]
  split
  · exact fun h => absurd h Bool.false_ne_true
  · next hargs =>
    simp only [Bool.or_eq_true,decide_eq_true_eq,not_or,Nat.not_lt] at hargs
    obtain ⟨found,sd',s',hseek⟩ : ∃ found sd' s', sd.seekBlock s block startOfs =
        (found,sd',s') := ⟨_,_,_,rfl⟩
    rw [hseek]
    dsimp only
    cases found with
    | false => exact fun h => absurd h Bool.false_ne_true
    | true =>
      intro _
      rw [if_neg (by decide)]
      exact ⟨hargs.2,sd',s',rfl,(readPart_spec sd' s' startOfs count 512 rfl).2.1⟩

-- A call gets through when its part is in the block and the card is where it has to be.
theorem readData_ok (hinit : sd.initialized = true) (hsize : startOfs.toNat + count.toNat ≤ 512)
    (hfound : (sd.seekBlock s block startOfs).1 = true) :
    (bbsdReadData sd s block startOfs count).ok = true := by
  have hargs : ¬ (!sd.initialized || decide (512 < startOfs.toNat + count.toNat)) = true := by
    rw [hinit,decide_eq_false (Nat.not_lt.mpr hsize)]
    decide
  rw [bbsdReadData,if_neg hargs]
  split
  · rfl
  · obtain ⟨found,sd',s',hseek⟩ : ∃ found sd' s', sd.seekBlock s block startOfs =
        (found,sd',s') := ⟨_,_,_,rfl⟩
    rw [hseek] at hfound ⊢
    obtain rfl : found = true := hfound
    dsimp only
    rw [if_neg (by decide)]
    exact (readPart_spec sd' s' startOfs count 512 rfl).1

theorem readData_begun (h : sd.Begun) : (bbsdReadData sd s block startOfs count).sd.Begun := by
  rw [bbsdReadData]
  split
  · exact h
  · next hargs =>
    simp only [Bool.or_eq_true,decide_eq_true_eq,not_or,Nat.not_lt] at hargs
    by_cases hcount : count = 0
    · rw [if_pos hcount]
      exact h
    · rw [if_neg hcount]
      obtain ⟨found,sd',s',hseek⟩ : ∃ found sd' s', sd.seekBlock s block startOfs =
          (found,sd',s') := ⟨_,_,_,rfl⟩
      rw [hseek]
      dsimp only
      cases found with
      | false =>
        rw [seekBlock_refused hseek]
        exact h
      | true =>
        have hofs : sd'.currentBlockOffset.toNat ≤ startOfs.toNat :=
          UInt16.le_iff_toNat_le.mp (seekBlock_found hseek).1
        have hpos : count.toNat ≠ 0 := fun hz => hcount (UInt16.toNat_inj.mp hz)
        obtain ⟨ofs,hend⟩ : ∃ ofs, ofs = sd'.currentBlockOffset +
            UInt16.ofNat (startOfs.toNat - sd'.currentBlockOffset.toNat) + count := ⟨_,rfl⟩
        -- The offset comes to the end of the part that is asked for.
        have hnat : ofs.toNat = startOfs.toNat + count.toNat := by
          rw [hend,UInt16.toNat_add,UInt16.toNat_add,UInt16.toNat_ofNat']
          omega
        have hne : ofs ≠ 0 := by
          rintro rfl
          change 0 = _ at hnat
          omega
        obtain ⟨-,-,t,hsd⟩ := readPart_spec sd' s' startOfs count 512 rfl
        rw [if_neg (by decide),hsd,← hend]
        exact fun _ => finishBlock_begun hne (by dsimp only; omega)

-- The address of a block is its own, unless it is too high for an address in bytes.
theorem blockAsked_own (blocks : Nat → Nat → UInt8) {sd : BBSDCard}
    (h : sd.type = .sdhc ∨ block.toNat < 8388608) :
    blockAsked blocks sd block = slice (blocks block.toNat) 0 512 := by
  have hat : blockAt sd (addressableBlock sd block) = block.toNat := by
    rw [blockAt,addressableBlock]
    by_cases ht : sd.type = .sdhc
    · rw [if_pos ht,if_pos ht]
    · have hlow := h.resolve_left ht
      have hnine : (9 : UInt32).toNat % 32 = 9 := rfl
      rw [if_neg ht,if_neg ht,UInt32.toNat_shiftLeft,hnine,Nat.shiftLeft_eq]
      omega
  rw [blockAsked,hat]

-- Whoever asks for a whole block has the card addressed.
theorem readdresses_whole (block : UInt32) (h : sd.Begun) (hofs : startOfs = 0) :
    sd.readdresses block startOfs = true := by
  rw [PartialCard.readdresses,hofs]
  cases hhave : sd.haveCurrentBlock with
  | false => rfl
  | true =>
    have hbegun : 0 < sd.currentBlockOffset := UInt16.pos_iff_ne_zero.mpr (h hhave)
    rw [decide_eq_true hbegun,Bool.or_true]

end Steps

section Runs

variable {sd : PartialCard} {s : CardBus} {calls : List ReadCall} {o : ReadStep}
  {blocks : Nat → Nat → UInt8}

-- A step of a run is a call in a state where every block that has been started has been read from.
theorem readRun_step (h : sd.Begun) (ho : o ∈ readRun sd s calls) : o.sd.Begun ∧
    o.result = bbsdReadData o.sd o.bus o.call.block o.call.startOfs o.call.count := by
  induction calls generalizing sd s with
  | nil => exact absurd ho List.not_mem_nil
  | cons c cs ih =>
    obtain rfl | ho := List.mem_cons.mp ho
    · exact ⟨h,by dsimp only⟩
    · exact ih (readData_begun h) ho

theorem step_part (h : o.sd.Begun)
    (hr : o.result = bbsdReadData o.sd o.bus o.call.block o.call.startOfs o.call.count)
    (ha : Answers blocks o) (hok : o.result.ok = true) :
    PartRead blocks o ↔ AsksWhole blocks o := by
  rw [PartRead,AsksWhole]
  by_cases hcount : o.call.count = 0
  · refine iff_of_true ?_ (.inl hcount)
    have hnone : o.result.stored = [] := by
      rw [hr,bbsdReadData,if_pos hcount]
      split <;> rfl
    rw [hnone,hcount]
    rfl
  · have hwhole (hlength : o.call.count.toNat = 512) : o.call.startOfs.toNat = 0 ∧
        o.result.stored = blockAsked blocks o.sd.toBBSDCard o.call.block := by
      obtain ⟨hsize,sd',s',hseek,hstored⟩ := readData_stored (hr ▸ hok) hcount
      have hzero : o.call.startOfs.toNat = 0 := by omega
      have hre := readdresses_whole o.call.block h (UInt16.toNat_inj.mp hzero)
      obtain ⟨hofs,hbus⟩ := (seekBlock_found hseek).2 hre
      have hanswer := ha hre hcount hok
      rw [hr,hstored,hofs,hzero,hbus]
      exact ⟨rfl,hanswer⟩
    constructor
    · intro hpart
      obtain ⟨-,sd',s',-,hstored⟩ := readData_stored (hr ▸ hok) hcount
      have hlength : o.call.count.toNat = 512 := by
        rw [hr,hstored] at hpart
        have he := congrArg List.length hpart
        rw [slice_length,slice_length] at he
        exact he.symm
      obtain ⟨hzero,hasked⟩ := hwhole hlength
      rw [hasked,hzero,hlength] at hpart
      exact .inr ⟨UInt16.toNat_inj.mp hlength,hpart⟩
    · rintro (hz | ⟨hcount',hsame⟩)
      · exact absurd hz hcount
      · have hlength : o.call.count.toNat = 512 := congrArg UInt16.toNat hcount'
        obtain ⟨hzero,hasked⟩ := hwhole hlength
        rw [hasked,hzero,hlength]
        exact hsame

end Runs

theorem partial_reads (sd : PartialCard) (s : CardBus) (calls : List ReadCall)
    (blocks : Nat → Nat → UInt8) (hfresh : sd.haveCurrentBlock = false)
    (hcard : ∀ o ∈ readRun sd s calls, Answers blocks o) :
    ∀ o ∈ readRun sd s calls, o.result.ok = true →
      (PartRead blocks o ↔ AsksWhole blocks o) := by
  intro o ho hok
  have hbegun : sd.Begun := fun hhave => absurd (hfresh.symm.trans hhave) Bool.false_ne_true
  obtain ⟨hstep,hr⟩ := readRun_step hbegun ho
  exact step_part hstep hr (hcard o ho) hok

-- A card that is ready, takes the command, and starts a block whose bytes are counted up.
def countingBus : CardBus :=
  ⟨fun i => if i < 3 then [0xff,0x00,BLOCK_START].getD i 0 else UInt8.ofNat (i - 3),0,[],false⟩

def countingBlocks (_ i : Nat) : UInt8 := UInt8.ofNat i

def freshCard : PartialCard := ⟨⟨true,.sdhc⟩,false,0,0,false⟩

theorem counting_answers {o : ReadStep} (h : o ∈ readRun freshCard countingBus [⟨7,100,4⟩]) :
    Answers countingBlocks o := by
  rw [List.mem_singleton.mp h]
  intro _ _ _
  obtain ⟨t,ht⟩ : ∃ t, t = (startBlock freshCard.toBBSDCard countingBus 7).2 := ⟨_,rfl⟩
  have hread : t.read = 3 := by
    rw [ht]
    decide +kernel
  have hbytes : t.bytes = countingBus.bytes := ht ▸ rfl
  change slice (startBlock freshCard.toBBSDCard countingBus 7).2.bytes _ 512 = _
  rw [← ht,hread,hbytes]
  decide +kernel

-- Four bytes from the hundredth on.
def countingStep : ReadStep :=
  ⟨⟨7,100,4⟩,freshCard,countingBus,bbsdReadData freshCard countingBus 7 100 4⟩

theorem counting_run : countingStep ∈ readRun freshCard countingBus [⟨7,100,4⟩] :=
  List.mem_singleton.mpr rfl

theorem counting_ok : (bbsdReadData freshCard countingBus 7 100 4).ok = true :=
  readData_ok rfl (by decide) (by decide +kernel)

theorem countingStep_ok : countingStep.result.ok = true := by
  unfold countingStep
  exact counting_ok

theorem partial_reads_counting :
    PartRead countingBlocks countingStep ↔ AsksWhole countingBlocks countingStep :=
  partial_reads freshCard countingBus [⟨7,100,4⟩] countingBlocks rfl (fun _ => counting_answers)
    countingStep counting_run countingStep_ok

-- The buffer is given 512.
theorem part_overruns :
    (∀ o ∈ readRun freshCard countingBus [⟨7,100,4⟩], Answers countingBlocks o) ∧
    ¬ ∀ o ∈ readRun freshCard countingBus [⟨7,100,4⟩], o.result.ok = true →
      PartRead countingBlocks o := by
  refine ⟨fun _ => counting_answers,fun h => ?_⟩
  obtain ⟨-,sd',s',-,hstored⟩ := readData_stored counting_ok (by decide)
  have hpart := h countingStep counting_run countingStep_ok
  unfold PartRead countingStep at hpart
  have hlength := congrArg List.length (hstored.symm.trans hpart)
  rw [slice_length,slice_length] at hlength
  exact absurd hlength (by decide)

end RoscoM68k
