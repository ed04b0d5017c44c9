import RoscoM68k.Base.Slices
import RoscoM68k.Firmware.Bbsd

namespace RoscoM68k

def BLOCK_START : UInt8 := 0xfe
def WRITE_RESPONSE_OK : UInt8 := 5
def BBSD_WRITE_WAIT_RETRIES : Nat := 2500

-- SDHC cards are addressed by block, other cards by byte.
def addressableBlock (sd : BBSDCard) (block : UInt32) : UInt32 :=
  if sd.type = .sdhc then block else block <<< 9

-- The start of a block, the block itself, and a checksum that nobody looks at.
def dataBlock (bs : List UInt8) : List UInt8 := [0xff,BLOCK_START] ++ bs ++ [0xff,0xff]

def CardBus.sendBlock (s : CardBus) (bs : List UInt8) : CardBus :=
  let s := (s.sendByte 0xff).sendByte BLOCK_START
  let s := s.sendBytes bs
  (s.sendByte 0xff).sendByte 0xff

def bbsdWriteBlock (sd : BBSDCard) (s : CardBus) (block : UInt32) (buffer : Nat → UInt8) :
    Bool × CardBus :=
  if !sd.initialized then (false,s)
  else
    let (r,s) := bbsdCommand sd s 24 (addressableBlock sd block)
    if r ≠ 0 then (false,s.deassertCs0)
    else
      let (ready,s) := (s.sendBlock (slice buffer 0 512)).waitForCard BBSD_WRITE_WAIT_RETRIES
      (ready,s.deassertCs0)

-- The card's data response is the first byte after the checksum.
def CardBus.token (s : CardBus) : UInt8 := s.bytes s.read

-- The card leaves the busy state within the bytes that are waited for.
def CardBus.LeavesBusy (s : CardBus) : Prop :=
  ∃ i < BBSD_WRITE_WAIT_RETRIES, s.bytes (s.read + i) = 0xff

-- From `s` to `s'` the card takes the command, gets the data, accepts them and gets ready.
def BlockWritten (sd : BBSDCard) (s : CardBus) (block : UInt32) (buffer : Nat → UInt8)
    (s' : CardBus) : Prop :=
  let r := bbsdCommand sd s 24 (addressableBlock sd block)
  r.1 = 0 ∧ s'.sent = r.2.sent ++ dataBlock (slice buffer 0 512) ∧
    r.2.token &&& 0x1f = WRITE_RESPONSE_OK ∧ r.2.LeavesBusy

-- Success is told of the blocks that are written, and of no others.
structure TruthfulWrite (sd : BBSDCard) (s : CardBus) (block : UInt32) (buffer : Nat → UInt8)
    (r : Bool × CardBus) : Prop where
  ok : r.1 = true ↔ BlockWritten sd s block buffer r.2
  deasserted : r.2.cs0 = false

-- The card takes the command, does not accept the data, and gets ready again.
def DataRefused (sd : BBSDCard) (s : CardBus) (block : UInt32) : Prop :=
  let r := bbsdCommand sd s 24 (addressableBlock sd block)
  r.1 = 0 ∧ r.2.token &&& 0x1f ≠ WRITE_RESPONSE_OK ∧ r.2.LeavesBusy

section Writes

variable {s : CardBus} {sd : BBSDCard}

theorem sendBytes_sent (s : CardBus) (bs : List UInt8) : (s.sendBytes bs).sent = s.sent ++ bs := by
  induction bs generalizing s with
  | nil => exact (List.append_nil _).symm
  | cons b bs ih =>
    have hrest := ih (s.sendByte b)
    have hone : (s.sendByte b).sent = s.sent ++ [b] := rfl
    rw [hone,List.append_assoc] at hrest
    exact hrest

theorem sendBytes_bytes (s : CardBus) (bs : List UInt8) : (s.sendBytes bs).bytes = s.bytes := by
  induction bs generalizing s with
  | nil => rfl
  | cons b bs ih => exact ih (s.sendByte b)

theorem sendBlock_sent (s : CardBus) (bs : List UInt8) :
    (s.sendBlock bs).sent = s.sent ++ dataBlock bs := by
  have hdata := sendBytes_sent ((s.sendByte 0xff).sendByte BLOCK_START) bs
  rw [CardBus.sendBlock,dataBlock]
  dsimp only [CardBus.sendByte] at hdata ⊢
  rw [hdata]
  simp only [List.append_assoc,List.cons_append,List.nil_append]

theorem sendBlock_read (s : CardBus) (bs : List UInt8) : (s.sendBlock bs).read = s.read :=
  sendBytes_read ((s.sendByte 0xff).sendByte BLOCK_START) bs

theorem sendBlock_bytes (s : CardBus) (bs : List UInt8) : (s.sendBlock bs).bytes = s.bytes :=
  sendBytes_bytes ((s.sendByte 0xff).sendByte BLOCK_START) bs

theorem waitForCard_sent (s : CardBus) (n : Nat) : (s.waitForCard n).2.sent = s.sent := by
  induction n generalizing s with
  | zero => rfl
  | succ n ih =>
    rw [CardBus.waitForCard]
    dsimp only
    split
    · rfl
    · exact ih s.recvByte.2

-- Whatever comes before it, one 0xFF is enough.
theorem waitForCard_ready (s : CardBus) (n : Nat) :
    (s.waitForCard n).1 = true ↔ ∃ i < n, s.bytes (s.read + i) = 0xff := by
  induction n generalizing s with
  | zero => exact iff_of_false Bool.false_ne_true fun ⟨i,hi,_⟩ => absurd hi (Nat.not_lt_zero i)
  | succ n ih =>
    rw [CardBus.waitForCard]
    dsimp only [CardBus.recvByte]
    by_cases hnow : s.bytes s.read = 0xff
    · rw [if_pos hnow]
      exact iff_of_true rfl ⟨0,n.succ_pos,hnow⟩
    · rw [if_neg hnow,ih]
      dsimp only
      constructor
      · rintro ⟨i,hi,hb⟩
        refine ⟨i + 1,Nat.succ_lt_succ hi,?_⟩
        rwa [Nat.add_right_comm] at hb
      · rintro ⟨i,hi,hb⟩
        cases i with
        | zero => exact absurd hb hnow
        | succ i =>
          refine ⟨i,Nat.lt_of_succ_lt_succ hi,?_⟩
          rwa [Nat.add_right_comm]

-- Once the card has taken the command, all depends on whether it leaves the busy state.
theorem writeBlock_taken {t : CardBus} {block : UInt32} (buffer : Nat → UInt8)
    (hinit : sd.initialized = true)
    (hcommand : bbsdCommand sd s 24 (addressableBlock sd block) = (0,t)) :
    ((bbsdWriteBlock sd s block buffer).1 = true ↔ t.LeavesBusy) ∧
      (bbsdWriteBlock sd s block buffer).2.sent = t.sent ++ dataBlock (slice buffer 0 512) ∧
      (bbsdWriteBlock sd s block buffer).2.cs0 = false := by
  rw [bbsdWriteBlock,hinit,if_neg (by decide),hcommand]
  generalize slice buffer 0 512 = bs
  dsimp only
  rw [if_neg (by decide)]
  have hready := waitForCard_ready (t.sendBlock bs) BBSD_WRITE_WAIT_RETRIES
  have hsent := waitForCard_sent (t.sendBlock bs) BBSD_WRITE_WAIT_RETRIES
  rw [sendBlock_bytes,sendBlock_read] at hready
  rw [sendBlock_sent] at hsent
  generalize (t.sendBlock bs).waitForCard BBSD_WRITE_WAIT_RETRIES = p at hready hsent ⊢
  exact ⟨hready,hsent,rfl⟩

end Writes

theorem write_truthful (sd : BBSDCard) (s : CardBus) (block : UInt32) (buffer : Nat → UInt8) :
    TruthfulWrite sd s block buffer (bbsdWriteBlock sd s block buffer) ↔
      (sd.initialized = true ∨ s.cs0 = false) ∧ ¬ DataRefused sd s block := by
  cases hinit : sd.initialized with
  | false =>
    have hcommand : (bbsdCommand sd s 24 (addressableBlock sd block)).1 = 0xff := by
      rw [bbsdCommand,hinit]
      rfl
    have hnone : (bbsdCommand sd s 24 (addressableBlock sd block)).1 ≠ 0 := by
      rw [hcommand]
      decide
    rw [bbsdWriteBlock,hinit,if_pos (by decide)]
    constructor
    · intro h
      exact ⟨.inr h.deasserted,fun hr => hnone hr.1⟩
    · rintro ⟨hcs,-⟩
      have hoff : s.cs0 = false := hcs.resolve_left Bool.false_ne_true
      exact ⟨iff_of_false Bool.false_ne_true fun hw => hnone hw.1,hoff⟩
  | true =>
    obtain ⟨r,t,hcommand⟩ : ∃ r t, bbsdCommand sd s 24 (addressableBlock sd block) = (r,t) :=
      ⟨_,_,rfl⟩
    have hrefused : DataRefused sd s block ↔
        r = 0 ∧ t.token &&& 0x1f ≠ WRITE_RESPONSE_OK ∧ t.LeavesBusy := by
      rw [DataRefused,hcommand]
    have hwritten (s' : CardBus) : BlockWritten sd s block buffer s' ↔
        r = 0 ∧ s'.sent = t.sent ++ dataBlock (slice buffer 0 512) ∧
          t.token &&& 0x1f = WRITE_RESPONSE_OK ∧ t.LeavesBusy := by
      rw [BlockWritten,hcommand]
    rw [hrefused]
    by_cases hr : r = 0
    · obtain ⟨hok,hsent,hcs⟩ := writeBlock_taken buffer hinit (hr ▸ hcommand)
      constructor
      · refine fun h => ⟨.inl rfl,fun ⟨_,htoken,hleave⟩ => htoken ?_⟩
        exact ((hwritten _).mp (h.ok.mp (hok.mpr hleave))).2.2.1
      · rintro ⟨-,hnot⟩
        refine ⟨⟨fun htrue => (hwritten _).mpr ?_,fun hw => ?_⟩,hcs⟩
        · have hleave := hok.mp htrue
          have htoken : t.token &&& 0x1f = WRITE_RESPONSE_OK := by
            by_contra hne
            exact hnot ⟨hr,hne,hleave⟩
          exact ⟨hr,hsent,htoken,hleave⟩
        · exact hok.mpr ((hwritten _).mp hw).2.2.2
    · rw [bbsdWriteBlock,hinit,if_neg (by decide),hcommand]
      dsimp only
      rw [if_pos hr]
      refine iff_of_true ⟨?_,rfl⟩ ⟨.inl rfl,fun h => hr h.1⟩
      exact iff_of_false Bool.false_ne_true fun hw => hr ((hwritten _).mp hw).1

-- Ready, the command taken, the data refused for their checksum, and ready again.
def crcErrorBus : CardBus := cardBus [0xff,0x00,0x0b,0xff]

theorem write_untruthful : ¬ TruthfulWrite ⟨true,.sdhc⟩ crcErrorBus 0 (fun _ => 0)
    (bbsdWriteBlock ⟨true,.sdhc⟩ crcErrorBus 0 fun _ => 0) := by
  intro h
  have hcommand : bbsdCommand ⟨true,.sdhc⟩ crcErrorBus 24 0 =
      (0,(bbsdCommand ⟨true,.sdhc⟩ crcErrorBus 24 0).2) := Prod.ext (by decide +kernel) rfl
  have hok : (bbsdWriteBlock ⟨true,.sdhc⟩ crcErrorBus 0 fun _ => 0).1 = true :=
    (writeBlock_taken _ rfl hcommand).1.mpr ⟨1,by decide,by decide +kernel⟩
  obtain ⟨-,-,htoken,-⟩ := h.ok.mp hok
  exact absurd htoken (by decide +kernel)

end RoscoM68k
