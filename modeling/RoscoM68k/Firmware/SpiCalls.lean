import RoscoM68k.Firmware.SpiRuns

namespace RoscoM68k
open Function

section Calls

variable {s t : Spi} {bits : List Bool} {n : Nat} {v : BitVec 32} {r : Fin 15}
variable {is ws : List (Fin 15)}

-- d0, d1, a0 and a1: all others belong to the caller.
def scratch : List (Fin 15) := [0,1,8,9]

theorem movemPush_moveL (h : r ∉ is) :
    (s.moveL r v).movemPush is = (s.movemPush is).moveL r v := by
  have hmap : is.map (s.moveL r v).reg = is.map s.reg :=
    List.map_congr_left (fun i hi => update_of_ne (fun he => h (by rwa [← he])) _ _)
  rw [Spi.movemPush,hmap]
  rfl

-- movem.l gives back what it saved.
theorem movemPop_spec {f : Fin 15 → BitVec 32} {rest : List (BitVec 32)} (hn : is.Nodup)
    (hs : s.stack = is.map f ++ rest) :
    ∃ g, s.movemPop is = { s with reg := g, stack := rest } ∧
      ∀ r, g r = if r ∈ is then f r else s.reg r := by
  induction is generalizing s with
  | nil => exact ⟨s.reg,by rw [Spi.movemPop,← show s.stack = rest from hs]; rfl,by simp⟩
  | cons i is ih =>
    obtain ⟨hi,hn⟩ := List.nodup_cons.mp hn
    obtain ⟨t,ht⟩ : ∃ t, t = { s with
      reg := update s.reg i (s.stack.headD 0)
      stack := s.stack.tail } := ⟨_,rfl⟩
    have hstack : t.stack = is.map f ++ rest := by
      rw [ht]
      change s.stack.tail = _
      rw [hs]
      rfl
    obtain ⟨g,hg,hval⟩ := ih (s := t) hn hstack
    refine ⟨g,?_,?_⟩
    · have he : s.movemPop (i :: is) = t.movemPop is := by
        rw [ht]
        rfl
      rw [he,hg,ht]
    · intro r
      have hreg : t.reg r = if r = i then f i else s.reg r := by
        rw [ht]
        change update s.reg i (s.stack.headD 0) r = _
        rw [hs,update_apply]
        rfl
      rw [hval,hreg]
      by_cases h1 : r = i
      · subst h1
        simp [hi]
      · simp [h1]

-- A call, from the state in which the registers are saved to the one with the arguments off again.
theorem call_spec (s : Spi) (args : List (BitVec 32)) {ret : BitVec 32} (hn : is.Nodup)
    (hd : ∀ r ∈ scratch, r ∉ is) (hw : ws ⊆ scratch ++ is)
    (h : Transfers ws bits n ((s.enter ret args).movemPush is) t) :
    ∃ s', s' = (t.movemPop is).rts.leave args ∧
      Transfers scratch bits n s { s' with pc := s.pc } ∧ s'.pc = ret ∧ s'.ram = t.ram ∧
      s'.pins = t.pins ∧ ∀ r ∈ scratch, s'.reg r = t.reg r := by
  have hstack : t.stack = is.map s.reg ++ (ret :: args ++ s.stack) := h.stack
  obtain ⟨g,hg,hval⟩ := movemPop_spec hn hstack
  refine ⟨_,rfl,?_⟩
  rw [hg]
  refine ⟨⟨h.levels,h.input,h.reads,?_,?_,rfl⟩,rfl,rfl,rfl,?_⟩
  · intro r hr
    change g r = s.reg r
    rw [hval]
    split
    · rfl
    · next hi =>
      refine h.reg r (fun hm => ?_)
      exact (List.mem_append.mp (hw hm)).elim hr hi
  · exact List.drop_left
  · intro r hr
    change g r = t.reg r
    rw [hval,if_neg (hd r hr)]

theorem activity_spec (out : Fin 15) (h : s.reg out = DUART_OUT_LO ∨ s.reg out = DUART_OUT_HI) :
    Transfers [] [] 0 s (activity out s) ∧ (activity out s).ram = s.ram ∧
      sckLevel (activity out s).pins = sckLevel s.pins ∧
      copiLevel (activity out s).pins = copiLevel s.pins := by
  have hload : s.load SDB_SYSFLAGS = (s.ram SDB_SYSFLAGS,s) := Spi.load_ram (by decide)
  have hout (p : BitVec 8) (ho : OtherPins s.pins p) (hs : sckLevel p = sckLevel s.pins)
      (hc : copiLevel p = copiLevel s.pins) :
      Transfers [] [] 0 s (s.output p) ∧ (s.output p).ram = s.ram ∧
        sckLevel (s.output p).pins = sckLevel s.pins ∧
        copiLevel (s.output p).pins = copiLevel s.pins := by
    have ht := Spi.transfers_output [] ho
    rw [edges_none (fun h => by rwa [← hs])] at ht
    exact ⟨ht,rfl,hs,hc⟩
  simp only [activity,hload]
  split
  · rcases h with h | h
    · rw [h,Spi.store_lo]
      refine hout _ (others_low others_led) ?_ ?_
      · rw [sckLevel,low_bit,led_bit]
        simp [sckLevel]
      · rw [copiLevel,low_bit,led_bit]
        simp [copiLevel]
    · rw [h,Spi.store_hi]
      refine hout _ (others_high others_led) ?_ ?_
      · rw [sckLevel,BitVec.getLsbD_or,led_bit]
        simp [sckLevel]
      · rw [copiLevel,BitVec.getLsbD_or,led_bit]
        simp [copiLevel]
  · exact ⟨Transfers.refl _ s,rfl,rfl,rfl⟩

-- What a call with the return address `ret` leaves alone.
structure Called (ret : BitVec 32) (bits : List Bool) (n : Nat) (s s' : Spi) : Prop where
  transfers : Transfers scratch bits n s { s' with pc := s.pc }
  pc : s'.pc = ret

theorem sendByteRegs_distinct : sendByteRegs.Distinct := by
  unfold SendRegs.Distinct
  decide

theorem sendBufferRegs_distinct : sendBufferRegs.Distinct := by
  unfold SendRegs.Distinct
  decide

theorem call_sendByte (fuel : Nat) (ret byte : BitVec 32) (s : Spi) :
    ∃ s', spiCall fuel ret (.sendByte byte) s = some s' ∧
      Called ret (msbFirst (byte.setWidth 8)) 0 s s' ∧ s'.ram = s.ram ∧
      sckLevel s'.pins = true := by
  obtain ⟨e,he⟩ : ∃ e, e = s.enter ret [byte] := ⟨_,rfl⟩
  obtain ⟨t0,h0⟩ : ∃ t, t = (e.movemPush [2,3,4,5]).moveB 0 (byte.setWidth 8) := ⟨_,rfl⟩
  obtain ⟨t1,h1⟩ : ∃ t, t = loadSendMasks sendByteRegs t0 := ⟨_,rfl⟩
  obtain ⟨t2,h2⟩ : ∃ t, t = (sendBit sendByteRegs)^[8] t1 := ⟨_,rfl⟩
  have hpush : (e.moveB 0 (byte.setWidth 8)).movemPush [2,3,4,5] = t0 := by
    rw [h0]
    exact movemPush_moveL (by decide)
  have hdata : t1.byte sendByteRegs.data = byte.setWidth 8 := by
    have ht := (loadSendMasks_spec (s := t0) sendByteRegs_distinct).1
    rw [Spi.byte,h1,ht.reg _ (by decide),h0]
    exact (Spi.byte_moveB _ 0 0 _).trans (if_pos rfl)
  obtain ⟨hl,hm,hlram,-⟩ := loadSendMasks_spec (s := t0) sendByteRegs_distinct
  rw [← h1] at hl hm hlram
  obtain ⟨hs,hram,hsck⟩ := sendByte_bits sendByteRegs_distinct hm hdata
  rw [← h2] at hs hram hsck
  have hmove : Transfers [0] [] 0 (e.movemPush [2,3,4,5]) t0 := h0 ▸ Spi.transfers_moveB _ (by simp)
  have hall : Transfers (scratch ++ [2,3,4,5]) (msbFirst (byte.setWidth 8)) 0
      (e.movemPush [2,3,4,5]) t2 :=
    ((hmove.mono (by decide)).trans (hl.mono (by decide))).trans (hs.mono (by decide))
  have hrun : spiSendByte e = (t2.movemPop [2,3,4,5]).rts := by
    rw [h2,h1,← hpush,he]
    rfl
  obtain ⟨s',hs',hT,hpc,hram',hpins,-⟩ := call_spec s [byte] (by decide) (by decide)
    (List.Subset.refl _) (he ▸ hall)
  refine ⟨s',?_,⟨hT,hpc⟩,?_,?_⟩
  · rw [hs',← hrun,he]
    rfl
  · rw [hram',hram,hlram,h0,he]
    rfl
  · rw [hpins,hsck]

theorem readByteRegs_distinct : readByteRegs.Distinct := by
  unfold ReadRegs.Distinct
  decide

theorem readBufferRegs_distinct : readBufferRegs.Distinct := by
  unfold ReadRegs.Distinct
  decide

-- The byte that the reads of the input port from the k-th on make up.
def cipoByte (input : Nat → BitVec 8) (k : Nat) : BitVec 8 :=
  ((List.range 8).map (fun i => (input (k + i)).getLsbD SPI_CIPO_B)).foldl shiftIn 0#8

-- The first bit needs no shift.
theorem cipoByte_first (input : Nat → BitVec 8) (k : Nat) :
    cipoByte input k =
      ((List.range 7).map (fun i => (input (k + 1 + i)).getLsbD SPI_CIPO_B)).foldl shiftIn
        (0#8 - if (input k).getLsbD SPI_CIPO_B then 0xff#8 else 0#8) := by
  have hlist : (List.range 8).map (fun i => (input (k + i)).getLsbD SPI_CIPO_B) =
      (input k).getLsbD SPI_CIPO_B ::
        (List.range 7).map (fun i => (input (k + 1 + i)).getLsbD SPI_CIPO_B) := by
    rw [List.range_succ_eq_map,List.map_cons,List.map_map,Nat.add_zero]
    refine congrArg _ (List.map_congr_left (fun i _ => ?_))
    have hi : k + (i + 1) = k + 1 + i := by omega
    rw [comp_apply,Nat.succ_eq_add_one,hi]
  rw [cipoByte,hlist,List.foldl_cons,shiftIn,BitVec.add_zero]

-- What an accumulator holds at the start is shifted out.
theorem foldl_shiftIn_sub (v w : BitVec 8) (bs : List Bool) :
    bs.foldl shiftIn v - bs.foldl shiftIn w = (v - w) * 2 ^ bs.length := by
  induction bs generalizing v w with
  | nil => simp
  | cons b bs ih =>
    rw [List.foldl_cons,List.foldl_cons,ih,List.length_cons,shiftIn,shiftIn]
    ring

theorem foldl_cipo (s : Spi) (v : BitVec 8) :
    (s.cipo 8).foldl shiftIn v = cipoByte s.input s.reads := by
  have h := foldl_shiftIn_sub v 0#8 (s.cipo 8)
  have hlen : (s.cipo 8).length = 8 := by simp [Spi.cipo]
  have hpow : (2 : BitVec 8) ^ 8 = 0#8 := by decide
  rw [hlen,hpow,BitVec.mul_zero] at h
  exact BitVec.sub_eq_iff_eq_add.mp h |>.trans (BitVec.zero_add _)

theorem loadReadMasks_spec {R : ReadRegs} (hR : R.Distinct) :
    Transfers R.masks [] 0 s (loadReadMasks R s) ∧ ReadMasks R (loadReadMasks R s) ∧
      (loadReadMasks R s).ram = s.ram ∧ (loadReadMasks R s).pins = s.pins := by
  have hn := hR.2.1
  simp only [ReadRegs.masks,List.nodup_cons,List.mem_cons,not_or] at hn
  obtain ⟨⟨hsc,hsi,hsl,hsh,-⟩,⟨hci,hcl,hch,-⟩,⟨hil,hih,-⟩,⟨hlh,-⟩,-⟩ := hn
  have hlo : DUART_INPUT + OUT_LO_OFFSET = DUART_OUT_LO := by decide
  have hhi : DUART_INPUT + OUT_LO_OFFSET + OUT_HI_OFFSET = DUART_OUT_HI := by decide
  refine ⟨?_,⟨?_,?_,?_,?_,?_⟩,rfl,rfl⟩
  · have hmem : ∀ r ∈ [R.input,R.outLo,R.outHi,R.sck,R.cipo], r ∈ R.masks := by
      simp [ReadRegs.masks]
    simp only [List.forall_mem_cons] at hmem
    obtain ⟨m1,m2,m3,m4,m5,-⟩ := hmem
    exact ((((Spi.transfers_moveL _ m1).trans (Spi.transfers_moveL _ m2)).trans
      (Spi.transfers_moveL _ m3)).trans (Spi.transfers_moveL _ m4)).trans (Spi.transfers_moveL _ m5)
  · simp [loadReadMasks,Spi.byte_moveL,hsc]
  · rw [loadReadMasks,Spi.reg_moveL,if_pos rfl]
    decide
  · simp [loadReadMasks,Spi.reg_moveL,Ne.symm hci,Ne.symm hsi,hil,hih]
  · simp [loadReadMasks,Spi.reg_moveL,Ne.symm hcl,Ne.symm hsl,hlh,hlo]
  · simp [loadReadMasks,Spi.reg_moveL,Ne.symm hch,Ne.symm hsh,hhi]

theorem high_readBit (R : ReadRegs) (s : Spi) (r : Fin 15) : (readBit R s).high r = s.high r := by
  obtain ⟨t,ht⟩ : ∃ t, t = s.store (s.reg R.outLo) (s.byte R.sck) := ⟨_,rfl⟩
  obtain ⟨u,hu⟩ : ∃ u, u = (t.load (t.reg R.input)).2 := ⟨_,rfl⟩
  have hreg : u.reg = s.reg := by
    rw [hu,Spi.reg_load,ht,Spi.reg_store]
  have hh : u.high r = s.high r := by
    rw [Spi.high,hreg]
    rfl
  rw [readBit,← ht]
  simp only [← hu]
  rw [Spi.high,Spi.reg_store]
  exact ((Spi.high_moveB _ _ _ _).trans (Spi.high_moveB _ _ _ _)).trans hh

theorem high_readBits (R : ReadRegs) (s : Spi) (r : Fin 15) (n : Nat) :
    ((readBit R ∘ shiftData R)^[n] s).high r = s.high r := by
  induction n with
  | zero => rfl
  | succ n ih =>
    rw [iterate_succ_apply',comp_apply,high_readBit]
    exact (Spi.high_moveB _ _ _ _).trans ih

theorem call_readByte (fuel : Nat) (ret : BitVec 32) (s : Spi) :
    ∃ s', spiCall fuel ret .readByte s = some s' ∧
      Called ret (List.replicate 8 (copiLevel s.pins)) 8 s s' ∧ s'.ram = s.ram ∧
      sckLevel s'.pins = true ∧ copiLevel s'.pins = copiLevel s.pins ∧
      s'.reg 0 = (cipoByte s.input s.reads).setWidth 32 := by
  obtain ⟨e,he⟩ : ∃ e, e = s.enter ret [] := ⟨_,rfl⟩
  obtain ⟨t0,h0⟩ : ∃ t, t = loadReadMasks readByteRegs (e.movemPush [2,3,10]) := ⟨_,rfl⟩
  obtain ⟨t1,h1⟩ : ∃ t, t = t0.moveL 0 0 := ⟨_,rfl⟩
  obtain ⟨t2,h2⟩ : ∃ t, t = readBit readByteRegs t1 := ⟨_,rfl⟩
  obtain ⟨t3,h3⟩ : ∃ t, t = (readBit readByteRegs ∘ shiftData readByteRegs)^[7] t2 := ⟨_,rfl⟩
  have hR := readByteRegs_distinct
  obtain ⟨hl,hm,hlram,hlpins⟩ := loadReadMasks_spec (s := e.movemPush [2,3,10]) hR
  rw [← h0] at hl hm hlram hlpins
  have hclear : Transfers [0] [] 0 t0 t1 := h1 ▸ Spi.transfers_moveL _ (by simp)
  have hzero : t1.byte readByteRegs.data = 0#8 := by
    rw [h1]
    exact (Spi.byte_moveL _ 0 0 _).trans (if_pos rfl)
  have hm1 := hm.keep hclear.reg (by decide)
  obtain ⟨ht2,hd2,hram2,hs2,hc2⟩ := readBit_spec hR hm1 hzero
  rw [← h2] at ht2 hd2 hram2 hs2 hc2
  obtain ⟨ht3,hd3,hram3,hs3,hc3⟩ := readBits_spec hR (hm1.keep ht2.reg hR.2.2) hd2 7
  rw [← h3] at ht3 hd3 hram3 hs3 hc3
  have hpins : t1.pins = s.pins := by
    rw [h1]
    exact hlpins.trans (by rw [he]; rfl)
  rw [hpins] at ht2 hc2
  rw [hc2] at ht3 hc3
  have hall : Transfers (scratch ++ [2,3,10]) (List.replicate 8 (copiLevel s.pins)) 8
      (e.movemPush [2,3,10]) t3 :=
    (((hl.mono (by decide)).trans (hclear.mono (by decide))).trans (ht2.mono (by decide))).trans
      (ht3.mono (by decide))
  have hrun : spiReadByte e = (t3.movemPop [2,3,10]).rts := by
    rw [h3,h2,h1,h0]
    rfl
  obtain ⟨s',hs',hT,hpc,hram',hpins',hreg⟩ := call_spec s [] (by decide) (by decide)
    (List.Subset.refl _) (he ▸ hall)
  refine ⟨s',?_,⟨hT,hpc⟩,?_,?_,?_,?_⟩
  · rw [hs',← hrun,he]
    rfl
  · rw [hram',hram3,hram2,h1]
    exact hlram.trans (by rw [he]; rfl)
  · rw [hpins',hs3 (by decide)]
  · rw [hpins',hc3]
  · have hhigh : t3.high 0 = 0#24 := by
      have hzero : t1.reg 0 = 0#32 := by
        rw [h1]
        exact (Spi.reg_moveL _ 0 0 _).trans (if_pos rfl)
      rw [h3,high_readBits,h2,high_readBit,Spi.high,hzero]
      rfl
    have hin : t2.input = s.input := by
      rw [ht2.input,hclear.input,hl.input,he]
      rfl
    have hreads : t2.reads = s.reads + 1 := by
      rw [ht2.reads,hclear.reads,hl.reads,he]
      rfl
    have hin1 : t1.input s.reads = s.input s.reads := by
      rw [← hin,← ht2.input]
    have hreads1 : t1.reads = s.reads := by
      have h := ht2.reads
      omega
    have hbyte : t3.byte 0 = cipoByte s.input s.reads := by
      rw [cipoByte_first,← hin1,← hreads1]
      refine hd3.trans ?_
      rw [Spi.cipo,hin,hreads,hreads1]
    rw [hreg 0 (by decide),Spi.reg_of_high hhigh,hbyte]

-- The `n` bytes from `a` on.
def bytesFrom (ram : BitVec 32 → BitVec 8) (a : BitVec 32) (n : Nat) : List (BitVec 8) :=
  (List.range n).map (fun i => ram (a + BitVec.ofNat 32 i))

theorem bytesFrom_succ (ram : BitVec 32 → BitVec 8) (a : BitVec 32) (n : Nat) :
    bytesFrom ram a (n + 1) = bytesFrom ram a n ++ [ram (a + BitVec.ofNat 32 n)] := by
  rw [bytesFrom,List.range_succ,List.map_append]
  rfl

theorem ofNat_succ (n : Nat) : BitVec.ofNat 32 (n + 1) = BitVec.ofNat 32 n + 1 := by
  simp [BitVec.ofNat_add]

-- A buffer off the input port goes out byte by byte.
theorem sendNexts_spec (hm : SendMasks sendBufferRegs s)
    (ha : ∀ i < n, s.reg 8 + BitVec.ofNat 32 i ≠ DUART_INPUT) :
    Transfers [0,8,1,5,6] ((bytesFrom s.ram (s.reg 8) n).flatMap msbFirst) 0 s (sendNext^[n] s) ∧
      (sendNext^[n] s).ram = s.ram ∧
      (sendNext^[n] s).reg 8 = s.reg 8 + BitVec.ofNat 32 n ∧
      (sendNext^[n] s).reg 0 = s.reg 0 - BitVec.ofNat 32 n ∧
      (0 < n → sckLevel (sendNext^[n] s).pins = true) := by
  induction n with
  | zero => exact ⟨Transfers.refl _ s,rfl,by simp,by simp,by simp⟩
  | succ n ih =>
    obtain ⟨ht,hram,h8,h0,-⟩ := ih (fun i hi => ha i (by omega))
    obtain ⟨t,htd⟩ : ∃ t, t = sendNext^[n] s := ⟨_,rfl⟩
    rw [← htd] at ht hram h8 h0
    rw [iterate_succ_apply',← htd]
    have hload : t.load (t.reg 8) = (t.ram (t.reg 8),t) := by
      rw [h8]
      exact Spi.load_ram (ha n n.lt_succ_self)
    obtain ⟨u,hu⟩ : ∃ u, u = (t.moveL 8 (t.reg 8 + 1)).moveB 1 (t.ram (t.reg 8)) := ⟨_,rfl⟩
    obtain ⟨w,hw⟩ : ∃ w, w = (sendBit sendBufferRegs)^[8] u := ⟨_,rfl⟩
    have he : sendNext t = w.moveL 0 (w.reg 0 - 1) := by
      rw [sendNext,hload,hw,hu]
    have htu : Transfers [0,8,1,5,6] [] 0 t u :=
      hu ▸ (Spi.transfers_moveL (t.reg 8 + 1) (by decide)).trans
        (Spi.transfers_moveB (t.ram (t.reg 8)) (by decide))
    have hdata : u.byte sendBufferRegs.data = t.ram (t.reg 8) := by
      rw [hu]
      exact (Spi.byte_moveB _ 1 1 _).trans (if_pos rfl)
    have hmask := hm.keep (ht.trans htu).reg (by decide)
    obtain ⟨huw,hwram,hs⟩ := sendByte_bits sendBufferRegs_distinct hmask hdata
    rw [← hw] at huw hwram hs
    have hlast : Transfers [0,8,1,5,6] [] 0 w (w.moveL 0 (w.reg 0 - 1)) :=
      Spi.transfers_moveL _ (by decide)
    have hall := ((ht.trans htu).trans (huw.mono (by decide))).trans hlast
    have hu8 : w.reg 8 = t.reg 8 + 1 := by
      rw [huw.reg 8 (by decide),hu]
      exact (Spi.reg_moveB_of_ne _ _ (by decide)).trans ((Spi.reg_moveL _ 8 8 _).trans (if_pos rfl))
    have hu0 : w.reg 0 = t.reg 0 := by
      rw [huw.reg 0 (by decide),hu]
      exact (Spi.reg_moveB_of_ne _ _ (by decide)).trans
        ((Spi.reg_moveL _ 8 0 _).trans (if_neg (by decide)))
    rw [he]
    refine ⟨?_,?_,?_,?_,fun _ => hs⟩
    · have hv : t.ram (t.reg 8) = s.ram (s.reg 8 + BitVec.ofNat 32 n) := by rw [hram,h8]
      rw [hv] at hall
      rw [bytesFrom_succ,List.flatMap_append,List.flatMap_singleton]
      simpa using hall
    · exact hwram.trans (by rw [hu]; exact hram)
    · rw [Spi.reg_moveL,if_neg (by decide),hu8,h8,ofNat_succ,BitVec.add_assoc]
    · rw [Spi.reg_moveL,if_pos rfl,hu0,h0,ofNat_succ,sub_add_eq_sub_sub]

theorem Spi.store_ram {a : BitVec 32} (v : BitVec 8) (hlo : a ≠ DUART_OUT_LO)
    (hhi : a ≠ DUART_OUT_HI) : s.store a v = { s with ram := update s.ram a v } :=
  (if_neg hlo).trans (if_neg hhi)

-- One byte after the other, from `a` on.
def storeBytes (ram : BitVec 32 → BitVec 8) (a : BitVec 32) : List (BitVec 8) → BitVec 32 → BitVec 8
  | [] => ram
  | b :: bs => storeBytes (update ram a b) (a + 1) bs

theorem storeBytes_append (ram : BitVec 32 → BitVec 8) (a : BitVec 32) (bs : List (BitVec 8))
    (b : BitVec 8) : storeBytes ram a (bs ++ [b]) =
      update (storeBytes ram a bs) (a + BitVec.ofNat 32 bs.length) b := by
  induction bs generalizing ram a with
  | nil => simp [storeBytes]
  | cons c bs ih =>
    rw [List.cons_append,storeBytes,ih,List.length_cons,ofNat_succ,add_assoc,
      add_comm (1 : BitVec 32)]
    rfl

-- The `n` bytes that come in from the k-th read of the input port on.
def cipoBytes (input : Nat → BitVec 8) (k n : Nat) : List (BitVec 8) :=
  (List.range n).map (fun i => cipoByte input (k + 8 * i))

theorem cipoBytes_succ (input : Nat → BitVec 8) (k n : Nat) :
    cipoBytes input k (n + 1) = cipoBytes input k n ++ [cipoByte input (k + 8 * n)] := by
  rw [cipoBytes,List.range_succ,List.map_append]
  rfl

theorem readNexts_spec (hm : ReadMasks readBufferRegs s)
    (ha : ∀ i < n, s.reg 8 + BitVec.ofNat 32 i ≠ DUART_OUT_LO ∧
      s.reg 8 + BitVec.ofNat 32 i ≠ DUART_OUT_HI) :
    Transfers [0,8,3,4] (List.replicate (8 * n) (copiLevel s.pins)) (8 * n) s (readNext^[n] s) ∧
      (readNext^[n] s).ram = storeBytes s.ram (s.reg 8) (cipoBytes s.input s.reads n) ∧
      (readNext^[n] s).reg 8 = s.reg 8 + BitVec.ofNat 32 n ∧
      (readNext^[n] s).reg 0 = s.reg 0 - BitVec.ofNat 32 n ∧
      (0 < n → sckLevel (readNext^[n] s).pins = true) ∧
      copiLevel (readNext^[n] s).pins = copiLevel s.pins := by
  induction n with
  | zero => exact ⟨Transfers.refl _ s,rfl,by simp,by simp,by simp,rfl⟩
  | succ n ih =>
    obtain ⟨ht,hram,h8,h0,-,hc⟩ := ih (fun i hi => ha i (by omega))
    obtain ⟨t,htd⟩ : ∃ t, t = readNext^[n] s := ⟨_,rfl⟩
    rw [← htd] at ht hram h8 h0 hc
    rw [iterate_succ_apply',← htd]
    obtain ⟨u,hu⟩ : ∃ u, u = (readBit readBufferRegs ∘ shiftData readBufferRegs)^[8] t := ⟨_,rfl⟩
    have hmask := hm.keep ht.reg (by decide)
    obtain ⟨htu,hd,huram,hs,huc⟩ := readBits_spec readBufferRegs_distinct hmask rfl 8
    rw [← hu] at htu hd huram hs huc
    rw [foldl_cipo,ht.input,ht.reads] at hd
    have hu8 : u.reg 8 = s.reg 8 + BitVec.ofNat 32 n := (htu.reg 8 (by decide)).trans h8
    have hu0 : u.reg 0 = t.reg 0 := htu.reg 0 (by decide)
    obtain ⟨hlo,hhi⟩ := ha n n.lt_succ_self
    rw [← hu8] at hlo hhi
    obtain ⟨w,hw⟩ : ∃ w, w = { u with ram := update u.ram (u.reg 8) (u.byte 4) } := ⟨_,rfl⟩
    have he : readNext t = (w.moveL 8 (w.reg 8 + 1)).moveL 0 (w.reg 0 - 1) := by
      rw [readNext,← hu,Spi.store_ram _ hlo hhi,hw]
      rfl
    have huw : Transfers [0,8,3,4] [] 0 u w :=
      hw ▸ ⟨⟨[],(List.append_nil _).symm,rfl,rfl,by simp⟩,rfl,rfl,fun _ _ => rfl,rfl,rfl⟩
    have hlast : Transfers [0,8,3,4] [] 0 w ((w.moveL 8 (w.reg 8 + 1)).moveL 0 (w.reg 0 - 1)) :=
      (Spi.transfers_moveL _ (by decide)).trans (Spi.transfers_moveL _ (by decide))
    have hall := ((ht.trans (htu.mono (by decide))).trans huw).trans hlast
    have hw8 : w.reg 8 = u.reg 8 := by rw [hw]
    have hw0 : w.reg 0 = u.reg 0 := by rw [hw]
    have hwpins : w.pins = u.pins := by rw [hw]
    have hlen : (cipoBytes s.input s.reads n).length = n := by simp [cipoBytes]
    rw [he]
    refine ⟨?_,?_,?_,?_,fun _ => ?_,?_⟩
    · rw [hc] at hall
      have hrep : List.replicate (8 * (n + 1)) (copiLevel s.pins) =
          List.replicate (8 * n) (copiLevel s.pins) ++ List.replicate 8 (copiLevel s.pins) := by
        rw [List.replicate_append_replicate]
        rfl
      rw [hrep,Nat.mul_succ]
      simpa only [List.append_nil,Nat.add_zero] using hall
    · change w.ram = _
      have hb : u.byte 4 = cipoByte s.input (s.reads + 8 * n) := hd
      rw [hw,cipoBytes_succ,storeBytes_append,hlen,← hram,← huram,← hu8,← hb]
    · rw [Spi.reg_moveL,if_neg (by decide),Spi.reg_moveL,if_pos rfl,hw8,hu8,ofNat_succ,add_assoc]
    · rw [Spi.reg_moveL,if_pos rfl,hw0,hu0,h0,ofNat_succ,sub_add_eq_sub_sub]
    · change sckLevel w.pins = true
      rw [hwpins]
      exact hs (by decide)
    · change copiLevel w.pins = _
      rw [hwpins,huc,hc]

-- The loop over a count that is not 0.
theorem count_loop {f : Spi → Spi} {fuel : Nat} (hn : 0 < n) (hlt : n < 2 ^ 32) (hf : n ≤ fuel)
    (hs : s.reg 0 = BitVec.ofNat 32 n)
    (h : ∀ i ≤ n, (f^[i] s).reg 0 = s.reg 0 - BitVec.ofNat 32 i) :
    loop (fun s => s.reg 0 != 0) f fuel (f s) = some (f^[n] s) := by
  obtain ⟨k,rfl⟩ : ∃ k, n = k + 1 := ⟨n - 1,by omega⟩
  rw [iterate_succ_apply]
  refine Loop.exactly (fun i hi => ?_) ?_ (by omega)
  · rw [← iterate_succ_apply,h (i + 1) (by omega),hs]
    refine bne_iff_ne.mpr (sub_ne_zero.mpr (fun he => ?_))
    have heq := congrArg BitVec.toNat he
    rw [BitVec.toNat_ofNat,BitVec.toNat_ofNat,Nat.mod_eq_of_lt hlt,
      Nat.mod_eq_of_lt (by omega)] at heq
    omega
  · rw [← iterate_succ_apply,h (k + 1) le_rfl,hs]
    simp

-- No byte of the buffer is one of the three ports.
def OffPorts (data count : BitVec 32) : Prop :=
  ∀ i < count.toInt.toNat, data + BitVec.ofNat 32 i ≠ DUART_INPUT ∧
    data + BitVec.ofNat 32 i ≠ DUART_OUT_LO ∧ data + BitVec.ofNat 32 i ≠ DUART_OUT_HI

theorem toInt_pos {count : BitVec 32} (h : ¬count.toInt ≤ 0) :
    0 < count.toNat ∧ count.toInt.toNat = count.toNat := by
  have hlt := count.isLt
  rw [BitVec.toInt_eq_toNat_cond] at h ⊢
  split at h <;> split <;> omega

-- What makes a buffer routine work for a buffer at `data`: `Ready` says that the masks are loaded.
structure BufferCode.Sound (B : BufferCode) (Ready : Spi → Prop) (data count : BitVec 32)
    (bits : Spi → List Bool) (n : Nat) (ms ws : List (Fin 15)) : Prop where
  nodup : B.saved.Nodup
  saved : ∀ r ∈ scratch, r ∉ B.saved
  masks : ms ⊆ scratch ++ B.saved ∧ 0 ∉ ms ∧ 8 ∉ ms
  work : ws ⊆ scratch ++ B.saved
  load : ∀ t, Transfers ms [] 0 t (B.load t) ∧ Ready (B.load t) ∧ (B.load t).ram = t.ram ∧
    (B.load t).pins = t.pins
  ports : ∀ t, Ready t → t.reg B.lit = DUART_OUT_LO ∧ t.reg B.dark = DUART_OUT_HI
  keep : ∀ t u : Spi, u.reg = t.reg → Ready t → Ready u
  next : ∀ t : Spi, Ready t → t.reg 8 = data → ∀ i ≤ count.toNat,
    (B.next^[i] t).reg 0 = t.reg 0 - BitVec.ofNat 32 i ∧ Ready (B.next^[i] t)
  run : ∀ t : Spi, Ready t → t.reg 8 = data → Transfers ws (bits t) n t (B.next^[count.toNat] t)

-- From the state `t` before the loop to the state `t'` after it.
theorem buffer_spec {B : BufferCode} {Ready : Spi → Prop} {data count : BitVec 32}
    {bits : Spi → List Bool} {ms : List (Fin 15)} (hB : B.Sound Ready data count bits n ms ws)
    {fuel : Nat} (ret : BitVec 32) (hc : ¬count.toInt ≤ 0) (hf : count.toNat ≤ fuel) (s : Spi) :
    ∃ s' t t', (transferBuffer B fuel (s.enter ret [data,count])).map (·.leave [data,count]) =
        some s' ∧
      Ready t ∧ t.reg 8 = data ∧ t.ram = s.ram ∧ t.input = s.input ∧ t.reads = s.reads ∧
      copiLevel t.pins = copiLevel s.pins ∧ t' = B.next^[count.toNat] t ∧
      Called ret (bits t) n s s' ∧ s'.ram = t'.ram ∧ sckLevel s'.pins = sckLevel t'.pins := by
  obtain ⟨e,he⟩ : ∃ e, e = s.enter ret [data,count] := ⟨_,rfl⟩
  obtain ⟨p0,hp0⟩ : ∃ t, t = e.movemPush B.saved := ⟨_,rfl⟩
  obtain ⟨t0,h0⟩ : ∃ t, t = (p0.moveL 0 count).moveL 8 data := ⟨_,rfl⟩
  obtain ⟨t1,h1⟩ : ∃ t, t = B.load t0 := ⟨_,rfl⟩
  obtain ⟨t2,h2⟩ : ∃ t, t = activity B.lit t1 := ⟨_,rfl⟩
  obtain ⟨t3,h3⟩ : ∃ t, t = B.next^[count.toNat] t2 := ⟨_,rfl⟩
  obtain ⟨t4,h4⟩ : ∃ t, t = activity B.dark t3 := ⟨_,rfl⟩
  have hpush : ((e.moveL 0 count).moveL 8 data).movemPush B.saved = t0 := by
    rw [h0,hp0,movemPush_moveL (hB.saved 8 (by decide)),movemPush_moveL (hB.saved 0 (by decide))]
  obtain ⟨hl,hready,hlram,hlpins⟩ := hB.load t0
  rw [← h1] at hl hready hlram hlpins
  obtain ⟨hgo,hgoram,-,hgocopi⟩ := activity_spec B.lit (.inl (hB.ports _ hready).1)
  rw [← h2] at hgo hgoram hgocopi
  have hready2 : Ready t2 := hB.keep t1 t2 (funext fun r => hgo.reg r (by simp)) hready
  have hreg0 : t2.reg 0 = count := by
    rw [hgo.reg 0 (by simp),hl.reg 0 hB.masks.2.1,h0,Spi.reg_moveL,if_neg (by decide),Spi.reg_moveL,
      if_pos rfl]
  have hreg8 : t2.reg 8 = data := by
    rw [hgo.reg 8 (by simp),hl.reg 8 hB.masks.2.2,h0,Spi.reg_moveL,if_pos rfl]
  have hrounds := hB.next t2 hready2 hreg8
  obtain ⟨hback,hbackram,hbacksck,-⟩ :=
    activity_spec B.dark (.inr (hB.ports t3 (h3 ▸ (hrounds _ le_rfl).2)).2)
  rw [← h4] at hback hbackram hbacksck
  have hloop : loop (fun s => s.reg 0 != 0) B.next fuel (B.next t2) = some t3 := by
    rw [h3]
    refine count_loop (toInt_pos hc).1 count.isLt hf ?_ (fun i hi => (hrounds i hi).1)
    rw [hreg0,BitVec.ofNat_toNat,BitVec.setWidth_eq]
  have hcode : transferBuffer B fuel e = some (t4.movemPop B.saved).rts := by
    have h2arg : e.atSp 2 = count := by rw [he]; rfl
    have h1arg : (e.moveL 0 count).atSp 1 = data := by rw [he]; rfl
    have h0reg : (e.moveL 0 count).reg 0 = count := (Spi.reg_moveL _ 0 0 _).trans (if_pos rfl)
    rw [transferBuffer,h2arg,h0reg]
    refine (if_neg hc).trans ?_
    simp only [h1arg,hpush,← h1,← h2,hloop,Option.map_some,← h4]
  have hmoves : Transfers [0,8] [] 0 p0 t0 :=
    h0 ▸ (Spi.transfers_moveL count (by decide)).trans (Spi.transfers_moveL data (by decide))
  have hbefore : Transfers (scratch ++ B.saved) [] 0 p0 t2 :=
    ((hmoves.mono (List.subset_append_of_subset_left _ (by decide))).trans
      (hl.mono hB.masks.1)).trans (hgo.mono (List.nil_subset _))
  have hram0 : t2.ram = s.ram := by
    rw [hgoram,hlram,h0,hp0,he]
    rfl
  have hcopi0 : copiLevel t2.pins = copiLevel s.pins := by
    rw [hgocopi,hlpins,h0,hp0,he]
    rfl
  have hall : Transfers (scratch ++ B.saved) (bits t2) n p0 t4 := by
    have h := (hbefore.trans ((hB.run t2 hready2 hreg8).mono hB.work)).trans
      ((h3 ▸ hback : Transfers [] [] 0 (B.next^[count.toNat] t2) t4).mono (List.nil_subset _))
    simpa using h
  obtain ⟨s',hs',hT,hpc,hram,hpins,-⟩ := call_spec s [data,count] hB.nodup hB.saved
    (List.Subset.refl _) (he ▸ hp0 ▸ hall)
  refine ⟨s',t2,t3,?_,hready2,hreg8,hram0,?_,?_,hcopi0,h3,⟨hT,hpc⟩,?_,?_⟩
  · rw [← he,hcode,hs']
    rfl
  · rw [hbefore.input,hp0,he]
    rfl
  · rw [hbefore.reads,hp0,he]
    rfl
  · rw [hram,hbackram]
  · rw [hpins,hbacksck]

-- A count that is not positive: the routine returns at once.
theorem buffer_none (B : BufferCode) (fuel : Nat) (ret data : BitVec 32) {count : BitVec 32}
    (hc : count.toInt ≤ 0) (s : Spi) :
    ∃ s', (transferBuffer B fuel (s.enter ret [data,count])).map (·.leave [data,count]) =
        some s' ∧
      Called ret [] 0 s s' ∧ s'.ram = s.ram ∧ s'.pins = s.pins ∧ s'.levels = s.levels := by
  obtain ⟨e,he⟩ : ∃ e, e = s.enter ret [data,count] := ⟨_,rfl⟩
  have hrun : transferBuffer B fuel e = some (e.moveL 0 count).rts := by
    rw [he]
    exact if_pos hc
  refine ⟨((e.moveL 0 count).rts).leave [data,count],by rw [← he,hrun]; rfl,?_⟩
  subst he
  exact ⟨⟨⟨⟨[],(List.append_nil _).symm,rfl,rfl,by simp⟩,rfl,rfl,
    fun _ hr => update_of_ne (fun h => hr (by rw [h]; decide)) _ _,rfl,rfl⟩,rfl⟩,rfl,rfl,rfl⟩

theorem sendBuffer_sound {data count : BitVec 32}
    (ha : ∀ i < count.toNat, data + BitVec.ofNat 32 i ≠ DUART_INPUT) :
    sendBufferCode.Sound (SendMasks sendBufferRegs) data count
      (fun t => (bytesFrom t.ram (t.reg 8) count.toNat).flatMap msbFirst) 0 sendBufferRegs.masks
      [0,8,1,5,6] where
  nodup := by decide
  saved := by decide
  masks := by decide
  work := by decide
  load t := loadSendMasks_spec sendBufferRegs_distinct
  ports t h := ⟨h.outLo,h.outHi⟩
  keep t u hreg h := h.keep (fun r (_ : r ∉ []) => congrFun hreg r) (by simp)
  next t h h8 i hi := by
    obtain ⟨h1,-,-,h4,-⟩ := sendNexts_spec (n := i) h (fun j hj => h8 ▸ ha j (by omega))
    have hm : SendMasks sendBufferRegs (sendNext^[i] t) := h.keep h1.reg (by decide)
    exact ⟨h4,hm⟩
  run t h h8 := (sendNexts_spec h (h8 ▸ ha)).1

theorem call_sendBuffer {fuel : Nat} {data count : BitVec 32} (ret : BitVec 32)
    (hf : count.toInt.toNat ≤ fuel) (ha : OffPorts data count) (s : Spi) :
    ∃ s', spiCall fuel ret (.sendBuffer data count) s = some s' ∧
      Called ret ((bytesFrom s.ram data count.toInt.toNat).flatMap msbFirst) 0 s s' ∧
      s'.ram = s.ram ∧
      (sckLevel s.pins = true ∨ 0 < count.toInt.toNat → sckLevel s'.pins = true) := by
  by_cases hc : count.toInt ≤ 0
  · have hz : count.toInt.toNat = 0 := by omega
    obtain ⟨s',hs',hcall,hram,hpins,-⟩ := buffer_none sendBufferCode fuel ret data hc s
    rw [hz]
    exact ⟨s',hs',hcall,hram,fun h => by rw [hpins,h.resolve_right (by omega)]⟩
  · obtain ⟨hn,hnat⟩ := toInt_pos hc
    rw [OffPorts,hnat] at ha
    rw [hnat] at hf ⊢
    have hport : ∀ i < count.toNat, data + BitVec.ofNat 32 i ≠ DUART_INPUT :=
      fun i hi => (ha i hi).1
    obtain ⟨s',t,t',hs',hm,h8,hram0,-,-,-,ht',hcall,hram,hsck⟩ :=
      buffer_spec (sendBuffer_sound hport) ret hc hf s
    obtain ⟨-,hsram,-,-,hs⟩ := sendNexts_spec hm (h8 ▸ hport)
    have ht : t' = sendNext^[count.toNat] t := ht'
    rw [← ht] at hsram hs
    rw [h8,hram0] at hcall
    exact ⟨s',hs',hcall,by rw [hram,hsram,hram0],fun _ => by rw [hsck,hs hn]⟩

theorem readBuffer_sound {data count : BitVec 32}
    (ha : ∀ i < count.toNat, data + BitVec.ofNat 32 i ≠ DUART_OUT_LO ∧
      data + BitVec.ofNat 32 i ≠ DUART_OUT_HI) :
    readBufferCode.Sound (ReadMasks readBufferRegs) data count
      (fun t => List.replicate (8 * count.toNat) (copiLevel t.pins)) (8 * count.toNat)
      readBufferRegs.masks [0,8,3,4] where
  nodup := by decide
  saved := by decide
  masks := by decide
  work := by decide
  load t := loadReadMasks_spec readBufferRegs_distinct
  ports t h := ⟨h.outLo,h.outHi⟩
  keep t u hreg h := h.keep (fun r (_ : r ∉ []) => congrFun hreg r) (by simp)
  next t h h8 i hi := by
    obtain ⟨h1,-,-,h4,-⟩ := readNexts_spec (n := i) h (fun j hj => h8 ▸ ha j (by omega))
    have hm : ReadMasks readBufferRegs (readNext^[i] t) := h.keep h1.reg (by decide)
    exact ⟨h4,hm⟩
  run t h h8 := (readNexts_spec h (h8 ▸ ha)).1

theorem call_readBuffer {fuel : Nat} {data count : BitVec 32} (ret : BitVec 32)
    (hf : count.toInt.toNat ≤ fuel) (ha : OffPorts data count) (s : Spi) :
    ∃ s', spiCall fuel ret (.readBuffer data count) s = some s' ∧
      Called ret (List.replicate (8 * count.toInt.toNat) (copiLevel s.pins))
        (8 * count.toInt.toNat) s s' ∧
      s'.ram = storeBytes s.ram data (cipoBytes s.input s.reads count.toInt.toNat) ∧
      (sckLevel s.pins = true ∨ 0 < count.toInt.toNat → sckLevel s'.pins = true) := by
  by_cases hc : count.toInt ≤ 0
  · have hz : count.toInt.toNat = 0 := by omega
    obtain ⟨s',hs',hcall,hram,hpins,-⟩ := buffer_none readBufferCode fuel ret data hc s
    rw [hz]
    exact ⟨s',hs',hcall,hram,fun h => by rw [hpins,h.resolve_right (by omega)]⟩
  · obtain ⟨hn,hnat⟩ := toInt_pos hc
    rw [OffPorts,hnat] at ha
    rw [hnat] at hf ⊢
    have hport : ∀ i < count.toNat, data + BitVec.ofNat 32 i ≠ DUART_OUT_LO ∧
        data + BitVec.ofNat 32 i ≠ DUART_OUT_HI := fun i hi => (ha i hi).2
    obtain ⟨s',t,t',hs',hm,h8,hram0,hin,hreads,hcopi,ht',hcall,hram,hsck⟩ :=
      buffer_spec (readBuffer_sound hport) ret hc hf s
    obtain ⟨-,hsram,-,-,hs,-⟩ := readNexts_spec hm (h8 ▸ hport)
    have ht : t' = readNext^[count.toNat] t := ht'
    rw [← ht] at hsram hs
    rw [hcopi] at hcall
    rw [h8,hram0,hin,hreads] at hsram
    exact ⟨s',hs',hcall,by rw [hram,hsram],fun _ => by rw [hsck,hs hn]⟩

-- As many calls of spi_read_byte, with what they return.
def spiReadBytes (fuel : Nat) (ret : BitVec 32) : Nat → Spi → Option (List (BitVec 32) × Spi)
  | 0, s => some ([],s)
  | n + 1, s =>
    (spiCall fuel ret .readByte s).bind fun s =>
      (spiReadBytes fuel ret n s).map fun (vs,t) => (s.reg 0 :: vs,t)

end Calls

section Sequences

variable {fuel : Nat} {ret : BitVec 32} {s s' s'' : Spi} {bits bits' : List Bool} {n n' : Nat}

-- A sequence of calls, which ends where the last of them returns to.
def Between (bits : List Bool) (n : Nat) (s s' : Spi) : Prop :=
  Transfers scratch bits n s { s' with pc := s.pc }

theorem Between.refl (s : Spi) : Between [] 0 s s := Transfers.refl scratch s

theorem Between.trans (h : Between bits n s s') (h' : Between bits' n' s' s'') :
    Between (bits ++ bits') (n + n') s s'' := by
  have h2 : Transfers scratch bits' n' { s' with pc := s.pc } { s'' with pc := s.pc } :=
    ⟨h'.levels,h'.input,h'.reads,h'.reg,h'.stack,rfl⟩
  exact Transfers.trans h h2

theorem sendBytes_between (fuel : Nat) (ret : BitVec 32) (vs : List (BitVec 8)) (s : Spi) :
    ∃ s', spiCalls fuel ret (vs.map fun v => .sendByte (v.setWidth 32)) s = some s' ∧
      Between (vs.flatMap msbFirst) 0 s s' := by
  induction vs generalizing s with
  | nil => exact ⟨s,rfl,Between.refl s⟩
  | cons v vs ih =>
    obtain ⟨s',hs',hcall,-⟩ := call_sendByte fuel ret (v.setWidth 32) s
    obtain ⟨s'',hs'',hrun⟩ := ih s'
    have hv : (v.setWidth 32).setWidth 8 = v := BitVec.setWidth_setWidth_of_le _ (by decide)
    rw [hv] at hcall
    refine ⟨s'',?_,Between.trans hcall.transfers hrun⟩
    rw [List.map_cons,spiCalls,List.foldlM_cons,hs']
    exact hs''

theorem readBytes_spec (fuel : Nat) (ret : BitVec 32) (n : Nat) (s : Spi) :
    ∃ vs s', spiReadBytes fuel ret n s = some (vs,s') ∧
      vs = (cipoBytes s.input s.reads n).map (·.setWidth 32) := by
  induction n generalizing s with
  | zero => exact ⟨[],s,rfl,rfl⟩
  | succ n ih =>
    obtain ⟨s',hs',hcall,-,-,-,hreg⟩ := call_readByte fuel ret s
    obtain ⟨vs,s'',hs'',hvs⟩ := ih s'
    have hin : s'.input = s.input := hcall.transfers.input
    have hreads : s'.reads = s.reads + 8 := hcall.transfers.reads
    refine ⟨s'.reg 0 :: vs,s'',?_,?_⟩
    · rw [spiReadBytes,hs',Option.bind_some,hs'']
      rfl
    · rw [hvs,hreg,hin,hreads,cipoBytes,cipoBytes,List.range_succ_eq_map,List.map_cons,
        List.map_cons,List.map_map]
      refine congrArg _ ?_
      rw [List.map_map,List.map_map]
      refine List.map_congr_left (fun i _ => ?_)
      have hi : s.reads + 8 + 8 * i = s.reads + 8 * (i + 1) := by omega
      exact congrArg (fun k => (cipoByte s.input k).setWidth 32) hi

def SpiCall.bytes : SpiCall → Nat
  | .sendByte _ => 1
  | .sendBuffer _ count => count.toInt.toNat
  | .readByte => 1
  | .readBuffer _ count => count.toInt.toNat

-- The buffers lie off the ports, and the loops may make as many rounds as there are bytes.
def SpiCall.Within (fuel : Nat) : SpiCall → Prop
  | .sendByte _ => True
  | .sendBuffer data count => OffPorts data count ∧ count.toInt.toNat ≤ fuel
  | .readByte => True
  | .readBuffer data count => OffPorts data count ∧ count.toInt.toNat ≤ fuel

theorem call_between {c : SpiCall} (ret : BitVec 32) (hc : c.Within fuel) (s : Spi) :
    ∃ s' bits n, spiCall fuel ret c s = some s' ∧ Between bits n s s' ∧
      (sckLevel s.pins = true ∨ 0 < c.bytes → sckLevel s'.pins = true) := by
  cases c with
  | sendByte byte =>
    obtain ⟨s',hs',hcall,-,hsck⟩ := call_sendByte fuel ret byte s
    exact ⟨s',_,_,hs',hcall.transfers,fun _ => hsck⟩
  | sendBuffer data count =>
    obtain ⟨s',hs',hcall,-,hsck⟩ := call_sendBuffer ret hc.2 hc.1 s
    exact ⟨s',_,_,hs',hcall.transfers,hsck⟩
  | readByte =>
    obtain ⟨s',hs',hcall,-,hsck,-⟩ := call_readByte fuel ret s
    exact ⟨s',_,_,hs',hcall.transfers,fun _ => hsck⟩
  | readBuffer data count =>
    obtain ⟨s',hs',hcall,-,hsck⟩ := call_readBuffer ret hc.2 hc.1 s
    exact ⟨s',_,_,hs',hcall.transfers,hsck⟩

theorem calls_between (ret : BitVec 32) (cs : List SpiCall) (hcs : ∀ c ∈ cs, c.Within fuel)
    (s : Spi) :
    ∃ s' bits n, spiCalls fuel ret cs s = some s' ∧ Between bits n s s' ∧
      (sckLevel s.pins = true ∨ (∃ c ∈ cs, 0 < c.bytes) → sckLevel s'.pins = true) := by
  induction cs generalizing s with
  | nil => exact ⟨s,[],0,rfl,Between.refl s,fun h => h.resolve_right (by simp)⟩
  | cons c cs ih =>
    obtain ⟨s',b,k,hs',hcall,hsck⟩ := call_between ret (hcs c List.mem_cons_self) s
    obtain ⟨s'',b',k',hs'',hrun,hsck'⟩ := ih (fun d hd => hcs d (List.mem_cons_of_mem _ hd)) s'
    refine ⟨s'',b ++ b',k + k',?_,hcall.trans hrun,fun h => hsck' ?_⟩
    · rw [spiCalls,List.foldlM_cons,hs']
      exact hs''
    · rcases h with h | ⟨d,hd,hb⟩
      · exact .inl (hsck (.inl h))
      · rcases List.mem_cons.mp hd with rfl | hd
        · exact .inl (hsck (.inr hb))
        · exact .inr ⟨d,hd,hb⟩

theorem Between.others (h : Between bits n s s') :
    ∀ q ∈ s'.levels.drop s.levels.length, OtherPins s.pins q := by
  obtain ⟨ls,hl,-,-,ho⟩ := h.levels
  have hd : s'.levels = s.levels ++ ls := hl
  rw [hd,List.drop_left]
  exact ho

theorem Between.edges (h : Between bits n s s') : s.edges s' = bits := by
  rw [← Transfers.edges h]
  rfl

theorem spi_transfers (fuel : Nat) (ret : BitVec 32) (s : Spi) :
    (∀ data count, OffPorts data count → count.toInt.toNat ≤ fuel →
      let bytes := bytesFrom s.ram data count.toInt.toNat
      ∃ t u, spiCall fuel ret (.sendBuffer data count) s = some t ∧
        spiCalls fuel ret (bytes.map fun v => .sendByte (v.setWidth 32)) s = some u ∧
        s.edges t = bytes.flatMap msbFirst ∧ s.edges u = s.edges t) ∧
    (∀ data count, OffPorts data count → count.toInt.toNat ≤ fuel →
      ∃ t vs u, spiCall fuel ret (.readBuffer data count) s = some t ∧
        spiReadBytes fuel ret count.toInt.toNat s = some (vs,u) ∧
        t.ram = storeBytes s.ram data (vs.map (·.setWidth 8)) ∧ t.input = s.input ∧
        ∀ v ∈ vs, v.toNat < 256) ∧
    (∀ data count, count.toInt ≤ 0 → ∀ c ∈ [SpiCall.sendBuffer data count,.readBuffer data count],
      ∃ t, spiCall fuel ret c s = some t ∧ t.levels = s.levels ∧ t.reads = s.reads ∧
        t.ram = s.ram) ∧
    ∀ cs, (∀ c ∈ cs, SpiCall.Within fuel c) → ∃ t, spiCalls fuel ret cs s = some t ∧
      (sckLevel s.pins = true ∨ (∃ c ∈ cs, 0 < c.bytes) → sckLevel t.pins = true) ∧
      (∀ q ∈ t.levels.drop s.levels.length, OtherPins s.pins q) ∧
      (∀ r ∉ scratch, t.reg r = s.reg r) ∧ t.stack = s.stack := by
  refine ⟨fun data count ha hf => ?_,fun data count ha hf => ?_,fun data count hc c hm => ?_,
    fun cs hcs => ?_⟩
  · obtain ⟨t,ht,hcall,-⟩ := call_sendBuffer ret hf ha s
    obtain ⟨u,hu,hrun⟩ := sendBytes_between fuel ret (bytesFrom s.ram data count.toInt.toNat) s
    have hedges : s.edges t = (bytesFrom s.ram data count.toInt.toNat).flatMap msbFirst :=
      Between.edges hcall.transfers
    exact ⟨t,u,ht,hu,hedges,hrun.edges.trans hedges.symm⟩
  · obtain ⟨t,ht,hcall,hram,-⟩ := call_readBuffer ret hf ha s
    obtain ⟨vs,u,hu,hvs⟩ := readBytes_spec fuel ret count.toInt.toNat s
    refine ⟨t,vs,u,ht,hu,?_,hcall.transfers.input,?_⟩
    · have hmap : vs.map (·.setWidth 8) = cipoBytes s.input s.reads count.toInt.toNat := by
        rw [hvs,List.map_map]
        exact List.map_id'' (fun v => BitVec.setWidth_setWidth_of_le v (by decide)) _
      rw [hram,hmap]
    · intro v hv
      rw [hvs] at hv
      obtain ⟨w,-,rfl⟩ := List.mem_map.mp hv
      rw [BitVec.toNat_setWidth]
      have := w.isLt
      omega
  · rcases List.mem_pair.mp hm with rfl | rfl
    · obtain ⟨t,ht,hcall,hram,-,hl⟩ := buffer_none sendBufferCode fuel ret data hc s
      exact ⟨t,ht,hl,hcall.transfers.reads,hram⟩
    · obtain ⟨t,ht,hcall,hram,-,hl⟩ := buffer_none readBufferCode fuel ret data hc s
      exact ⟨t,ht,hl,hcall.transfers.reads,hram⟩
  · obtain ⟨t,b,k,ht,hrun,hsck⟩ := calls_between ret cs hcs s
    exact ⟨t,ht,hsck,hrun.others,hrun.reg,hrun.stack⟩

-- Two bytes at 0x1000, with the flag of the activity LED set.
def Spi.sample : Spi where
  reg := fun _ => 0
  stack := []
  pc := 0
  ram := fun a => if a = SDB_SYSFLAGS then 2 else a.setWidth 8 + 0xa5
  pins := 0xff
  levels := []
  input := fun n => BitVec.ofNat 8 (5 * n)
  reads := 0

theorem spi_transfers_sample :
    (∃ t u, spiCall 2 0 (.sendBuffer 0x1000 2) Spi.sample = some t ∧
      spiCalls 2 0 [.sendByte 0xa5,.sendByte 0xa6] Spi.sample = some u ∧
      Spi.sample.edges t = msbFirst 0xa5 ++ msbFirst 0xa6 ∧
      Spi.sample.edges u = Spi.sample.edges t) ∧
    ∃ t, spiCalls 2 0 [.readBuffer 0x1000 2,.sendByte 7] Spi.sample = some t ∧
      sckLevel t.pins = true := by
  have hoff : OffPorts 0x1000 2 := by
    unfold OffPorts
    decide
  obtain ⟨hsend,-,-,hcalls⟩ := spi_transfers 2 0 Spi.sample
  refine ⟨hsend 0x1000 2 hoff (by decide),?_⟩
  obtain ⟨t,ht,hsck,-⟩ := hcalls [.readBuffer 0x1000 2,.sendByte 7] (by
    simp only [List.forall_mem_cons]
    exact ⟨⟨hoff,by decide⟩,trivial,by simp⟩)
  exact ⟨t,ht,hsck (.inl (by decide))⟩

end Sequences

end RoscoM68k
