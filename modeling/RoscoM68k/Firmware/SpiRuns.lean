import Mathlib.Data.BitVec
import RoscoM68k.Firmware.Spi

namespace RoscoM68k
open Function

def sckLevel (p : BitVec 8) : Bool := p.getLsbD SPI_SCK_B

def copiLevel (p : BitVec 8) : Bool := p.getLsbD SPI_COPI_B

-- The level of COPI at each rising edge of SCK.
def risingEdges : BitVec 8 → List (BitVec 8) → List Bool
  | _, [] => []
  | p, q :: qs =>
    if !sckLevel p && sckLevel q then copiLevel q :: risingEdges q qs else risingEdges q qs

-- The edges on the way from one state to a later one.
def Spi.edges (s s' : Spi) : List Bool := risingEdges s.pins (s'.levels.drop s.levels.length)

def msbFirst (v : BitVec 8) : List Bool := (List.range 8).map v.getMsbD

-- The pins that only others change.
def OtherPins (p q : BitVec 8) : Prop :=
  ∀ i, i ≠ SPI_SCK_B → i ≠ SPI_COPI_B → i ≠ RED_LED_B → q.getLsbD i = p.getLsbD i

theorem risingEdges_append (p : BitVec 8) (ls ls' : List (BitVec 8)) :
    risingEdges p (ls ++ ls') = risingEdges p ls ++ risingEdges (ls.getLastD p) ls' := by
  induction ls generalizing p with
  | nil => rfl
  | cons q ls ih =>
    rw [List.cons_append,risingEdges,risingEdges,ih,List.getLastD_cons]
    split <;> rfl

theorem getLastD_append (p : BitVec 8) (ls ls' : List (BitVec 8)) :
    (ls ++ ls').getLastD p = ls'.getLastD (ls.getLastD p) := by
  induction ls generalizing p with
  | nil => rfl
  | cons q ls ih => rw [List.cons_append,List.getLastD_cons,List.getLastD_cons,ih]

-- What a stretch of the code does: `bits` are at its rising edges, it reads the input port `n`
-- times, and of the registers it changes those of `ws`.
structure Transfers (ws : List (Fin 15)) (bits : List Bool) (n : Nat) (s s' : Spi) : Prop where
  levels : ∃ ls, s'.levels = s.levels ++ ls ∧ s'.pins = ls.getLastD s.pins ∧
    risingEdges s.pins ls = bits ∧ ∀ q ∈ ls, OtherPins s.pins q
  input : s'.input = s.input
  reads : s'.reads = s.reads + n
  reg : ∀ r, r ∉ ws → s'.reg r = s.reg r
  stack : s'.stack = s.stack
  pc : s'.pc = s.pc

namespace Transfers

variable {ws ws' : List (Fin 15)} {bits bits' : List Bool} {n n' : Nat} {s s' s'' : Spi}

theorem others (h : Transfers ws bits n s s') : OtherPins s.pins s'.pins := by
  obtain ⟨ls,-,hp,-,ho⟩ := h.levels
  rw [hp]
  cases hl : ls with
  | nil => exact fun _ _ _ _ => rfl
  | cons q qs =>
    rw [← hl,List.getLastD_eq_getLast?,List.getLast?_eq_some_getLast (hl ▸ List.cons_ne_nil q qs)]
    exact ho _ (List.getLast_mem _)

theorem trans (h : Transfers ws bits n s s') (h' : Transfers ws bits' n' s' s'') :
    Transfers ws (bits ++ bits') (n + n') s s'' := by
  obtain ⟨ls,hl,hp,hb,ho⟩ := h.levels
  obtain ⟨ls',hl',hp',hb',ho'⟩ := h'.levels
  have hpins := h.others
  refine ⟨⟨ls ++ ls',?_,?_,?_,?_⟩,h'.input.trans h.input,?_,?_,h'.stack.trans h.stack,
    h'.pc.trans h.pc⟩
  · rw [hl',hl,List.append_assoc]
  · rw [hp',hp,getLastD_append]
  · rw [risingEdges_append,hb,← hp,hb']
  · intro q hq
    rcases List.mem_append.mp hq with hq | hq
    · exact ho q hq
    · exact fun i h1 h2 h3 => (ho' q hq i h1 h2 h3).trans (hpins i h1 h2 h3)
  · rw [h'.reads,h.reads,Nat.add_assoc]
  · exact fun r hr => (h'.reg r hr).trans (h.reg r hr)

theorem mono (h : Transfers ws bits n s s') (hw : ws ⊆ ws') : Transfers ws' bits n s s' :=
  { h with reg := fun r hr => h.reg r (fun hm => hr (hw hm)) }

theorem refl (ws : List (Fin 15)) (s : Spi) : Transfers ws [] 0 s s :=
  ⟨⟨[],(List.append_nil _).symm,rfl,rfl,by simp⟩,rfl,rfl,fun _ _ => rfl,rfl,rfl⟩

theorem edges (h : Transfers ws bits n s s') : s.edges s' = bits := by
  obtain ⟨ls,hl,-,hb,-⟩ := h.levels
  rw [Spi.edges,hl,List.drop_left,hb]

end Transfers

namespace Spi

variable {s : Spi} {r r' : Fin 15} {ws : List (Fin 15)} {p : BitVec 8}

theorem reg_moveL (s : Spi) (r r' : Fin 15) (v : BitVec 32) :
    (s.moveL r v).reg r' = if r' = r then v else s.reg r' := update_apply s.reg r v r'

theorem byte_moveL (s : Spi) (r r' : Fin 15) (v : BitVec 32) :
    (s.moveL r v).byte r' = if r' = r then v.setWidth 8 else s.byte r' := by
  rw [byte,reg_moveL]
  split <;> rfl

theorem reg_moveB_of_ne (s : Spi) (v : BitVec 8) (h : r' ≠ r) :
    (s.moveB r v).reg r' = s.reg r' := (s.reg_moveL r r' _).trans (if_neg h)

theorem byte_moveB (s : Spi) (r r' : Fin 15) (v : BitVec 8) :
    (s.moveB r v).byte r' = if r' = r then v else s.byte r' := by
  rw [moveB,byte_moveL]
  split
  · exact BitVec.setWidth_append_eq_right
  · rfl

@[simp] theorem reg_output (s : Spi) (p : BitVec 8) : (s.output p).reg = s.reg := rfl

@[simp] theorem byte_output (s : Spi) (p : BitVec 8) (r : Fin 15) :
    (s.output p).byte r = s.byte r := rfl

@[simp] theorem pins_output (s : Spi) (p : BitVec 8) : (s.output p).pins = p := rfl

theorem transfers_moveL (v : BitVec 32) (h : r ∈ ws) : Transfers ws [] 0 s (s.moveL r v) :=
  ⟨⟨[],(List.append_nil _).symm,rfl,rfl,by simp⟩,rfl,rfl,
    fun _ hr => update_of_ne (fun he => hr (by rwa [he])) _ _,rfl,rfl⟩

theorem transfers_moveB (v : BitVec 8) (h : r ∈ ws) : Transfers ws [] 0 s (s.moveB r v) :=
  transfers_moveL _ h

theorem transfers_output (ws : List (Fin 15)) (h : OtherPins s.pins p) :
    Transfers ws (risingEdges s.pins [p]) 0 s (s.output p) :=
  ⟨⟨[p],rfl,rfl,rfl,by simpa using h⟩,rfl,rfl,fun _ _ => rfl,rfl,rfl⟩

theorem store_lo (s : Spi) (v : BitVec 8) :
    s.store DUART_OUT_LO v = s.output (s.pins &&& ~~~v) := if_pos rfl

theorem store_hi (s : Spi) (v : BitVec 8) : s.store DUART_OUT_HI v = s.output (s.pins ||| v) := by
  have hne : DUART_OUT_HI ≠ DUART_OUT_LO := by decide
  exact (if_neg hne).trans (if_pos rfl)

theorem load_input (s : Spi) :
    s.load DUART_INPUT = (s.input s.reads,{ s with reads := s.reads + 1 }) := if_pos rfl

theorem reg_store (s : Spi) (a : BitVec 32) (v : BitVec 8) : (s.store a v).reg = s.reg := by
  rw [store]
  split
  · rfl
  · split <;> rfl

theorem reg_load (s : Spi) (a : BitVec 32) : (s.load a).2.reg = s.reg := by
  rw [load]
  split <;> rfl

-- All but the low byte of a register.
def high (s : Spi) (r : Fin 15) : BitVec 24 := (s.reg r).extractLsb' 8 24

theorem high_moveB (s : Spi) (r r' : Fin 15) (v : BitVec 8) :
    (s.moveB r v).high r' = s.high r' := by
  rw [high,moveB,reg_moveL]
  split
  · next h =>
    subst h
    exact BitVec.extractLsb'_append_eq_left
  · rfl

theorem reg_of_high (h : s.high r = 0#24) : s.reg r = (s.byte r).setWidth 32 := by
  refine BitVec.eq_of_getLsbD_eq (fun i hi => ?_)
  have hbit := congrArg (fun x => x.getLsbD (i - 8)) h
  rw [byte,BitVec.getLsbD_setWidth,BitVec.getLsbD_setWidth]
  by_cases hlow : i < 8
  · simp [hlow,hi]
  · have hadd : 8 + (i - 8) = i := by omega
    have hlt : i - 8 < 24 := by omega
    simp only [high,BitVec.getLsbD_extractLsb',hadd,decide_eq_true hlt,Bool.true_and,
      BitVec.getLsbD_zero] at hbit
    simp [hbit,hlow]

theorem load_ram {a : BitVec 32} (h : a ≠ DUART_INPUT) : s.load a = (s.ram a,s) := if_neg h

end Spi

-- The mask of COPI, if the bit is 1.
def copiMask (b : Bool) : BitVec 8 := if b then SPI_COPI else 0#8

section Pins

variable {p : BitVec 8} {b : Bool}

theorem bit_twoPow {k : Nat} (hk : k < 8) (i : Nat) :
    (BitVec.twoPow 8 k).getLsbD i = decide (i = k) := by
  rw [BitVec.getLsbD_twoPow,decide_eq_true hk,Bool.true_and]
  exact decide_eq_decide.mpr eq_comm

theorem sck_bit (i : Nat) : SPI_SCK.getLsbD i = decide (i = SPI_SCK_B) :=
  bit_twoPow (by decide) i

theorem copi_bit (b : Bool) (i : Nat) :
    (copiMask b).getLsbD i = (b && decide (i = SPI_COPI_B)) := by
  cases b with
  | false => simp [copiMask]
  | true => exact bit_twoPow (by decide) i

theorem copi_true : copiMask true = SPI_COPI := rfl

theorem led_bit (i : Nat) : RED_LED.getLsbD i = decide (i = RED_LED_B) :=
  bit_twoPow (by decide) i

theorem low_bit (p m : BitVec 8) (i : Nat) :
    (p &&& ~~~m).getLsbD i = (p.getLsbD i && !m.getLsbD i) := by
  rw [BitVec.getLsbD_and,BitVec.getLsbD_not]
  by_cases hi : i < 8
  · rw [decide_eq_true hi,Bool.true_and]
  · rw [BitVec.getLsbD_of_ge p i (by omega),Bool.false_and,Bool.false_and]

theorem others_low {m : BitVec 8} (h : OtherPins 0#8 m) : OtherPins p (p &&& ~~~m) := by
  intro i h1 h2 h3
  have hm := h i h1 h2 h3
  rw [low_bit,hm]
  simp

theorem others_high {m : BitVec 8} (h : OtherPins 0#8 m) : OtherPins p (p ||| m) := by
  intro i h1 h2 h3
  have hm := h i h1 h2 h3
  simp [hm]

theorem others_sck : OtherPins 0#8 SPI_SCK := by
  intro i h1 _ _
  simp [sck_bit,h1]

theorem others_copi (b : Bool) : OtherPins 0#8 (copiMask b) := by
  intro i _ h2 _
  simp [copi_bit,h2]

theorem others_led : OtherPins 0#8 RED_LED := by
  intro i _ _ h3
  simp [led_bit,h3]

-- The clock low, with COPI too for a 0.
theorem others_both (b : Bool) : OtherPins 0#8 (copiMask b ^^^ (SPI_SCK ||| copiMask true)) := by
  intro i h1 h2 _
  simp [sck_bit,copi_bit,h1,h2]

theorem edges_none {q : BitVec 8} (h : sckLevel q = true → sckLevel p = true) :
    risingEdges p [q] = [] := by
  have hc : (!sckLevel p && sckLevel q) = false := by
    cases hq : sckLevel q with
    | false => exact Bool.and_false _
    | true => rw [h hq,Bool.not_true,Bool.false_and]
  simp [risingEdges,hc]

theorem edges_low (p m : BitVec 8) : risingEdges p [p &&& ~~~m] = [] := by
  refine edges_none (fun h => ?_)
  rw [sckLevel,low_bit] at h
  exact (Bool.and_eq_true_iff.mp h).1

theorem edges_copi (p : BitVec 8) (b : Bool) : risingEdges p [p ||| copiMask b] = [] := by
  refine edges_none (fun h => ?_)
  rw [sckLevel,BitVec.getLsbD_or,copi_bit] at h
  simpa [sckLevel] using h

theorem edges_rise (h : sckLevel p = false) : risingEdges p [p ||| SPI_SCK] = [copiLevel p] := by
  have hs : sckLevel (p ||| SPI_SCK) = true := by
    rw [sckLevel,BitVec.getLsbD_or,sck_bit]
    simp
  have hc : copiLevel (p ||| SPI_SCK) = copiLevel p := by
    rw [copiLevel,BitVec.getLsbD_or,sck_bit]
    simp [copiLevel]
  simp [risingEdges,h,hs,hc]

end Pins

section Sending

variable {R : SendRegs} {s : Spi} {v : BitVec 8}

-- The registers that a bit goes through, and those that stay as they are.
def SendRegs.work (R : SendRegs) : List (Fin 15) := [R.data,R.lo,R.hi]

def SendRegs.masks (R : SendRegs) : List (Fin 15) := [R.sck,R.copi,R.both,R.outLo,R.outHi]

def SendRegs.Distinct (R : SendRegs) : Prop :=
  R.work.Nodup ∧ R.masks.Nodup ∧ ∀ r ∈ R.masks, r ∉ R.work

structure SendMasks (R : SendRegs) (s : Spi) : Prop where
  sck : s.byte R.sck = SPI_SCK
  copi : s.byte R.copi = SPI_COPI
  both : s.byte R.both = SPI_SCK ||| SPI_COPI
  outLo : s.reg R.outLo = DUART_OUT_LO
  outHi : s.reg R.outHi = DUART_OUT_HI

theorem SendMasks.keep {s' : Spi} {ws : List (Fin 15)} (h : SendMasks R s)
    (hr : ∀ r ∉ ws, s'.reg r = s.reg r)
    (hd : ∀ r ∈ R.masks, r ∉ ws) : SendMasks R s' := by
  simp only [SendRegs.masks,List.forall_mem_cons] at hd
  obtain ⟨h1,h2,h3,h4,h5,-⟩ := hd
  refine ⟨?_,?_,?_,(hr _ h4).trans h.outLo,(hr _ h5).trans h.outHi⟩
  · rw [Spi.byte,hr _ h1]
    exact h.sck
  · rw [Spi.byte,hr _ h2]
    exact h.copi
  · rw [Spi.byte,hr _ h3]
    exact h.both

theorem loadSendMasks_spec (hR : R.Distinct) :
    Transfers R.masks [] 0 s (loadSendMasks R s) ∧ SendMasks R (loadSendMasks R s) ∧
      (loadSendMasks R s).ram = s.ram ∧ (loadSendMasks R s).pins = s.pins := by
  have hn := hR.2.1
  simp only [SendRegs.masks,List.nodup_cons,List.mem_cons,not_or] at hn
  obtain ⟨⟨hsc,hsb,hsl,hsh,-⟩,⟨hcb,hcl,hch,-⟩,⟨hbl,hbh,-⟩,⟨hlh,-⟩,-⟩ := hn
  refine ⟨?_,⟨?_,?_,?_,?_,?_⟩,rfl,rfl⟩
  · have hmem : ∀ r ∈ [R.outLo,R.outHi,R.sck,R.copi,R.both], r ∈ R.masks := by
      simp [SendRegs.masks]
    simp only [List.forall_mem_cons] at hmem
    obtain ⟨m1,m2,m3,m4,m5,-⟩ := hmem
    exact ((((Spi.transfers_moveL _ m1).trans (Spi.transfers_moveL _ m2)).trans
      (Spi.transfers_moveL _ m3)).trans (Spi.transfers_moveL _ m4)).trans (Spi.transfers_moveL _ m5)
  · simp [loadSendMasks,Spi.byte_moveL,hsc,hsb]
  · simp [loadSendMasks,Spi.byte_moveL,hcb]
  · simp [loadSendMasks,Spi.byte_moveL]
  · simp [loadSendMasks,Spi.reg_moveL,Ne.symm hbl,Ne.symm hcl,Ne.symm hsl,hlh]
  · simp [loadSendMasks,Spi.reg_moveL,Ne.symm hbh,Ne.symm hch,Ne.symm hsh,DUART_OUT_HI]

theorem nextMasks_spec (hR : R.Distinct) (h : SendMasks R s) (hv : s.byte R.data = v) :
    Transfers R.work [] 0 s (nextMasks R s) ∧ (nextMasks R s).byte R.data = v + v ∧
      (nextMasks R s).byte R.hi = copiMask v.msb ∧
      (nextMasks R s).byte R.lo = copiMask v.msb ^^^ (SPI_SCK ||| SPI_COPI) ∧
      (nextMasks R s).ram = s.ram := by
  obtain ⟨hw,-,hm⟩ := hR
  simp only [SendRegs.masks,List.forall_mem_cons] at hm
  simp only [SendRegs.work,List.mem_cons,not_or] at hm
  simp only [SendRegs.work,List.nodup_cons,List.mem_cons,not_or] at hw
  obtain ⟨-,⟨hcd,-,hch,-⟩,⟨hbd,hbl,hbh,-⟩,-⟩ := hm
  obtain ⟨⟨hdl,hdh,-⟩,⟨hlh,-⟩,-⟩ := hw
  have hhl : R.hi ≠ R.lo := Ne.symm hlh
  obtain ⟨s1,h1⟩ : ∃ t, t = s.moveB R.data (s.byte R.data + s.byte R.data) := ⟨_,rfl⟩
  obtain ⟨s2,h2⟩ : ∃ t, t = s1.moveB R.hi (if v.msb then 0xff#8 else 0#8) := ⟨_,rfl⟩
  obtain ⟨s3,h3⟩ : ∃ t, t = s2.moveB R.hi (s2.byte R.hi &&& s2.byte R.copi) := ⟨_,rfl⟩
  obtain ⟨s4,h4⟩ : ∃ t, t = s3.moveB R.lo (s3.byte R.hi) := ⟨_,rfl⟩
  obtain ⟨s5,h5⟩ : ∃ t, t = s4.moveB R.lo (s4.byte R.lo ^^^ s4.byte R.both) := ⟨_,rfl⟩
  have he : nextMasks R s = s5 := by
    subst h5 h4 h3 h2 h1 hv
    rfl
  have hmask : (if v.msb then 0xff#8 else 0#8) &&& SPI_COPI = copiMask v.msb := by
    cases v.msb <;> rfl
  have h3hi : s3.byte R.hi = copiMask v.msb := by
    rw [← hmask]
    simp [h3,h2,h1,Spi.byte_moveB,hch,hcd,h.copi]
  rw [he]
  refine ⟨?_,?_,?_,?_,?_⟩
  · have t1 : Transfers R.work [] 0 s s1 := h1 ▸ Spi.transfers_moveB _ (by simp [SendRegs.work])
    have t2 : Transfers R.work [] 0 s1 s2 := h2 ▸ Spi.transfers_moveB _ (by simp [SendRegs.work])
    have t3 : Transfers R.work [] 0 s2 s3 := h3 ▸ Spi.transfers_moveB _ (by simp [SendRegs.work])
    have t4 : Transfers R.work [] 0 s3 s4 := h4 ▸ Spi.transfers_moveB _ (by simp [SendRegs.work])
    have t5 : Transfers R.work [] 0 s4 s5 := h5 ▸ Spi.transfers_moveB _ (by simp [SendRegs.work])
    exact (((t1.trans t2).trans t3).trans t4).trans t5
  · simp [h5,h4,h3,h2,h1,Spi.byte_moveB,hdl,hdh,hv]
  · simp [h5,h4,Spi.byte_moveB,hhl,h3hi]
  · simp [h5,h4,h3,h2,h1,Spi.byte_moveB,hbl,hbh,hbd,h.both,← h3hi]
  · subst h5 h4 h3 h2 h1
    rfl

-- One bit: the byte is shifted, and the bit that leaves it is at the one rising edge.
theorem sendBit_spec (hR : R.Distinct) (h : SendMasks R s) (hv : s.byte R.data = v) :
    Transfers R.work [v.msb] 0 s (sendBit R s) ∧ (sendBit R s).byte R.data = v + v ∧
      (sendBit R s).ram = s.ram ∧ sckLevel (sendBit R s).pins = true := by
  obtain ⟨ht,hd,hhi,hlo,hram⟩ := nextMasks_spec hR h hv
  obtain ⟨t,htd⟩ : ∃ t, t = nextMasks R s := ⟨_,rfl⟩
  rw [← htd] at ht hd hhi hlo hram
  have hm : SendMasks R t := h.keep ht.reg hR.2.2
  have hc := copi_bit v.msb
  obtain ⟨p1,hp1⟩ : ∃ p, p = t.pins &&& ~~~(copiMask v.msb ^^^ (SPI_SCK ||| SPI_COPI)) := ⟨_,rfl⟩
  obtain ⟨p2,hp2⟩ : ∃ p, p = p1 ||| copiMask v.msb := ⟨_,rfl⟩
  obtain ⟨p3,hp3⟩ : ∃ p, p = p2 ||| SPI_SCK := ⟨_,rfl⟩
  have he : sendBit R s = ((t.output p1).output p2).output p3 := by
    rw [hp3,hp2,hp1]
    simp only [sendBit,← htd,hm.outLo,hlo,Spi.store_lo,Spi.reg_output,Spi.byte_output,hm.outHi,
      hhi,hm.sck,Spi.store_hi,Spi.pins_output]
  have hs2 : sckLevel p2 = false := by
    simp [hp2,hp1,sckLevel,hc,sck_bit]
  have hb2 : copiLevel p2 = v.msb := by
    rw [hp2,hp1,copiLevel,BitVec.getLsbD_or,low_bit,BitVec.getLsbD_xor,BitVec.getLsbD_or,
      ← copi_true,hc,copi_bit,sck_bit]
    cases v.msb <;> simp
  have t1 := Spi.transfers_output R.work (s := t) (hp1 ▸ others_low (others_both v.msb))
  have t2 := Spi.transfers_output R.work (s := t.output p1) (hp2 ▸ others_high (others_copi v.msb))
  have t3 := Spi.transfers_output R.work (s := (t.output p1).output p2)
    (hp3 ▸ others_high others_sck)
  have hbits1 : risingEdges t.pins [p1] = [] := hp1 ▸ edges_low _ _
  have hbits2 : risingEdges p1 [p2] = [] := hp2 ▸ edges_copi _ _
  have hbits3 : risingEdges p2 [p3] = [v.msb] := by rw [hp3,edges_rise hs2,hb2]
  have hall := ((ht.trans t1).trans t2).trans t3
  simp only [Spi.pins_output,hbits1,hbits2,hbits3] at hall
  rw [he]
  refine ⟨hall,hd,hram,?_⟩
  simp [hp3,sckLevel,sck_bit]

theorem add_self_shl (v : BitVec 8) (n : Nat) : v <<< n + v <<< n = v <<< (n + 1) := by
  refine BitVec.eq_of_toNat_eq ?_
  have hp : v.toNat * 2 ^ (n + 1) = 2 * (v.toNat * 2 ^ n) := by
    rw [Nat.pow_succ]
    ring
  rw [BitVec.toNat_add,BitVec.toNat_shiftLeft,BitVec.toNat_shiftLeft,Nat.shiftLeft_eq,
    Nat.shiftLeft_eq,hp]
  omega

theorem sendBits_spec (hR : R.Distinct) (h : SendMasks R s) (hv : s.byte R.data = v) (n : Nat) :
    Transfers R.work ((List.range n).map v.getMsbD) 0 s ((sendBit R)^[n] s) ∧
      ((sendBit R)^[n] s).byte R.data = v <<< n ∧ ((sendBit R)^[n] s).ram = s.ram ∧
      (0 < n → sckLevel ((sendBit R)^[n] s).pins = true) := by
  induction n with
  | zero => exact ⟨Transfers.refl _ s,by rw [BitVec.shiftLeft_zero]; exact hv,rfl,by simp⟩
  | succ n ih =>
    obtain ⟨ht,hd,hram,-⟩ := ih
    obtain ⟨t,htd⟩ : ∃ t, t = (sendBit R)^[n] s := ⟨_,rfl⟩
    rw [← htd] at ht hd hram
    rw [iterate_succ_apply',← htd]
    obtain ⟨ht',hd',hram',hs⟩ := sendBit_spec hR (h.keep ht.reg hR.2.2) hd
    have hmsb : (v <<< n).msb = v.getMsbD n := by
      rw [BitVec.msb_shiftLeft]
    rw [hmsb] at ht'
    refine ⟨?_,?_,hram'.trans hram,fun _ => hs⟩
    · rw [List.range_succ,List.map_append]
      exact ht.trans ht'
    · rw [hd',add_self_shl]

theorem sendByte_bits (hR : R.Distinct) (h : SendMasks R s) (hv : s.byte R.data = v) :
    Transfers R.work (msbFirst v) 0 s ((sendBit R)^[8] s) ∧ ((sendBit R)^[8] s).ram = s.ram ∧
      sckLevel ((sendBit R)^[8] s).pins = true := by
  obtain ⟨ht,-,hram,hs⟩ := sendBits_spec hR h hv 8
  exact ⟨ht,hram,hs (by decide)⟩

end Sending

section Reading

variable {R : ReadRegs} {s : Spi} {v : BitVec 8} {n : Nat}

def ReadRegs.work (R : ReadRegs) : List (Fin 15) := [R.data,R.temp]

def ReadRegs.masks (R : ReadRegs) : List (Fin 15) := [R.sck,R.cipo,R.input,R.outLo,R.outHi]

def ReadRegs.Distinct (R : ReadRegs) : Prop :=
  R.work.Nodup ∧ R.masks.Nodup ∧ ∀ r ∈ R.masks, r ∉ R.work

structure ReadMasks (R : ReadRegs) (s : Spi) : Prop where
  sck : s.byte R.sck = SPI_SCK
  cipo : (s.reg R.cipo).toNat % 8 = SPI_CIPO_B
  input : s.reg R.input = DUART_INPUT
  outLo : s.reg R.outLo = DUART_OUT_LO
  outHi : s.reg R.outHi = DUART_OUT_HI

theorem ReadMasks.keep {s' : Spi} {ws : List (Fin 15)} (h : ReadMasks R s)
    (hr : ∀ r ∉ ws, s'.reg r = s.reg r) (hd : ∀ r ∈ R.masks, r ∉ ws) : ReadMasks R s' := by
  simp only [ReadRegs.masks,List.forall_mem_cons] at hd
  obtain ⟨h1,h2,h3,h4,h5,-⟩ := hd
  refine ⟨?_,?_,(hr _ h3).trans h.input,(hr _ h4).trans h.outLo,(hr _ h5).trans h.outHi⟩
  · rw [Spi.byte,hr _ h1]
    exact h.sck
  · rw [hr _ h2]
    exact h.cipo

-- The level of CIPO at the reads of the input port from the next on.
def Spi.cipo (s : Spi) (n : Nat) : List Bool :=
  (List.range n).map (fun i => (s.input (s.reads + i)).getLsbD SPI_CIPO_B)

-- A byte takes its next bit from below.
def shiftIn (v : BitVec 8) (b : Bool) : BitVec 8 := v + v - if b then 0xff#8 else 0#8

theorem copi_kept (p : BitVec 8) : copiLevel (p &&& ~~~SPI_SCK ||| SPI_SCK) = copiLevel p := by
  rw [copiLevel,BitVec.getLsbD_or,low_bit,sck_bit]
  simp [copiLevel]

-- One bit comes in, and COPI stays as it is.
theorem readBit_spec (hR : R.Distinct) (h : ReadMasks R s) (hv : s.byte R.data = v) :
    Transfers R.work [copiLevel s.pins] 1 s (readBit R s) ∧
      (readBit R s).byte R.data =
        v - (if (s.input s.reads).getLsbD SPI_CIPO_B then 0xff#8 else 0#8) ∧
      (readBit R s).ram = s.ram ∧ sckLevel (readBit R s).pins = true ∧
      copiLevel (readBit R s).pins = copiLevel s.pins := by
  obtain ⟨hw,-,hm⟩ := hR
  have hdt : R.data ≠ R.temp := by simpa [ReadRegs.work] using hw
  obtain ⟨p1,hp1⟩ : ∃ p, p = s.pins &&& ~~~SPI_SCK := ⟨_,rfl⟩
  obtain ⟨p2,hp2⟩ : ∃ p, p = p1 ||| SPI_SCK := ⟨_,rfl⟩
  obtain ⟨x,hx⟩ : ∃ x, x = if (s.input s.reads).getLsbD SPI_CIPO_B then 0xff#8 else 0#8 := ⟨_,rfl⟩
  obtain ⟨t,ht⟩ : ∃ t, t = { s.output p1 with reads := s.reads + 1 } := ⟨_,rfl⟩
  obtain ⟨t',ht'⟩ : ∃ t', t' = (t.moveB R.temp x).moveB R.data (v - x) := ⟨_,rfl⟩
  have hd : (t.moveB R.temp x).byte R.data = v := by
    rw [Spi.byte_moveB,if_neg hdt,ht]
    exact hv
  have htemp : (t.moveB R.temp x).byte R.temp = x := by
    rw [Spi.byte_moveB,if_pos rfl]
  have t1 : Transfers R.work [] 1 s t := by
    have ho := Spi.transfers_output R.work (s := s) (hp1 ▸ others_low others_sck)
    have hb : risingEdges s.pins [p1] = [] := hp1 ▸ edges_low _ _
    rw [hb] at ho
    exact ht ▸ ⟨ho.levels,rfl,rfl,ho.reg,rfl,rfl⟩
  have t2 : Transfers R.work [] 0 t t' := by
    have m1 : Transfers R.work [] 0 t (t.moveB R.temp x) :=
      Spi.transfers_moveB x (by simp [ReadRegs.work])
    have m2 : Transfers R.work [] 0 (t.moveB R.temp x) ((t.moveB R.temp x).moveB R.data (v - x)) :=
      Spi.transfers_moveB (v - x) (by simp [ReadRegs.work])
    exact ht' ▸ m1.trans m2
  have hreg : ∀ r ∉ R.work, t'.reg r = s.reg r := (t1.trans t2).reg
  have hm' := h.keep hreg hm
  have hpins : t'.pins = p1 := by
    rw [ht',ht]
    rfl
  have he : readBit R s = t'.output p2 := by
    have hlo : s.store (s.reg R.outLo) (s.byte R.sck) = s.output p1 := by
      rw [h.outLo,h.sck,Spi.store_lo,hp1]
    have hin : (s.output p1).load ((s.output p1).reg R.input) = (s.input s.reads,t) := by
      rw [Spi.reg_output,h.input,Spi.load_input,ht]
      rfl
    have hmove : (t.moveB R.temp x).moveB R.data
        ((t.moveB R.temp x).byte R.data - (t.moveB R.temp x).byte R.temp) = t' := by
      rw [hd,htemp,ht']
    have hc : (t.reg R.cipo).toNat % 8 = SPI_CIPO_B := by
      rw [ht]
      exact h.cipo
    have hbit : (if !(s.input s.reads).getLsbD SPI_CIPO_B then 0#8 else 0xff#8) = x := by
      rw [hx]
      cases (s.input s.reads).getLsbD SPI_CIPO_B <;> rfl
    simp only [readBit,hlo,hin,hc,hbit,hmove]
    rw [hm'.outHi,hm'.sck,Spi.store_hi,hpins,hp2]
  have hlow : sckLevel t'.pins = false := by
    rw [hpins,hp1,sckLevel,low_bit,sck_bit]
    simp
  have hsame : copiLevel p1 = copiLevel s.pins := by
    rw [hp1,copiLevel,low_bit,sck_bit]
    simp [copiLevel]
  have t3 := Spi.transfers_output R.work (s := t') (p := p2)
    (by rw [hp2,hpins]; exact others_high others_sck)
  have hrise : risingEdges t'.pins [p2] = [copiLevel s.pins] := by
    rw [hp2,← hpins,edges_rise hlow,hpins,hsame]
  rw [hrise] at t3
  rw [he]
  refine ⟨(t1.trans t2).trans t3,?_,?_,?_,?_⟩
  · rw [Spi.byte_output,ht',Spi.byte_moveB,if_pos rfl,hx]
  · rw [ht',ht]
    rfl
  · simp [hp2,sckLevel,sck_bit]
  · rw [Spi.pins_output,hp2,hp1,copi_kept]

-- The byte is shifted before each bit.
theorem readBits_spec (hR : R.Distinct) (h : ReadMasks R s) (hv : s.byte R.data = v) (n : Nat) :
    Transfers R.work (List.replicate n (copiLevel s.pins)) n s
        ((readBit R ∘ shiftData R)^[n] s) ∧
      ((readBit R ∘ shiftData R)^[n] s).byte R.data = (s.cipo n).foldl shiftIn v ∧
      ((readBit R ∘ shiftData R)^[n] s).ram = s.ram ∧
      (0 < n → sckLevel ((readBit R ∘ shiftData R)^[n] s).pins = true) ∧
      copiLevel ((readBit R ∘ shiftData R)^[n] s).pins = copiLevel s.pins := by
  induction n with
  | zero => exact ⟨Transfers.refl _ s,hv,rfl,by simp,rfl⟩
  | succ n ih =>
    obtain ⟨ht,hd,hram,-,hc⟩ := ih
    obtain ⟨t,htd⟩ : ∃ t, t = (readBit R ∘ shiftData R)^[n] s := ⟨_,rfl⟩
    rw [← htd] at ht hd hram hc
    rw [iterate_succ_apply',← htd,comp_apply]
    obtain ⟨w,hw⟩ : ∃ w, w = (s.cipo n).foldl shiftIn v := ⟨_,rfl⟩
    rw [← hw] at hd
    have hwork : R.data ∈ R.work := by simp [ReadRegs.work]
    have hshift : Transfers R.work [] 0 t (shiftData R t) := Spi.transfers_moveB _ hwork
    have hdata : (shiftData R t).byte R.data = w + w := by
      rw [shiftData,Spi.byte_moveB,if_pos rfl,hd]
    have hkeep := ht.trans hshift
    obtain ⟨ht',hd',hram',hs,hc'⟩ := readBit_spec hR (h.keep hkeep.reg hR.2.2) hdata
    have hpins : (shiftData R t).pins = t.pins := rfl
    rw [hpins,hc] at ht'
    refine ⟨?_,?_,hram'.trans hram,fun _ => hs,hc'.trans hc⟩
    · rw [List.replicate_succ']
      simpa using hkeep.trans ht'
    · rw [hd',Spi.cipo,List.range_succ,List.map_append,List.foldl_append,← Spi.cipo,← hw]
      have hin : (shiftData R t).input = s.input := hkeep.input
      have hreads : (shiftData R t).reads = s.reads + n := hkeep.reads
      rw [hin,hreads]
      rfl

end Reading

end RoscoM68k
