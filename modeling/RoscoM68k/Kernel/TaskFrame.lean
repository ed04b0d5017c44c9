import RoscoM68k.Kernel.Task

namespace RoscoM68k
open Function

section Registers

variable {m : Mem} {a x : Nat} {r : Fin 15 → BitVec 32}

def storeRegs (m : Mem) (a : Nat) (r : Fin 15 → BitVec 32) (is : List (Fin 15)) : Mem :=
  is.foldl (fun m i => m.writeL (a + 4 * i.val) (r i).toNat) m

theorem storeRegs_outside (is : List (Fin 15)) (h : x < a ∨ a + 60 ≤ x) :
    storeRegs m a r is x = m x := by
  induction is generalizing m with
  | nil => rfl
  | cons i is ih =>
    have := i.isLt
    exact ih.trans (Mem.writeL_of_outside _ _ (by omega))

theorem readL_storeRegs_not_mem {is : List (Fin 15)} {i : Fin 15} (h : i ∉ is) :
    (storeRegs m a r is).readL (a + 4 * i.val) = m.readL (a + 4 * i.val) := by
  induction is generalizing m with
  | nil => rfl
  | cons j is ih =>
    simp only [List.mem_cons,not_or] at h
    have hij : i.val ≠ j.val := fun hc => h.1 (Fin.ext hc)
    exact (ih h.2).trans (Mem.readL_writeL_apart _ _ (by omega))

theorem readL_storeRegs {is : List (Fin 15)} {i : Fin 15} (h : i ∈ is) :
    (storeRegs m a r is).readL (a + 4 * i.val) = (r i).toNat := by
  induction is generalizing m with
  | nil => simp at h
  | cons j is ih =>
    by_cases hi : i ∈ is
    · exact ih hi
    · obtain rfl : i = j := (List.mem_cons.mp h).resolve_right hi
      exact (readL_storeRegs_not_mem hi).trans (Mem.readL_writeL_self_of_lt _ (r i).isLt)

theorem agree_saveRegs (m : Mem) (a : Nat) (r : Fin 15 → BitVec 32) :
    Mem.Agree (Set.Ico a (a + 60))ᶜ m (saveRegs m a r) := by
  intro x hx
  simp only [Set.mem_compl_iff,Set.mem_Ico] at hx
  exact storeRegs_outside _ (by omega)

@[simp] theorem loadRegs_saveRegs (m : Mem) (a : Nat) (r : Fin 15 → BitVec 32) :
    loadRegs (saveRegs m a r) a = r := by
  ext1 i
  have h : (saveRegs m a r).readL (a + 4 * i.val) = (r i).toNat :=
    readL_storeRegs (List.mem_finRange i)
  rw [loadRegs,h,BitVec.ofNat_toNat,BitVec.setWidth_eq]

theorem loadRegs_congr {m' : Mem} {S : Set Nat} (h : Mem.Agree S m m')
    (ha : Set.Ico a (a + 60) ⊆ S) : loadRegs m' a = loadRegs m a := by
  ext1 i
  have := i.isLt
  rw [loadRegs,loadRegs,h.readL (fun x hx => ha ⟨by have := hx.1; omega,by have := hx.2; omega⟩)]

end Registers

-- The two exception frames the installation code provides for. A 68010 and later first pushes a
-- word with the frame's format and the vector's offset.
inductive Cpu where
  | m68000
  | m68010
  deriving DecidableEq

def Cpu.frameSize : Cpu → Nat
  | .m68000 => 6
  | .m68010 => 8

theorem Cpu.frameSize_le (cpu : Cpu) : cpu.frameSize ≤ 8 := by
  cases cpu <;> decide

theorem Cpu.le_frameSize (cpu : Cpu) : 6 ≤ cpu.frameSize := by
  cases cpu <;> decide

namespace Machine

variable {s : Machine} {S : Set Nat}

-- What a push leaves of the memory, and the word it puts on the stack.
theorem agree_pushL (s : Machine) (v : Nat) (h : 4 ≤ s.sp) :
    Mem.Agree (Set.Ico (s.sp - 4) s.sp)ᶜ s.mem (s.pushL v).mem := by
  refine Mem.agree_writeL _ _ (fun x hx => ?_)
  simp only [Set.mem_compl_iff,Set.mem_Ico] at hx
  omega

theorem agree_pushW (s : Machine) (v : Nat) (h : 2 ≤ s.sp) :
    Mem.Agree (Set.Ico (s.sp - 2) s.sp)ᶜ s.mem (s.pushW v).mem := by
  refine Mem.agree_writeW _ _ (fun x hx => ?_)
  simp only [Set.mem_compl_iff,Set.mem_Ico] at hx
  omega

theorem agree_pushRegs (s : Machine) (h : 60 ≤ s.sp) :
    Mem.Agree (Set.Ico (s.sp - 60) s.sp)ᶜ s.mem s.pushRegs.mem := by
  have he : s.sp = s.sp - 60 + 60 := by omega
  have ha := agree_saveRegs s.mem (s.sp - 60) s.reg
  rw [← he] at ha
  exact ha

-- The processor state that `suspend` leaves on the stack of the task it suspends.
structure SuspendFrame (s s' : Machine) : Prop where
  eq : s' = { s with sp := s'.sp, mem := s'.mem }
  sp : s'.sp + 62 = s.sp
  saved : s'.mem.readL (taskStack s.currentTaskVar) = s'.sp
  regs : loadRegs s'.mem s'.sp = s.reg
  sr : s'.mem.readW (s'.sp + 60) = s.sr.toNat
  agree : Mem.Agree (Set.Ico s'.sp s.sp ∪
    Set.Ico (taskStack s.currentTaskVar) (taskStack s.currentTaskVar + 4))ᶜ s.mem s'.mem

theorem suspend_frame (h : 62 ≤ s.sp) (htop : s.sp ≤ addressSpace)
    (hoff : ∀ x, taskStack s.currentTaskVar ≤ x → x < taskStack s.currentTaskVar + 4 →
      x < s.sp - 62 ∨ s.sp ≤ x) : SuspendFrame s s.suspend := by
  obtain ⟨s1,h1⟩ : ∃ s1, s1 = s.pushW s.sr.toNat := ⟨_,rfl⟩
  obtain ⟨s2,h2⟩ : ∃ s2, s2 = s1.pushRegs := ⟨_,rfl⟩
  have hsp1 : s1.sp + 2 = s.sp := by rw [h1]; exact Nat.sub_add_cancel (by omega)
  have hsp2 : s2.sp + 60 = s1.sp := by rw [h2]; exact Nat.sub_add_cancel (by omega)
  have hag1 : Mem.Agree (Set.Ico s1.sp s.sp)ᶜ s.mem s1.mem := by
    rw [h1]
    exact s.agree_pushW _ (by omega)
  have hag2 : Mem.Agree (Set.Ico s2.sp s1.sp)ᶜ s1.mem s2.mem := by
    rw [h2]
    exact s1.agree_pushRegs (by omega)
  have hcur : s2.currentTaskVar = s.currentTaskVar := by rw [h2,h1]; rfl
  have hreg : s1.reg = s.reg := by rw [h1]; rfl
  have hs : s.suspend = { s2 with mem := s2.mem.writeL (taskStack s.currentTaskVar) s2.sp } := by
    rw [suspend,← h1,← h2,hcur]
  have hmem : s.suspend.mem = s2.mem.writeL (taskStack s.currentTaskVar) s2.sp := by rw [hs]
  have hsp : s.suspend.sp = s2.sp := by rw [hs]
  have hcell : Mem.Agree (Set.Ico (taskStack s.currentTaskVar) (taskStack s.currentTaskVar + 4))ᶜ
      s2.mem s.suspend.mem := by
    rw [hmem]
    refine Mem.agree_writeL _ _ (fun x hx => ?_)
    simp only [Set.mem_compl_iff,Set.mem_Ico] at hx
    omega
  have hkeep : ∀ a b, s.sp - 62 ≤ a → b ≤ s.sp → Set.Ico a b ⊆
      (Set.Ico (taskStack s.currentTaskVar) (taskStack s.currentTaskVar + 4))ᶜ := by
    intro a b ha hb x hx hx'
    have := hoff x hx'.1 hx'.2
    have h1 := hx.1
    have h2 := hx.2
    omega
  refine ⟨?_,by omega,?_,?_,?_,?_⟩
  · rw [hs,h2,h1]
    rfl
  · rw [hmem,hsp]
    exact Mem.readL_writeL_self_of_lt _ (by simp only [addressSpace] at htop; omega)
  · rw [hsp,loadRegs_congr hcell (hkeep _ _ (by omega) (by omega)),h2,← hreg]
    exact loadRegs_saveRegs _ _ _
  · rw [hsp,hcell.readW (hkeep _ _ (by omega) (by omega)),hag2.readW (fun x hx hx' => by
      have h1 := hx.1
      have h2 := hx'.2
      omega)]
    have he : s2.sp + 60 = s.sp - 2 := by omega
    rw [he,h1]
    exact (Mem.readW_writeW_self _ _ _).trans (Nat.mod_eq_of_lt s.sr.isLt)
  · rw [hsp]
    refine (hag1.mono ?_).trans ((hag2.mono ?_).trans (hcell.mono ?_))
    · intro x hx hx'
      have h1 := hx'.1
      have h2 := hx'.2
      exact hx (.inl ⟨by omega,by omega⟩)
    · intro x hx hx'
      have h1 := hx'.1
      have h2 := hx'.2
      exact hx (.inl ⟨by omega,by omega⟩)
    · exact fun x hx hx' => hx (.inr hx')

def formatWord (s : Machine) (cpu : Cpu) (offset : Nat) : Machine :=
  match cpu with
  | .m68000 => s
  | .m68010 => s.pushW offset

def exception (s : Machine) (cpu : Cpu) (offset : Nat) (level : BitVec 3) : Machine :=
  let s' := s.formatWord cpu offset
  let s' := s'.pushL s'.pc
  let s' := s'.pushW s'.sr.toNat
  { s' with sr := s.sr &&& 0x78FF#16 ||| 0x2000#16 ||| level.setWidth 16 <<< 8 }

-- The interrupted state that the exception and the first instruction of tick_handler put on the
-- stack.
structure TickFrame (s : Machine) (m : Mem) (sp : Nat) : Prop where
  depth : sp + 68 = s.sp
  regs : loadRegs m sp = s.reg
  sr : m.readW (sp + 60) = s.sr.toNat
  pc : m.readL (sp + 62) = s.pc

theorem TickFrame.agree {m m' : Mem} {sp : Nat} (h : TickFrame s m sp)
    (ha : Mem.Agree (Set.Ico sp s.sp) m m') : TickFrame s m' sp := by
  have hsp := h.depth
  have hsub : ∀ a b, sp ≤ a → b ≤ s.sp → Set.Ico a b ⊆ Set.Ico sp s.sp :=
    fun a b h1 h2 => Set.Ico_subset_Ico h1 h2
  refine ⟨hsp,?_,?_,?_⟩
  · rw [loadRegs_congr ha (hsub _ _ (by omega) (by omega))]
    exact h.regs
  · rw [ha.readW (hsub _ _ (by omega) (by omega))]
    exact h.sr
  · rw [ha.readL (hsub _ _ (by omega) (by omega))]
    exact h.pc

-- What an exception and the saving of the registers after it put on the stack, below the stack
-- pointer of the interrupted code, with a frame of `k` bytes.
structure EntryFrame (k : Nat) (s : Machine) (m : Mem) (sp : Nat) : Prop where
  depth : sp + 60 + k = s.sp
  regs : loadRegs m sp = s.reg
  sr : m.readW (sp + 60) = s.sr.toNat
  pc : m.readL (sp + 62) = s.pc

theorem EntryFrame.agree {k : Nat} {m m' : Mem} {sp : Nat} (h : EntryFrame k s m sp) (hk : 6 ≤ k)
    (ha : Mem.Agree (Set.Ico sp s.sp) m m') : EntryFrame k s m' sp := by
  have hsp := h.depth
  have hsub : ∀ a b, sp ≤ a → b ≤ s.sp → Set.Ico a b ⊆ Set.Ico sp s.sp :=
    fun a b h1 h2 => Set.Ico_subset_Ico h1 h2
  refine ⟨hsp,?_,?_,?_⟩
  · rw [loadRegs_congr ha (hsub _ _ (by omega) (by omega))]
    exact h.regs
  · rw [ha.readW (hsub _ _ (by omega) (by omega))]
    exact h.sr
  · rw [ha.readL (hsub _ _ (by omega) (by omega))]
    exact h.pc

theorem exception_frame (cpu : Cpu) (offset : Nat) (level : BitVec 3) (h : 68 ≤ s.sp)
    (hpc : s.pc < addressSpace) :
    (s.exception cpu offset level).pushRegs.sp + 60 + cpu.frameSize = s.sp ∧
      EntryFrame cpu.frameSize s (s.exception cpu offset level).pushRegs.mem
        (s.exception cpu offset level).pushRegs.sp ∧
      Mem.Agree (Set.Ico (s.sp - 60 - cpu.frameSize) s.sp)ᶜ s.mem
        (s.exception cpu offset level).pushRegs.mem := by
  obtain ⟨s1,h1⟩ : ∃ s1, s1 = s.formatWord cpu offset := ⟨_,rfl⟩
  obtain ⟨s2,h2⟩ : ∃ s2, s2 = s1.pushL s1.pc := ⟨_,rfl⟩
  obtain ⟨s3,h3⟩ : ∃ s3, s3 = s2.pushW s2.sr.toNat := ⟨_,rfl⟩
  obtain ⟨s4,h4⟩ : ∃ s4, s4 = (s.exception cpu offset level).pushRegs := ⟨_,rfl⟩
  have hk : s1.sp + cpu.frameSize = s.sp + 6 ∧ s1.pc = s.pc ∧ s1.sr = s.sr ∧ s1.reg = s.reg ∧
      Mem.Agree (Set.Ico s1.sp s.sp)ᶜ s.mem s1.mem := by
    rw [h1]
    cases cpu with
    | m68000 => exact ⟨rfl,rfl,rfl,rfl,Mem.Agree.refl _ _⟩
    | m68010 =>
      refine ⟨?_,rfl,rfl,rfl,s.agree_pushW _ (by omega)⟩
      change s.sp - 2 + 8 = s.sp + 6
      omega
  obtain ⟨hsp1,hpc1,hsr1,hreg1,hag1⟩ := hk
  have hle := cpu.frameSize_le
  have hge := cpu.le_frameSize
  have hsp2 : s2.sp + 4 = s1.sp := by rw [h2]; exact Nat.sub_add_cancel (by omega)
  have hsp3 : s3.sp + 2 = s2.sp := by rw [h3]; exact Nat.sub_add_cancel (by omega)
  have hx : (s.exception cpu offset level).mem = s3.mem ∧
      (s.exception cpu offset level).sp = s3.sp ∧ (s.exception cpu offset level).reg = s.reg := by
    rw [exception,← h1,← h2,← h3]
    refine ⟨rfl,rfl,?_⟩
    rw [h3,h2]
    exact hreg1
  obtain ⟨him,his,hir⟩ := hx
  have hsp4 : s4.sp = s3.sp - 60 := by
    rw [← his,h4]
    rfl
  have hag2 : Mem.Agree (Set.Ico s2.sp s1.sp)ᶜ s1.mem s2.mem := by
    rw [h2]
    exact s1.agree_pushL _ (by omega)
  have hag3 : Mem.Agree (Set.Ico s3.sp s2.sp)ᶜ s2.mem s3.mem := by
    rw [h3]
    exact s2.agree_pushW _ (by omega)
  have hag4 : Mem.Agree (Set.Ico s4.sp s3.sp)ᶜ s3.mem s4.mem := by
    have := (s.exception cpu offset level).agree_pushRegs (by omega)
    rw [him,his,← h4] at this
    rw [hsp4]
    exact this
  have hoff : ∀ a b c d : Nat, b ≤ c → Set.Ico c d ⊆ (Set.Ico a b)ᶜ := by
    intro a b c d hbc x hx hx'
    have h1 := hx.1
    have h2 := hx'.2
    omega
  have hin : ∀ a b : Nat, s.sp - 60 - cpu.frameSize ≤ a → b ≤ s.sp →
      (Set.Ico (s.sp - 60 - cpu.frameSize) s.sp)ᶜ ⊆ (Set.Ico a b)ᶜ := by
    intro a b ha hb
    exact Set.compl_subset_compl.mpr (Set.Ico_subset_Ico ha hb)
  rw [← h4]
  refine ⟨by omega,⟨by omega,?_,?_,?_⟩,?_⟩
  · rw [← hir,h4]
    exact loadRegs_saveRegs _ _ _
  · rw [hag4.readW (hoff _ _ _ _ (by omega)),h3]
    have he : s4.sp + 60 = s2.sp - 2 := by omega
    have hsr2 : s2.sr = s.sr := by
      rw [h2]
      exact hsr1
    rw [he,hsr2]
    exact (Mem.readW_writeW_self _ _ _).trans (Nat.mod_eq_of_lt s.sr.isLt)
  · rw [hag4.readL (hoff _ _ _ _ (by omega)),hag3.readL (hoff _ _ _ _ (by omega)),h2]
    have he : s4.sp + 62 = s1.sp - 4 := by omega
    rw [he,hpc1]
    exact Mem.readL_writeL_self_of_lt _ hpc
  · exact (hag1.mono (hin _ _ (by omega) (by omega))).trans
      ((hag2.mono (hin _ _ (by omega) (by omega))).trans
        ((hag3.mono (hin _ _ (by omega) (by omega))).trans
          (hag4.mono (hin _ _ (by omega) (by omega)))))

theorem tickHandler_frame (level : BitVec 3) (h : 68 ≤ s.sp) (hpc : s.pc < addressSpace) :
    (tickHandler level s).sp + 68 = s.sp ∧
      TickFrame s (tickHandler level s).mem (tickHandler level s).sp ∧
      Mem.Agree (Set.Ico (s.sp - 68) s.sp)ᶜ s.mem (tickHandler level s).mem := by
  obtain ⟨hsp,hf,hag⟩ := exception_frame .m68010 0x114 level h hpc
  exact ⟨hsp,⟨hf.depth,hf.regs,hf.sr,hf.pc⟩,hag⟩

end Machine
end RoscoM68k
