import RoscoM68k.Kernel.TaskFrame

namespace RoscoM68k
open Function

def Symbols.rtes (K : Symbols) : List Nat := [K.tickRte,K.taskRte,K.idleRte]

def Symbols.rtss (K : Symbols) : List Nat := [K.enableReturn,K.signalReturn]

-- A code address outside of the scheduler.
structure Image.Own (K : Image) (pc : Nat) : Prop where
  top : pc < addressSpace
  off : pc ∉ K.panicIdleDone :: K.resumePoints ++ K.interruptible

section Resume

variable {K : Image} {s : Machine}

theorem Image.code_distinct (K : Image) {i j : Nat} {a b : Nat}
    (ha : (K.panicIdleDone :: K.resumePoints ++ K.interruptible)[i]? = some a)
    (hb : (K.panicIdleDone :: K.resumePoints ++ K.interruptible)[j]? = some b) (h : i ≠ j) :
    a ≠ b := by
  rintro rfl
  obtain ⟨hi,he⟩ := List.getElem?_eq_some_iff.mp ha
  obtain ⟨hj,he'⟩ := List.getElem?_eq_some_iff.mp hb
  exact h ((K.code_nodup.getElem_inj_iff).mp (he.trans he'.symm))

theorem resume_tick (h : s.pc = K.tickHandlerDone) :
    resume K s = { s.popRegs.enableInterrupts with pc := K.tickRte } := by
  rw [resume,if_pos h]

theorem resume_wait (h : s.pc = K.waitReenable) :
    resume K s = { s.enableInterrupts with pc := K.enableReturn } := by
  have h1 : K.waitReenable ≠ K.tickHandlerDone :=
    K.code_distinct (i := 2) (j := 1) rfl rfl (by decide)
  rw [resume,h,if_neg h1,if_pos rfl]

theorem resume_task (h : s.pc = K.taskTrampoline) :
    resume K s = { s.enableInterrupts with pc := K.taskRte } := by
  have h1 : K.taskTrampoline ≠ K.tickHandlerDone :=
    K.code_distinct (i := 4) (j := 1) rfl rfl (by decide)
  have h2 : K.taskTrampoline ≠ K.waitReenable :=
    K.code_distinct (i := 4) (j := 2) rfl rfl (by decide)
  rw [resume,h,if_neg h1,if_neg h2,if_pos rfl]

theorem resume_idle (h : s.pc = K.idleTrampoline) :
    resume K s = { s.enableInterrupts with pc := K.idleRte } := by
  have h1 : K.idleTrampoline ≠ K.tickHandlerDone :=
    K.code_distinct (i := 5) (j := 1) rfl rfl (by decide)
  have h2 : K.idleTrampoline ≠ K.waitReenable :=
    K.code_distinct (i := 5) (j := 2) rfl rfl (by decide)
  have h3 : K.idleTrampoline ≠ K.taskTrampoline :=
    K.code_distinct (i := 5) (j := 4) rfl rfl (by decide)
  rw [resume,h,if_neg h1,if_neg h2,if_neg h3,if_pos rfl]

end Resume

-- The few instructions that may be left of a switch or of a service lead back into the code of
-- the task, where the status register is as `ok` demands.
inductive Sound (K : Image) (top : Nat) (ok : BitVec 16 → Prop) : Machine → Prop where
  | own {s} (hpc : K.Own s.pc) (hsp : s.sp ≤ top) (hok : ok s.sr) : Sound K top ok s
  | rte {s} (hpc : s.pc ∈ K.rtes) (hsp : s.sp + 8 ≤ top) (h : Sound K top ok s.rte) :
      Sound K top ok s
  | rts {s} (hpc : s.pc ∈ K.rtss) (hsp : s.sp + 4 ≤ top) (h : Sound K top ok s.rts) :
      Sound K top ok s

theorem Sound.congr {K : Image} {top : Nat} {ok : BitVec 16 → Prop} {s s' : Machine}
    (h : Sound K top ok s) (hpc : s'.pc = s.pc) (hsp : s'.sp = s.sp) (hsr : s'.sr = s.sr)
    (ha : Mem.Agree (Set.Ico s.sp top) s.mem s'.mem) : Sound K top ok s' := by
  induction h generalizing s' with
  | own hown htop hok => exact .own (hpc ▸ hown) (hsp ▸ htop) (hsr ▸ hok)
  | @rte s hin htop _ ih =>
    have hsub : ∀ a b, s.sp ≤ a → b ≤ s.sp + 8 → Set.Ico a b ⊆ Set.Ico s.sp top :=
      fun a b h1 h2 => Set.Ico_subset_Ico h1 (h2.trans htop)
    refine .rte (hpc ▸ hin) (hsp ▸ htop) (ih ?_ ?_ ?_ (ha.mono ?_))
    · simp only [Machine.rte,hsp]
      exact ha.readL (hsub _ _ (by omega) (by omega))
    · simp only [Machine.rte,hsp]
    · simp only [Machine.rte,hsp]
      rw [ha.readW (hsub _ _ (by omega) (by omega))]
    · exact Set.Ico_subset_Ico_left (by simp only [Machine.rte]; omega)
  | @rts s hin htop _ ih =>
    refine .rts (hpc ▸ hin) (hsp ▸ htop) (ih ?_ ?_ ?_ (ha.mono ?_))
    · simp only [Machine.rts,hsp]
      exact ha.readL (Set.Ico_subset_Ico_right htop)
    · simp only [Machine.rts,hsp]
    · exact hsr
    · exact Set.Ico_subset_Ico_left (by simp only [Machine.rts]; omega)

theorem Sound.sp_le {K : Image} {top : Nat} {ok : BitVec 16 → Prop} {s : Machine}
    (h : Sound K top ok s) : s.sp ≤ top := by
  cases h with
  | own _ hsp _ => exact hsp
  | rte _ hsp _ => omega
  | rts _ hsp _ => omega

theorem Sound.pc_cases {K : Image} {top : Nat} {ok : BitVec 16 → Prop} {s : Machine}
    (h : Sound K top ok s) : K.Own s.pc ∨ s.pc ∈ K.rtes ++ K.rtss := by
  cases h with
  | own hpc => exact .inl hpc
  | rte hpc => exact .inr (List.mem_append_left _ hpc)
  | rts hpc => exact .inr (List.mem_append_right _ hpc)

theorem Sound.pc_lt {K : Image} {top : Nat} {ok : BitVec 16 → Prop} {s : Machine}
    (h : Sound K top ok s) : s.pc < addressSpace := by
  have hcode := K.code_top
  have hin : ∀ pc ∈ K.rtes ++ K.rtss, pc < addressSpace := by
    intro pc hpc
    refine hcode pc ?_
    simp only [Symbols.rtes,Symbols.rtss,Symbols.interruptible,List.mem_append,List.mem_cons,
      List.not_mem_nil,or_false] at hpc ⊢
    tauto
  rcases h.pc_cases with hpc | hpc
  · exact hpc.top
  · exact hin _ hpc

-- How a task that does not run was suspended, with the machine as it was then: at the
-- interrupted instruction, or on entry to task_wait.
inductive Saved where
  | fresh (entry exit : Nat)
  | ticked (c : Machine)
  | waiting (c : Machine) (mask : Nat)
  | woken (c : Machine) (mask sig : Nat)

-- What `suspend` leaves above the registers, or task_tee in its place.
structure Held (m : Mem) (p ret : Nat) : Prop where
  masked : ipl (BitVec.ofNat 16 (m.readW (p + 60))) = 7#3
  ret : m.readL (p + 62) = ret

structure FreshFrame (K : Image) (m : Mem) (top p entry exit : Nat) : Prop where
  held : Held m p K.taskTrampoline ∨ Held m p K.idleTrampoline
  sr : m.readW (p + 66) = 0x2000
  pc : m.readL (p + 68) = entry
  exit : m.readL (p + 74) = exit
  top : p + 78 = top

structure TickedFrame (K : Image) (m : Mem) (top p : Nat) (c : Machine) : Prop where
  held : Held m p K.tickHandlerDone
  frame : Machine.TickFrame c m (p + 66)
  stack : Mem.Agree (Set.Ico c.sp top) c.mem m

structure WaitFrame (K : Image) (m : Mem) (top p : Nat) (c : Machine) (r : Fin 15 → BitVec 32) :
    Prop where
  held : Held m p K.waitReenable
  regs : loadRegs m p = r
  sp : p + 66 = c.sp
  stack : Mem.Agree (Set.Ico c.sp top) c.mem m

def Frame (K : Image) (m : Mem) (top p : Nat) : Saved → Prop
  | .fresh entry exit => FreshFrame K m top p entry exit
  | .ticked c => TickedFrame K m top p c
  | .waiting c _ => WaitFrame K m top p c c.reg
  | .woken c _ sig => WaitFrame K m top p c (update c.reg 0 (BitVec.ofNat 32 sig))

-- The machine a task was suspended with could be gone on with.
def Saved.Ok (K : Image) (top : Nat) (ok : BitVec 16 → Prop) : Saved → Prop
  | .fresh entry _ => K.Own entry ∧ ok 0x2000#16
  | .ticked c => Sound K top ok c
  | .waiting c _ => c.sp + 4 ≤ top ∧ K.Own (c.mem.readL c.sp)
  | .woken c mask sig => c.sp + 4 ≤ top ∧ K.Own (c.mem.readL c.sp) ∧ sig &&& mask ≠ 0

-- Where the frame of a suspended task ends.
theorem Frame.bound {K : Image} {m : Mem} {top p : Nat} {sv : Saved} {ok : BitVec 16 → Prop}
    (h : Frame K m top p sv) (hok : sv.Ok K top ok) : p + 66 ≤ top := by
  cases sv with
  | fresh entry exit =>
    have := h.top
    omega
  | ticked c =>
    have := h.frame.depth
    have := Sound.sp_le hok
    omega
  | waiting c mask =>
    have := h.sp
    have := hok.1
    omega
  | woken c mask sig =>
    have := h.sp
    have := hok.1
    omega

theorem Held.agree {m m' : Mem} {p ret top : Nat} (h : Held m p ret) (hp : p + 66 ≤ top)
    (ha : Mem.Agree (Set.Ico p top) m m') : Held m' p ret := by
  refine ⟨?_,?_⟩
  · rw [ha.readW (Set.Ico_subset_Ico (by omega) (by omega))]
    exact h.masked
  · rw [ha.readL (Set.Ico_subset_Ico (by omega) (by omega))]
    exact h.ret

theorem Frame.agree {K : Image} {m m' : Mem} {top p : Nat} {sv : Saved} {ok : BitVec 16 → Prop}
    (h : Frame K m top p sv) (hok : sv.Ok K top ok) (ha : Mem.Agree (Set.Ico p top) m m') :
    Frame K m' top p sv := by
  have hb := h.bound hok
  have hwait : ∀ {c r}, WaitFrame K m top p c r → WaitFrame K m' top p c r := by
    intro c r h
    have hsp := h.sp
    refine ⟨h.held.agree hb ha,?_,hsp,h.stack.trans (ha.mono ?_)⟩
    · rw [loadRegs_congr ha (Set.Ico_subset_Ico (by omega) (by omega))]
      exact h.regs
    · exact Set.Ico_subset_Ico_left (by omega)
  cases sv with
  | fresh entry exit =>
    have htop := h.top
    refine ⟨h.held.imp (Held.agree · hb ha) (Held.agree · hb ha),?_,?_,?_,htop⟩
    · rw [ha.readW (Set.Ico_subset_Ico (by omega) (by omega))]
      exact h.sr
    · rw [ha.readL (Set.Ico_subset_Ico (by omega) (by omega))]
      exact h.pc
    · rw [ha.readL (Set.Ico_subset_Ico (by omega) (by omega))]
      exact h.exit
  | ticked c =>
    have hd := h.frame.depth
    have hsp := Sound.sp_le hok
    exact ⟨h.held.agree hb ha,h.frame.agree (ha.mono (Set.Ico_subset_Ico (by omega) hsp)),
      h.stack.trans (ha.mono (Set.Ico_subset_Ico_left (by omega)))⟩
  | waiting c mask => exact hwait h
  | woken c mask sig => exact hwait h

-- The machine at the last instruction before a task's own code, after a switch to the task.
def Machine.entered (s : Machine) (t : Nat) (r : Fin 15 → BitVec 32) (sp : Nat) (sr : BitVec 16)
    (pc : Nat) : Machine :=
  { Machine.enableInterrupts
      { s with currentTaskVar := t, reg := r, sp := sp, sr := sr } with pc := pc }

-- What a task finds there, depending on how it was suspended.
inductive Back (K : Image) (m : Mem) (top : Nat) : Saved → (Fin 15 → BitVec 32) → Nat → Nat → Prop
  | fresh {entry exit r sp pc} (hpc : pc = K.taskRte ∨ pc = K.idleRte) (hsp : sp + 12 = top)
      (hsr : m.readW sp = 0x2000) (he : m.readL (sp + 2) = entry)
      (hx : m.readL (sp + 8) = exit) : Back K m top (.fresh entry exit) r sp pc
  | ticked {c sp} (hsp : sp + 8 = c.sp) (hsr : m.readW sp = c.sr.toNat)
      (hpc : m.readL (sp + 2) = c.pc) (hst : Mem.Agree (Set.Ico c.sp top) c.mem m) :
      Back K m top (.ticked c) c.reg sp K.tickRte
  | waiting {c mask} (hst : Mem.Agree (Set.Ico c.sp top) c.mem m) :
      Back K m top (.waiting c mask) c.reg c.sp K.enableReturn
  | woken {c mask sig} (hst : Mem.Agree (Set.Ico c.sp top) c.mem m) :
      Back K m top (.woken c mask sig) (update c.reg 0 (BitVec.ofNat 32 sig)) c.sp K.enableReturn

namespace Machine

theorem enable_fields (s : Machine) : s.enableInterrupts =
    { s with
      sr := s.enableInterrupts.sr
      disableIntrCount := s.enableInterrupts.disableIntrCount } := by
  unfold enableInterrupts
  split
  · rfl
  · simp only
    split <;> rfl

theorem enable_pc (s : Machine) (pc pc' : Nat) :
    { { s with pc := pc }.enableInterrupts with pc := pc' } =
      { s.enableInterrupts with pc := pc' } := by
  unfold enableInterrupts
  split
  · rfl
  · simp only
    split <;> rfl

end Machine

variable {K : Image} {s : Machine} {t top : Nat} {sv : Saved} {ok : BitVec 16 → Prop}

theorem switchTo_spec (h : Frame K s.mem top (s.mem.readL (taskStack t)) sv) :
    ∃ r sp sr pc, ipl sr = 7#3 ∧ switchTo K s t = s.entered t r sp sr pc ∧
      Back K s.mem top sv r sp pc := by
  obtain ⟨p,hp⟩ : ∃ p, p = s.mem.readL (taskStack t) := ⟨_,rfl⟩
  rw [← hp] at h
  have hsw : s.switchA1 t = { s with
      currentTaskVar := t, reg := loadRegs s.mem p, sp := p + 66,
      sr := BitVec.ofNat 16 (s.mem.readW (p + 60)), pc := s.mem.readL (p + 62) } := by
    simp only [Machine.switchA1,Machine.popRegs,Machine.popSr,Machine.rts,← hp,Nat.add_assoc,
      Nat.reduceAdd]
  have hwait : ∀ {c r}, WaitFrame K s.mem top p c r →
      switchTo K s t =
        s.entered t r c.sp (BitVec.ofNat 16 (s.mem.readW (p + 60))) K.enableReturn := by
    intro c r h
    have hret := h.held.ret
    rw [switchTo,hsw,h.regs,h.sp,hret,resume_wait rfl]
    exact Machine.enable_pc { s with
      currentTaskVar := t, reg := r, sp := c.sp, sr := BitVec.ofNat 16 (s.mem.readW (p + 60)) } _ _
  cases sv with
  | fresh entry exit =>
    have htop := h.top
    rcases h.held with hh | hh
    · refine ⟨loadRegs s.mem p,p + 66,_,K.taskRte,hh.masked,?_,
        .fresh (.inl rfl) (by omega) h.sr h.pc h.exit⟩
      have hret := hh.ret
      rw [switchTo,hsw,hret,resume_task rfl]
      exact Machine.enable_pc { s with
        currentTaskVar := t, reg := loadRegs s.mem p, sp := p + 66,
        sr := BitVec.ofNat 16 (s.mem.readW (p + 60)) } _ _
    · refine ⟨loadRegs s.mem p,p + 66,_,K.idleRte,hh.masked,?_,
        .fresh (.inr rfl) (by omega) h.sr h.pc h.exit⟩
      have hret := hh.ret
      rw [switchTo,hsw,hret,resume_idle rfl]
      exact Machine.enable_pc { s with
        currentTaskVar := t, reg := loadRegs s.mem p, sp := p + 66,
        sr := BitVec.ofNat 16 (s.mem.readW (p + 60)) } _ _
  | ticked c =>
    have hd := h.frame.depth
    have hpc := h.frame.pc
    rw [show p + 66 + 62 = p + 66 + 60 + 2 by omega] at hpc
    refine ⟨c.reg,p + 66 + 60,_,K.tickRte,h.held.masked,?_,
      .ticked (by omega) h.frame.sr hpc h.stack⟩
    have hret := h.held.ret
    have hreg := h.frame.regs
    rw [switchTo,hsw,hret,resume_tick rfl,Machine.entered,← hreg]
    exact Machine.enable_pc { s with
      currentTaskVar := t, reg := loadRegs s.mem (p + 66), sp := p + 66 + 60,
      sr := BitVec.ofNat 16 (s.mem.readW (p + 60)) } _ _
  | waiting c mask => exact ⟨_,_,_,_,h.held.masked,hwait h,.waiting h.stack⟩
  | woken c mask sig => exact ⟨_,_,_,_,h.held.masked,hwait h,.woken h.stack⟩

end RoscoM68k
