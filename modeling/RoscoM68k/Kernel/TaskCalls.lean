import RoscoM68k.Kernel.TaskSteps

namespace RoscoM68k
open Function

section Tee

variable {m : Mem} {a b : Nat} {r : Fin 15 → BitVec 32}

theorem readL_saveRegs_apart (m : Mem) (r : Fin 15 → BitVec 32) (h : b + 4 ≤ a ∨ a + 60 ≤ b) :
    (saveRegs m a r).readL b = m.readL b :=
  (agree_saveRegs m a r).readL (fun x hx hx' => by
    have h1 := hx.1
    have h2 := hx.2
    have h3 := hx'.1
    have h4 := hx'.2
    omega)

theorem readW_saveRegs_apart (m : Mem) (r : Fin 15 → BitVec 32) (h : b + 2 ≤ a ∨ a + 60 ≤ b) :
    (saveRegs m a r).readW b = m.readW b :=
  (agree_saveRegs m a r).readW (fun x hx hx' => by
    have h1 := hx.1
    have h2 := hx.2
    have h3 := hx'.1
    have h4 := hx'.2
    omega)

-- What task_tee leaves on a stack that ends at a1, for a task at a0.
structure TeeFrame (m : Mem) (a0 p d2 d0 d1 : Nat) : Prop where
  saved : m.readL (taskStack a0) = p
  sr : m.readW (p + 60) = 0x2700
  ret : m.readL (p + 62) = d2
  start : m.readW (p + 66) = 0x2000
  pc : m.readL (p + 68) = d0
  exit : m.readL (p + 74) = d1

theorem taskTee_frame (s : Machine) {a0 a1 d2 d0 d1 p : Nat} (ha : p + 78 = a1)
    (htop : a1 ≤ addressSpace) (hoff : a0 + 40 ≤ p ∨ a1 ≤ a0) (h2 : d2 < addressSpace)
    (h0 : d0 < addressSpace) (h1 : d1 < addressSpace) :
    TeeFrame (taskTee s a0 a1 d2 d0 d1).mem a0 p d2 d0 d1 := by
  simp only [addressSpace] at htop h2 h0 h1
  have e4 : a1 - 4 = p + 74 := by omega
  have e6 : a1 - 6 = p + 72 := by omega
  have e10 : a1 - 10 = p + 68 := by omega
  have e12 : a1 - 12 = p + 66 := by omega
  have e16 : a1 - 16 = p + 62 := by omega
  have e18 : a1 - 18 = p + 60 := by omega
  have e78 : a1 - 78 = p := by omega
  have hs : taskStack a0 + 4 ≤ p ∨ p + 78 ≤ taskStack a0 := by
    simp only [taskStack]
    omega
  rw [taskTee]
  simp only [e4,e6,e10,e12,e16,e18,e78]
  refine ⟨?_,?_,?_,?_,?_,?_⟩
  · exact Mem.readL_writeL_self_of_lt _ (by omega)
  · simp (disch := omega) only [Mem.readW_writeL_apart,readW_saveRegs_apart,Mem.readW_writeW_self]
  · simp (disch := omega) only [Mem.readL_writeL_apart,readL_saveRegs_apart,Mem.readL_writeW_apart,
      Mem.readL_writeL_self_of_lt]
  · simp (disch := omega) only [Mem.readW_writeL_apart,readW_saveRegs_apart,
      Mem.readW_writeW_apart,Mem.readW_writeW_self]
  · simp (disch := omega) only [Mem.readL_writeL_apart,readL_saveRegs_apart,Mem.readL_writeW_apart,
      Mem.readL_writeL_self_of_lt]
  · simp (disch := omega) only [Mem.readL_writeL_apart,readL_saveRegs_apart,Mem.readL_writeW_apart,
      Mem.readL_writeL_self_of_lt]

-- A task that has been made ready to run is parked.
theorem TeeFrame.parked {K : Image} {t p d2 d0 d1 : Nat} {i : TaskInfo}
    (h : TeeFrame m t p d2 d0 d1) (hd : d2 = K.taskTrampoline ∨ d2 = K.idleTrampoline)
    (hp : i.bottom ≤ p) (htop : p + 78 = i.top) (hs : i.saved = .fresh d0 d1) (ho : K.Own d0) :
    Parked K m t i := by
  have hsp : m.readL (taskStack t) = p := h.saved
  have hmask : ipl (BitVec.ofNat 16 (m.readW (p + 60))) = 7#3 := by
    rw [h.sr]
    decide
  refine ⟨?_,?_,?_⟩
  · rw [hsp]
    exact hp
  · rw [hsp,hs]
    refine ⟨hd.imp (fun hd => ⟨hmask,?_⟩) (fun hd => ⟨hmask,?_⟩),h.start,h.pc,h.exit,htop⟩
    · exact hd ▸ h.ret
    · exact hd ▸ h.ret
  · rw [hs]
    exact ⟨ho,trivial⟩

end Tee

theorem loadRegs_writeL (m : Mem) (p v : Nat) :
    loadRegs (m.writeL p v) p = update (loadRegs m p) 0 (BitVec.ofNat 32 v) := by
  ext1 i
  by_cases hi : i = 0
  · subst hi
    rw [update_self]
    show BitVec.ofNat 32 ((m.writeL p v).readL p) = _
    rw [Mem.readL_writeL_self]
    exact BitVec.eq_of_toNat_eq (by simp)
  · have hpos : 0 < i.val := Nat.pos_of_ne_zero (fun hc => hi (Fin.ext hc))
    rw [update_of_ne hi,loadRegs,loadRegs,Mem.readL_writeL_apart _ _ (by omega)]

-- The mask of a signal goes to where the sleeper's d0 is kept.
theorem WaitFrame.wake {K : Image} {m : Mem} {top p : Nat} {c : Machine} {r : Fin 15 → BitVec 32}
    (h : WaitFrame K m top p c r) (sig : Nat) :
    WaitFrame K (m.writeL p sig) top p c (update r 0 (BitVec.ofNat 32 sig)) := by
  have hsp := h.sp
  refine ⟨⟨?_,?_⟩,?_,hsp,h.stack.trans (Mem.agree_writeL _ _ (fun x hx => ?_))⟩
  · rw [Mem.readW_writeL_apart _ _ (by omega)]
    exact h.held.masked
  · rw [Mem.readL_writeL_apart _ _ (by omega)]
    exact h.held.ret
  · rw [loadRegs_writeL,h.regs]
  · have := hx.1
    omega

namespace TaskState

variable {K : Image} {level : BitVec 3} {st : TaskState} {Q : Queue → List Nat} {cpu : List Nat}
  {s : Machine}

-- A critical section leaves all but the interrupts and what is done in it alone.
theorem section_fields (s : Machine) (m : Mem) :
    let s' := Machine.enableInterrupts { s.disableInterrupts with mem := m }
    s'.mem = m ∧ s'.reg = s.reg ∧ s'.sp = s.sp ∧ s'.pc = s.pc ∧
      s'.currentTaskVar = s.currentTaskVar ∧ s'.tickCounter = s.tickCounter := by
  rw [Machine.enable_fields]
  exact ⟨rfl,rfl,rfl,rfl,rfl,rfl⟩

theorem ofNat_prio (n : Nat) : n &&& 3 = (Fin.ofNat 4 n : Fin 4).val :=
  Nat.and_two_pow_sub_one_eq_mod n 2

-- The frame of a task that has been prepared and then left alone.
theorem Enlist.parked {t bottom size entry : Nat} (hv : Enlist K st t bottom size entry) :
    Parked K st.machine.mem t (st.enlisted K t bottom size entry) := by
  obtain ⟨s,hs⟩ := hv.prepared
  have hlim := hv.limit
  have hroom := hv.room
  have hoff : t + 40 ≤ bottom + size - 78 ∨ bottom + size ≤ t := by
    by_contra hc
    have hx1 : max t (bottom + size - 78) ∈ Set.Ico t (t + 40) := ⟨by omega,by omega⟩
    have hx2 : max t (bottom + size - 78) ∈ Set.Ico bottom (bottom + size) :=
      ⟨by omega,by omega⟩
    exact Set.disjoint_left.mp hv.placed.apart hx1 hx2
  have hcode : K.taskTrampoline < addressSpace ∧ K.taskDone < addressSpace :=
    ⟨K.code_top _ (by simp [Symbols.resumePoints]),K.code_top _ (by simp [Symbols.interruptible])⟩
  have hwrap : wrap (bottom + size) = bottom + size := Nat.mod_eq_of_lt hlim
  have hf : TeeFrame (taskPrepare K s t bottom size entry).mem t (bottom + size - 78)
      K.taskTrampoline entry K.taskDone := by
    rw [taskPrepare,hwrap]
    exact taskTee_frame _ (by omega) hlim.le hoff hcode.1 hv.start.top hcode.2
  have hpark : Parked K (taskPrepare K s t bottom size entry).mem t
      (st.enlisted K t bottom size entry) := by
    refine hf.parked (.inl rfl) ?_ ?_ rfl hv.start
    · change bottom ≤ _
      omega
    · change _ = bottom + size
      omega
  refine hpark.agree (hs.mono (fun x hx => ?_))
  rcases hx with hx | hx
  · exact .inl ⟨by have := hx.1; omega,hx.2⟩
  · exact .inr hx

theorem Inv.enlist {t bottom size entry : Nat} {st' : TaskState} (h : st.Inv K Q cpu)
    (hv : Enlist K st t bottom size entry)
    (he : st.next K level (.enlist t bottom size entry) = some st') :
    let c := Queue.ready (st.enlisted K t bottom size entry).prio
    st'.Inv K (update Q c (t :: Q c)) cpu ∧
      Mem.Agree (st'.memory K)ᶜ st.machine.mem st'.machine.mem := by
  intro c
  obtain ⟨hc,hs,hsnd,rfl⟩ := h.phase.run (.inl hv.source)
  cases he
  have hself : st.self ∈ ({st.self} : Set Nat) := rfl
  have hnew : ¬ (t = K.tidle ∨ t ∈ st.live ∨ t ∈ ({st.self} : Set Nat)) := hv.fresh
  have hprio := ofNat_prio (st.machine.mem.readB (taskPrio t))
  have hborn := h.tasks.born hnew hv.placed hv.apart hprio hv.parked (by nofun)
  have hrun : t ∉ ({st.self} : Set Nat) := fun hc => hnew (.inr (.inr hc))
  have hinfo : update st.info t (st.enlisted K t bottom size entry) t =
      st.enlisted K t bottom size entry := update_self _ _ _
  have hself' : update st.info t (st.enlisted K t bottom size entry) st.self =
      st.info st.self := update_of_ne (fun hc => hrun hc.symm) _ _
  obtain ⟨hadd,hag⟩ := hborn.add_head (c := c) (by rw [hinfo]; exact ⟨rfl,by nofun⟩) hrun
    (st.machine.reg 0).toNat
  have hq : K.runnable (st.machine.mem.readB (taskPrio t) &&& 3) = K.header c := by
    rw [hprio]
    rfl
  obtain ⟨s',hs'⟩ : ∃ s', s' = taskEnlist K st.machine t := ⟨_,rfl⟩
  have hsec : s' = Machine.enableInterrupts { st.machine.disableInterrupts with
      mem := listAddHead st.machine.mem (st.machine.reg 0).toNat (K.header c) t } := by
    rw [hs',taskEnlist,hq]
    rfl
  obtain ⟨hmem,-,hsp,hpc,hcur,htick⟩ := section_fields st.machine
    (listAddHead st.machine.mem (st.machine.reg 0).toNat (K.header c) t)
  rw [← hsec] at hmem hsp hpc hcur htick
  dsimp only
  rw [← hs']
  refine ⟨⟨?_,.running (hcur.trans hc) (hs.imp_right (List.mem_cons_of_mem t)) ?_,
    htick.trans h.quantum⟩,?_⟩
  · rw [hmem]
    exact hadd
  · dsimp only
    rw [hself']
    exact .own (by rw [hpc]; exact hv.source) (by rw [hsp]; exact hsnd.sp_le) trivial
  · rw [hmem]
    exact hag.mono (Set.compl_subset_compl.mpr (links_memory (fun _ hu => .inr (.inl hu))))

section Wait

-- The machine at the call of suspend in task_wait and in task_signal.
def callSuspend (s : Machine) (ret : Nat) : Machine := s.disableInterrupts.pushL ret

-- What suspend leaves when it has been called by the running task.
theorem call_suspend (ret : Nat) (h : st.Inv K Q cpu) (hret : ret < addressSpace)
    (hroom : (st.info st.self).bottom + 66 ≤ st.machine.sp)
    (hsp : st.machine.sp ≤ (st.info st.self).top) (hcur : st.machine.currentTaskVar = st.self) :
    let s2 := callSuspend st.machine ret
    Tasks K s2.suspend.mem st.live st.info Q cpu {st.self} ∧ Machine.SuspendFrame s2 s2.suspend ∧
      s2.suspend.sp + 66 = st.machine.sp ∧ Held s2.suspend.mem s2.suspend.sp ret ∧
      Mem.Agree (Set.Ico st.machine.sp (st.info st.self).top) st.machine.mem s2.suspend.mem ∧
      Mem.Agree (st.memory K)ᶜ st.machine.mem s2.suspend.mem := by
  intro s2
  have hself : st.self ∈ ({st.self} : Set Nat) := rfl
  have hp := h.tasks.placed st.self (.inr (.inr hself))
  have hfield := stack_off_field hp
  have hsp2 : s2.sp + 4 = st.machine.sp :=
    Nat.sub_add_cancel (by change 4 ≤ st.machine.sp; omega)
  have hag1 : Mem.Agree (Set.Ico s2.sp st.machine.sp)ᶜ st.machine.mem s2.mem :=
    st.machine.disableInterrupts.agree_pushL ret (by omega : 4 ≤ st.machine.sp)
  have hstack : Set.Ico s2.sp st.machine.sp ⊆
      Set.Ico (st.info st.self).bottom (st.info st.self).top := Set.Ico_subset_Ico (by omega) hsp
  have ht1 : Tasks K s2.mem st.live st.info Q cpu {st.self} :=
    h.tasks.agree (hag1.mono (fun x hx hx' => h.tasks.stack_off hself (hstack hx') hx))
  obtain ⟨ht2,hf⟩ := ht1.suspend (s := s2) hself (.inl hcur) (by omega) (by omega)
  have hsp3 := hf.sp
  have hkeep : ∀ a b, s2.sp ≤ a → b ≤ (st.info st.self).top →
      Mem.Agree (Set.Ico a b) s2.mem s2.suspend.mem := by
    intro a b ha hb
    refine hf.agree.mono (fun x hx hx' => ?_)
    have h1 := hx.1
    have h2 := hx.2
    rcases hx' with hx' | hx'
    · have := hx'.2
      omega
    · rw [show s2.currentTaskVar = _ from hcur] at hx'
      exact hfield ⟨by omega,by omega⟩ hx'
  refine ⟨ht2,hf,by omega,⟨?_,?_⟩,?_,?_⟩
  · rw [hf.sr,BitVec.ofNat_toNat,BitVec.setWidth_eq]
    exact ipl_disable _
  · have he : s2.suspend.sp + 62 = s2.sp := by omega
    rw [he,(hkeep s2.sp (s2.sp + 4) le_rfl (by omega)).readL (Set.Subset.refl _)]
    exact Mem.readL_writeL_self_of_lt _ hret
  · refine (hag1.mono (fun x hx hx' => ?_)).trans (hkeep _ _ (by omega) le_rfl)
    have := hx.1
    have := hx'.2
    omega
  · exact (hag1.mono (Set.compl_subset_compl.mpr (hstack.trans (stack_memory hself)))).trans
      (suspend_memory hf hself (.inl hcur) (by omega) (by omega))

theorem Inv.wait {st' : TaskState} (h : st.Inv K Q cpu) (hv : Wait K st)
    (he : st.next K level .wait = some st') :
    ∃ Q', Switched K st' (st.machine.disableIntrCount + 1#16)
        (update Q .sleeping (st.self :: Q .sleeping)) Q' ∧
      st'.Inv K Q' (onCpu K st'.self) ∧ st'.live = st.live ∧
      st'.info = st.suspendAs
        (.waiting st.machine (st.machine.mem.readL (st.machine.sp + 4))) ∧
      Mem.Agree (st.memory K)ᶜ st.machine.mem st'.machine.mem := by
  obtain ⟨hc,hs,hsnd,rfl⟩ := h.phase.run (.inl hv.source)
  have hlive := hs.resolve_left hv.busy
  have hself : st.self ∈ ({st.self} : Set Nat) := rfl
  have hargs := hv.args
  have hroom := hv.room
  obtain ⟨s2,hs2⟩ : ∃ s2, s2 = callSuspend st.machine K.waitReenable := ⟨_,rfl⟩
  obtain ⟨ht,hf,hsp,hheld,hst,hmem⟩ := call_suspend K.waitReenable h
    (K.code_top _ (by simp [Symbols.resumePoints])) hroom hsnd.sp_le hc
  rw [← hs2] at ht hf hsp hheld hst hmem
  obtain ⟨mask,hmask⟩ : ∃ mask, mask = st.machine.mem.readL (st.machine.sp + 4) := ⟨_,rfl⟩
  have hcur3 : s2.suspend.currentTaskVar = st.self := by
    rw [hf.eq,hs2]
    exact hc
  have harg : s2.suspend.mem.readL (s2.suspend.sp + 0x46) = mask := by
    have he : s2.suspend.sp + 0x46 = st.machine.sp + 4 := by omega
    rw [he,hst.readL (Set.Ico_subset_Ico (by omega) (by omega))]
    exact hmask.symm
  -- The mask goes into the task's structure.
  obtain ⟨m,hm⟩ : ∃ m, m = s2.suspend.mem.writeL (taskWaits st.self) mask := ⟨_,rfl⟩
  have hagm :
      Mem.Agree (Set.Ico (taskWaits st.self) (taskWaits st.self + 4))ᶜ s2.suspend.mem m := by
    rw [hm]
    refine Mem.agree_writeL _ _ (fun x hx => ?_)
    simp only [Set.mem_compl_iff,Set.mem_Ico] at hx
    omega
  have htm : Tasks K m st.live st.info Q (onCpu K st.self) {st.self} := by
    refine ht.agree (hagm.mono (fun x hx hx' => ht.field_off hself ⟨?_,?_⟩ hx))
    · have := hx'.1
      simp only [taskWaits] at this
      omega
    · have := hx'.2
      simp only [taskWaits] at this
      omega
  have hwaits : m.readL (taskWaits st.self) = mask := by
    rw [hm]
    exact Mem.readL_writeL_self_of_lt _ (hmask ▸ Mem.readL_lt _ _)
  obtain ⟨sv,hsv⟩ : ∃ sv, sv = Saved.waiting st.machine mask := ⟨_,rfl⟩
  have hpark : Parked K m st.self { st.info st.self with saved := sv } := by
    have hsaved : s2.suspend.mem.readL (taskStack st.self) = s2.suspend.sp := by
      have hsaved := hf.saved
      rwa [show s2.currentTaskVar = st.self by rw [hs2]; exact hc] at hsaved
    have hsp' : m.readL (taskStack st.self) = s2.suspend.sp := by
      rw [hagm.readL (fun x hx hx' => ?_)]
      · exact hsaved
      · have h1 := hx.2
        have h2 := hx'.1
        simp only [taskStack,taskWaits] at h1 h2
        omega
    have hfield : Set.Ico s2.suspend.sp (st.info st.self).top ⊆
        (Set.Ico (taskWaits st.self) (taskWaits st.self + 4))ᶜ := by
      intro x hx hx'
      have h1 := hx'.1
      have h2 := hx'.2
      simp only [taskWaits] at h1 h2
      have hp := (ht.placed st.self (.inr (.inr hself))).apart
      exact Set.disjoint_left.mp hp (show x ∈ Set.Ico st.self (st.self + 40) from
        ⟨by omega,by omega⟩) ⟨by have := hx.1; omega,hx.2⟩
    have hag : Mem.Agree (Set.Ico s2.suspend.sp (st.info st.self).top) s2.suspend.mem m :=
      hagm.mono hfield
    refine ⟨?_,?_,?_⟩
    · rw [hsp']
      simp only
      omega
    · rw [hsp',hsv]
      refine ⟨hheld.agree (by omega) hag,?_,hsp,
        hst.trans (hag.mono (Set.Ico_subset_Ico_left (by omega)))⟩
      rw [loadRegs_congr hag (Set.Ico_subset_Ico le_rfl (by omega)),hf.regs,hs2]
      rfl
    · rw [hsv]
      exact ⟨by simp only; omega,hv.ret⟩
  have hcpu : onCpu K st.self = [st.self] := if_neg hv.busy
  have hset := htm.set_saved (t := st.self) rfl sv
  rw [hcpu] at hset
  have hinfo : update st.info st.self { st.info st.self with saved := sv } st.self =
      { st.info st.self with saved := sv } := update_self _ _ _
  obtain ⟨hsl,hags⟩ := hset.sleep (by rw [hinfo]; exact ⟨st.machine,mask,hsv,hwaits⟩)
    (by rw [hinfo]; exact hpark) mask
  obtain ⟨s3,hs3⟩ : ∃ s3 : Machine,
      s3 = { s2.suspend with mem := listAddHead m mask K.sleepingList st.self } := ⟨_,rfl⟩
  have hnext : taskWait K st.machine = taskSwitchNext K s3 := by
    rw [hs3,hm,← harg,← hcur3,hs2]
    rfl
  have hmem3 : listAddHead m mask K.sleepingList st.self = s3.mem := by rw [hs3]
  have hquant : s3.tickCounter = 1#16 := by
    rw [hs3]
    dsimp only
    rw [hf.eq,hs2]
    exact h.quantum
  have hcount : s3.disableIntrCount = st.machine.disableIntrCount + 1#16 := by
    rw [hs3]
    dsimp only
    rw [hf.eq,hs2]
    rfl
  rw [hmem3] at hsl hags
  simp only [next,Option.some.injEq] at he
  subst he
  obtain ⟨Q',hsw,hi,hag⟩ := yield hsl hquant
  rw [hcount] at hsw
  -- The machine after the switch is a variable, for its fields are not to be computed.
  obtain ⟨s4,hs4⟩ : ∃ s4, s4 = taskSwitchNext K s3 := ⟨_,rfl⟩
  rw [hnext,← hmask,← hsv,← hs4]
  rw [← hs4] at hsw hi hag
  have hlinks : (st.memory K)ᶜ ⊆ (taskLinks K {u | u ∈ st.live})ᶜ :=
    Set.compl_subset_compl.mpr (links_memory (fun _ hu => .inr (.inl hu)))
  have hwm : Mem.Agree (st.memory K)ᶜ s2.suspend.mem m :=
    hagm.mono (Set.compl_subset_compl.mpr (field_memory hself
      (by simp only [taskWaits]; omega) (by simp only [taskWaits]; omega)))
  refine ⟨Q',hsw,hi,rfl,rfl,?_⟩
  exact hmem.trans (hwm.trans ((hags.mono hlinks).trans (hag.mono hlinks)))

end Wait

section Signal

-- A task that waits is moved to the head of the runnable ones of its priority.
def woken (Q : Queue → List Nat) (t : Nat) (p : Fin 4) : Queue → List Nat :=
  update (update Q .sleeping ((Q .sleeping).erase t)) (.ready p) (t :: Q (.ready p))

theorem wake {m : Mem} {live : List Nat} {info : Nat → TaskInfo} {run : Set Nat} {t sig mask : Nat}
    {c : Machine} (h : Tasks K m live info Q cpu run) (ht : t ∈ Q .sleeping)
    (hw : (info t).saved = .waiting c mask) (hsig : sig &&& mask ≠ 0) :
    Tasks K (taskWake K m t sig) live
        (update info t { info t with saved := .woken c mask sig })
        (woken Q t (info t).prio) cpu run ∧
      Mem.Agree (taskLinks K {u | u ∈ live} ∪ Set.Ico (info t).bottom (info t).top)ᶜ m
        (taskWake K m t sig) := by
  obtain ⟨xs,ys,hq⟩ := List.append_of_mem ht
  have htl := h.mem_live ht
  have hrun : t ∉ run := fun hr => h.unlisted t hr _ ht
  obtain ⟨hd,hpk,hag1⟩ := h.delete hq
  have hin : t ∈ insert t run := Set.mem_insert t run
  obtain ⟨m1,hm1⟩ : ∃ m1, m1 = listNodeDelete m t := ⟨_,rfl⟩
  rw [← hm1] at hd hpk hag1
  obtain ⟨p,hp⟩ : ∃ p, p = m1.readL (taskStack t) := ⟨_,rfl⟩
  have hlow := hpk.low
  have hframe := hpk.frame
  have hok := hpk.ok
  rw [hw] at hframe hok
  rw [← hp] at hlow hframe
  have hsp : p + 66 = c.sp := hframe.sp
  have htop : c.sp + 4 ≤ (info t).top := hok.1
  obtain ⟨m2,hm2⟩ : ∃ m2, m2 = m1.writeL p sig := ⟨_,rfl⟩
  have hslot : Set.Ico p (p + 4) ⊆ Set.Ico (info t).bottom (info t).top :=
    Set.Ico_subset_Ico hlow (by omega)
  have hag2 : Mem.Agree (Set.Ico p (p + 4))ᶜ m1 m2 := by
    rw [hm2]
    refine Mem.agree_writeL _ _ (fun x hx => ?_)
    simp only [Set.mem_compl_iff,Set.mem_Ico] at hx
    omega
  have hd2 := (hd.agree (hag2.mono (fun x hx hx' => hd.stack_off hin (hslot hx') hx))).set_saved hin
    (.woken c mask sig)
  have hinfo : update info t { info t with saved := .woken c mask sig } t =
      { info t with saved := .woken c mask sig } := update_self _ _ _
  have hfield := stack_off_field (hd.placed t (.inr (.inr hin)))
  have hsaved : m2.readL (taskStack t) = p := by
    rw [hp,hag2.readL (fun x hx hx' => hfield (hslot hx') hx)]
  have hpk2 : Parked K m2 t { info t with saved := .woken c mask sig } := by
    refine ⟨?_,?_,hok.1,hok.2,hsig⟩
    · rw [hsaved]
      exact hlow
    · rw [hsaved,hm2]
      exact hframe.wake sig
  have hpark := hd2.park (fun _ => by rw [hinfo]; exact hpk2) (fun _ => by rw [hinfo]; nofun)
  obtain ⟨hadd,hag3⟩ := hpark.add_head (c := .ready (info t).prio)
    (by rw [hinfo]; exact ⟨rfl,by nofun⟩) hrun sig
  have hptr := prio_queue hpark htl
  rw [hinfo] at hptr
  have hnot : t ∉ xs := by
    have hnd := (h.located.nodup_iff).mpr h.nodup
    have hsl : (Q .sleeping).Nodup :=
      (List.nodup_append.mp (List.nodup_append.mp hnd).2.1).2.1
    rw [hq] at hsl
    exact fun hc => (List.nodup_append.mp hsl).2.2 t hc t (by simp) rfl
  have herase : xs ++ ys = (Q .sleeping).erase t := by
    rw [hq,List.erase_append_right _ hnot,List.erase_cons_head]
  have hmem : taskWake K m t sig =
      listAddHead m2 sig (K.header (.ready (info t).prio)) t := by
    rw [taskWake,← hm1,← hp,← hm2,hptr]
  rw [hmem,woken,← herase]
  refine ⟨hadd,?_⟩
  refine (hag1.mono (Set.compl_subset_compl.mpr Set.subset_union_left)).trans
    ((hag2.mono (Set.compl_subset_compl.mpr ?_)).trans
      (hag3.mono (Set.compl_subset_compl.mpr Set.subset_union_left)))
  exact hslot.trans Set.subset_union_right

theorem signalled_waiting (st : TaskState) {c : Machine} {mask : Nat}
    (hw : (st.info st.target).saved = .waiting c mask) :
    st.signalled = if st.target ∈ st.live ∧ st.target ≠ st.self ∧ st.sigMask &&& mask ≠ 0 then
        update st.info st.target { st.info st.target with saved := .woken c mask st.sigMask }
      else st.info := by
  rw [signalled,hw]

theorem signalled_other (st : TaskState)
    (hw : ∀ c mask, (st.info st.target).saved ≠ .waiting c mask) : st.signalled = st.info := by
  rw [signalled]
  split
  · next c mask h => exact absurd h (hw c mask)
  · rfl

-- The registers that task_signal saves below the frame it has made.
def pushFour (s : Machine) : Machine :=
  (((s.pushL (s.reg 10).toNat).pushL s.currentTaskVar).pushL (s.reg 1).toNat).pushL (s.reg 0).toNat

theorem agree_pushFour (s : Machine) (h : 16 ≤ s.sp) : (pushFour s).sp + 16 = s.sp ∧
    Mem.Agree (Set.Ico (s.sp - 16) s.sp)ᶜ s.mem (pushFour s).mem := by
  obtain ⟨s1,h1⟩ : ∃ s1, s1 = s.pushL (s.reg 10).toNat := ⟨_,rfl⟩
  obtain ⟨s2,h2⟩ : ∃ s2, s2 = s1.pushL s.currentTaskVar := ⟨_,rfl⟩
  obtain ⟨s3,h3⟩ : ∃ s3, s3 = s2.pushL (s.reg 1).toNat := ⟨_,rfl⟩
  have hs1 : s1.sp + 4 = s.sp := by rw [h1]; exact Nat.sub_add_cancel (by omega)
  have hs2 : s2.sp + 4 = s1.sp := by rw [h2]; exact Nat.sub_add_cancel (by omega)
  have hs3 : s3.sp + 4 = s2.sp := by rw [h3]; exact Nat.sub_add_cancel (by omega)
  have hs4 : (s3.pushL (s.reg 0).toNat).sp + 4 = s3.sp := Nat.sub_add_cancel (by omega)
  have hin : ∀ a b : Nat, s.sp - 16 ≤ a → b ≤ s.sp →
      (Set.Ico (s.sp - 16) s.sp)ᶜ ⊆ (Set.Ico a b)ᶜ :=
    fun a b ha hb => Set.compl_subset_compl.mpr (Set.Ico_subset_Ico ha hb)
  have ha1 := s.agree_pushL (s.reg 10).toNat (by omega)
  have ha2 := s1.agree_pushL s.currentTaskVar (by omega)
  have ha3 := s2.agree_pushL (s.reg 1).toNat (by omega)
  have ha4 := s3.agree_pushL (s.reg 0).toNat (by omega)
  rw [← h1] at ha1
  rw [← h2] at ha2
  rw [← h3] at ha3
  rw [pushFour,← h1,← h2,← h3]
  exact ⟨by omega,(ha1.mono (hin _ _ (by omega) (by omega))).trans
    ((ha2.mono (hin _ _ (by omega) (by omega))).trans
      ((ha3.mono (hin _ _ (by omega) (by omega))).trans
        (ha4.mono (hin _ _ (by omega) (by omega)))))⟩

-- What a signal does: it wakes its target, or nothing.
inductive Signalled (st st' : TaskState) (Q : Queue → List Nat) : (Queue → List Nat) → Prop where
  | unheard (h : ∀ c mask, st.target ∈ Q .sleeping → (st.info st.target).saved = .waiting c mask →
      st.sigMask &&& mask = 0) (hi : st'.info = st.info) : Signalled st st' Q Q
  | woken {c mask} (ht : st.target ∈ Q .sleeping) (hw : (st.info st.target).saved = .waiting c mask)
      (hs : st.sigMask &&& mask ≠ 0) (hi : st'.info = update st.info st.target
        { st.info st.target with saved := .woken c mask st.sigMask }) :
      Signalled st st' Q (woken Q st.target (st.info st.target).prio)

theorem taskSignal_eq (K : Image) (s : Machine) : taskSignal K s =
    let s3 := pushFour (callSuspend s K.signalReenable).suspend
    let a1 := s3.mem.readL (s3.sp + 0x56)
    let d0 := s3.mem.readL (s3.sp + 0x5a)
    match sleepingSearch K s3.mem a1 addressSpace (nodeNext s3.mem K.sleepingList) with
    | none => none
    | some found =>
      let m := if found ∧ d0 &&& s3.mem.readL (taskWaits a1) ≠ 0 then taskWake K s3.mem a1 d0
        else s3.mem
      some { Machine.enableInterrupts { s3 with
          mem := m
          sp := s.sp } with pc := K.signalReturn } := rfl

theorem Inv.signal {st' : TaskState} (h : st.Inv K Q cpu) (hv : Signal K st)
    (he : st.next K level .signal = some st') :
    st'.self = st.self ∧ st'.live = st.live ∧
      (∃ Q', Signalled st st' Q Q' ∧ st'.Inv K Q' cpu) ∧
      Mem.Agree (st.memory K)ᶜ st.machine.mem st'.machine.mem := by
  obtain ⟨hc,hs,hsnd,rfl⟩ := h.phase.run (.inl hv.source)
  have hself : st.self ∈ ({st.self} : Set Nat) := rfl
  have hargs := hv.args
  have hroom := hv.room
  obtain ⟨s2,hs2⟩ : ∃ s2, s2 = callSuspend st.machine K.signalReenable := ⟨_,rfl⟩
  obtain ⟨ht,hf,hsp,-,hst,hmem⟩ := call_suspend K.signalReenable h
    (K.code_top _ (by simp [Symbols.resumePoints])) (by omega) hsnd.sp_le hc
  rw [← hs2] at ht hf hsp hst hmem
  obtain ⟨s3,hs3⟩ : ∃ s3, s3 = pushFour s2.suspend := ⟨_,rfl⟩
  obtain ⟨hsp3,hag3⟩ := agree_pushFour s2.suspend (by omega)
  rw [← hs3] at hsp3 hag3
  have hpush : Set.Ico (s2.suspend.sp - 16) s2.suspend.sp ⊆
      Set.Ico (st.info st.self).bottom (st.info st.self).top :=
    Set.Ico_subset_Ico (by omega) (by omega)
  have ht3 : Tasks K s3.mem st.live st.info Q (onCpu K st.self) {st.self} :=
    ht.agree (hag3.mono (fun x hx hx' => ht.stack_off hself (hpush hx') hx))
  have hst3 : Mem.Agree (Set.Ico st.machine.sp (st.info st.self).top) st.machine.mem s3.mem := by
    refine hst.trans (hag3.mono (fun x hx hx' => ?_))
    have := hx.1
    have := hx'.2
    omega
  have hmem3 : Mem.Agree (st.memory K)ᶜ st.machine.mem s3.mem :=
    hmem.trans (hag3.mono (Set.compl_subset_compl.mpr (hpush.trans (stack_memory hself))))
  have hfields : s3.reg = st.machine.reg ∧ s3.currentTaskVar = st.machine.currentTaskVar ∧
      s3.tickCounter = st.machine.tickCounter := by
    rw [hs3,hf.eq,hs2]
    exact ⟨rfl,rfl,rfl⟩
  have harg1 : s3.mem.readL (s3.sp + 0x56) = st.target := by
    have he : s3.sp + 0x56 = st.machine.sp + 4 := by omega
    rw [he,hst3.readL (Set.Ico_subset_Ico (by omega) (by omega))]
    rfl
  have harg2 : s3.mem.readL (s3.sp + 0x5a) = st.sigMask := by
    have he : s3.sp + 0x5a = st.machine.sp + 8 := by omega
    rw [he,hst3.readL (Set.Ico_subset_Ico (by omega) (by omega))]
    rfl
  have hsearch := sleepingSearch_spec (ht3.queues.lists .sleeping) hv.target
  obtain ⟨m,hm⟩ : ∃ m, m = if decide (st.target ∈ Q .sleeping) = true ∧
      st.sigMask &&& s3.mem.readL (taskWaits st.target) ≠ 0 then
      taskWake K s3.mem st.target st.sigMask else s3.mem := ⟨_,rfl⟩
  obtain ⟨s',hs'⟩ : ∃ s', s' = { Machine.enableInterrupts { s3 with
      mem := m
      sp := st.machine.sp } with pc := K.signalReturn } := ⟨_,rfl⟩
  have hsig : taskSignal K st.machine = some s' := by
    rw [taskSignal_eq,← hs2,← hs3]
    simp only [harg1,harg2,hsearch]
    rw [hs',hm]
  obtain ⟨hsm,hssp,hscur,hstick⟩ : s'.mem = m ∧ s'.sp = st.machine.sp ∧
      s'.currentTaskVar = st.self ∧ s'.tickCounter = 1#16 := by
    rw [hs',Machine.enable_fields]
    exact ⟨rfl,rfl,hfields.2.1.trans hc,hfields.2.2.trans h.quantum⟩
  have hspc : s'.pc = K.signalReturn := by rw [hs']
  rw [next,hsig] at he
  cases he
  dsimp only
  -- The way back, whatever has happened to the lists.
  have hback : Mem.Agree (Set.Ico st.machine.sp (st.info st.self).top) s3.mem m →
      Sound K (st.info st.self).top (fun _ => True) s' := by
    intro hag
    have hret : s'.rts.pc = st.machine.mem.readL st.machine.sp := by
      simp only [Machine.rts,hsm,hssp]
      exact (hst3.trans hag).readL (Set.Ico_subset_Ico le_rfl (by omega))
    have hsp' : s'.rts.sp = st.machine.sp + 4 := by
      simp only [Machine.rts,hssp]
    refine .rts (by simp [hspc,Symbols.rtss]) (by omega) (.own (hret ▸ hv.ret) ?_ trivial)
    omega
  have hquiet : m = s3.mem → (∀ c mask, st.target ∈ Q .sleeping →
      (st.info st.target).saved = .waiting c mask → st.sigMask &&& mask = 0) →
      st.signalled = st.info →
      (∃ Q', Signalled st ⟨s',st.self,st.live,st.signalled⟩ Q Q' ∧
        Inv K ⟨s',st.self,st.live,st.signalled⟩ Q' (onCpu K st.self)) ∧
      Mem.Agree (st.memory K)ᶜ st.machine.mem s'.mem := by
    intro hm3 hno hinfo
    refine ⟨⟨Q,.unheard hno hinfo,?_⟩,?_⟩
    · rw [hinfo]
      refine ⟨?_,.running hscur hs (hback (hm3 ▸ .refl _ _)),hstick⟩
      dsimp only
      rw [hsm,hm3]
      exact ht3
    · rw [hsm,hm3]
      exact hmem3
  refine ⟨rfl,rfl,?_⟩
  by_cases hin : st.target ∈ Q .sleeping
  · have htl := ht3.mem_live hin
    have hne : st.target ≠ st.self := fun hc => ht3.unlisted _ hself _ (hc ▸ hin)
    obtain ⟨c,mask,hsv,hw⟩ := ht3.asleep _ hin
    rw [hw] at hm
    by_cases hz : st.sigMask &&& mask = 0
    · refine hquiet ?_ (fun c' mask' _ hsv' => ?_) ?_
      · rw [hm,if_neg (fun hc => hc.2 hz)]
      · obtain ⟨rfl,rfl⟩ := Saved.waiting.inj (hsv.symm.trans hsv')
        exact hz
      · rw [signalled_waiting st hsv,if_neg (fun hc => hc.2.2 hz)]
    · rw [if_pos ⟨decide_eq_true hin,hz⟩] at hm
      have hinfo := signalled_waiting st hsv
      rw [if_pos ⟨htl,hne,hz⟩] at hinfo
      obtain ⟨hwk,hagw⟩ := wake ht3 hin hsv hz
      rw [← hm] at hwk hagw
      have hoff : Mem.Agree (Set.Ico st.machine.sp (st.info st.self).top) s3.mem m := by
        refine hagw.mono (fun x hx hx' => ?_)
        have hown : x ∈ Set.Ico (st.info st.self).bottom (st.info st.self).top :=
          ⟨by have := hx.1; omega,hx.2⟩
        rcases hx' with hx' | hx'
        · exact ht3.core_off hs (.inr hown) hx'
        · exact Set.disjoint_left.mp (ht3.apart st.self st.target (.inr (.inr hself))
            (.inr (.inl htl)) hne.symm) (.inr hown) (.inr hx')
      have hself' : update st.info st.target
          { st.info st.target with saved := .woken c mask st.sigMask } st.self =
          st.info st.self := update_of_ne hne.symm _ _
      refine ⟨⟨_,.woken hin hsv hz hinfo,?_⟩,?_⟩
      · rw [hinfo]
        refine ⟨?_,.running hscur hs ?_,hstick⟩
        · dsimp only
          rw [hsm]
          exact hwk
        · dsimp only
          rw [hself']
          exact hback hoff
      · rw [hsm]
        refine hmem3.trans (hagw.mono (Set.compl_subset_compl.mpr (Set.union_subset ?_ ?_)))
        · exact links_memory (fun _ hu => .inr (.inl hu))
        · exact fun x hx => .inr (.inr ⟨st.target,.inr (.inl htl),.inr hx⟩)
  · refine hquiet ?_ (fun _ _ hc => absurd hc hin) ?_
    · rw [hm,if_neg (fun hc => hin (of_decide_eq_true hc.1))]
    · -- A task that waits is in the list, unless it is the one that runs.
      by_cases hwt : ∃ c mask, (st.info st.target).saved = .waiting c mask
      · obtain ⟨c,mask,hsv⟩ := hwt
        rw [signalled_waiting st hsv,if_neg]
        rintro ⟨htl,hne,-⟩
        have hrun : st.target ∉ ({st.self} : Set Nat) := hne
        rcases List.mem_append.mp (h.tasks.located.mem_iff.mpr htl) with hcpu | hl
        · exact h.tasks.awake _ (.inr (.inl hcpu)) hrun c mask hsv
        · obtain ⟨d,hd⟩ := mem_listed.mp hl
          cases d with
          | sleeping => exact hin hd
          | ready p => exact h.tasks.awake _ (.inr (.inr ⟨p,hd⟩)) hrun c mask hsv
      · exact signalled_other st (fun c mask hc => hwt ⟨c,mask,hc⟩)

end Signal

end TaskState
end RoscoM68k
