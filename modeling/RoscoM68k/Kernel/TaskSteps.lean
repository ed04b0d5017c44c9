import RoscoM68k.Kernel.TaskRuns

namespace RoscoM68k
open Function

namespace TaskState

variable {K : Image} {level : BitVec 3} {st : TaskState} {Q : Queue → List Nat} {cpu : List Nat}
  {s : Machine} {mem : Mem}

theorem exit_not_own {pc : Nat}
    (h : pc = K.taskDoneDisable ∨ pc = K.taskYield ∨ pc = K.switchA1) : ¬ K.Own pc := by
  intro ho
  refine ho.off ?_
  simp only [Symbols.interruptible,List.mem_append,List.mem_cons,List.not_mem_nil,or_false]
  tauto

theorem exit_not_tail {pc : Nat}
    (h : pc = K.taskDoneDisable ∨ pc = K.taskYield ∨ pc = K.switchA1) : pc ∉ K.rtes ++ K.rtss := by
  obtain ⟨i,hi,hpc⟩ : ∃ i, 13 ≤ i ∧
      (K.panicIdleDone :: K.resumePoints ++ K.interruptible)[i]? = some pc := by
    rcases h with rfl | rfl | rfl
    exacts [⟨13,by omega,rfl⟩,⟨14,by omega,rfl⟩,⟨15,by omega,rfl⟩]
  intro hin
  obtain ⟨j,hj,hpc'⟩ : ∃ j, j < 13 ∧
      (K.panicIdleDone :: K.resumePoints ++ K.interruptible)[j]? = some pc := by
    simp only [Symbols.rtes,Symbols.rtss,List.mem_append,List.mem_cons,List.not_mem_nil,
      or_false] at hin
    rcases hin with (rfl | rfl | rfl) | rfl | rfl
    exacts [⟨7,by omega,rfl⟩,⟨8,by omega,rfl⟩,⟨9,by omega,rfl⟩,⟨10,by omega,rfl⟩,
      ⟨11,by omega,rfl⟩]
  exact K.code_distinct hpc hpc' (by omega) rfl

theorem rtss_not_rtes {pc : Nat} (h : pc ∈ K.rtss) : pc ∉ K.rtes := by
  obtain ⟨i,hi,hpc⟩ : ∃ i, 10 ≤ i ∧
      (K.panicIdleDone :: K.resumePoints ++ K.interruptible)[i]? = some pc := by
    simp only [Symbols.rtss,List.mem_cons,List.not_mem_nil,or_false] at h
    rcases h with rfl | rfl
    exacts [⟨10,by omega,rfl⟩,⟨11,by omega,rfl⟩]
  intro hin
  obtain ⟨j,hj,hpc'⟩ : ∃ j, j < 10 ∧
      (K.panicIdleDone :: K.resumePoints ++ K.interruptible)[j]? = some pc := by
    simp only [Symbols.rtes,List.mem_cons,List.not_mem_nil,or_false] at hin
    rcases hin with rfl | rfl | rfl
    exacts [⟨7,by omega,rfl⟩,⟨8,by omega,rfl⟩,⟨9,by omega,rfl⟩]
  exact K.code_distinct hpc hpc' (by omega) rfl

-- Own code and the ways back to it run with the task's own context only.
theorem Phase.run (h : st.Phase K cpu)
    (hpc : K.Own st.machine.pc ∨ st.machine.pc ∈ K.rtes ++ K.rtss) :
    st.machine.currentTaskVar = st.self ∧ (st.self = K.tidle ∨ st.self ∈ st.live) ∧
      Sound K (st.info st.self).top (fun _ => True) st.machine ∧ cpu = onCpu K st.self := by
  have hexit : ∀ {pc}, (pc = K.taskDoneDisable ∨ pc = K.taskYield ∨ pc = K.switchA1) →
      ¬ (K.Own pc ∨ pc ∈ K.rtes ++ K.rtss) :=
    fun he ho => ho.elim (exit_not_own he) (exit_not_tail he)
  cases h with
  | running hc hs hsnd => exact ⟨hc,hs,hsnd,rfl⟩
  | leaving _ _ _ hp => exact absurd hpc (hexit (hp.imp_right .inl))
  | switching _ _ hp _ => exact absurd hpc (hexit (.inr (.inr hp)))

theorem Inv.own (h : st.Inv K Q cpu) (hv : OwnStep K st s) :
    Inv K { st with machine := s } Q cpu := by
  obtain ⟨hc,hs,-,rfl⟩ := h.phase.run (.inl hv.source)
  exact ⟨h.tasks.agree hv.agree,.running (hv.current.trans hc) hs (.own hv.target hv.stack trivial),
    hv.quantum.trans h.quantum⟩

theorem finishing_sound {top : Nat} {ok : BitVec 16 → Prop} (h : Sound K top ok s)
    (hpc : s.pc ∈ K.rtes ++ K.rtss) : Sound K top ok (finishing K s) := by
  rw [finishing]
  cases h with
  | own hown => exact absurd hown (tail_not_own hpc)
  | rte hin _ h => rwa [if_pos hin]
  | rts hin _ h => rwa [if_neg (rtss_not_rtes hin)]

theorem finishing_mem (K : Image) (s : Machine) : (finishing K s).mem = s.mem := by
  rw [finishing]
  split <;> rfl

theorem Inv.finish (h : st.Inv K Q cpu) (hv : st.machine.pc ∈ K.rtes ++ K.rtss) :
    Inv K { st with machine := finishing K st.machine } Q cpu := by
  obtain ⟨hc,hs,hsnd,rfl⟩ := h.phase.run (.inr hv)
  have hcur : (finishing K st.machine).currentTaskVar = st.machine.currentTaskVar := by
    rw [finishing]
    split <;> rfl
  have hq : (finishing K st.machine).tickCounter = st.machine.tickCounter := by
    rw [finishing]
    split <;> rfl
  refine ⟨?_,.running (hcur.trans hc) hs (finishing_sound hsnd hv),hq.trans h.quantum⟩
  have ht := h.tasks
  rw [← finishing_mem K st.machine] at ht
  exact ht

-- The machine that enters the task that was chosen is the state of a run that has switched to it.
theorem entered_switched {live : List Nat} {info : Nat → TaskInfo} {s' : Machine} {t : Nat}
    {m' : Mem} {Q' : Queue → List Nat} (hpick : Pick K.tidle Q t Q')
    (hown : t = K.tidle ∨ t ∈ live) (hent : Entered K { s with mem := m' } s' t (info t))
    (hok : (info t).saved.Ok K (info t).top (fun _ => True))
    (ht : Tasks K m' live info Q' (onCpu K t) {t}) (hq : s.tickCounter = 1#16) :
    Switched K ⟨s',s'.currentTaskVar,live,info⟩ s.disableIntrCount Q Q' ∧
      Inv K ⟨s',s'.currentTaskVar,live,info⟩ Q' (onCpu K s'.currentTaskVar) := by
  have hsound := hent.sound hok (fun _ _ _ _ => trivial)
  have hquant := hent.quantum_eq.trans hq
  obtain rfl := hent.current_eq
  obtain rfl := hent.mem_eq
  exact ⟨⟨hpick,⟨{ s with mem := s'.mem },rfl,hent⟩,hok⟩,⟨ht,.running rfl hown hsound,hquant⟩⟩

-- A switch leads to a state that runs the task that was chosen.
theorem yield {live : List Nat} {info : Nat → TaskInfo}
    (h : Tasks K s.mem live info Q [] ∅) (hq : s.tickCounter = 1#16) :
    ∃ Q', Switched K ⟨taskSwitchNext K s,(taskSwitchNext K s).currentTaskVar,live,info⟩
        s.disableIntrCount Q Q' ∧
      Inv K ⟨taskSwitchNext K s,(taskSwitchNext K s).currentTaskVar,live,info⟩ Q'
        (onCpu K (taskSwitchNext K s).currentTaskVar) ∧
      Mem.Agree (taskLinks K {u | u ∈ live})ᶜ s.mem (taskSwitchNext K s).mem := by
  obtain ⟨t,Q',m',hpick,hown,hent,hok,ht,hag⟩ := h.dispatch
  obtain ⟨hsw,hinv⟩ := entered_switched hpick hown hent hok ht hq
  rw [hent.mem_eq]
  exact ⟨Q',hsw,hinv,hag⟩

theorem postJump_eq (K : Image) (h : s.tickCounter = 1#16) : postJump K s =
    taskYield K (Machine.pushL { s.disableInterrupts with tickCounter := QUANTUM_TICKS }
      K.tickHandlerDone) := by
  have hz : s.disableInterrupts.tickCounter - 1#16 = 0#16 := by
    change s.tickCounter - 1#16 = 0#16
    rw [h]
    rfl
  rw [postJump]
  simp only [hz,ne_eq,not_true_eq_false,if_false]

-- The stack of a running task and the field of its structure where its stack pointer is saved.
theorem stack_off_field {t : Nat} {i : TaskInfo} (h : Placed K t i) :
    Set.Ico i.bottom i.top ⊆ (Set.Ico (taskStack t) (taskStack t + 4))ᶜ := by
  intro x hx hx'
  have h1 := hx'.1
  have h2 := hx'.2
  simp only [taskStack] at h1 h2
  have hstruct : x ∈ Set.Ico t (t + 40) := ⟨by omega,by omega⟩
  exact Set.disjoint_left.mp h.apart hstruct hx

-- The machine at the call of task_yield in tick_handler.
def tickSwitch (K : Image) (level : BitVec 3) (s : Machine) (reg : Fin 15 → BitVec 32) (mem : Mem) :
    Machine :=
  Machine.pushL { Machine.disableInterrupts
    { tickHandler level s with reg := reg, mem := mem } with tickCounter := QUANTUM_TICKS }
    K.tickHandlerDone

theorem tickSwitch_fields (K : Image) (level : BitVec 3) (s : Machine) (reg : Fin 15 → BitVec 32)
    (mem : Mem) : ipl (tickSwitch K level s reg mem).sr = 7#3 ∧
      (tickSwitch K level s reg mem).disableIntrCount = s.disableIntrCount + 1#16 ∧
      (tickSwitch K level s reg mem).currentTaskVar = s.currentTaskVar ∧
      (tickSwitch K level s reg mem).tickCounter = 1#16 ∧
      (tickSwitch K level s reg mem).sp = (tickHandler level s).sp - 4 ∧
      (tickSwitch K level s reg mem).mem =
        mem.writeL ((tickHandler level s).sp - 4) K.tickHandlerDone :=
  ⟨ipl_disable _,rfl,rfl,rfl,rfl,rfl⟩

theorem tick_suspend (reg : Fin 15 → BitVec 32) (h : st.Inv K Q cpu) (hv : Tick K level st mem)
    (hsp : st.machine.sp ≤ (st.info st.self).top) (hpc : st.machine.pc < addressSpace)
    (hcur : st.machine.currentTaskVar = st.self ∨ st.machine.currentTaskVar = 0) :
    let s2 := tickSwitch K level st.machine reg mem
    Tasks K s2.suspend.mem st.live st.info Q cpu {st.self} ∧ Machine.SuspendFrame s2 s2.suspend ∧
      s2.suspend.sp + 134 = st.machine.sp ∧
      TickedFrame K s2.suspend.mem (st.info st.self).top s2.suspend.sp st.machine ∧
      Mem.Agree (st.memory K)ᶜ mem s2.suspend.mem := by
  intro s2
  obtain ⟨hmask,-,hc,-,hsp2,hmem2⟩ := tickSwitch_fields K level st.machine reg mem
  have hroom := hv.room
  have hself : st.self ∈ ({st.self} : Set Nat) := rfl
  have hp := h.tasks.placed st.self (.inr (.inr hself))
  have hfield := stack_off_field hp
  have hlow := hp.stack_low
  obtain ⟨hsp1,hf1,hag1⟩ := Machine.tickHandler_frame (s := st.machine) level (by omega) hpc
  have hown : ∀ a b, (st.info st.self).bottom ≤ a → b ≤ (st.info st.self).top →
      Set.Ico a b ⊆ (tasksFoot K st.live st.info {st.self})ᶜ := by
    intro a b ha hb x hx
    exact h.tasks.stack_off hself ⟨ha.trans hx.1,lt_of_lt_of_le hx.2 hb⟩
  have htop1 : Set.Ico (tickHandler level st.machine).sp st.machine.sp ⊆
      tasksFoot K st.live st.info {st.self} ∪
        Set.Ico (st.machine.sp - 68) (st.info st.self).top := by
    intro x hx
    exact .inr ⟨by have := hx.1; omega,lt_of_lt_of_le hx.2 hsp⟩
  -- The exception, the chained handler, and then the return address for task_yield.
  have ht1 : Tasks K mem st.live st.info Q cpu {st.self} := by
    refine (h.tasks.agree (hag1.mono ?_)).agree (hv.agree.mono Set.subset_union_left)
    exact Set.subset_compl_comm.mp (hown _ _ (by omega) hsp)
  have hf2 : Machine.TickFrame st.machine mem (tickHandler level st.machine).sp :=
    hf1.agree (hv.agree.mono htop1)
  have hst : Mem.Agree (Set.Ico st.machine.sp (st.info st.self).top) st.machine.mem mem := by
    refine (hag1.mono (fun x hx hx' => ?_)).trans (hv.agree.mono (fun x hx => .inr ⟨?_,hx.2⟩))
    · have := hx.1
      have := hx'.2
      omega
    · have := hx.1
      omega
  have hag2 : Mem.Agree (Set.Ico s2.sp (tickHandler level st.machine).sp)ᶜ mem s2.mem := by
    rw [show s2.mem = _ from hmem2]
    refine Mem.agree_writeL _ _ (fun x hx => ?_)
    simp only [Set.mem_compl_iff,Set.mem_Ico,show s2.sp = _ from hsp2] at hx
    omega
  have ht2 : Tasks K s2.mem st.live st.info Q cpu {st.self} := by
    refine ht1.agree (hag2.mono (Set.subset_compl_comm.mp (hown _ _ ?_ ?_)))
    · change _ ≤ (tickSwitch K level st.machine reg mem).sp
      omega
    · omega
  have hs2 : s2.sp + 72 = st.machine.sp := by
    change (tickSwitch K level st.machine reg mem).sp + 72 = _
    omega
  have hret2 : s2.mem.readL s2.sp = K.tickHandlerDone := by
    rw [show s2.mem = _ from hmem2,show s2.sp = _ from hsp2]
    exact Mem.readL_writeL_self_of_lt _ (K.code_top _ (by simp [Symbols.resumePoints]))
  obtain ⟨ht3,hf3⟩ := ht2.suspend (s := s2) hself
    (by rw [show s2.currentTaskVar = _ from hc]; exact hcur) (by omega) (by omega)
  have hsp3 := hf3.sp
  -- What was on the stack before is on it still.
  have hkeep : ∀ a b, s2.sp ≤ a → b ≤ (st.info st.self).top →
      Mem.Agree (Set.Ico a b) s2.mem s2.suspend.mem := by
    intro a b ha hb
    refine hf3.agree.mono (fun x hx hx' => ?_)
    have h1 := hx.1
    have h2 := hx.2
    rcases hx' with hx' | hx'
    · have := hx'.2
      omega
    · rw [show s2.currentTaskVar = _ from hc] at hx'
      rcases hcur with hcur | hcur
      · rw [hcur] at hx'
        exact hfield ⟨by omega,by omega⟩ hx'
      · rw [hcur] at hx'
        have := hx'.2
        simp only [taskStack] at this
        omega
  have hkeep1 : ∀ a b, (tickHandler level st.machine).sp ≤ a → b ≤ (st.info st.self).top →
      Mem.Agree (Set.Ico a b) mem s2.suspend.mem := by
    intro a b ha hb
    refine (hag2.mono (fun x hx hx' => ?_)).trans (hkeep a b (by omega) hb)
    have := hx.1
    have := hx'.2
    omega
  refine ⟨ht3,hf3,by omega,⟨⟨?_,?_⟩,?_,hst.trans (hkeep1 _ _ (by omega) le_rfl)⟩,?_⟩
  · rw [hf3.sr,BitVec.ofNat_toNat,BitVec.setWidth_eq]
    exact hmask
  · have he : s2.suspend.sp + 62 = s2.sp := by omega
    rw [he,(hkeep s2.sp (s2.sp + 4) le_rfl (by omega)).readL (Set.Subset.refl _)]
    exact hret2
  · have he : s2.suspend.sp + 66 = (tickHandler level st.machine).sp := by omega
    rw [he]
    exact hf2.agree (hkeep1 _ _ le_rfl hsp)
  · refine (hag2.mono (Set.compl_subset_compl.mpr ?_)).trans
      (suspend_memory hf3 hself (by rwa [show s2.currentTaskVar = _ from hc]) (by omega) (by omega))
    refine (Set.Ico_subset_Ico ?_ ?_).trans (stack_memory hself)
    · change _ ≤ s2.sp
      omega
    · omega

theorem prio_queue {m : Mem} {live : List Nat} {info : Nat → TaskInfo} {run : Set Nat} {t : Nat}
    (h : Tasks K m live info Q cpu run) (ht : t ∈ live) :
    runnablePriorityQueuePtr K m t = K.header (.ready (info t).prio) := by
  rw [runnablePriorityQueuePtr_eq,h.prio t ht]
  rfl

theorem suspendAs_self (st : TaskState) (sv : Saved) :
    st.suspendAs sv st.self = { st.info st.self with saved := sv } := update_self _ _ _

theorem taskYield_of {t : Nat} (h : s.suspend.currentTaskVar = t) : taskYield K s =
    if t = 0 ∨ t = K.tidle then taskSwitchNext K s.suspend
    else taskSwitchNext K { s.suspend with
      mem := listAddTail s.suspend.mem (s.suspend.reg 0).toNat
        (runnablePriorityQueuePtr K s.suspend.mem t) t } := by
  subst h
  rfl

-- A running task that has been suspended goes to the end of its queue, and the switch is made.
theorem yield_requeued {sv : Saved}
    (h : Tasks K s.suspend.mem st.live (st.suspendAs sv) Q (onCpu K st.self) ∅)
    (hs : st.self = K.tidle ∨ st.self ∈ st.live) (hcur : s.suspend.currentTaskVar = st.self)
    (hq : s.suspend.tickCounter = 1#16) (hsv : ∀ c mask, sv ≠ .waiting c mask) :
    ∃ Q', Switched K ⟨taskYield K s,(taskYield K s).currentTaskVar,st.live,st.suspendAs sv⟩
        s.suspend.disableIntrCount (st.requeued K Q) Q' ∧
      Inv K ⟨taskYield K s,(taskYield K s).currentTaskVar,st.live,st.suspendAs sv⟩ Q'
        (onCpu K (taskYield K s).currentTaskVar) ∧
      Mem.Agree (taskLinks K {u | u ∈ st.live})ᶜ s.suspend.mem (taskYield K s).mem := by
  rw [taskYield_of hcur,requeued]
  rcases hs with hti | hlive
  · rw [if_pos (.inr hti),if_pos hti]
    rw [show onCpu K st.self = [] from if_pos hti] at h
    exact yield h hq
  · have hne : st.self ≠ K.tidle := h.ne_tidle hlive
    have hpos : st.self ≠ 0 := by
      have := (h.placed st.self (.inr (.inl hlive))).low
      omega
    rw [if_neg (by tauto),if_neg hne]
    rw [show onCpu K st.self = [st.self] from if_neg hne] at h
    rw [prio_queue h hlive,suspendAs_self]
    obtain ⟨hadd,haga⟩ := h.add_tail (c := .ready (st.info st.self).prio)
      ⟨by rw [suspendAs_self],by rw [suspendAs_self]; exact hsv⟩ (Set.notMem_empty _)
      (s.suspend.reg 0).toNat
    obtain ⟨Q',hsw,hi,hag⟩ := yield (s := { s.suspend with mem := _ }) hadd hq
    exact ⟨Q',hsw,hi,haga.trans hag⟩

theorem tick_post (K : Image) (level : BitVec 3) {reg : Fin 15 → BitVec 32}
    (h : st.machine.tickCounter = 1#16) :
    postJump K { tickHandler level st.machine with reg := reg, mem := mem } =
      taskYield K (tickSwitch K level st.machine reg mem) := by
  rw [postJump_eq K (s := { tickHandler level st.machine with reg := reg, mem := mem }) h]
  rfl

theorem Inv.tick {reg : Fin 15 → BitVec 32} {st' : TaskState} (h : st.Inv K Q cpu)
    (hv : Tick K level st mem)
    (hrun : K.Own st.machine.pc ∨ st.machine.pc ∈ K.rtes ++ K.rtss)
    (he : st.next K level (.tick reg mem) = some st') :
    ∃ Q', Switched K st' (st.machine.disableIntrCount + 1#16) (st.requeued K Q) Q' ∧
      st'.Inv K Q' (onCpu K st'.self) ∧ st'.live = st.live ∧
      st'.info = st.suspendAs (.ticked st.machine) ∧
      Mem.Agree (st.memory K)ᶜ mem st'.machine.mem := by
  obtain ⟨hc,hs,hsnd,rfl⟩ := h.phase.run hrun
  obtain ⟨s2,hs2⟩ : ∃ s2, s2 = tickSwitch K level st.machine reg mem := ⟨_,rfl⟩
  obtain ⟨ht,hf,hsp,hframe,hmem⟩ := tick_suspend reg h hv hsnd.sp_le hsnd.pc_lt (.inl hc)
  obtain ⟨-,hcount,hcur,hquant,-⟩ := tickSwitch_fields K level st.machine reg mem
  rw [← hs2] at ht hf hsp hframe hmem hcount hcur hquant
  have hlinks : (st.memory K)ᶜ ⊆ (taskLinks K {u | u ∈ st.live})ᶜ :=
    Set.compl_subset_compl.mpr (links_memory (fun _ hu => .inr (.inl hu)))
  have hcur2 : s2.currentTaskVar = st.self := hcur.trans hc
  simp only [next,tick_post K level h.quantum,← hs2,Option.some.injEq] at he
  subst he
  have hroom := hv.room
  have hpark : Parked K s2.suspend.mem st.self
      { st.info st.self with saved := .ticked st.machine } := by
    have hsaved := hf.saved
    rw [hcur2] at hsaved
    refine ⟨?_,?_,hsnd⟩
    · rw [hsaved]
      simp only
      omega
    · rw [hsaved]
      exact hframe
  have hidle : Tasks K s2.suspend.mem st.live (st.suspendAs (.ticked st.machine)) Q
      (onCpu K st.self) ∅ := by
    refine (ht.set_saved (t := st.self) rfl (.ticked st.machine)).park_only (fun _ => ?_)
      (fun _ c mask => ?_)
    · rw [update_self]
      exact hpark
    · rw [update_self]
      simp
  have hcur3 : s2.suspend.currentTaskVar = st.self := by
    rw [hf.eq]
    exact hcur2
  have hcount3 : s2.suspend.disableIntrCount = st.machine.disableIntrCount + 1#16 := by
    rw [hf.eq]
    exact hcount
  have hquant3 : s2.suspend.tickCounter = 1#16 := by
    rw [hf.eq]
    exact hquant
  obtain ⟨Q',hsw,hi,hag⟩ := yield_requeued hidle hs hcur3 hquant3 (fun _ _ => Saved.noConfusion)
  rw [hcount3] at hsw
  exact ⟨Q',hsw,hi,rfl,rfl,hmem.trans (hag.mono hlinks)⟩

end TaskState
end RoscoM68k
