import RoscoM68k.Kernel.TaskCalls

namespace RoscoM68k
open Function

section Release

variable {K : Image} {s s' s'' : Machine}

-- Only the memory and the interrupts may differ.
structure Machine.Same (s s' : Machine) : Prop where
  reg : s'.reg = s.reg
  sp : s'.sp = s.sp
  pc : s'.pc = s.pc
  current : s'.currentTaskVar = s.currentTaskVar
  quantum : s'.tickCounter = s.tickCounter

theorem Machine.Same.trans (h : s.Same s') (h' : s'.Same s'') : s.Same s'' :=
  ⟨h'.reg.trans h.reg,h'.sp.trans h.sp,h'.pc.trans h.pc,h'.current.trans h.current,
    h'.quantum.trans h.quantum⟩

theorem Machine.same_enable (s : Machine) : s.Same s.enableInterrupts := by
  rw [Machine.enable_fields]
  exact ⟨rfl,rfl,rfl,rfl,rfl⟩

theorem Machine.same_disable (s : Machine) : s.Same s.disableInterrupts :=
  ⟨rfl,rfl,rfl,rfl,rfl⟩

theorem Machine.same_section (s : Machine) (m : Mem) :
    s.Same { s.disableInterrupts with mem := m } := ⟨rfl,rfl,rfl,rfl,rfl⟩

theorem pmmFree_same {addr size : Nat} (h : pmmFree K s addr size = some s') : s.Same s' := by
  obtain ⟨m,-,rfl⟩ := Option.map_eq_some_iff.mp h
  exact (s.same_section m).trans (Machine.same_enable _)

theorem slabFree_same {a0 d1 : Nat} (h : slabFree K s a0 d1 = some s') : s.Same s' := by
  rw [slabFree] at h
  split at h
  · obtain ⟨s1,h1,rfl⟩ := Option.map_eq_some_iff.mp h
    exact ((s.same_section _).trans (pmmFree_same h1)).trans (Machine.same_enable _)
  · cases h
    exact (s.same_section _).trans (Machine.same_enable _)

theorem taskDoneRelease_same {this : Nat} (h : taskDoneRelease K s this = some s') : s.Same s' := by
  rw [taskDoneRelease] at h
  split at h
  · cases h
  · next s1 h1 =>
    obtain ⟨s2,h2,rfl⟩ := Option.map_eq_some_iff.mp h
    have hstack := pmmFree_same h1
    have hstruct := slabFree_same h2
    exact ((s.same_disable.trans hstack).trans hstruct).trans (Machine.same_enable _)

end Release

namespace TaskState

variable {K : Image} {level : BitVec 3} {st st' : TaskState} {Q : Queue → List Nat}
  {cpu : List Nat} {mem : Mem}

theorem Inv.exit (h : st.Inv K Q cpu) (hv : K.Own st.machine.pc ∧ st.self ≠ K.tidle)
    (he : st.next K level .exit = some st') : st'.Inv K Q [] ∧ cpu = [st.self] := by
  obtain ⟨hc,hs,hsnd,rfl⟩ := h.phase.run (.inl hv.1)
  have hlive := hs.resolve_left hv.2
  have hcpu : onCpu K st.self = [st.self] := if_neg hv.2
  cases he
  have ht := h.tasks
  rw [hcpu] at ht
  have hgone : ¬ (st.self = K.tidle ∨ st.self ∈ st.live.erase st.self) := by
    rintro (hc | hc)
    · exact hv.2 hc
    · exact h.tasks.nodup.not_mem_erase hc
  exact ⟨⟨ht.die,.leaving rfl hgone hsnd.sp_le (.inl rfl),h.quantum⟩,hcpu⟩

theorem Phase.leave (h : st.Phase K cpu)
    (hpc : st.machine.pc = K.taskDoneDisable ∨ st.machine.pc = K.taskYield) :
    st.machine.currentTaskVar = 0 ∧ ¬ (st.self = K.tidle ∨ st.self ∈ st.live) ∧
      st.machine.sp ≤ (st.info st.self).top ∧ cpu = [] := by
  cases h with
  | running _ _ hsnd =>
    rcases hsnd.pc_cases with hown | htail
    · exact absurd hown (exit_not_own (hpc.imp_right .inl))
    · exact absurd htail (exit_not_tail (hpc.imp_right .inl))
  | leaving hc hs hsp _ => exact ⟨hc,hs,hsp,rfl⟩
  | switching _ _ hp _ =>
    rw [hp] at hpc
    rcases hpc with hpc | hpc
    · exact absurd hpc (K.code_distinct (i := 15) (j := 13) rfl rfl (by decide))
    · exact absurd hpc (K.code_distinct (i := 15) (j := 14) rfl rfl (by decide))

theorem Inv.release (h : st.Inv K Q cpu) (hv : st.Valid K level .release)
    (he : st.next K level .release = some st') : st'.Inv K Q cpu := by
  obtain ⟨hpc,s,hs,hag⟩ := hv
  obtain ⟨hc,hgone,hsp,rfl⟩ := h.phase.leave (.inl hpc)
  have hsame := taskDoneRelease_same hs
  rw [next,hs] at he
  cases he
  refine ⟨h.tasks.agree hag,.leaving ?_ hgone ?_ (.inr rfl),?_⟩
  · exact hsame.current.trans hc
  · exact hsame.sp.le.trans hsp
  · exact hsame.quantum.trans h.quantum

theorem taskPick_eq {s : Machine} {m : Mem} {t : Nat} (h : taskNext K s.suspend.mem = (m,t)) :
    taskPick K s = { s.suspend with
      mem := m
      reg := update s.suspend.reg 9 (BitVec.ofNat 32 t)
      pc := K.switchA1 } := by
  rw [taskPick,h]

-- The search of task_yield for an exiting task, on whose stack the processor still works.
theorem Inv.pick (h : st.Inv K Q cpu) (hv : st.Valid K level .pick)
    (he : st.next K level .pick = some st') :
    ∃ Q', Pick K.tidle Q (st'.machine.reg 9).toNat Q' ∧
      st'.Inv K Q' (onCpu K (st'.machine.reg 9).toNat) ∧
      Mem.Agree (Set.Ico (st.machine.sp - 62) st.machine.sp ∪
        Set.Ico (taskStack 0) (taskStack 0 + 4) ∪ taskLinks K {u | u ∈ st.live})ᶜ
        st.machine.mem st'.machine.mem := by
  obtain ⟨hpc,hroom⟩ := hv
  obtain ⟨hc,hgone,hsp,rfl⟩ := h.phase.leave (.inr hpc)
  have hself : st.self ∈ ({st.self} : Set Nat) := rfl
  obtain ⟨ht,hf⟩ := h.tasks.suspend hself (.inr hc) hroom hsp
  have hidle : K.tidle ∉ ({st.self} : Set Nat) := fun hc => hgone (.inl hc.symm)
  obtain ⟨t,Q',hpick,hnext,hown,hne,ht',hag⟩ := ht.pick hidle
  have htop : t < addressSpace := by
    have := (ht.placed t (hown.imp_right .inl)).top
    omega
  obtain ⟨m,hm⟩ : ∃ m, m = (taskNext K st.machine.suspend.mem).1 := ⟨_,rfl⟩
  rw [← hm] at ht' hag
  obtain ⟨s,hs⟩ : ∃ s, s = taskPick K st.machine := ⟨_,rfl⟩
  have hset := hs.trans (taskPick_eq (Prod.ext hm.symm hnext))
  have hmem : s.mem = m := by rw [hset]
  have hlabel : s.pc = K.switchA1 := by rw [hset]
  have hreg : (s.reg 9).toNat = t := by
    rw [hset]
    dsimp only
    rw [update_self]
    exact Nat.mod_eq_of_lt htop
  have hcur : s.currentTaskVar = 0 := by
    rw [hset]
    exact hc
  have hquant : s.tickCounter = 1#16 := by
    rw [hset]
    exact h.quantum
  rw [← hmem] at ht' hag
  simp only [next,← hs,Option.some.injEq] at he
  subst he
  dsimp only
  rw [hreg]
  refine ⟨Q',hpick,⟨ht',?_,hquant⟩,?_⟩
  · have hph : Phase K { st with machine := s } (onCpu K (s.reg 9).toNat) :=
      .switching hcur hgone hlabel (hreg.symm ▸ hown)
    rwa [hreg] at hph
  · have hfsp := hf.sp
    have hstack : st.machine.suspend.sp = st.machine.sp - 62 := by omega
    have hs := hf.agree
    rw [hc,hstack] at hs
    exact (hs.mono (Set.compl_subset_compl.mpr Set.subset_union_left)).trans
      (hag.mono (Set.compl_subset_compl.mpr Set.subset_union_right))

-- An exiting task has no frame, and needs none.
theorem gone_parked {m : Mem} {live : List Nat} {info : Nat → TaskInfo} {t : Nat}
    (h : Tasks K m live info Q cpu {t}) (ht : ¬ (t = K.tidle ∨ t ∈ live)) :
    Tasks K m live info Q cpu ∅ :=
  h.park_only (fun hc => absurd hc ht) (fun hc => absurd (hc.imp_right h.cpu_live) ht)

theorem Inv.switch (h : st.Inv K Q cpu) (hv : st.machine.pc = K.switchA1)
    (he : st.next K level .switch = some st') :
    st'.self = (st.machine.reg 9).toNat ∧ st'.live = st.live ∧ st'.info = st.info ∧
      st'.Inv K Q cpu ∧ cpu = onCpu K st'.self ∧
      Entered K st.machine st'.machine st'.self (st'.info st'.self) ∧
      (st'.info st'.self).saved.Ok K (st'.info st'.self).top (fun _ => True) ∧
      st'.machine.mem = st.machine.mem := by
  have hexit : st.machine.pc = K.taskDoneDisable ∨ st.machine.pc = K.taskYield ∨
      st.machine.pc = K.switchA1 := .inr (.inr hv)
  cases h.phase with
  | running _ _ hsnd =>
    rcases hsnd.pc_cases with hown | htail
    · exact absurd hown (exit_not_own hexit)
    · exact absurd htail (exit_not_tail hexit)
  | leaving _ _ _ hp =>
    rw [hv] at hp
    rcases hp with hp | hp
    · exact absurd hp (K.code_distinct (i := 15) (j := 13) rfl rfl (by decide))
    · exact absurd hp (K.code_distinct (i := 15) (j := 14) rfl rfl (by decide))
  | switching hc hgone _ hown =>
    obtain ⟨t,ht⟩ : ∃ t, t = (st.machine.reg 9).toNat := ⟨_,rfl⟩
    rw [← ht] at hown
    have hfree := gone_parked h.tasks hgone
    rw [← ht] at hfree
    have hpk := hfree.parked t hown (Set.notMem_empty _)
    have hent := Parked.entered hpk
    have hcur := hent.current_eq
    have hun := hfree.unpark (t := t)
      (hown.imp_right (fun hl => by rw [hfree.onCpu_live hl]; exact List.mem_singleton_self t))
    rw [insert_empty_eq] at hun
    obtain ⟨s,hs⟩ : ∃ s, s = switchTo K st.machine t := ⟨_,rfl⟩
    rw [← hs] at hent hcur
    simp only [next,← ht,← hs,hcur,Option.some.injEq] at he
    subst he
    rw [← ht]
    refine ⟨rfl,rfl,rfl,⟨?_,.running hcur hown (hent.sound hpk.ok (fun _ _ _ _ => trivial)),?_⟩,
      rfl,hent,hpk.ok,hent.mem_eq⟩
    · dsimp only
      rw [hent.mem_eq]
      exact hun
    · exact hent.quantum_eq.trans h.quantum

-- A tick ends an exit that has got no further than this: the next task is switched to.
theorem Inv.tick_leaving {reg : Fin 15 → BitVec 32} (h : st.Inv K Q cpu) (hv : Tick K level st mem)
    (hpc : st.machine.pc = K.taskDoneDisable ∨ st.machine.pc = K.taskYield)
    (he : st.next K level (.tick reg mem) = some st') :
    ∃ Q', Switched K st' (st.machine.disableIntrCount + 1#16) Q Q' ∧
      st'.Inv K Q' (onCpu K st'.self) ∧ st'.live = st.live ∧
      st'.info = st.suspendAs (.ticked st.machine) ∧
      Mem.Agree (st.memory K)ᶜ mem st'.machine.mem := by
  obtain ⟨hc,hgone,hsp0,rfl⟩ := h.phase.leave hpc
  have hself : st.self ∈ ({st.self} : Set Nat) := rfl
  have htop : st.machine.pc < addressSpace := by
    rcases hpc with hpc | hpc
    · exact hpc ▸ K.code_top _ (by simp [Symbols.interruptible])
    · exact hpc ▸ K.code_top _ (by simp [Symbols.interruptible])
  obtain ⟨s2,hs2⟩ : ∃ s2, s2 = tickSwitch K level st.machine reg mem := ⟨_,rfl⟩
  obtain ⟨ht,hf,-,-,hmem⟩ := tick_suspend reg h hv hsp0 htop (.inr hc)
  obtain ⟨-,hcount,hcur,hquant,-⟩ := tickSwitch_fields K level st.machine reg mem
  rw [← hs2] at ht hf hmem hcount hcur hquant
  have hcur3 : s2.suspend.currentTaskVar = 0 := by
    rw [hf.eq]
    exact hcur.trans hc
  have hcount3 : s2.suspend.disableIntrCount = st.machine.disableIntrCount + 1#16 := by
    rw [hf.eq]
    exact hcount
  have hquant3 : s2.suspend.tickCounter = 1#16 := by
    rw [hf.eq]
    exact hquant
  have hfree := gone_parked (ht.set_saved (t := st.self) hself (.ticked st.machine)) hgone
  simp only [next,tick_post K level h.quantum,← hs2,Option.some.injEq] at he
  subst he
  obtain ⟨Q',hsw,hi,hag⟩ := yield hfree hquant3
  rw [hcount3] at hsw
  obtain ⟨s3,hs3⟩ : ∃ s3, s3 = taskSwitchNext K s2.suspend := ⟨_,rfl⟩
  rw [taskYield_of hcur3,if_pos (.inl rfl),← hs3]
  rw [← hs3] at hsw hi hag
  refine ⟨Q',hsw,hi,rfl,rfl,hmem.trans (hag.mono ?_)⟩
  exact Set.compl_subset_compl.mpr (links_memory (fun _ hu => .inr (.inl hu)))

end TaskState
end RoscoM68k
