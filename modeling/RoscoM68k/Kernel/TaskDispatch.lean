import RoscoM68k.Kernel.TaskState

namespace RoscoM68k
open Function

-- The choice of the next task: the head of the highest queue that is not empty.
inductive Pick (idle : Nat) (Q : Queue → List Nat) : Nat → (Queue → List Nat) → Prop where
  | idle (h : ∀ p, readies Q p = []) : Pick idle Q idle Q
  | task {p t ts} (htop : (readies Q).Top p) (hq : Q (.ready p) = t :: ts) :
      Pick idle Q t (update Q (.ready p) ts)

def onCpu (K : Image) (t : Nat) : List Nat := if t = K.tidle then [] else [t]

section Regions

variable {K : Image} {m : Mem} {live : List Nat} {info : Nat → TaskInfo} {Q : Queue → List Nat}
  {cpu : List Nat} {run : Set Nat} {u x : Nat}

theorem Tasks.off_other (h : Tasks K m live info Q cpu run) (hu : u ∈ run)
    (hx : x ∈ (info u).footprint u) (hno : u = K.tidle ∨ u ∈ live →
      x ∉ Set.Ico u (u + 0x10) ∧ x ∉ Set.Ico (u + 0x1c) (u + 40)) :
    x ∉ tasksFoot K live info run := by
  rintro (⟨c,h1,h2⟩ | ⟨t,ht,hxt⟩)
  · have := (h.placed u (.inr (.inr hu))).off c x hx
    omega
  · by_cases hut : t = u
    · subst hut
      obtain ⟨h1,h2⟩ := hno ht
      rcases hxt with ⟨hxt,hw⟩ | ⟨hr,-⟩
      · simp only [Set.mem_Ico] at h1 h2 hxt
        have := hw hu
        omega
      · exact hr hu
    · refine Set.disjoint_left.mp (h.apart u t (.inr (.inr hu)) (ht.imp_right .inl) (Ne.symm hut))
        hx ?_
      rcases hxt with ⟨hxt,-⟩ | ⟨-,hxt⟩
      · exact .inl hxt
      · exact .inr hxt

-- The links of a task, its fields stack_addr to sig_wait and its stack.
def TaskInfo.touched (i : TaskInfo) (t : Nat) : Set Nat :=
  Set.Ico t (t + 8) ∪ Set.Ico (t + 0x10) (t + 0x1c) ∪ Set.Ico i.bottom i.top

-- What the scheduler may write to on behalf of its tasks and of the null task.
def taskMemory (K : Image) (live : List Nat) (info : Nat → TaskInfo) (run : Set Nat) : Set Nat :=
  {x | x ∈ Set.Ico (taskStack 0) (taskStack 0 + 4) ∨ (∃ c, K.header c ≤ x ∧ x < K.header c + 12) ∨
    ∃ t, (t = K.tidle ∨ t ∈ live ∨ t ∈ run) ∧ x ∈ (info t).touched t}

theorem links_memory {ts : Set Nat} (h : ∀ t ∈ ts, t = K.tidle ∨ t ∈ live ∨ t ∈ run) :
    taskLinks K ts ⊆ taskMemory K live info run := by
  rintro x (hx | ⟨t,ht,h1,h2⟩)
  · exact .inr (.inl hx)
  · exact .inr (.inr ⟨t,h t ht,.inl (.inl ⟨h1,h2⟩)⟩)

theorem stack_memory (hu : u ∈ run) :
    Set.Ico (info u).bottom (info u).top ⊆ taskMemory K live info run :=
  fun _ hx => .inr (.inr ⟨u,.inr (.inr hu),.inr hx⟩)

theorem field_memory (hu : u ∈ run) {a b : Nat} (ha : u + 0x10 ≤ a) (hb : b ≤ u + 0x1c) :
    Set.Ico a b ⊆ taskMemory K live info run :=
  fun _ hx => .inr (.inr ⟨u,.inr (.inr hu),.inl (.inr ⟨ha.trans hx.1,lt_of_lt_of_le hx.2 hb⟩)⟩)

-- A running task's stack is its own, and so are its fields stack_addr and sig_wait.
theorem Tasks.stack_off (h : Tasks K m live info Q cpu run) (hu : u ∈ run)
    (hx : x ∈ Set.Ico (info u).bottom (info u).top) : x ∉ tasksFoot K live info run := by
  have hap := (h.placed u (.inr (.inr hu))).apart
  rw [Set.disjoint_left] at hap
  refine h.off_other hu (.inr hx) (fun _ => ⟨fun hc => ?_,fun hc => ?_⟩)
  · exact hap ⟨hc.1,by have := hc.2; omega⟩ hx
  · exact hap ⟨by have := hc.1; omega,hc.2⟩ hx

theorem Tasks.field_off (h : Tasks K m live info Q cpu run) (hu : u ∈ run)
    (hx : x ∈ Set.Ico (u + 0x10) (u + 0x1c)) : x ∉ tasksFoot K live info run := by
  have h1 := hx.1
  have h2 := hx.2
  refine h.off_other hu (.inl ⟨by omega,by omega⟩) (fun _ => ?_)
  simp only [Set.mem_Ico]
  omega

-- `suspend` stores to stack_addr of the null task too, in the vector table.
theorem Tasks.low_off (h : Tasks K m live info Q cpu run) (hx : x < 1024) :
    x ∉ tasksFoot K live info run := by
  rintro (⟨c,h1,h2⟩ | ⟨t,ht,hxt⟩)
  · have := K.headers_low _ (header_mem K c)
    omega
  · have hp := h.placed t (ht.imp_right .inl)
    have h1 := hp.low
    have h2 := hp.stack_low
    rcases hxt with ⟨hxt,-⟩ | ⟨-,hxt⟩
    · have := hxt.1
      omega
    · have := hxt.1
      omega

theorem Tasks.suspend {s : Machine} (h : Tasks K s.mem live info Q cpu run) (hu : u ∈ run)
    (hc : s.currentTaskVar = u ∨ s.currentTaskVar = 0) (hlow : (info u).bottom + 62 ≤ s.sp)
    (htop : s.sp ≤ (info u).top) :
    Tasks K s.suspend.mem live info Q cpu run ∧ Machine.SuspendFrame s s.suspend := by
  have hp := h.placed u (.inr (.inr hu))
  have hlim := hp.stack_top
  have hstk := hp.stack_low
  have hf : Machine.SuspendFrame s s.suspend := by
    refine Machine.suspend_frame (by omega) (by omega) (fun x h1 h2 => ?_)
    simp only [taskStack] at h1 h2
    rcases hc with hc | hc
    · rw [hc] at h1 h2
      by_contra hno
      have hstruct : x ∈ Set.Ico u (u + 40) := ⟨by omega,by omega⟩
      exact Set.disjoint_left.mp hp.apart hstruct ⟨by omega,by omega⟩
    · rw [hc] at h1 h2
      omega
  have hsp := hf.sp
  refine ⟨h.agree (hf.agree.mono (fun x hx hx' => ?_)),hf⟩
  rcases hx' with hx' | hx'
  · exact h.stack_off hu (x := x) ⟨by have := hx'.1; omega,by have := hx'.2; omega⟩ hx
  · have h1 := hx'.1
    have h2 := hx'.2
    simp only [taskStack] at h1 h2
    rcases hc with hc | hc
    · rw [hc] at h1 h2
      exact h.field_off hu ⟨h1,by omega⟩ hx
    · rw [hc] at h1 h2
      exact h.low_off (by omega) hx

theorem suspend_memory {s : Machine} (hf : Machine.SuspendFrame s s.suspend) (hu : u ∈ run)
    (hc : s.currentTaskVar = u ∨ s.currentTaskVar = 0) (hlow : (info u).bottom + 62 ≤ s.sp)
    (htop : s.sp ≤ (info u).top) :
    Mem.Agree (taskMemory K live info run)ᶜ s.mem s.suspend.mem := by
  have hsp := hf.sp
  refine hf.agree.mono (Set.compl_subset_compl.mpr (Set.union_subset ?_ ?_))
  · exact (Set.Ico_subset_Ico (by omega) htop).trans (stack_memory hu)
  · rcases hc with hc | hc
    · rw [hc]
      exact field_memory hu le_rfl (by simp only [taskStack]; omega)
    · rw [hc]
      exact fun _ hx => .inl hx

end Regions

section Switch

variable {K : Image} {m : Mem} {s : Machine} {live : List Nat} {info : Nat → TaskInfo}
  {Q : Queue → List Nat} {cpu : List Nat} {run : Set Nat} {t : Nat}

theorem onCpu_tidle (K : Image) : onCpu K K.tidle = [] := if_pos rfl

theorem Tasks.ne_tidle (h : Tasks K m live info Q cpu run) (ht : t ∈ live) : t ≠ K.tidle := by
  rintro rfl
  exact h.idle ht

theorem Tasks.onCpu_live (h : Tasks K m live info Q cpu run) (ht : t ∈ live) :
    onCpu K t = [t] := if_neg (h.ne_tidle ht)

theorem Tasks.park_only (h : Tasks K m live info Q cpu {t})
    (hp : t = K.tidle ∨ t ∈ live → Parked K m t (info t))
    (hw : t = K.tidle ∨ t ∈ cpu → ∀ c mask, (info t).saved ≠ .waiting c mask) :
    Tasks K m live info Q cpu ∅ := by
  rw [show ({t} : Set Nat) = insert t ∅ from (insert_empty_eq t).symm] at h
  exact h.park hp hw

theorem Tasks.pick (h : Tasks K m live info Q [] run) (hidle : K.tidle ∉ run) :
    ∃ t Q', Pick K.tidle Q t Q' ∧ (taskNext K m).2 = t ∧ (t = K.tidle ∨ t ∈ live) ∧ t ∉ run ∧
      Tasks K (taskNext K m).1 live info Q' (onCpu K t) run ∧
      Mem.Agree (taskLinks K {u | u ∈ live})ᶜ m (taskNext K m).1 := by
  rcases (readies Q).empty_or_top with he | ⟨p,htop⟩
  · refine ⟨K.tidle,Q,.idle he,?_,.inl rfl,hidle,?_⟩
    · rw [taskNext_empty h.queues he]
    · rw [taskNext_empty h.queues he,onCpu_tidle]
      exact ⟨h,.refl _ _⟩
  · obtain ⟨t,ts,hq⟩ := List.exists_cons_of_ne_nil htop.busy
    have hq' : Q (.ready p) = [] ++ t :: ts := hq
    have htq : t ∈ Q (.ready p) := by simp [hq']
    have htl := h.mem_live htq
    have hnr : t ∉ run := fun hr => h.unlisted t hr _ htq
    have hnext := taskNext_top h.queues htop hq
    obtain ⟨hd,hpk,hag⟩ := h.delete hq'
    refine ⟨t,update Q (.ready p) ts,.task htop hq,?_,.inr htl,hnr,?_⟩
    · rw [hnext]
    · rw [hnext,h.onCpu_live htl]
      exact ⟨hd.park (fun _ => hpk) (fun _ => h.awake t (.inr (.inr ⟨p,htq⟩)) hnr),hag⟩

-- Where a switch to a task that has a frame leads.
structure Entered (K : Image) (s s' : Machine) (t : Nat) (i : TaskInfo) : Prop where
  back : ∃ r sp sr pc, ipl sr = 7#3 ∧ s' = s.entered t r sp sr pc ∧
    Back K s.mem i.top i.saved r sp pc

variable {s' : Machine} {i : TaskInfo}

theorem Entered.mem_eq (h : Entered K s s' t i) : s'.mem = s.mem := by
  obtain ⟨r,sp,sr,pc,-,rfl,-⟩ := h
  rw [Machine.entered,Machine.enable_fields]

theorem Entered.current_eq (h : Entered K s s' t i) : s'.currentTaskVar = t := by
  obtain ⟨r,sp,sr,pc,-,rfl,-⟩ := h
  rw [Machine.entered,Machine.enable_fields]

theorem Entered.quantum_eq (h : Entered K s s' t i) : s'.tickCounter = s.tickCounter := by
  obtain ⟨r,sp,sr,pc,-,rfl,-⟩ := h
  rw [Machine.entered,Machine.enable_fields]

theorem Parked.entered (h : Parked K s.mem t i) : Entered K s (switchTo K s t) t i :=
  ⟨switchTo_spec h.frame⟩

theorem tail_not_own {pc : Nat} (h : pc ∈ K.rtes ++ K.rtss) : ¬ K.Own pc := by
  intro ho
  refine ho.off ?_
  simp only [Symbols.rtes,Symbols.rtss,Symbols.interruptible,List.mem_append,List.mem_cons,
    List.not_mem_nil,or_false] at h ⊢
  tauto

-- Whatever way it was suspended, the task gets back to its own code.
theorem Entered.sound {ok : BitVec 16 → Prop} (h : Entered K s s' t i)
    (hok : i.saved.Ok K i.top ok)
    (hwait : ∀ c mask sig, i.saved = .waiting c mask ∨ i.saved = .woken c mask sig → ok s'.sr) :
    Sound K i.top ok s' := by
  obtain ⟨r,sp,sr,pc,-,rfl,hb⟩ := h
  have hf : s.entered t r sp sr pc = { s with
      currentTaskVar := t, reg := r, sp := sp, pc := pc, sr := (s.entered t r sp sr pc).sr,
      disableIntrCount := (s.entered t r sp sr pc).disableIntrCount } := by
    rw [Machine.entered,Machine.enable_fields]
  obtain ⟨e,he⟩ : ∃ e, e = s.entered t r sp sr pc := ⟨_,rfl⟩
  rw [← he] at hf hwait ⊢
  have hpc : e.pc = pc := by rw [hf]
  have hsp : e.sp = sp := by rw [hf]
  have hmem : e.mem = s.mem := by rw [hf]
  have hrts : ∀ {c : Machine}, pc = K.enableReturn → sp = c.sp → c.sp + 4 ≤ i.top →
      K.Own (c.mem.readL c.sp) → Mem.Agree (Set.Ico c.sp i.top) c.mem s.mem → ok e.sr →
      Sound K i.top ok e := by
    intro c h1 h2 h3 h4 h5 h6
    have hret : e.rts.pc = c.mem.readL c.sp := by
      simp only [Machine.rts,hmem,hsp,h2]
      exact h5.readL (Set.Ico_subset_Ico_right h3)
    refine .rts (by simp [hpc,h1,Symbols.rtss]) (by omega) (.own (hret ▸ h4) ?_ h6)
    simp only [Machine.rts,hsp,h2]
    exact h3
  generalize hsv : i.saved = sv at hb hok hwait
  cases hb with
  | @fresh entry exit r sp pc hp htop hsr hent hx =>
    refine .rte ?_ (by omega) (.own ?_ ?_ ?_)
    · rw [hpc]
      rcases hp with rfl | rfl <;> simp [Symbols.rtes]
    · simp only [Machine.rte,hmem,hsp,hent]
      exact hok.1
    · simp only [Machine.rte,hsp]
      omega
    · simp only [Machine.rte,hmem,hsp,hsr]
      exact hok.2
  | @ticked c sp hcs hsr hcpc hst =>
    have hsnd : Sound K i.top ok c := hok
    have hle := hsnd.sp_le
    refine .rte (by simp [hpc,Symbols.rtes]) (by omega) (hsnd.congr ?_ ?_ ?_ ?_)
    · simp only [Machine.rte,hmem,hsp,hcpc]
    · simp only [Machine.rte,hsp,hcs]
    · simp only [Machine.rte,hmem,hsp,hsr]
      rw [BitVec.ofNat_toNat,BitVec.setWidth_eq]
    · simp only [Machine.rte,hmem]
      exact hst
  | waiting hst => exact hrts rfl rfl hok.1 hok.2 hst (hwait _ _ 0 (.inl rfl))
  | woken hst => exact hrts rfl rfl hok.1 hok.2.1 hst (hwait _ _ _ (.inr rfl))

theorem Tasks.dispatch (h : Tasks K s.mem live info Q [] ∅) :
    ∃ t Q' m', Pick K.tidle Q t Q' ∧ (t = K.tidle ∨ t ∈ live) ∧
      Entered K { s with mem := m' } (taskSwitchNext K s) t (info t) ∧
      (info t).saved.Ok K (info t).top (fun _ => True) ∧
      Tasks K m' live info Q' (onCpu K t) {t} ∧
      Mem.Agree (taskLinks K {u | u ∈ live})ᶜ s.mem m' := by
  obtain ⟨t,Q',hpick,ht,hown,-,h',hag⟩ := h.pick (Set.notMem_empty _)
  obtain ⟨m',hm'⟩ : ∃ m', m' = (taskNext K s.mem).1 := ⟨_,rfl⟩
  rw [← hm'] at h' hag
  have hpk := h'.parked t hown (Set.notMem_empty _)
  refine ⟨t,Q',m',hpick,hown,?_,hpk.ok,?_,hag⟩
  · rw [taskSwitchNext,ht,← hm']
    exact Parked.entered (s := { s with mem := m' }) hpk
  · have hun := h'.unpark (t := t) (hown.imp_right (fun hl => by simp [h'.onCpu_live hl]))
    rw [show ({t} : Set Nat) = insert t ∅ from (insert_empty_eq t).symm]
    exact hun

end Switch
end RoscoM68k
