import RoscoM68k.Kernel.TaskExit
import RoscoM68k.Kernel.SlabRep

namespace RoscoM68k
open Function

def NODE_TYPE_TASK : Nat := 0x100

-- setup_init_task and setup_idle_task: only the priority differs. sizeof(Task) is 40.
def setupTask (m : Mem) (task tid priority : Nat) : Mem :=
  (((m.writeL (task + 0xc) NODE_TYPE_TASK).writeL (task + 8) 40).writeL (task + 0x14) tid).writeB
    (taskPrio task) priority

def setupInitTask (m : Mem) (task tid : Nat) : Mem := setupTask m task tid 4

def setupIdleTask (m : Mem) (task tid : Nat) : Mem := setupTask m task tid 0

-- The rest of what start_tasking does with each of the two.
def teeUp (s : Machine) (task stack size trampoline entry exit : Nat) : Machine :=
  let m := (s.mem.writeL (taskStackSize task) size).writeL (taskStackBottom task) stack
  taskTee { s with mem := m } task (wrap (stack + size)) trampoline entry exit

-- Without the timer's vector, into which tick_handler is put here.
def taskKickOff (K : Image) (s : Machine) (init : Nat) : Machine :=
  let s := { s with
    currentTaskVar := init
    sp := s.mem.readL (taskStack init) }.popRegs.popSr.disableInterrupts
  resume K { s with tickCounter := QUANTUM_TICKS }.rts

-- The arguments of start_tasking.
structure Launch where
  initStack : Nat
  initStackSize : Nat
  initTask : Nat
  idleStack : Nat
  idleStackSize : Nat
  idleTask : Nat

def startTasking (K : Image) (s : Machine) (a : Launch) : Option Machine :=
  (pmmAlloc K s 40).map (fun r =>
    let tinit := r.2
    let s := { r.1 with mem := setupInitTask r.1.mem tinit 0 }
    let s := teeUp s tinit a.initStack a.initStackSize K.initTrampoline a.initTask K.taskDone
    let s := { s with mem := setupIdleTask s.mem K.tidle 0xff }
    let s := teeUp s K.tidle a.idleStack a.idleStackSize K.idleTrampoline a.idleTask
      K.panicIdleDone
    taskKickOff K s tinit)

section TeeUp

variable {m : Mem} {t : Nat}

theorem setupTask_agree (m : Mem) (t tid priority : Nat) :
    Mem.Agree (Set.Ico t (t + 40))ᶜ m (setupTask m t tid priority) := by
  intro x hx
  simp only [Set.mem_compl_iff,Set.mem_Ico] at hx
  rw [setupTask,Mem.writeB_of_ne _ _ (by simp only [taskPrio]; omega),
    Mem.writeL_of_outside _ _ (by omega),Mem.writeL_of_outside _ _ (by omega),
    Mem.writeL_of_outside _ _ (by omega)]

theorem setupTask_prio (m : Mem) (t tid priority : Nat) :
    (setupTask m t tid priority).readB (taskPrio t) = priority % 256 := by
  rw [setupTask,Mem.readB_writeB,if_pos rfl]

theorem taskTee_agree (s : Machine) {a0 a1 d2 d0 d1 p : Nat} (ha : p + 78 = a1) :
    Mem.Agree (Set.Ico p a1 ∪ Set.Ico (taskStack a0) (taskStack a0 + 4))ᶜ s.mem
      (taskTee s a0 a1 d2 d0 d1).mem := by
  intro x hx
  simp only [Set.mem_compl_iff,Set.mem_union,Set.mem_Ico,not_or] at hx
  have hregs : ∀ m r, saveRegs m (a1 - 78) r x = m x := by
    intro m r
    refine agree_saveRegs m (a1 - 78) r x ?_
    simp only [Set.mem_compl_iff,Set.mem_Ico]
    omega
  rw [taskTee]
  simp only
  rw [Mem.writeL_of_outside _ _ (by omega),hregs,Mem.writeW_of_outside _ _ (by omega),
    Mem.writeL_of_outside _ _ (by omega),Mem.writeW_of_outside _ _ (by omega),
    Mem.writeL_of_outside _ _ (by omega),Mem.writeW_of_outside _ _ (by omega),
    Mem.writeL_of_outside _ _ (by omega)]

-- What a stack has to be like, apart from being nobody else's.
structure StackSize (bottom size : Nat) : Prop where
  low : 1024 ≤ bottom
  room : 78 ≤ size
  limit : bottom + size < addressSpace

theorem teeUp_spec (s : Machine) (trampoline exit : Nat) {t stack size entry : Nat}
    (hs : StackSize stack size)
    (hoff : Disjoint (Set.Ico t (t + 40)) (Set.Ico stack (stack + size)))
    (ht : trampoline < addressSpace) (he : entry < addressSpace) (hx : exit < addressSpace) :
    TeeFrame (teeUp s t stack size trampoline entry exit).mem t (stack + size - 78) trampoline entry
        exit ∧
      (teeUp s t stack size trampoline entry exit).mem.readB (taskPrio t) =
        s.mem.readB (taskPrio t) ∧
      Mem.Agree (Set.Ico t (t + 40) ∪ Set.Ico stack (stack + size))ᶜ s.mem
        (teeUp s t stack size trampoline entry exit).mem := by
  obtain ⟨hlow,hroom,hlim⟩ := hs
  have hsep : t + 40 ≤ stack + size - 78 ∨ stack + size ≤ t := by
    by_contra hc
    have hx1 : max t (stack + size - 78) ∈ Set.Ico t (t + 40) := ⟨by omega,by omega⟩
    have hx2 : max t (stack + size - 78) ∈ Set.Ico stack (stack + size) := ⟨by omega,by omega⟩
    exact Set.disjoint_left.mp hoff hx1 hx2
  have hwrap : wrap (stack + size) = stack + size := Nat.mod_eq_of_lt hlim
  obtain ⟨m,hm⟩ : ∃ m, m = (s.mem.writeL (taskStackSize t) size).writeL (taskStackBottom t) stack :=
    ⟨_,rfl⟩
  have hag1 : ∀ x, x < t + 0x1c ∨ t + 0x24 ≤ x → m x = s.mem x := by
    intro x hx
    simp only [taskStackSize,taskStackBottom] at hm
    rw [hm,Mem.writeL_of_outside _ _ (by omega),Mem.writeL_of_outside _ _ (by omega)]
  have hag2 : Mem.Agree (Set.Ico (stack + size - 78) (stack + size) ∪
      Set.Ico (taskStack t) (taskStack t + 4))ᶜ m
      (taskTee { s with mem := m } t (stack + size) trampoline entry exit).mem :=
    taskTee_agree { s with mem := m } (by omega)
  rw [teeUp,hwrap,← hm]
  refine ⟨taskTee_frame _ (by omega) hlim.le hsep ht he hx,?_,?_⟩
  · rw [Mem.readB_congr (hag2 _ ?_)]
    · exact Mem.readB_congr (hag1 _ (.inr le_rfl))
    · simp only [taskPrio,taskStack,Set.mem_compl_iff,Set.mem_union,Set.mem_Ico]
      omega
  · intro x hx
    simp only [Set.mem_compl_iff,Set.mem_union,Set.mem_Ico] at hx
    rw [hag2 x]
    · exact hag1 x (by omega)
    · simp only [taskStack,Set.mem_compl_iff,Set.mem_union,Set.mem_Ico]
      omega

end TeeUp

section KickOff

variable {K : Image} {s : Machine} {t p entry exit : Nat}

theorem resume_init (h : s.pc = K.initTrampoline) : resume K s =
    (Machine.pushL { s with sp := s.sp + 8 } (s.mem.readL (s.sp + 2))).rts := by
  have h1 : K.initTrampoline ≠ K.tickHandlerDone :=
    K.code_distinct (i := 6) (j := 1) rfl rfl (by decide)
  have h2 : K.initTrampoline ≠ K.waitReenable :=
    K.code_distinct (i := 6) (j := 2) rfl rfl (by decide)
  have h3 : K.initTrampoline ≠ K.taskTrampoline :=
    K.code_distinct (i := 6) (j := 4) rfl rfl (by decide)
  have h4 : K.initTrampoline ≠ K.idleTrampoline :=
    K.code_distinct (i := 6) (j := 5) rfl rfl (by decide)
  rw [resume,h,if_neg h1,if_neg h2,if_neg h3,if_neg h4,if_pos rfl]

-- The init task begins at its entry point, with the interrupts disabled once more.
theorem taskKickOff_spec (h : TeeFrame s.mem t p K.initTrampoline entry exit)
    (he : entry < addressSpace) : taskKickOff K s t =
      { s with
        currentTaskVar := t
        reg := loadRegs s.mem p
        sp := p + 74
        pc := entry
        sr := 0x2700#16
        disableIntrCount := s.disableIntrCount + 1#16
        tickCounter := QUANTUM_TICKS
        mem := s.mem.writeL (p + 70) entry } := by
  obtain ⟨hsaved,hsr,hret,-,hpc,-⟩ := h
  have hstart : (Machine.rts { Machine.disableInterrupts (Machine.popSr (Machine.popRegs { s with
      currentTaskVar := t
      sp := s.mem.readL (taskStack t) })) with tickCounter := QUANTUM_TICKS }) =
      { s with
        currentTaskVar := t
        reg := loadRegs s.mem p
        sp := p + 66
        pc := K.initTrampoline
        sr := 0x2700#16
        disableIntrCount := s.disableIntrCount + 1#16
        tickCounter := QUANTUM_TICKS } := by
    simp only [Machine.rts,Machine.disableInterrupts,Machine.popSr,Machine.popRegs,hsaved,
      Nat.add_assoc,Nat.reduceAdd,hsr,hret]
    rfl
  rw [taskKickOff,hstart,resume_init rfl]
  have hentry : s.mem.readL (p + 66 + 2) = entry := hpc
  simp only [Machine.rts,Machine.pushL,hentry,Nat.add_assoc,Nat.reduceAdd]
  have hslot : p + 74 - 4 = p + 70 := by omega
  rw [hslot,Mem.readL_writeL_self_of_lt _ he]

end KickOff

-- A stack that is neither managed memory nor any of the kernel's variables.
structure StackMemory (K : Image) (F : FreeList) (bottom size : Nat) : Prop
    extends StackSize bottom size where
  off : ∀ h ∈ K.headers, ∀ x ∈ Set.Ico bottom (bottom + size), x < h ∨ h + 12 ≤ x
  foreign : ∀ x ∈ Set.Ico bottom (bottom + size), x ∉ F.bytes
  idle : Disjoint (Set.Ico K.tidle (K.tidle + 40)) (Set.Ico bottom (bottom + size))

-- What start_tasking relies on: the memory manager, with a page for the init task's structure,
-- task_init's lists, and two stacks.
structure Ready (K : Image) (s : Machine) (F : FreeList) (a : Launch) : Prop where
  pmm : PmmInv K s.mem F
  page : F.alloc 1024 ≠ none
  off : ∀ h ∈ K.headers, ∀ x ∈ F.bytes, x < h ∨ h + 12 ≤ x
  idle : ∀ x ∈ Set.Ico K.tidle (K.tidle + 40), x ∉ F.bytes
  lists : ∀ c, IsList s.mem (K.header c) []
  initStack : StackMemory K F a.initStack a.initStackSize
  idleStack : StackMemory K F a.idleStack a.idleStackSize
  stacks_apart : Disjoint (Set.Ico a.initStack (a.initStack + a.initStackSize))
    (Set.Ico a.idleStack (a.idleStack + a.idleStackSize))
  initTask : K.Own a.initTask
  idleTask : K.Own a.idleTask

namespace Launch

def init (K : Image) (a : Launch) : TaskInfo where
  bottom := a.initStack
  top := a.initStack + a.initStackSize
  prio := 0
  saved := .fresh a.initTask K.taskDone

def idle (K : Image) (a : Launch) : TaskInfo where
  bottom := a.idleStack
  top := a.idleStack + a.idleStackSize
  prio := 0
  saved := .fresh a.idleTask K.panicIdleDone

def info (K : Image) (a : Launch) : Nat → TaskInfo :=
  update (fun _ => a.init K) K.tidle (a.idle K)

end Launch

-- The state in which start_tasking enters the init task.
def Started (K : Image) (st : TaskState) : Prop :=
  ∃ s F a, Ready K s F a ∧ startTasking K s a = some st.machine ∧
    st.self = st.machine.currentTaskVar ∧ st.live = [st.self] ∧ st.info = a.info K

section Start

variable {K : Image} {s s' : Machine} {F F' : FreeList} {a : Launch} {c : Block} {m : Mem}

-- The block that the init task's structure is put into.
structure InitBlock (K : Image) (F F' : FreeList) (c : Block) : Prop where
  good : c.Good K
  free : ∀ x, c.addr ≤ x → x < c.addr + 1024 → x ∈ F.bytes
  taken : F'.bytes = F.bytes \ Block.bytes ⟨c.addr,1024⟩

theorem initBlock (h : PmmInv K m F) (ha : F.alloc 1024 = some (c,F')) : InitBlock K F F' c := by
  obtain ⟨hf,rfl⟩ := FreeList.alloc_some ha
  have hc : c ∈ F.byAddr := h.toOk.mem_bySize.mp (List.mem_of_find?_eq_some hf)
  have hle : 1024 ≤ c.size := by simpa using List.find?_some hf
  refine ⟨h.good c hc,fun x h1 h2 => ⟨c,hc,h1,?_⟩,FreeList.bytes_take h.toOk hc hle⟩
  simp only [Block.stop]
  omega

theorem Ready.placed_init (h : Ready K s F a) (hc : InitBlock K F F' c) :
    Placed K c.addr (a.init K) := by
  have hge := hc.good.stop_ge
  have htop := hc.good.top
  have hdvd := hc.good.addr_dvd
  have hpos := hc.good.addr_pos
  have hlim := h.initStack.limit
  refine ⟨by omega,by omega,h.initStack.low,hlim.le,fun q x hx => ?_,?_⟩
  · rcases hx with hx | hx
    · exact h.off _ (header_mem K q) x (hc.free x hx.1 (by have := hx.2; omega))
    · exact h.initStack.off _ (header_mem K q) x hx
  · rw [Set.disjoint_left]
    exact fun x hx hx' => h.initStack.foreign x hx' (hc.free x hx.1 (by have := hx.2; omega))

theorem Ready.placed_idle (h : Ready K s F a) : Placed K K.tidle (a.idle K) := by
  have hlim := h.idleStack.limit
  refine ⟨K.tidle_low,K.tidle_top,h.idleStack.low,hlim.le,fun q x hx => ?_,h.idleStack.idle⟩
  rcases hx with ⟨h1,h2⟩ | hx
  · have := K.tidle_off _ (header_mem K q)
    omega
  · exact h.idleStack.off _ (header_mem K q) x hx

theorem Ready.apart (h : Ready K s F a) (hc : InitBlock K F F' c) :
    Disjoint ((a.init K).footprint c.addr) ((a.idle K).footprint K.tidle) := by
  have hin : Set.Ico c.addr (c.addr + 40) ⊆ F.bytes :=
    fun x hx => hc.free x hx.1 (by have := hx.2; omega)
  refine Set.disjoint_union_left.mpr ⟨Set.disjoint_union_right.mpr ⟨?_,?_⟩,
    Set.disjoint_union_right.mpr ⟨h.initStack.idle.symm,h.stacks_apart⟩⟩
  · rw [Set.disjoint_left]
    exact fun x hx hx' => h.idle x hx' (hin hx)
  · rw [Set.disjoint_left]
    exact fun x hx hx' => h.idleStack.foreign x hx' (hin hx)

theorem pmm_queue_apart (K : Image) {l : Nat} (hl : l ∈ pmmHeaders K) (q : Queue) :
    l + 12 ≤ K.header q ∨ K.header q + 12 ≤ l := by
  have hq : K.header q ∈ [K.runnableList3,K.runnableList2,K.runnableList1,K.runnableList0,
      K.sleepingList] := by
    cases q with
    | ready p => fin_cases p <;> simp [Image.header,Symbols.runnable]
    | sleeping => simp [Image.header]
  have hp := K.headers_apart
  rw [show K.headers = [K.pmmAddrList,K.pmmSizeList] ++ ([K.partialSlabs,K.fullSlabs] ++
    ([K.runnableList3,K.runnableList2,K.runnableList1,K.runnableList0,K.sleepingList] ++
      (List.range 7).map (fun i => K.irq1List + 12 * i))) from rfl] at hp
  refine (List.pairwise_append.mp hp).2.2 l hl _ (List.mem_append_right _ ?_)
  exact List.mem_append_left _ hq

-- What start_tasking leaves, but for the way into the init task.
structure Launched (K : Image) (m m' : Mem) (a : Launch) (t : Nat) : Prop where
  init : TeeFrame m' t (a.initStack + a.initStackSize - 78) K.initTrampoline a.initTask K.taskDone
  idle : TeeFrame m' K.tidle (a.idleStack + a.idleStackSize - 78) K.idleTrampoline a.idleTask
    K.panicIdleDone
  prio : m'.readB (taskPrio t) = 4
  agree : Mem.Agree ((a.init K).footprint t ∪ (a.idle K).footprint K.tidle)ᶜ m m'

theorem TeeFrame.agree {m m' : Mem} {t p d2 d0 d1 : Nat} {i : TaskInfo}
    (h : TeeFrame m t p d2 d0 d1) (hp : i.bottom ≤ p) (htop : p + 78 = i.top)
    (ha : Mem.Agree (i.footprint t) m m') : TeeFrame m' t p d2 d0 d1 := by
  have hin : ∀ a b, p ≤ a → b ≤ p + 78 → Set.Ico a b ⊆ i.footprint t :=
    fun a b h1 h2 => (Set.Ico_subset_Ico (hp.trans h1) (by omega)).trans Set.subset_union_right
  refine ⟨?_,?_,?_,?_,?_,?_⟩
  · rw [ha.readL (fun x hx => .inl ⟨?_,?_⟩)]
    · exact h.saved
    · have := hx.1
      simp only [taskStack] at this
      omega
    · have := hx.2
      simp only [taskStack] at this
      omega
  · rw [ha.readW (hin _ _ (by omega) (by omega))]
    exact h.sr
  · rw [ha.readL (hin _ _ (by omega) (by omega))]
    exact h.ret
  · rw [ha.readW (hin _ _ (by omega) (by omega))]
    exact h.start
  · rw [ha.readL (hin _ _ (by omega) (by omega))]
    exact h.pc
  · rw [ha.readL (hin _ _ (by omega) (by omega))]
    exact h.exit

theorem Ready.launched (h : Ready K s F a) (hc : InitBlock K F F' c) (s1 : Machine) :
    ∃ m', Launched K s1.mem m' a c.addr ∧
      { s1 with mem := m' } = teeUp { teeUp { s1 with mem := setupInitTask s1.mem c.addr 0 }
        c.addr a.initStack a.initStackSize K.initTrampoline a.initTask K.taskDone with
        mem := setupIdleTask (teeUp { s1 with mem := setupInitTask s1.mem c.addr 0 } c.addr
          a.initStack a.initStackSize K.initTrampoline a.initTask K.taskDone).mem K.tidle 0xff }
        K.tidle a.idleStack a.idleStackSize K.idleTrampoline a.idleTask K.panicIdleDone := by
  have hpi := h.placed_init hc
  have hpd := h.placed_idle
  have hap := h.apart hc
  have hcode : ∀ q ∈ K.panicIdleDone :: K.resumePoints ++ K.interruptible, q < addressSpace :=
    K.code_top
  obtain ⟨s2,hs2⟩ : ∃ s2, s2 = teeUp { s1 with mem := setupInitTask s1.mem c.addr 0 } c.addr
    a.initStack a.initStackSize K.initTrampoline a.initTask K.taskDone := ⟨_,rfl⟩
  obtain ⟨hf1,hp1,hag1⟩ := teeUp_spec { s1 with mem := setupInitTask s1.mem c.addr 0 }
    K.initTrampoline K.taskDone h.initStack.toStackSize hpi.apart
    (hcode _ (by simp [Symbols.resumePoints])) h.initTask.top
    (hcode _ (by simp [Symbols.interruptible]))
  rw [← hs2] at hf1 hp1 hag1 ⊢
  obtain ⟨hf2,-,hag2⟩ := teeUp_spec { s2 with mem := setupIdleTask s2.mem K.tidle 0xff }
    K.idleTrampoline K.panicIdleDone h.idleStack.toStackSize hpd.apart
    (hcode _ (by simp [Symbols.resumePoints])) h.idleTask.top (hcode _ (by simp))
  have hset1 : Mem.Agree ((a.init K).footprint c.addr)ᶜ s1.mem s2.mem :=
    ((setupTask_agree _ _ _ _).mono (Set.compl_subset_compl.mpr Set.subset_union_left)).trans hag1
  obtain ⟨s3,hs3⟩ : ∃ s3, s3 = teeUp { s2 with mem := setupIdleTask s2.mem K.tidle 0xff } K.tidle
    a.idleStack a.idleStackSize K.idleTrampoline a.idleTask K.panicIdleDone := ⟨_,rfl⟩
  rw [← hs3] at hf2 hag2
  have hset2 : Mem.Agree ((a.idle K).footprint K.tidle)ᶜ s2.mem s3.mem :=
    ((setupTask_agree _ _ _ _).mono (Set.compl_subset_compl.mpr Set.subset_union_left)).trans hag2
  have hkeep : Mem.Agree ((a.init K).footprint c.addr) s2.mem s3.mem :=
    hset2.mono (fun x hx hx' => Set.disjoint_left.mp hap hx hx')
  have hroom := h.initStack.room
  refine ⟨s3.mem,⟨hf1.agree (i := a.init K) ?_ ?_ hkeep,hf2,?_,?_⟩,?_⟩
  · change a.initStack ≤ _
    omega
  · change _ = a.initStack + a.initStackSize
    omega
  · rw [Mem.readB_congr (hkeep _ (.inl (by simp only [taskPrio,Set.mem_Ico]; omega))),hp1]
    exact setupTask_prio _ _ _ _
  · exact (hset1.mono (Set.compl_subset_compl.mpr Set.subset_union_left)).trans
      (hset2.mono (Set.compl_subset_compl.mpr Set.subset_union_right))
  · rw [hs3,hs2]
    rfl

-- The machine that enters the init task.
structure Entry (K : Image) (s : Machine) (F F' : FreeList) (a : Launch) (c : Block)
    (s' : Machine) : Prop where
  block : InitBlock K F F' c
  pmm : PmmInv K s'.mem F'
  lists : ∀ q, IsList s'.mem (K.header q) []
  idle : TeeFrame s'.mem K.tidle (a.idleStack + a.idleStackSize - 78) K.idleTrampoline a.idleTask
    K.panicIdleDone
  prio : s'.mem.readB (taskPrio c.addr) = 4
  exit : s'.mem.readL s'.sp = K.taskDone
  current : s'.currentTaskVar = c.addr
  pc : s'.pc = a.initTask
  sp : s'.sp + 4 = a.initStack + a.initStackSize
  mask : s'.sr = 0x2700#16
  quantum : s'.tickCounter = 1#16

-- Neither the structures nor the stacks of the two tasks are free memory.
theorem Ready.foot_off (h : Ready K s F a) (hc : InitBlock K F F' c) :
    F'.foot K ⊆ ((a.init K).footprint c.addr ∪ (a.idle K).footprint K.tidle)ᶜ := by
  rintro x hx hx'
  have hfree : x ∈ F'.bytes → x ∈ F.bytes ∧ ¬ (c.addr ≤ x ∧ x < c.addr + 1024) := by
    intro hx
    rw [hc.taken] at hx
    exact ⟨hx.1,hx.2⟩
  rcases hx with ⟨l,hl,h1,h2⟩ | ⟨b,hb,hxb⟩
  · have hl' := pmm_header_mem hl
    rcases hx' with (hx' | hx') | ⟨h3,h4⟩ | hx'
    · have := h.off l hl' x (hc.free x hx'.1 (by have := hx'.2; omega))
      omega
    · have := h.initStack.off l hl' x hx'
      omega
    · have := K.tidle_off l hl'
      omega
    · have := h.idleStack.off l hl' x hx'
      omega
  · obtain ⟨hin,hno⟩ := hfree ⟨b,hb,hxb⟩
    rcases hx' with (hx' | hx') | hx' | hx'
    · exact hno ⟨hx'.1,by have := hx'.2; omega⟩
    · exact h.initStack.foreign x hx' hin
    · exact h.idle x hx' hin
    · exact h.idleStack.foreign x hx' hin

theorem startTasking_spec (h : Ready K s F a) :
    ∃ c F' s', F.alloc 1024 = some (c,F') ∧ startTasking K s a = some s' ∧
      Entry K s F F' a c s' := by
  obtain ⟨⟨c,F'⟩,ha⟩ := Option.ne_none_iff_exists'.mp h.page
  obtain ⟨m1,hp,hinv,hag⟩ := pmmAlloc_some (s := s) (n := 40) h.pmm (by decide)
    (show F.alloc (pmmRound 40) = some (c,F') from ha)
  have hc := initBlock h.pmm ha
  obtain ⟨s1,hs1⟩ : ∃ s1 : Machine, s1 = { Machine.nested (allocDepth F (pmmRound 40)) s with
    mem := m1 } := ⟨_,rfl⟩
  have hm1 : s1.mem = m1 := by rw [hs1]
  rw [← hs1] at hp
  obtain ⟨m2,hl,he⟩ := h.launched hc s1
  rw [hm1] at hl
  have hstart : startTasking K s a = some (taskKickOff K { s1 with mem := m2 } c.addr) := by
    rw [startTasking,hp,Option.map_some]
    dsimp only
    rw [← he]
  rw [taskKickOff_spec hl.init h.initTask.top] at hstart
  have hroom := h.initStack.room
  -- What the trampoline pushes stays on the stack of the init task.
  have hpush : ∀ v, Mem.Agree (Set.Ico (a.initStack + a.initStackSize - 78 + 70)
      (a.initStack + a.initStackSize - 78 + 74))ᶜ m2
      (m2.writeL (a.initStack + a.initStackSize - 78 + 70) v) := by
    intro v
    refine Mem.agree_writeL _ _ (fun x hx => ?_)
    simp only [Set.mem_compl_iff,Set.mem_Ico] at hx
    omega
  have hin : Set.Ico (a.initStack + a.initStackSize - 78 + 70)
      (a.initStack + a.initStackSize - 78 + 74) ⊆ (a.init K).footprint c.addr :=
    (Set.Ico_subset_Ico (by change a.initStack ≤ _; omega)
      (by change _ ≤ a.initStack + a.initStackSize; omega)).trans Set.subset_union_right
  have hall : ∀ v, Mem.Agree ((a.init K).footprint c.addr ∪ (a.idle K).footprint K.tidle)ᶜ m1
      (m2.writeL (a.initStack + a.initStackSize - 78 + 70) v) := fun v =>
    hl.agree.trans ((hpush v).mono
      (Set.compl_subset_compl.mpr (hin.trans Set.subset_union_left)))
  refine ⟨c,F',_,ha,hstart,hc,hinv.agree ((hall _).mono (h.foot_off hc)),fun q => ?_,?_,?_,?_,
    rfl,rfl,?_,rfl,rfl⟩
  · have hq : cells (K.header q) [] ⊆ (F.foot K)ᶜ ∩
        ((a.init K).footprint c.addr ∪ (a.idle K).footprint K.tidle)ᶜ := by
      rintro x (hx | ⟨y,hy,-⟩)
      · refine ⟨?_,?_⟩
        · rintro (⟨l,hl,h1,h2⟩ | ⟨b,hb,hxb⟩)
          · have := pmm_queue_apart K hl q
            omega
          · have := h.off _ (header_mem K q) x ⟨b,hb,hxb⟩
            omega
        · rintro (hx' | hx')
          · have := (h.placed_init hc).off q x hx'
            omega
          · have := h.placed_idle.off q x hx'
            omega
      · cases hy
    exact ((h.lists q).agree (hag.mono (fun x hx => (hq hx).1))).agree
      ((hall _).mono (fun x hx => (hq hx).2))
  · have hidle := h.idleStack.room
    refine hl.idle.agree (i := a.idle K) ?_ ?_ ((hpush _).mono (fun x hx hx' => ?_))
    · change a.idleStack ≤ _
      omega
    · change _ = a.idleStack + a.idleStackSize
      omega
    · exact Set.disjoint_left.mp (h.apart hc) (hin hx') hx
  · have hoff : taskPrio c.addr ∈ (Set.Ico (a.initStack + a.initStackSize - 78 + 70)
        (a.initStack + a.initStackSize - 78 + 74))ᶜ := by
      intro hx
      have hs : taskPrio c.addr ∈ Set.Ico c.addr (c.addr + 40) := by
        simp only [taskPrio,Set.mem_Ico]
        omega
      refine Set.disjoint_left.mp (h.placed_init hc).apart hs ?_
      exact ⟨by have := hx.1; change a.initStack ≤ _; omega,
        by have := hx.2; change _ < a.initStack + a.initStackSize; omega⟩
    exact (Mem.readB_congr (hpush _ _ hoff)).trans hl.prio
  · exact ((hpush _).readL (fun x hx hx' => by
      have := hx.1
      have := hx'.2
      dsimp only at *
      omega)).trans hl.init.exit
  · change a.initStack + a.initStackSize - 78 + 74 + 4 = _
    omega

-- It runs the init task, and all lists are empty.
theorem Started.inv {st : TaskState} (h : Started K st) :
    st.Inv K (fun _ => []) (onCpu K st.self) ∧ st.self ≠ K.tidle := by
  obtain ⟨s,F,a,hr,hs,hself,hlive,hinfo⟩ := h
  obtain ⟨c,F',s',ha,hs',he⟩ := startTasking_spec hr
  cases hs'.symm.trans hs
  have hc : st.self = c.addr := hself.trans he.current
  have hpi := hr.placed_init he.block
  have hpd := hr.placed_idle
  have hap := hr.apart he.block
  have hne : c.addr ≠ K.tidle := by
    intro hc
    rw [Set.disjoint_left] at hap
    refine hap (.inl ⟨le_rfl,by omega⟩) (.inl ⟨hc.ge,?_⟩)
    rw [hc]
    omega
  have hi : a.info K c.addr = a.init K := update_of_ne hne _ _
  have hd : a.info K K.tidle = a.idle K := update_self _ _ _
  have hroom := hr.idleStack.room
  have hidle : Parked K st.machine.mem K.tidle (a.idle K) := by
    refine he.idle.parked (.inr rfl) ?_ ?_ rfl hr.idleTask
    · change a.idleStack ≤ _
      omega
    · change _ = a.idleStack + a.idleStackSize
      omega
  have hcpu : onCpu K st.self = [c.addr] := by rw [hc,onCpu,if_neg hne]
  rw [hc] at hlive
  have hcase : ∀ t, t = K.tidle ∨ t ∈ st.live ∨ t ∈ ({st.self} : Set Nat) →
      t = K.tidle ∨ t = c.addr := by
    intro t ht
    rw [hlive,hc,List.mem_singleton,Set.mem_singleton_iff,or_self] at ht
    exact ht
  refine ⟨⟨?_,.running hself.symm (.inr ?_) ?_,he.quantum⟩,hc ▸ hne⟩
  · rw [hcpu]
    refine
      { queues := ⟨he.lists,by simp,by simp⟩
        placed := fun t ht => ?_
        apart := fun t u ht hu htu => ?_
        nodup := by rw [hlive]; exact List.nodup_singleton _
        idle := by rw [hlive,List.mem_singleton]; exact hne.symm
        unlisted := fun t _ q => List.not_mem_nil
        located := by rw [hlive]; rfl
        prio := fun t ht => ?_
        tier := fun p t ht => nomatch ht
        asleep := fun t ht => nomatch ht
        awake := fun t ht hr' => ?_
        parked := fun t ht hr' => ?_ }
    · rw [hinfo]
      rcases hcase t ht with rfl | rfl
      · rw [hd]
        exact hpd
      · rw [hi]
        exact hpi
    · rw [hinfo]
      rcases hcase t ht with rfl | rfl <;> rcases hcase u hu with rfl | rfl
      · exact absurd rfl htu
      · rw [hd,hi]
        exact hap.symm
      · rw [hd,hi]
        exact hap
      · exact absurd rfl htu
    · rw [hlive,List.mem_singleton] at ht
      rw [ht,hinfo,hi,he.prio]
      rfl
    · rcases ht with rfl | ht | ⟨p,ht⟩
      · rw [hinfo,hd]
        nofun
      · rw [List.mem_singleton] at ht
        exact absurd (ht.trans hc.symm) hr'
      · cases ht
    · rcases ht with rfl | ht
      · rw [hinfo,hd]
        exact hidle
      · rw [hlive,List.mem_singleton] at ht
        exact absurd (ht.trans hc.symm) hr'
  · rw [hlive,hc]
    exact List.mem_singleton_self _
  · rw [hinfo,hc,hi]
    have hsp := he.sp
    exact .own (by rw [he.pc]; exact hr.initTask) (by change _ ≤ a.initStack + _; omega) trivial

end Start
end RoscoM68k
