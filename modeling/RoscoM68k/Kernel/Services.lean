import RoscoM68k.Kernel.SlabRuns
import RoscoM68k.Kernel.Task

namespace RoscoM68k

-- The interrupt state: the status register and the nesting count.
def Machine.intr (s : Machine) : BitVec 16 × BitVec 16 := (s.sr,s.disableIntrCount)

theorem Machine.enable_intr {s s' : Machine} (h : s.intr = s'.intr) :
    s.enableInterrupts.intr = s'.enableInterrupts.intr := by
  obtain ⟨hsr,hc⟩ := Prod.mk.inj h
  unfold enableInterrupts
  rw [hc]
  split
  · exact h
  · simp only
    split
    · simp only [intr,hsr]
    · simp only [intr,hsr]

theorem pmmFree_intr {K : Image} {s s' : Machine} {addr size : Nat}
    (h : pmmFree K s addr size = some s') : s'.intr = (Machine.nested 1 s).intr := by
  obtain ⟨m,-,rfl⟩ := Option.map_eq_some_iff.mp h
  exact Machine.enable_intr rfl

theorem taskSchedule_intr (K : Image) (s : Machine) (task stackAddr stackSize entrypoint : Nat) :
    (taskSchedule K s task stackAddr stackSize entrypoint).intr = (Machine.nested 1 s).intr :=
  Machine.enable_intr rfl

theorem taskSignal_intr {K : Image} {s s' : Machine} (h : taskSignal K s = some s') :
    s'.intr = (Machine.nested 1 s).intr := by
  rw [taskSignal] at h
  split at h
  · simp at h
  · obtain rfl := Option.some.inj h
    exact Machine.enable_intr rfl

theorem irqRegister_intr (K : Image) (s : Machine) (d0 a1 : Nat) :
    (irqRegister K s d0 a1).intr = (Machine.nested 1 s).intr :=
  Machine.enable_intr rfl

inductive ServiceCall where
  | memory (c : SlabCall)
  | taskSchedule (task stackAddr stackSize entrypoint : Nat)
  | taskSignal
  | irqRegister (vec handler : Nat)
  | irqRemove (handler : Nat)

namespace SlabState

variable {K : Image} {st st' : SlabState} {F : FreeList} {ps fs : List Nat} {c : ServiceCall}

def service (K : Image) (st : SlabState) : ServiceCall → Option SlabState
  | .memory c => st.call K c
  | .taskSchedule task stackAddr stackSize entrypoint =>
    some { st with machine := taskSchedule K st.machine task stackAddr stackSize entrypoint }
  | .taskSignal => (taskSignal K st.machine).map (fun s => { st with machine := s })
  | .irqRegister vec handler => some { st with machine := irqRegister K st.machine vec handler }
  | .irqRemove handler => some { st with machine := irqRemove st.machine handler }

-- The arguments of the calls that are not the allocators' are valid when the call comes back and
-- what it writes is not the allocators' memory.
def ValidService (K : Image) (st : SlabState) : ServiceCall → Prop
  | .memory c => st.Valid K c
  | c => ∃ st', st.service K c = some st' ∧
      Mem.Agree (st.guarded K) st.machine.mem st'.machine.mem

def services (K : Image) (st : SlabState) : List ServiceCall → Option SlabState
  | [] => some st
  | c :: cs => (st.service K c).bind (fun st => st.services K cs)

def ValidServices (K : Image) (st : SlabState) : List ServiceCall → Prop
  | [] => True
  | c :: cs => st.ValidService K c ∧ ∀ st', st.service K c = some st' → st'.ValidServices K cs

structure Balanced (s s' : Machine) : Prop where
  count : s'.disableIntrCount = s.disableIntrCount
  mask : ipl s'.sr = ipl s.sr

theorem Balanced.refl (s : Machine) : Balanced s s := ⟨rfl,rfl⟩

theorem Balanced.symm {s s' : Machine} (h : Balanced s s') : Balanced s' s :=
  ⟨h.count.symm,h.mask.symm⟩

theorem Balanced.trans {s s' s'' : Machine} (h : Balanced s s') (h' : Balanced s' s'') :
    Balanced s s'' := ⟨h'.count.trans h.count,h'.mask.trans h.mask⟩

theorem Balanced.consistent {s s' : Machine} (h : Balanced s s') (hs : s.Consistent) :
    s'.Consistent := by
  rw [Machine.Consistent,h.mask,h.count]
  exact hs

theorem balanced_iff {s s' : Machine} {n : Nat} (hs : s.Consistent)
    (h : s'.intr = (Machine.nested n s).intr) (hn : n < 65536) :
    Balanced s s' ↔ s.disableIntrCount.toNat + n < 65536 := by
  obtain ⟨hsr,hc⟩ := Prod.mk.inj h
  refine ⟨fun hb => ?_,fun hlt => ?_⟩
  · rw [← Machine.nested_count_iff s hn,← hc]
    exact hb.count
  · have hcount := Machine.nested_count n hlt
    have hmask := hs.nested hlt
    rw [Machine.Consistent,hcount] at hmask
    exact ⟨hc.trans hcount,by rw [hsr,hmask,hs]⟩

-- The release of a slab allocation that leaves its page with no other.
def Empties (st : SlabState) (a : Slot) : Prop :=
  Cleared (slabMap st.machine.mem (a.addr / 1024 * 1024)) 0x80000000#32 (a.addr % 1024 / 32) a.n

-- How many critical sections a call opens inside each other, on the path it takes.
inductive Depth (st : SlabState) (F : FreeList) (ps : List Nat) : ServiceCall → Nat → Prop where
  | odd {n} (h : n = 0 ∨ 31 < n) : Depth st F ps (.memory (.alloc n)) 0
  | found {n} (hn : 0 < n ∧ n ≤ 31) (h : HeadFits st.machine.mem ps n) :
      Depth st F ps (.memory (.alloc n)) 1
  | page {n} (hn : 0 < n ∧ n ≤ 31) (h : ¬ HeadFits st.machine.mem ps n) :
      Depth st F ps (.memory (.alloc n)) (1 + allocDepth F 0x400)
  | kept {a} (h : ¬ st.Empties a) : Depth st F ps (.memory (.free a)) 1
  | dropped {a} (h : st.Empties a) : Depth st F ps (.memory (.free a)) 2
  | pmmAlloc {size} : Depth st F ps (.memory (.pmmAlloc size)) (allocDepth F (pmmRound size))
  | pmmFree {addr size} : Depth st F ps (.memory (.pmmFree addr size)) 1
  | write {m} : Depth st F ps (.memory (.write m)) 0
  | taskSchedule {t a n e} : Depth st F ps (.taskSchedule t a n e) 1
  | taskSignal : Depth st F ps .taskSignal 1
  | irqRegister {v h} : Depth st F ps (.irqRegister v h) 1

theorem allocDepth_le (F : FreeList) (n : Nat) : allocDepth F n ≤ 2 := by
  unfold allocDepth
  split
  · split <;> omega
  · omega

theorem Depth.le {d : Nat} (h : Depth st F ps c d) : d ≤ 3 := by
  cases h with
  | page =>
    have := allocDepth_le F 0x400
    omega
  | pmmAlloc =>
    rename_i size
    have := allocDepth_le F (pmmRound size)
    omega
  | _ => omega

theorem Cleared.unique {x v w : BitVec 32} {i n : Nat} (h : Cleared x v i n)
    (h' : Cleared x w i n) : v = w := by
  refine BitVec.eq_of_getLsbD_eq (fun j hj => ?_)
  rw [h j hj,h' j hj]

namespace Inv

theorem doAlloc_machine {n r a : Nat} {s : Machine} (h : st.doAlloc K n = some (st',r))
    (he : slabAlloc K st.machine (BitVec.ofNat 32 n) = some (s,a)) : st'.machine = s := by
  rw [SlabState.doAlloc,he,Option.map_some] at h
  obtain ⟨rfl,-⟩ := Prod.mk.inj (Option.some.inj h)
  rfl

theorem service_alloc (h : st.Inv K F ps fs) {n : Nat} (hn : n < 256) :
    ∃ st' F' ps' fs' d, st.call K (.alloc n) = some st' ∧ st'.Inv K F' ps' fs' ∧
      Depth st F ps (.memory (.alloc n)) d ∧
      st'.machine.intr = (Machine.nested d st.machine).intr := by
  by_cases hb : 0 < n ∧ n ≤ 31
  · by_cases hh : HeadFits st.machine.mem ps n
    · obtain ⟨p,i,qs,st',ps',fs',-,-,he,hi,-⟩ := h.doAlloc_reused hb.1 hb.2 hh
      obtain ⟨_,_,_,_,_,_,-,-,hm,-⟩ := slabAlloc_found h.toSlabOk (blockCount hb.1 hb.2) hh
      refine ⟨st',F,ps',fs',1,call_alloc he,hi,.found hb hh,?_⟩
      rw [doAlloc_machine he hm]
      rfl
    · cases ha : F.alloc 0x400 with
      | none =>
        have hd : allocDepth F 0x400 = 1 := by
          rw [allocDepth,Option.map_eq_none_iff.mp ha]
        have he := h.doAlloc_failed hb.1 hb.2 hh ha
        refine ⟨_,F,ps,fs,1 + allocDepth F 0x400,call_alloc he,⟨?_,h.arena⟩,.page hb hh,?_⟩
        · rw [Machine.mem_nested]
          exact h.toSlabOk
        · rw [hd]
      | some r =>
        obtain ⟨st',ps',fs',he,hi,-⟩ := h.doAlloc_fresh hb.1 hb.2 hh ha
        obtain ⟨_,_,_,hm,-⟩ := slabAlloc_page h.toSlabOk (blockCount hb.1 hb.2) hh ha
        refine ⟨st',_,ps',fs',1 + allocDepth F 0x400,call_alloc he,hi,.page hb hh,?_⟩
        rw [doAlloc_machine he hm]
        rfl
  · have he := doAlloc_odd (K := K) st (n := n) hn (by omega)
    exact ⟨st,F,ps,fs,0,call_alloc he,h,.odd (by omega),rfl⟩

theorem service_free (h : st.Inv K F ps fs) {a : Slot} (ha : a ∈ st.live) :
    ∃ st' F' ps' fs' d, st.call K (.free a) = some st' ∧ st'.Inv K F' ps' fs' ∧
      Depth st F ps (.memory (.free a)) d ∧
      st'.machine.intr = (Machine.nested d st.machine).intr := by
  obtain ⟨st',F',ps',fs',he,hi,hr⟩ := h.free ha
  have hat : ∀ {p i : Nat}, p ∈ ps ++ fs → a.addr = p + 32 * i → 0 < a.n → i + a.n ≤ 31 →
      a.addr / 1024 * 1024 = p ∧ a.addr % 1024 / 32 = i := by
    intro p i hp hai hn hle
    have := h.marked.aligned p hp
    omega
  cases hr with
  | kept hp hai hn hle hcl hne _ =>
    obtain ⟨h1,h2⟩ := hat hp hai hn hle
    refine ⟨_,_,_,_,1,he,hi,.kept (fun hc => hne ?_),rfl⟩
    rw [Empties,h1,h2] at hc
    exact Cleared.unique hcl hc
  | dropped hp hai hn hle hcl _ =>
    obtain ⟨h1,h2⟩ := hat hp hai hn hle
    refine ⟨_,_,_,_,2,he,hi,.dropped ?_,rfl⟩
    rw [Empties,h1,h2]
    exact hcl

theorem service_memory (h : st.Inv K F ps fs) {c : SlabCall} (hv : st.Valid K c) :
    ∃ st' F' ps' fs' d, st.call K c = some st' ∧ st'.Inv K F' ps' fs' ∧
      Depth st F ps (.memory c) d ∧ st'.machine.intr = (Machine.nested d st.machine).intr := by
  cases c with
  | alloc n => exact h.service_alloc hv
  | free a => exact h.service_free hv
  | pmmAlloc size =>
    obtain ⟨st',F',he,hi,-,m',hm⟩ := h.pmmAlloc hv
    exact ⟨st',F',ps,fs,_,he,hi,.pmmAlloc,by rw [hm]; rfl⟩
  | pmmFree addr size =>
    obtain ⟨st',F',he,hi,-,m',hm⟩ := h.pmmFree hv
    exact ⟨st',F',ps,fs,1,he,hi,.pmmFree,by rw [hm]; rfl⟩
  | write m =>
    obtain ⟨st',he,hi,-⟩ := h.write hv
    obtain rfl := Option.some.inj he
    exact ⟨_,F,ps,fs,0,he,hi,.write,rfl⟩

-- A call that keeps off the allocators' memory is to them a write of its caller.
theorem foreign (h : st.Inv K F ps fs) {s : Machine}
    (hag : Mem.Agree (st.guarded K) st.machine.mem s.mem) :
    SlabState.Inv K { st with machine := s } F ps fs := by
  obtain ⟨st',he,hi,-⟩ := h.write (m := s.mem) hag
  obtain rfl := Option.some.inj he
  exact ⟨hi.toSlabOk,hi.arena⟩

theorem service (h : st.Inv K F ps fs) (hv : st.ValidService K c) :
    ∃ st' F' ps' fs', st.service K c = some st' ∧ st'.Inv K F' ps' fs' ∧
      ((∃ d, Depth st F ps c d ∧ st'.machine.intr = (Machine.nested d st.machine).intr) ∨
        (∃ a0, c = .irqRemove a0) ∧ st'.machine.intr = st.machine.disableInterrupts.intr) := by
  cases c with
  | memory c =>
    obtain ⟨st',F',ps',fs',d,he,hi,hd⟩ := h.service_memory hv
    exact ⟨st',F',ps',fs',he,hi,.inl ⟨d,hd⟩⟩
  | taskSchedule t a n e =>
    obtain ⟨st',he,hag⟩ := hv
    obtain rfl := Option.some.inj he
    exact ⟨_,F,ps,fs,he,h.foreign hag,.inl ⟨1,.taskSchedule,taskSchedule_intr ..⟩⟩
  | taskSignal =>
    obtain ⟨st',he,hag⟩ := hv
    obtain ⟨s,hs,rfl⟩ := Option.map_eq_some_iff.mp he
    exact ⟨_,F,ps,fs,he,h.foreign hag,.inl ⟨1,.taskSignal,taskSignal_intr hs⟩⟩
  | irqRegister v a =>
    obtain ⟨st',he,hag⟩ := hv
    obtain rfl := Option.some.inj he
    exact ⟨_,F,ps,fs,he,h.foreign hag,.inl ⟨1,.irqRegister,irqRegister_intr ..⟩⟩
  | irqRemove a =>
    obtain ⟨st',he,hag⟩ := hv
    obtain rfl := Option.some.inj he
    exact ⟨_,F,ps,fs,he,h.foreign hag,.inr ⟨⟨a,rfl⟩,rfl⟩⟩

end Inv

-- The calls that leave the interrupt state as it was.
def Paired (K : Image) (st : SlabState) (c : ServiceCall) : Prop :=
  ∃ F ps fs d, st.Inv K F ps fs ∧ Depth st F ps c d ∧
    st.machine.disableIntrCount.toNat + d < 65536

def AllPaired (K : Image) (st : SlabState) : List ServiceCall → Prop
  | [] => True
  | c :: cs => st.Paired K c ∧ ∀ st', st.service K c = some st' → st'.AllPaired K cs

theorem Depth.unique {d e : Nat} (h : Depth st F ps c d) (h' : Depth st F ps c e) : d = e := by
  cases h <;> cases h' <;> first | rfl | omega | contradiction

theorem count_disable (s : Machine) :
    s.disableInterrupts.disableIntrCount ≠ s.disableIntrCount := by
  intro h
  have hs : s.disableIntrCount + 1#16 = s.disableIntrCount + 0#16 := by
    rw [BitVec.add_zero]
    exact h
  exact absurd ((BitVec.add_right_inj _).mp hs) (by decide)

theorem balanced_step (h : st.Inv K F ps fs) (hs : st.machine.Consistent)
    (hv : st.ValidService K c) (he : st.service K c = some st') :
    Balanced st.machine st'.machine ↔ st.Paired K c := by
  constructor
  · intro hb
    obtain ⟨st'',_,_,_,he',-,⟨d,hd,hm⟩ | ⟨-,hm⟩⟩ := h.service hv
    · obtain rfl := Option.some.inj (he'.symm.trans he)
      have := hd.le
      exact ⟨F,ps,fs,d,h,hd,(balanced_iff hs hm (by omega)).mp hb⟩
    · obtain rfl := Option.some.inj (he'.symm.trans he)
      have hc := congrArg Prod.snd hm
      exact absurd (hc.symm.trans hb.count) (count_disable _)
  · rintro ⟨F',ps',fs',d,h',hd,hlt⟩
    obtain ⟨st'',_,_,_,he',-,⟨e,hde,hm⟩ | ⟨⟨a0,rfl⟩,-⟩⟩ := h'.service hv
    · obtain rfl := Option.some.inj (he'.symm.trans he)
      obtain rfl := hd.unique hde
      have := hd.le
      exact (balanced_iff hs hm (by omega)).mpr hlt
    · cases hd

theorem services_cons (he : st.service K c = some st') (cs : List ServiceCall) :
    st.services K (c :: cs) = st'.services K cs := by
  rw [services,he,Option.bind_some]

end SlabState

open SlabState

theorem services_return {K : Image} {st : SlabState} {F : FreeList} {ps fs : List Nat}
    {cs : List ServiceCall} (h : st.Inv K F ps fs) (hv : st.ValidServices K cs) :
    ∃ st', st.services K cs = some st' := by
  induction cs generalizing st F ps fs with
  | nil => exact ⟨st,rfl⟩
  | cons c cs ih =>
    obtain ⟨st',F',ps',fs',he,hi,-⟩ := h.service hv.1
    rw [services_cons he]
    exact ih hi (hv.2 st' he)

theorem services_paired {K : Image} {st : SlabState} {F : FreeList} {ps fs : List Nat}
    {cs : List ServiceCall} (h : st.Inv K F ps fs) (hs : st.machine.Consistent)
    (hv : st.ValidServices K cs) :
    (∀ ds, ds <+: cs → ∀ st', st.services K ds = some st' → Balanced st.machine st'.machine) ↔
      st.AllPaired K cs := by
  induction cs generalizing st F ps fs with
  | nil =>
    refine iff_of_true (fun ds hd st' he => ?_) trivial
    rw [List.prefix_nil.mp hd] at he
    obtain rfl := Option.some.inj he
    exact .refl _
  | cons c cs ih =>
    obtain ⟨st1,F',ps',fs',he,hi,-⟩ := h.service hv.1
    have hstep := balanced_step h hs hv.1 he
    constructor
    · intro hall
      have hb := hall [c] ⟨cs,rfl⟩ st1 (services_cons he [])
      refine ⟨hstep.mp hb,fun st' he' => ?_⟩
      obtain rfl := Option.some.inj (he.symm.trans he')
      refine (ih hi (hb.consistent hs) (hv.2 _ he)).mp (fun ds hd st' hds => ?_)
      have hd' : c :: ds <+: c :: cs := List.cons_prefix_cons.mpr ⟨rfl,hd⟩
      exact hb.symm.trans (hall (c :: ds) hd' st' ((services_cons he ds).trans hds))
    · rintro ⟨hp,hrest⟩ ds hd st' hds
      have hb := hstep.mpr hp
      cases ds with
      | nil =>
        obtain rfl := Option.some.inj hds
        exact .refl _
      | cons d ds =>
        obtain ⟨rfl,hd'⟩ := List.cons_prefix_cons.mp hd
        rw [services_cons he] at hds
        exact hb.trans ((ih hi (hb.consistent hs) (hv.2 _ he)).mpr (hrest _ he) ds hd' st' hds)

theorem services_balanced {K : Image} {st : SlabState} (h : Reached K (fun _ _ => True) st)
    (hs : st.machine.Consistent) {cs : List ServiceCall} (hv : st.ValidServices K cs) :
    (∃ st', st.services K cs = some st') ∧
      ((∀ ds, ds <+: cs → ∀ st', st.services K ds = some st' →
        Balanced st.machine st'.machine) ↔ st.AllPaired K cs) := by
  obtain ⟨F,ps,fs,hi⟩ := h.inv
  exact ⟨services_return hi hv,services_paired hi hs hv⟩

-- The state of `boot_block`, with the interrupts enabled.
theorem boot_enabled : ∃ st, Reached .compact (fun _ _ => True) st ∧
    st.machine.disableIntrCount = 0#16 ∧ st.machine.Consistent ∧
    st.arena = Block.bytes ⟨0x40000,0x800⟩ := by
  have hg : (⟨0x40000,0x800⟩ : Block).Good .compact :=
    ⟨by decide,by decide,by decide,by decide,by decide,by decide⟩
  obtain ⟨s,hs,hb,-⟩ := boot_block hg (by decide) (by decide)
  have h0 : (pmmInit .compact .blank).Consistent := by
    unfold Machine.Consistent
    decide
  obtain ⟨hsr,hc⟩ := Prod.mk.inj (pmmFree_intr hs)
  have hcount := Machine.nested_count 1 (s := pmmInit .compact .blank) (by decide)
  refine ⟨_,hb.reached _,hc.trans hcount,?_,?_⟩
  · have hn := h0.nested (n := 1) (by decide)
    rw [Machine.Consistent,← hsr,← hc] at hn
    exact hn
  · ext x
    simp [start,FreeList.bytes]

-- A handler is registered for IRQ 1 and removed again.
theorem services_irq_leak : ∃ st m st1 st2, Reached .compact (fun _ _ => True) st ∧
    st.machine.disableIntrCount = 0#16 ∧ st.machine.Consistent ∧
    m = listInit st.machine.mem Image.compact.irq1List ∧
    st.ValidServices .compact [.memory (.write m),.irqRegister 1 0x50000,.irqRemove 0x50000] ∧
    st.services .compact [.memory (.write m),.irqRegister 1 0x50000] = some st1 ∧
    IsList st1.machine.mem Image.compact.irq1List [0x50000] ∧
    st1.service .compact (.irqRemove 0x50000) = some st2 ∧
    Balanced st.machine st1.machine ∧ ¬ Balanced st.machine st2.machine ∧
    st2.machine.disableIntrCount = 1#16 ∧ ipl st2.machine.sr = 7#3 := by
  obtain ⟨st,hr,hc,hs,harena⟩ := boot_enabled
  obtain ⟨F,ps,fs,hi⟩ := hr.inv
  have hlow : ∀ l ∈ Image.compact.allocHeaders, l < 0x1060 := by decide
  have hguard : ∀ x ∈ st.guarded .compact, x < 0x106c ∨ 0x1078 ≤ x ∧ x < 0x50000 := by
    rintro x (⟨l,hl,hx⟩ | ⟨hx,-⟩)
    · have := hlow l hl
      omega
    · rw [harena] at hx
      simp only [Block.bytes,Block.stop,Set.mem_Ico] at hx
      omega
  have hnil : Spaced Image.compact.irq1List [] := Image.compact.spaced_nil (by decide)
  have hone : Spaced Image.compact.irq1List [0x50000] :=
    hnil.cons (by decide) (by decide) (by decide) (by simp)
  have hoff : st.guarded .compact ⊆ (cells Image.compact.irq1List [0x50000])ᶜ := by
    rintro x hx (hx' | ⟨y,hy,hx'⟩)
    · have : Image.compact.irq1List = 0x106c := rfl
      have := hguard x hx
      omega
    · obtain rfl := List.mem_singleton.mp hy
      have := hguard x hx
      omega
  obtain ⟨m,hm⟩ : ∃ m, m = listInit st.machine.mem Image.compact.irq1List := ⟨_,rfl⟩
  obtain ⟨hl0,hag0⟩ := list_init (m := st.machine.mem) hnil
  rw [← hm] at hl0 hag0
  have hv0 : st.Valid .compact (.write m) :=
    hag0.mono (hoff.trans (Set.compl_subset_compl.mpr (cells_mono (by simp))))
  obtain ⟨st0,he0,hi0,-⟩ := hi.write hv0
  obtain rfl := Option.some.inj he0
  obtain ⟨s1,hs1⟩ : ∃ s1, s1 = irqRegister .compact { st.machine with mem := m } 1 0x50000 :=
    ⟨_,rfl⟩
  have hmem1 : s1.mem = listAddTail m 0 Image.compact.irq1List 0x50000 := by
    rw [hs1,irqRegister,Machine.enable_mem]
    rfl
  obtain ⟨hl1,hag1⟩ := hl0.add_tail 0 (show Spaced _ ([] ++ [0x50000]) from hone)
  rw [← hmem1] at hl1 hag1
  obtain ⟨hl2,hag2⟩ := IsList.delete (show IsList s1.mem _ ([] ++ 0x50000 :: []) from hl1)
  obtain ⟨hsr1,hc1⟩ :=
    Prod.mk.inj (irqRegister_intr .compact { st.machine with mem := m } 1 0x50000)
  rw [← hs1] at hsr1 hc1
  have hn : (Machine.nested 1 { st.machine with mem := m }).disableIntrCount =
      st.machine.disableIntrCount := Machine.nested_count 1 (by simp [hc])
  have hb1 : Balanced st.machine s1 := by
    refine (balanced_iff (n := 1) hs ?_ (by omega)).mpr (by simp [hc])
    rw [Machine.intr,hsr1,hc1,Machine.nested_mem]
    rfl
  have hc2 : (irqRemove s1 0x50000).disableIntrCount = 1#16 := by
    have hz : s1.disableIntrCount = 0#16 := hb1.count.trans hc
    change s1.disableIntrCount + 1#16 = 1#16
    rw [hz]
    rfl
  refine ⟨st,m,{ st with machine := s1 },{ st with machine := irqRemove s1 0x50000 },hr,hc,hs,hm,
    ⟨hv0,?_⟩,?_,hl1,rfl,hb1,fun hb => ?_,hc2,ipl_disable _⟩
  · intro st' he
    obtain rfl := Option.some.inj he
    refine ⟨⟨_,rfl,?_⟩,fun st' he => ?_⟩
    · rw [← hs1]
      exact hag1.mono hoff
    · obtain rfl := Option.some.inj he
      refine ⟨⟨_,rfl,?_⟩,fun _ _ => trivial⟩
      rw [← hs1]
      exact hag2.mono (hoff.trans (Set.compl_subset_compl.mpr (cells_mono (by simp))))
  · rw [hs1]
    rfl
  · have := hb.count
    rw [hc2,hc] at this
    exact absurd this (by decide)

theorem services_balanced_two : ∃ st, Reached .compact (fun _ _ => True) st ∧
    st.machine.Consistent ∧
    st.ValidServices .compact [.memory (.alloc 3),.memory (.pmmAlloc 0x400)] ∧
    (∃ st', st.services .compact [.memory (.alloc 3),.memory (.pmmAlloc 0x400)] = some st') ∧
    ((∀ ds, ds <+: [.memory (.alloc 3),.memory (.pmmAlloc 0x400)] →
        ∀ st', st.services .compact ds = some st' → Balanced st.machine st'.machine) ↔
      st.AllPaired .compact [.memory (.alloc 3),.memory (.pmmAlloc 0x400)]) := by
  obtain ⟨st,hr,-,hs,-⟩ := boot_enabled
  have hv : st.ValidServices .compact [.memory (.alloc 3),.memory (.pmmAlloc 0x400)] :=
    ⟨show (3 : Nat) < 256 by decide,fun _ _ =>
      ⟨show (0x400 : Nat) < addressSpace by decide,fun _ _ => trivial⟩⟩
  exact ⟨st,hr,hs,hv,services_balanced hr hs hv⟩

end RoscoM68k
