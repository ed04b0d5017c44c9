import RoscoM68k.Kernel.Services

namespace RoscoM68k

namespace Machine

-- The outermost enable_interrupts does not know the mask it found: it clears it.
theorem nested_clears {s : Machine} {n : Nat} (hc : s.disableIntrCount = 0#16) (hn : 0 < n)
    (hlt : n < 65536) : ipl (nested n s).sr = 0#3 := by
  cases n with
  | zero => exact absurd hn (by omega)
  | succ n =>
    have hd : s.disableInterrupts.disableIntrCount = 0#16 + 1#16 := by
      change s.disableIntrCount + 1#16 = _
      rw [hc]
    have h1 : (0#16 + 1#16 : BitVec 16) ≠ 0#16 := by decide
    have hcon : s.disableInterrupts.Consistent := by
      rw [Consistent,hd,if_neg h1]
      exact ipl_disable _
    have hle : s.disableInterrupts.disableIntrCount.toNat + n < 65536 := by
      rw [hd]
      change 1 + n < 65536
      omega
    have hcount := nested_count n hle
    have hen := (hcon.nested hle).enable h1 (hcount.trans hd)
    rw [Consistent,enable_pred h1 (hcount.trans hd),if_pos rfl] at hen
    exact hen

theorem enable_clears {s : Machine} (h : s.disableIntrCount = 1#16) :
    ipl s.enableInterrupts.sr = 0#3 := by
  rw [enableInterrupts,h]
  exact ipl_enable _

end Machine

-- The services that the README does not mark as unsafe in interrupt context.
def ServiceCall.InterruptSafe : ServiceCall → Prop
  | .irqRemove _ => False
  | _ => True

-- The services that open no critical section: slab_alloc_c refuses a count of 0 or above 31 before
-- it opens one.
def ServiceCall.Sectionless : ServiceCall → Prop
  | .memory (.alloc n) => n = 0 ∨ 31 < n
  | .memory (.write _) => True
  | _ => False

-- What a piece of code does to the interrupt state: critical sections of its own, and services.
inductive IntrStep where
  | disable
  | enable
  | service (c : ServiceCall)

namespace IntrStep

-- Every critical section is closed, and none that the code did not open.
def Nests : Nat → List IntrStep → Prop
  | k, [] => k = 0
  | k, .disable :: qs => Nests (k + 1) qs
  | k, .enable :: qs => 0 < k ∧ Nests (k - 1) qs
  | k, .service c :: qs => c.InterruptSafe ∧ Nests k qs

-- The critical sections open after a step.
def opened (k : Nat) : IntrStep → Nat
  | .disable => k + 1
  | .enable => k - 1
  | .service _ => k

def depth (k : Nat) (qs : List IntrStep) : Nat := qs.foldl opened k

end IntrStep

namespace SlabState

variable {K : Image} {st st' : SlabState} {F : FreeList} {ps fs : List Nat} {c : ServiceCall}
  {L : BitVec 3} {k : Nat} {q : IntrStep} {qs : List IntrStep}

def intrStep (K : Image) (st : SlabState) : IntrStep → Option SlabState
  | .disable => some { st with machine := st.machine.disableInterrupts }
  | .enable => some { st with machine := st.machine.enableInterrupts }
  | .service c => st.service K c

def intrSteps (K : Image) (st : SlabState) : List IntrStep → Option SlabState
  | [] => some st
  | q :: qs => (st.intrStep K q).bind (fun st => st.intrSteps K qs)

def ValidIntr (K : Image) (st : SlabState) : List IntrStep → Prop
  | [] => True
  | q :: qs => (∀ c, q = .service c → st.ValidService K c) ∧
      ∀ st', st.intrStep K q = some st' → st'.ValidIntr K qs

theorem intrSteps_cons (he : st.intrStep K q = some st') (qs : List IntrStep) :
    st.intrSteps K (q :: qs) = st'.intrSteps K qs := by
  rw [intrSteps,he,Option.bind_some]

-- With `k` critical sections open, of code that runs at level `L`.
structure AtLevel (L : BitVec 3) (k : Nat) (s : Machine) : Prop where
  count : s.disableIntrCount.toNat = k
  mask : k = 0 → ipl s.sr = L
  closed : L ≤ ipl s.sr

-- The level is kept from step to step: no interrupt of level L or below gets in.
def KeepsLevel (K : Image) (L : BitVec 3) (k : Nat) (st : SlabState) (qs : List IntrStep) : Prop :=
  ∀ ds, ds <+: qs → ∀ st', st.intrSteps K ds = some st' →
    AtLevel L (IntrStep.depth k ds) st'.machine

-- The count does not wrap around in any step.
def Counted (K : Image) (st : SlabState) : List IntrStep → Prop
  | [] => True
  | q :: qs => (q = .disable → st.machine.disableIntrCount.toNat + 1 < 65536) ∧
      (∀ c, q = .service c → st.Paired K c) ∧
      ∀ st', st.intrStep K q = some st' → st'.Counted K qs

-- Inside a critical section everything is masked.
def Masked (L : BitVec 3) (k : Nat) (s : Machine) : Prop :=
  s.disableIntrCount.toNat = k ∧ ipl s.sr = if k = 0 then L else 7#3

theorem le_seven (L : BitVec 3) : L ≤ 7#3 := by
  have := L.isLt
  rw [BitVec.le_def]
  change L.toNat ≤ 7
  omega

theorem Masked.atLevel {s : Machine} (h : Masked L k s) : AtLevel L k s := by
  refine ⟨h.1,fun hk => ?_,?_⟩
  · rw [h.2,if_pos hk]
  · rw [h.2]
    split
    · exact BitVec.le_refl L
    · exact le_seven L

theorem Masked.congr {s s' : Machine} (h : Masked L k s) (he : s'.intr = s.intr) :
    Masked L k s' := by
  obtain ⟨hsr,hc⟩ := Prod.mk.inj he
  rw [Masked,hsr,hc]
  exact h

theorem Masked.consistent {s : Machine} (h : Masked L k s) (hk : 0 < k) : s.Consistent := by
  have hne : s.disableIntrCount ≠ 0#16 := by
    intro hz
    have := h.1
    rw [hz] at this
    exact absurd this.symm (by simpa using by omega)
  rw [Machine.Consistent,if_neg hne,h.2,if_neg (by omega)]

theorem count_eq_zero {s : Machine} (h : s.disableIntrCount.toNat = 0) :
    s.disableIntrCount = 0#16 := BitVec.eq_of_toNat_eq h

theorem count_eq_one {s : Machine} (h : s.disableIntrCount.toNat = 0 + 1) :
    s.disableIntrCount = 1#16 := BitVec.eq_of_toNat_eq h

theorem AtLevel.congr {s s' : Machine} (h : AtLevel L k s) (he : s'.intr = s.intr) :
    AtLevel L k s' := by
  obtain ⟨hsr,hc⟩ := Prod.mk.inj he
  exact ⟨by rw [hc]; exact h.count,by rw [hsr]; exact h.mask,by rw [hsr]; exact h.closed⟩

-- A service that opens `d` sections: inside a section of the caller's nothing changes, outside
-- of them the mask is lost with the first section.
theorem Masked.sections {s : Machine} {d : Nat} (h : Masked L k s) (hd : d < 65536)
    (h' : AtLevel L k (Machine.nested d s)) : k + d < 65536 ∧ (L = 0#3 ∨ 0 < k ∨ d = 0) := by
  have hce : (Machine.nested d s).disableIntrCount = s.disableIntrCount :=
    BitVec.eq_of_toNat_eq (h'.count.trans h.1.symm)
  have hlt := (Machine.nested_count_iff s hd).mp hce
  rw [h.1] at hlt
  refine ⟨hlt,?_⟩
  by_cases hk : 0 < k
  · exact .inr (.inl hk)
  by_cases hz : d = 0
  · exact .inr (.inr hz)
  obtain rfl : k = 0 := by omega
  have hm := h'.mask rfl
  rw [Machine.nested_clears (count_eq_zero h.1) (by omega) hd] at hm
  exact .inl hm.symm

theorem Masked.nested {s : Machine} {d : Nat} (h : Masked L k s) (hlt : k + d < 65536)
    (hcase : L = 0#3 ∨ 0 < k ∨ d = 0) : Masked L k (Machine.nested d s) := by
  have hle : s.disableIntrCount.toNat + d < 65536 := by
    rw [h.1]
    exact hlt
  have hcount := Machine.nested_count d hle
  refine ⟨by rw [hcount,h.1],?_⟩
  by_cases hk : 0 < k
  · have hcs := h.consistent hk
    have hcon := hcs.nested hle
    rw [Machine.Consistent,hcount,← hcs] at hcon
    rw [hcon]
    exact h.2
  · obtain rfl : k = 0 := by omega
    by_cases hz : d = 0
    · subst hz
      exact h.2
    · have hL : L = 0#3 := hcase.resolve_right (by omega)
      rw [if_pos rfl,hL,Machine.nested_clears (count_eq_zero h.1) (by omega) (by omega)]

theorem Masked.disable {s : Machine} (h : Masked L k s) (hlt : k + 1 < 65536) :
    Masked L (k + 1) s.disableInterrupts := by
  have hc := h.1
  refine ⟨?_,?_⟩
  · have := Machine.toNat_succ (c := s.disableIntrCount) (by omega)
    exact this.trans (by omega)
  · rw [if_neg (Nat.succ_ne_zero k)]
    exact ipl_disable _

theorem Masked.enable {s : Machine} (h : Masked L (k + 1) s) (hL : k = 0 → L = 0#3) :
    Masked L k s.enableInterrupts := by
  have hlt := s.disableIntrCount.isLt
  have hc := h.1
  have hk : s.disableIntrCount = BitVec.ofNat 16 k + 1#16 := by
    refine BitVec.eq_of_toNat_eq ?_
    rw [BitVec.toNat_add,hc]
    simp only [BitVec.toNat_ofNat]
    omega
  have hofNat : (BitVec.ofNat 16 k).toNat = k := by
    rw [BitVec.toNat_ofNat]
    omega
  have hne : BitVec.ofNat 16 k + 1#16 ≠ 0#16 := Machine.succ_ne_zero (by omega)
  have hen := Machine.enable_pred hne hk
  have hcon := (h.consistent (by omega)).enable hne hk
  refine ⟨by rw [hen,hofNat],?_⟩
  rw [hcon,hen]
  by_cases hz : k = 0
  · subst hz
    rw [if_pos rfl,if_pos rfl,hL rfl]
  · have hz' : BitVec.ofNat 16 k ≠ 0#16 := by
      intro he
      rw [he] at hofNat
      exact hz hofNat.symm
    rw [if_neg hz',if_neg hz]

theorem keepsLevel_cons : KeepsLevel K L k st (q :: qs) ↔ AtLevel L k st.machine ∧
    ∀ st', st.intrStep K q = some st' → KeepsLevel K L (q.opened k) st' qs := by
  constructor
  · intro h
    refine ⟨h [] List.nil_prefix st rfl,fun st' he ds hd st'' hds => ?_⟩
    exact h (q :: ds) (List.cons_prefix_cons.mpr ⟨rfl,hd⟩) st'' ((intrSteps_cons he ds).trans hds)
  · rintro ⟨h0,h⟩ ds hd st'' hds
    cases ds with
    | nil =>
      obtain rfl := Option.some.inj hds
      exact h0
    | cons p ds =>
      obtain ⟨rfl,hd'⟩ := List.cons_prefix_cons.mp hd
      obtain ⟨st',he,hds'⟩ := Option.bind_eq_some_iff.mp hds
      exact h st' he ds hd' st'' hds'

theorem KeepsLevel.here (h : KeepsLevel K L k st qs) : AtLevel L k st.machine :=
  h [] List.nil_prefix st rfl

theorem Depth.sectionless {d : Nat} (h : Depth st F ps c d) : c.Sectionless ↔ d = 0 := by
  cases h with
  | odd h => exact iff_of_true h rfl
  | found hn => exact iff_of_false (by simp only [ServiceCall.Sectionless]; omega) (by omega)
  | page hn => exact iff_of_false (by simp only [ServiceCall.Sectionless]; omega) (by omega)
  | pmmAlloc =>
    rename_i size
    refine iff_of_false id ?_
    unfold allocDepth
    split
    · split <;> omega
    · omega
  | write => exact iff_of_true trivial rfl
  | _ => exact iff_of_false id (by omega)

namespace Inv

-- A service in interrupt context is some critical sections inside each other.
theorem safe_service (h : st.Inv K F ps fs) (hs : c.InterruptSafe) (hv : st.ValidService K c) :
    ∃ st' F' ps' fs' d, st.service K c = some st' ∧ st'.Inv K F' ps' fs' ∧ d < 65536 ∧
      (c.Sectionless ↔ d = 0) ∧ (st.Paired K c ↔ st.machine.disableIntrCount.toNat + d < 65536) ∧
      st'.machine.intr = (Machine.nested d st.machine).intr := by
  obtain ⟨st',F',ps',fs',he,hi,⟨d,hd,hm⟩ | ⟨⟨a0,rfl⟩,-⟩⟩ := h.service hv
  · have hle := hd.le
    refine ⟨st',F',ps',fs',d,he,hi,by omega,hd.sectionless,⟨?_,fun hlt => ⟨F,ps,fs,d,h,hd,hlt⟩⟩,hm⟩
    rintro ⟨F1,ps1,fs1,e,h1,hde,hlt⟩
    have hle1 := hde.le
    obtain ⟨st1,_,_,_,he1,-,⟨e1,hde1,hm1⟩ | ⟨⟨a0,rfl⟩,-⟩⟩ := h1.service hv
    · obtain rfl := Option.some.inj (he1.symm.trans he)
      obtain rfl := hde.unique hde1
      have hc := congrArg Prod.snd (hm.symm.trans hm1)
      refine (Machine.nested_count_iff _ (by omega)).mp (hc.trans ?_)
      exact Machine.nested_count _ hlt
    · exact absurd hs id
  · exact absurd hs id

theorem of_mem (h : st.Inv K F ps fs) {s : Machine} (hm : s.mem = st.machine.mem) :
    SlabState.Inv K { st with machine := s } F ps fs :=
  h.foreign (by rw [hm]; exact Mem.Agree.refl _ _)

end Inv

theorem keepsLevel_iff (h : st.Inv K F ps fs) (hm : Masked L k st.machine)
    (hn : IntrStep.Nests k qs) (hv : st.ValidIntr K qs) :
    KeepsLevel K L k st qs ↔ st.Counted K qs ∧
      (L = 0#3 ∨ k = 0 ∧ ∀ q ∈ qs, ∃ c, q = .service c ∧ c.Sectionless) := by
  induction qs generalizing st F ps fs k with
  | nil =>
    refine iff_of_true (fun ds hd st' he => ?_) ⟨trivial,.inr ⟨hn,by simp⟩⟩
    rw [List.prefix_nil.mp hd] at he ⊢
    obtain rfl := Option.some.inj he
    exact hm.atLevel
  | cons q qs ih =>
    rw [keepsLevel_cons,and_iff_right hm.atLevel,Counted]
    cases q with
    | disable =>
      have hi := h.of_mem (s := st.machine.disableInterrupts) rfl
      have hstep := fun hlt => ih hi (hm.disable hlt) hn (hv.2 _ rfl)
      constructor
      · intro hk
        have hk1 := hk _ rfl
        have hlt : k + 1 < 65536 := by
          have := hk1.here.count
          have := BitVec.isLt (st.machine.disableInterrupts.disableIntrCount)
          simp only [IntrStep.opened] at *
          omega
        obtain ⟨hc,hL | ⟨h0,-⟩⟩ := (hstep hlt).mp hk1
        · refine ⟨⟨fun _ => ?_,(fun _ hq => nomatch hq),fun st' he => ?_⟩,.inl hL⟩
          · rw [hm.1]
            exact hlt
          · obtain rfl := Option.some.inj he
            exact hc
        · exact absurd h0 (Nat.succ_ne_zero k)
      · rintro ⟨⟨hlt,-,hc⟩,hL | ⟨-,hall⟩⟩ st' he
        · obtain rfl := Option.some.inj he
          have hlt' := hlt rfl
          rw [hm.1] at hlt'
          exact (hstep hlt').mpr ⟨hc _ rfl,.inl hL⟩
        · obtain ⟨c,hc,-⟩ := hall _ List.mem_cons_self
          exact nomatch hc
    | enable =>
      obtain ⟨k,rfl⟩ : ∃ j, k = j + 1 := ⟨k - 1,by have := hn.1; omega⟩
      have hmem := congrArg Machine.mem (Machine.enable_mem st.machine st.machine.mem)
      have hi := h.of_mem (s := st.machine.enableInterrupts) hmem
      have hstep := fun hL => ih hi (hm.enable hL) hn.2 (hv.2 _ rfl)
      constructor
      · intro hk
        have hk1 := hk _ rfl
        have hL : k = 0 → L = 0#3 := by
          intro hz
          subst hz
          have hen := Machine.enable_clears (count_eq_one hm.1)
          rw [hk1.here.mask rfl] at hen
          exact hen
        obtain ⟨hc,hcase⟩ := (hstep hL).mp hk1
        refine ⟨⟨nofun,(fun _ hq => nomatch hq),fun st' he => ?_⟩,.inl ?_⟩
        · obtain rfl := Option.some.inj he
          exact hc
        · rcases hcase with hL' | ⟨hz,-⟩
          · exact hL'
          · exact hL hz
      · rintro ⟨⟨-,-,hc⟩,hL | ⟨h0,-⟩⟩ st' he
        · obtain rfl := Option.some.inj he
          exact (hstep (fun _ => hL)).mpr ⟨hc _ rfl,.inl hL⟩
        · exact absurd h0 (Nat.succ_ne_zero k)
    | service c =>
      obtain ⟨st',F',ps',fs',d,he,hi,hd,hsl,hp,hintr⟩ := h.safe_service hn.1 (hv.1 c rfl)
      rw [hm.1] at hp
      have hstep := fun hlt hcase => ih hi ((hm.nested hlt hcase).congr hintr) hn.2 (hv.2 st' he)
      constructor
      · intro hk
        have hk1 := hk st' he
        obtain ⟨hlt,hcase⟩ := hm.sections hd (hk1.here.congr hintr.symm)
        obtain ⟨hc,hrest⟩ := (hstep hlt hcase).mp hk1
        refine ⟨⟨nofun,fun c' hq => ?_,fun st'' he' => ?_⟩,?_⟩
        · cases hq
          exact hp.mpr hlt
        · obtain rfl := Option.some.inj (he.symm.trans he')
          exact hc
        · rcases hrest with hL | ⟨h0,hall⟩
          · exact .inl hL
          rcases hcase with hL | hk0 | hd0
          · exact .inl hL
          · exact absurd h0 (by omega)
          · refine .inr ⟨h0,fun q hq => ?_⟩
            rcases List.mem_cons.mp hq with rfl | hq
            · exact ⟨c,rfl,hsl.mpr hd0⟩
            · exact hall q hq
      · rintro ⟨⟨-,hpair,hc⟩,hcase⟩ st'' he'
        obtain rfl := Option.some.inj (he.symm.trans he')
        have hlt := hp.mp (hpair c rfl)
        rcases hcase with hL | ⟨h0,hall⟩
        · exact (hstep hlt (.inl hL)).mpr ⟨hc st' he,.inl hL⟩
        · obtain ⟨c',hq,hs'⟩ := hall _ List.mem_cons_self
          cases hq
          have hrest := fun q hq => hall q (List.mem_cons_of_mem _ hq)
          exact (hstep hlt (.inr (.inr (hsl.mp hs')))).mpr ⟨hc st' he,.inr ⟨h0,hrest⟩⟩

theorem intrSteps_return (h : st.Inv K F ps fs) (hn : IntrStep.Nests k qs)
    (hv : st.ValidIntr K qs) : ∃ st', st.intrSteps K qs = some st' := by
  induction qs generalizing st F ps fs k with
  | nil => exact ⟨st,rfl⟩
  | cons q qs ih =>
    cases q with
    | disable => exact ih (h.of_mem rfl) hn (hv.2 _ rfl)
    | enable =>
      have hmem := congrArg Machine.mem (Machine.enable_mem st.machine st.machine.mem)
      exact ih (h.of_mem hmem) hn.2 (hv.2 _ rfl)
    | service c =>
      obtain ⟨st',F',ps',fs',-,he,hi,-⟩ := h.safe_service hn.1 (hv.1 c rfl)
      rw [intrSteps_cons (q := .service c) he]
      exact ih hi hn.2 (hv.2 st' he)

end SlabState

open SlabState

-- `s` is the machine in the interrupted or interrupting code, with any mask and any registers.
theorem services_keep_level {K : Image} {st : SlabState} (h : Reached K (fun _ _ => True) st)
    {s : Machine} (hmem : s.mem = st.machine.mem) (hc : s.disableIntrCount = 0#16)
    {qs : List IntrStep} (hn : IntrStep.Nests 0 qs)
    (hv : SlabState.ValidIntr K { st with machine := s } qs) :
    (∃ st', SlabState.intrSteps K { st with machine := s } qs = some st') ∧
      (KeepsLevel K (ipl s.sr) 0 { st with machine := s } qs ↔
        SlabState.Counted K { st with machine := s } qs ∧
          (ipl s.sr = 0#3 ∨ ∀ q ∈ qs, ∃ c, q = .service c ∧ c.Sectionless)) := by
  obtain ⟨F,ps,fs,hi⟩ := h.inv
  have hi' := hi.of_mem hmem
  have hm : Masked (ipl s.sr) 0 s := ⟨by rw [hc]; rfl,(if_pos rfl).symm⟩
  refine ⟨intrSteps_return hi' hn hv,?_⟩
  have hk := keepsLevel_iff hi' hm hn hv
  rwa [and_iff_right (rfl : 0 = 0)] at hk

-- A handler at level 1 allocates a system object: the mask is 0 before the handler's rte.
theorem services_lose_level : ∃ st s st', Reached .compact (fun _ _ => True) st ∧
    s = { st.machine with sr := 0x2100#16 } ∧ s.disableIntrCount = 0#16 ∧ ipl s.sr = 1#3 ∧
    IntrStep.Nests 0 [.service (.memory (.alloc 3))] ∧
    SlabState.ValidIntr .compact { st with machine := s } [.service (.memory (.alloc 3))] ∧
    SlabState.intrSteps .compact { st with machine := s } [.service (.memory (.alloc 3))] =
      some st' ∧
    ipl st'.machine.sr = 0#3 ∧
    ¬ KeepsLevel .compact (ipl s.sr) 0 { st with machine := s }
      [.service (.memory (.alloc 3))] := by
  obtain ⟨st,hr,hc,-⟩ := boot_enabled
  obtain ⟨F,ps,fs,hi⟩ := hr.inv
  obtain ⟨s,hs⟩ : ∃ s : Machine, s = { st.machine with sr := 0x2100#16 } := ⟨_,rfl⟩
  have hc' : s.disableIntrCount = 0#16 := by
    rw [hs]
    exact hc
  have hL : ipl s.sr = 1#3 := by
    rw [hs]
    exact (by decide : ipl 0x2100#16 = 1#3)
  have hv : SlabState.ValidService .compact { st with machine := s } (.memory (.alloc 3)) :=
    show (3 : Nat) < 256 by decide
  obtain ⟨st',_,_,_,d,he,-,hd,hsl,-,hintr⟩ :=
    (hi.of_mem (s := s) (by rw [hs])).safe_service (c := .memory (.alloc 3)) trivial hv
  have hd0 : d ≠ 0 := fun h0 => absurd (hsl.mpr h0) (by simp [ServiceCall.Sectionless])
  have hz : ipl st'.machine.sr = 0#3 := by
    rw [(Prod.mk.inj hintr).1]
    exact Machine.nested_clears hc' (by omega) hd
  have hrun : SlabState.intrSteps .compact { st with machine := s }
      [.service (.memory (.alloc 3))] = some st' :=
    intrSteps_cons (q := .service (.memory (.alloc 3))) he []
  refine ⟨st,s,st',hr,hs,hc',hL,⟨trivial,rfl⟩,⟨?_,fun _ _ => trivial⟩,hrun,hz,fun hk => ?_⟩
  · intro c hcq
    cases hcq
    exact hv
  · have hm := (hk _ (List.prefix_refl _) st' hrun).mask rfl
    rw [hz,hL] at hm
    exact absurd hm (by decide)

-- The same call in a section of a task's own.
theorem services_keep_level_two : ∃ st, Reached .compact (fun _ _ => True) st ∧
    st.machine.disableIntrCount = 0#16 ∧
    IntrStep.Nests 0 [.disable,.service (.memory (.alloc 3)),.enable] ∧
    st.ValidIntr .compact [.disable,.service (.memory (.alloc 3)),.enable] ∧
    (∃ st', st.intrSteps .compact [.disable,.service (.memory (.alloc 3)),.enable] = some st') ∧
    (KeepsLevel .compact (ipl st.machine.sr) 0 st
        [.disable,.service (.memory (.alloc 3)),.enable] ↔
      st.Counted .compact [.disable,.service (.memory (.alloc 3)),.enable] ∧
        (ipl st.machine.sr = 0#3 ∨ ∀ q ∈ [.disable,.service (.memory (.alloc 3)),.enable],
          ∃ c, q = IntrStep.service c ∧ c.Sectionless)) := by
  obtain ⟨st,hr,hc,-⟩ := boot_enabled
  have hn : IntrStep.Nests 0 [.disable,.service (.memory (.alloc 3)),.enable] :=
    ⟨trivial,Nat.one_pos,rfl⟩
  have hv : st.ValidIntr .compact [.disable,.service (.memory (.alloc 3)),.enable] := by
    refine ⟨nofun,fun st1 _ => ⟨fun c hcq => ?_,fun st2 _ => ⟨nofun,fun _ _ => trivial⟩⟩⟩
    cases hcq
    exact show (3 : Nat) < 256 by decide
  exact ⟨st,hr,hc,hn,hv,services_keep_level hr rfl hc hn hv⟩

end RoscoM68k
