import RoscoM68k.Kernel.SlabRuns

namespace RoscoM68k

open SlabState

namespace SlabState

-- Every page in use is on one list, and on full_slabs exactly when all of its blocks are.
def Classified (K : Image) (st : SlabState) : Prop :=
  ∃ F ps fs, SlabRep K st.machine.mem F ps fs ∧
    (∀ p, 1024 ∣ p → (p ∈ ps ++ fs ↔ p ∈ st.arena ∧ p ∉ F.bytes)) ∧
    (∀ p ∈ ps, slabMap st.machine.mem p ≠ 0xFFFFFFFF#32) ∧
    ∀ p ∈ fs, slabMap st.machine.mem p = 0xFFFFFFFF#32

-- Nothing is freed from a full slab, unless it is everything.
def NoneLeft (st : SlabState) : SlabCall → Prop
  | .free a => slabMap st.machine.mem (a.addr / 1024 * 1024) = 0xFFFFFFFF#32 → a.n = 31
  | _ => True

variable {K : Image} {st st' : SlabState} {F F' : FreeList} {ps fs ps' fs' : List Nat} {n p : Nat}
  {a : Slot}

theorem slabMeta_injective : Function.Injective slabMeta := fun p q h => by
  simp only [slabMeta] at h
  omega

namespace Inv

theorem classified_iff (h : st.Inv K F ps fs) :
    st.Classified K ↔ ∀ q ∈ fs, slabMap st.machine.mem q = 0xFFFFFFFF#32 := by
  constructor
  · rintro ⟨G,xs,ys,hr,-,-,hfull⟩
    have hmap := h.rep.lists.second.unique hr.lists.second
    rw [List.map_injective_iff.mpr slabMeta_injective hmap]
    exact hfull
  · refine fun hfull => ⟨F,ps,fs,h.rep,fun p hd => ?_,h.partial_free,hfull⟩
    constructor
    · intro hp
      refine ⟨(h.arena p).mpr (.inr ⟨p,hp,le_rfl,by omega⟩),fun hx => ?_⟩
      have := h.rep.clear p hp p hx
      omega
    · rintro ⟨ha,hx⟩
      obtain ⟨q,hq,h1,h2⟩ := ((h.arena p).mp ha).resolve_left hx
      have hdq := h.marked.aligned q hq
      obtain rfl : q = p := by omega
      exact hq

theorem cleared_full {x v : BitVec 32} {i n : Nat} (hn : 0 < n) (hle : i + n ≤ 31)
    (hx : x = 0xFFFFFFFF#32) (hc : Cleared x v i n) : v = 0x80000000#32 ↔ n = 31 := by
  have hones : 0xFFFFFFFF#32 = BitVec.allOnes 32 := rfl
  have h31 : 0x80000000#32 = BitVec.twoPow 32 31 := rfl
  have hbit : ∀ j < 32, v.getLsbD j = if i ≤ j ∧ j < i + n then false else true := by
    intro j hj
    rw [hc j hj,hx,hones,BitVec.getLsbD_allOnes,decide_eq_true hj]
  rw [h31,BitVec.eq_of_getLsbD_eq_iff]
  simp only [BitVec.getLsbD_twoPow]
  constructor
  · intro hall
    by_contra hne
    by_cases hi : i = 0
    · have := hall 30 (by omega)
      rw [hbit 30 (by omega),if_neg (by omega)] at this
      simp at this
    · have := hall 0 (by omega)
      rw [hbit 0 (by omega),if_neg (by omega)] at this
      simp at this
  · rintro rfl j hj
    rw [hbit j hj]
    by_cases hj31 : j = 31
    · subst hj31
      rw [if_neg (by omega)]
      rfl
    · rw [if_pos (by omega)]
      symm
      simp only [Bool.and_eq_false_iff,decide_eq_false_iff_not]
      omega

theorem free_classified (h : st.Inv K F ps fs)
    (hfull : ∀ q ∈ fs, slabMap st.machine.mem q = 0xFFFFFFFF#32)
    (hi : st'.Inv K F' ps' fs') (hr : Released K st F ps fs a st' F' ps' fs') :
    st'.Classified K ↔ st.NoneLeft (.free a) := by
  rw [hi.classified_iff]
  have hpage : ∀ {p i}, p ∈ ps ++ fs → a.addr = p + 32 * i → 0 < a.n → i + a.n ≤ 31 →
      a.addr / 1024 * 1024 = p := by
    intro p i hp hai hn hle
    have := h.marked.aligned p hp
    omega
  cases hr with
  | kept hp hai hn hle hcl hne hq =>
    rename_i p i m'
    rw [NoneLeft,hpage hp hai hn hle]
    constructor
    · -- A full slab that keeps some of its blocks stays on full_slabs.
      intro hall hpf
      have hpfs : p ∈ fs :=
        (List.mem_append.mp hp).resolve_left (fun hps => h.partial_free p hps hpf)
      have := hcl i (by omega)
      rw [show slabMap m' p = _ from hall p hpfs,if_pos (by omega)] at this
      have hones : 0xFFFFFFFF#32 = BitVec.allOnes 32 := rfl
      rw [hones,BitVec.getLsbD_allOnes] at this
      simp only [decide_eq_false_iff_not] at this
      omega
    · intro hk q hqm
      have hqp : q ≠ p := by
        rintro rfl
        have hpf := hfull q hqm
        exact hne ((cleared_full hn hle hpf hcl).mpr (hk hpf))
      rw [show slabMap _ q = _ from hq q (by simp [hqm]) hqp]
      exact hfull q hqm
  | dropped hp hai hn hle hcl hq =>
    rename_i p i m'
    rw [NoneLeft,hpage hp hai hn hle]
    constructor
    · exact fun _ hpf => (cleared_full hn hle hpf hcl).mp rfl
    · intro _ q hqm
      have hnd := (List.nodup_append.mp h.rep.lists.nodup).2.1
      obtain ⟨hqp,hqm⟩ := hnd.mem_erase_iff.mp hqm
      rw [show slabMap _ q = _ from hq q (by simp [hqm]) hqp]
      exact hfull q hqm

theorem alloc_classified (hfull : ∀ q ∈ fs, slabMap st.machine.mem q = 0xFFFFFFFF#32)
    (hi : st'.Inv K F' ps' fs') {r : Nat} (ha : Allocated K st F ps fs n st' r F' ps' fs') :
    st'.Classified K := by
  rw [hi.classified_iff]
  cases ha with
  | reused hps hf ht hq =>
    refine ht.full (fun q hqm => ?_)
    rw [hq q (by simp [hqm])]
    exact hfull q hqm
  | fresh hh hc hsz ht hq =>
    refine ht.full (fun q hqm => ?_)
    rw [hq q (by simp [hqm])]
    exact hfull q hqm
  | failed hh ha =>
    rw [Machine.mem_nested]
    exact hfull

theorem step_classified (h : st.Inv K F ps fs) (hcl : st.Classified K) {c : SlabCall}
    (hv : st.Valid K c) (he : st.call K c = some st') :
    st'.Classified K ↔ st.NoneLeft c := by
  have hfull := h.classified_iff.mp hcl
  have hforeign : ∀ {st'' : SlabState} {F'' : FreeList}, st.call K c = some st'' →
      st''.Inv K F'' ps fs → Foreign st st'' (ps ++ fs) → st'.Classified K := by
    intro st'' F'' he' hi hq
    obtain rfl : st'' = st' := Option.some.inj (he'.symm.trans he)
    rw [hi.classified_iff]
    intro q hqm
    rw [hq.maps q (by simp [hqm])]
    exact hfull q hqm
  cases c with
  | alloc n =>
    refine iff_of_true ?_ trivial
    by_cases hn : 0 < n ∧ n ≤ 31
    · obtain ⟨st'',r,F'',ps'',fs'',he',hi,ha⟩ := h.doAlloc hn.1 hn.2
      obtain rfl : st'' = st' := Option.some.inj ((call_alloc he').symm.trans he)
      exact alloc_classified hfull hi ha
    · have he' := doAlloc_odd (K := K) st (n := n) hv (by omega)
      obtain rfl : st = st' := Option.some.inj ((call_alloc he').symm.trans he)
      exact hcl
  | free a =>
    obtain ⟨st'',F'',ps'',fs'',he',hi,hr⟩ := h.free hv
    obtain rfl : st'' = st' := Option.some.inj (he'.symm.trans he)
    exact h.free_classified hfull hi hr
  | pmmAlloc size =>
    obtain ⟨st'',F'',he',hi,hq,-⟩ := h.pmmAlloc hv
    exact iff_of_true (hforeign he' hi hq) trivial
  | pmmFree addr size =>
    obtain ⟨st'',F'',he',hi,hq,-⟩ := h.pmmFree hv
    exact iff_of_true (hforeign he' hi hq) trivial
  | write m =>
    obtain ⟨st'',he',hi,hq⟩ := h.write hv
    exact iff_of_true (hforeign he' hi hq) trivial

end Inv

theorem Boot.classified (h : Boot K st) : st.Classified K := by
  obtain ⟨F,hi⟩ := h.inv
  exact hi.classified_iff.mpr (by simp)

end SlabState

theorem slab_run_classified {K : Image} {st : SlabState}
    (h : Reached K (fun st c => st.NoneLeft c) st) :
    st.Classified K ∧ ∀ c st', st.Valid K c → st.call K c = some st' →
      (st'.Classified K ↔ st.NoneLeft c) := by
  have hcl : st.Classified K := by
    obtain ⟨st0,hb,hr⟩ := h
    induction hr with
    | refl => exact hb.classified
    | tail hrun hstep ih =>
      obtain ⟨F,ps,fs,hi⟩ := Reached.inv ⟨st0,hb,hrun⟩
      obtain ⟨c,hv,hk,he⟩ := hstep
      exact (hi.step_classified ih hv he).mpr hk
  obtain ⟨F,ps,fs,hi⟩ := h.inv
  exact ⟨hcl,fun c st' hv he => hi.step_classified hcl hv he⟩

theorem slab_run_classified_one : ∃ st st', Boot .compact st ∧
    st.call .compact (.alloc 3) = some st' ∧ st'.Classified .compact ∧
    ∀ c st'', st'.Valid .compact c → st'.call .compact c = some st'' →
      (st''.Classified .compact ↔ st'.NoneLeft c) := by
  have hg : (⟨0x40000,0x800⟩ : Block).Good .compact :=
    ⟨by decide,by decide,by decide,by decide,by decide,by decide⟩
  obtain ⟨s,-,hb,hi⟩ := boot_block hg (by decide) (by decide)
  have hv : (start .compact s ⟨[⟨0x40000,0x800⟩],[⟨0x40000,0x800⟩]⟩).Valid .compact (.alloc 3) := by
    simp [Valid]
  obtain ⟨st',-,-,-,he,-⟩ := hi.step hv
  exact ⟨_,st',hb,he,slab_run_classified ((hb.reached _).call hv trivial he)⟩

open SlabState.Inv

-- A page holds 16 and 15 blocks. Once the 16 are freed it has room but is still on full_slabs.
theorem slab_run_unclassified : ∃ s st,
    pmmFree .compact (pmmInit .compact .blank) 0x40000 0x400 = some s ∧
      (start .compact s ⟨[⟨0x40000,0x400⟩],[⟨0x40000,0x400⟩]⟩).calls .compact
        [.alloc 16,.alloc 15,.free ⟨0x40000,16⟩] = some st ∧
      Reached .compact (fun _ _ => True) st ∧ ¬ st.Classified .compact := by
  have hg : (⟨0x40000,0x400⟩ : Block).Good .compact :=
    ⟨by decide,by decide,by decide,by decide,by decide,by decide⟩
  obtain ⟨s,hs,hb,h0⟩ := boot_block hg (by decide) (by decide)
  have hno1 : ¬ HeadFits (start .compact s ⟨[⟨0x40000,0x400⟩],[⟨0x40000,0x400⟩]⟩).machine.mem
      [] 16 := by
    rintro ⟨p,hp,-⟩
    simp at hp
  have halloc : FreeList.alloc ⟨[⟨0x40000,0x400⟩],[⟨0x40000,0x400⟩]⟩ 0x400 =
      some (⟨0x40000,0x400⟩,⟨[],[]⟩) := by decide
  obtain ⟨st1,ps1,fs1,he1,h1,hl1,ht1,-⟩ := h0.doAlloc_fresh (by omega) (by omega) hno1 halloc
  have hc1 := call_alloc he1
  have hr1 : Reached .compact (fun _ _ => True) st1 := (hb.reached _).call (by simp [Valid])
    trivial hc1
  have hlive1 : st1.live = [⟨0x40000,16⟩] := hl1
  cases ht1 with
  | retired hfull =>
    obtain ⟨a,ha,hx⟩ := (h1.marked.full_iff (by simp)).mp hfull 20 (by omega)
    rw [hlive1,List.mem_singleton] at ha
    subst ha
    simp [Slot.bytes,Slot.stop] at hx
  | kept hne =>
    have hfit : HeadFits st1.machine.mem [0x40000] 15 := by
      refine ⟨0x40000,by simp,16,(h1.marked.fits_iff (by simp) (by omega)).mpr ⟨by omega,?_⟩⟩
      rw [hlive1]
      simp [Slot.Apart,Slot.stop]
    obtain ⟨p,i,qs,st2,ps2,fs2,hps,hf,he2,h2,hl2,ht2,ha2⟩ := h1.doAlloc_reused (by omega)
      (by omega) hfit
    obtain ⟨rfl,rfl⟩ := List.cons.inj hps
    have hi : i = 16 := by
      obtain ⟨hle,hap⟩ := (h1.marked.fits_iff (by simp) (by omega)).mp hf
      have := hap ⟨0x40000,16⟩ (by simp [hlive1])
      simp only [Slot.Apart,Slot.stop] at this
      omega
    subst hi
    rw [hlive1] at hl2
    have hc2 := call_alloc he2
    have hr2 := hr1.call (by simp [Valid]) trivial hc2
    have hpage : 0x40000 ∈ ps2 ++ fs2 := ht2.perm.mem_iff.mpr (by simp)
    have hfull : slabMap st2.machine.mem 0x40000 = 0xFFFFFFFF#32 := by
      refine (h2.marked.full_iff hpage).mpr (fun j hj => ?_)
      rw [hl2]
      by_cases hj16 : j < 16
      · exact ⟨⟨0x40000,16⟩,by simp,by simp only [Slot.bytes,Slot.stop,Set.mem_Ico]; omega⟩
      · exact ⟨⟨0x40000 + 32 * 16,15⟩,by simp,by
          simp only [Slot.bytes,Slot.stop,Set.mem_Ico]; omega⟩
    have hcl2 : st2.Classified .compact := alloc_classified (by simp) h2 ha2
    have hv3 : st2.Valid .compact (.free ⟨0x40000,16⟩) := by simp [Valid,hl2]
    obtain ⟨st3,-,-,-,he3,-⟩ := h2.step hv3
    refine ⟨s,st3,hs,?_,hr2.call hv3 trivial he3,?_⟩
    · exact (calls_cons hc1 _).trans ((calls_cons hc2 _).trans (calls_cons he3 _))
    · rw [h2.step_classified hcl2 hv3 he3]
      exact fun hk => absurd (hk hfull) (by simp)

namespace SlabState

-- The call gets as far as asking the memory manager for a page.
def RequestsPage (K : Image) (st : SlabState) (n : Nat) : Prop :=
  slabScan K st.machine.mem (lowByte (BitVec.ofNat 32 n)) addressSpace (BitVec.ofNat 32 n)
    (nodeNext st.machine.mem K.partialSlabs) = some none

def NoneFits (m : Mem) (ps : List Nat) (n : Nat) : Prop := ∀ p ∈ ps, ∀ i, ¬ Fits (slabMap m p) n i

def NoPage (F : FreeList) : Prop := ∀ b ∈ F.byAddr, b.size < 0x400

-- A page is only asked for when no partial slab has room, only when there is none either does
-- the call fail, and a failed call changes nothing.
structure Thrifty (K : Image) (st : SlabState) (n : Nat) (F : FreeList) (ps : List Nat) : Prop where
  request : st.RequestsPage K n → NoneFits st.machine.mem ps n
  null : ∀ st' r, st.doAlloc K n = some (st',r) → (r = 0 ↔ NoneFits st.machine.mem ps n ∧ NoPage F)
  unchanged : ∀ st', st.doAlloc K n = some (st',0) → st'.machine.mem = st.machine.mem ∧
    st'.machine.disableIntrCount = st.machine.disableIntrCount

variable {K : Image} {st st' : SlabState} {F F' : FreeList} {ps fs : List Nat} {n : Nat}

theorem NoneFits.head {m : Mem} (h : NoneFits m ps n) : ¬ HeadFits m ps n := by
  rintro ⟨p,hp,i,hf⟩
  exact h p (List.mem_of_mem_head? hp) i hf

theorem noPage_iff (h : F.Ok) : NoPage F ↔ F.alloc 0x400 = none := by
  rw [FreeList.alloc,Option.map_eq_none_iff,List.find?_eq_none]
  simp only [decide_eq_true_eq,Nat.not_le]
  exact ⟨fun hn b hb => hn b (h.mem_bySize.mp hb),fun hn b hb => hn b (h.mem_bySize.mpr hb)⟩

namespace Inv

theorem requests_iff (h : st.Inv K F ps fs) (hn : 0 < n) (hle : n ≤ 31) :
    st.RequestsPage K n ↔ ¬ HeadFits st.machine.mem ps n := by
  refine ⟨?_,slabScan_none h.toSlabOk (blockCount hn hle)⟩
  rintro hr ⟨p,hp,i,hf⟩
  obtain ⟨qs,rfl⟩ : ∃ qs, ps = p :: qs := by
    cases ps with
    | nil => simp at hp
    | cons q qs => exact ⟨qs,by simpa using hp⟩
  have hd := blockCount hn hle
  rcases slabScan_cons hd.ne_zero hd.lt h.rep.lists.usable_first h.rep.lists.first with
    ⟨hno,-⟩ | ⟨j,-,hscan⟩
  · exact hno i (hd.low.symm ▸ hf)
  · rw [RequestsPage,hscan] at hr
    simp at hr

theorem thrifty_iff (h : st.Inv K F ps fs) (hn : 0 < n) (hle : n ≤ 31) :
    st.Thrifty K n F ps ↔
      (HeadFits st.machine.mem ps n ∨ NoneFits st.machine.mem ps n) ∧
      (NoneFits st.machine.mem ps n → NoPage F →
        st.machine.disableIntrCount.toNat + 2 < 65536) := by
  have hpage := noPage_iff h.rep.pmm.toOk
  constructor
  · intro ht
    refine ⟨?_,fun hno hnp => ?_⟩
    · by_cases hh : HeadFits st.machine.mem ps n
      · exact .inl hh
      · exact .inr (ht.request ((h.requests_iff hn hle).mpr hh))
    · have he := h.doAlloc_failed hn hle hno.head (hpage.mp hnp)
      exact (Machine.nested_count_iff (n := 2) st.machine (by omega)).mp (ht.unchanged _ he).2
  · rintro ⟨hfit,hcount⟩
    by_cases hh : HeadFits st.machine.mem ps n
    · -- The first slab serves the request.
      have hsome : ¬ NoneFits st.machine.mem ps n := fun hno => hno.head hh
      obtain ⟨p,i,qs,st',ps',fs',rfl,-,he,-⟩ := h.doAlloc_reused hn hle hh
      have hpos : p + 32 * i ≠ 0 := by
        have := (page_bounds (h.rep.lists.usable p (by simp))).2.1
        omega
      refine ⟨fun hr => absurd hh ((h.requests_iff hn hle).mp hr),fun st'' r he' => ?_,
        fun st'' he' => ?_⟩
      · obtain ⟨-,rfl⟩ := Prod.mk.inj (Option.some.inj (he.symm.trans he'))
        exact iff_of_false hpos (fun hc => hsome hc.1)
      · exact absurd (Prod.mk.inj (Option.some.inj (he.symm.trans he'))).2 hpos
    · have hno := hfit.resolve_left hh
      cases ha : F.alloc 0x400 with
      | none =>
        -- No slab and no page.
        have hnp := hpage.mpr ha
        have he := h.doAlloc_failed hn hle hh ha
        refine ⟨fun _ => hno,fun st'' r he' => ?_,fun st'' he' => ?_⟩
        · obtain ⟨-,rfl⟩ := Prod.mk.inj (Option.some.inj (he.symm.trans he'))
          exact iff_of_true rfl ⟨hno,hnp⟩
        · obtain ⟨rfl,-⟩ := Prod.mk.inj (Option.some.inj (he.symm.trans he'))
          exact ⟨Machine.mem_nested 2 _,Machine.nested_count 2 (hcount hno hnp)⟩
      | some r =>
        -- A page from the memory manager.
        obtain ⟨c,F'⟩ := r
        obtain ⟨st',ps',fs',he,-⟩ := h.doAlloc_fresh hn hle hh ha
        have hc : c ∈ F.byAddr := h.rep.pmm.toOk.mem_bySize.mp
          (List.mem_of_find?_eq_some (FreeList.alloc_some ha).1)
        have hpos : c.addr ≠ 0 := (h.rep.pmm.good c hc).addr_pos.ne'
        refine ⟨fun _ => hno,fun st'' r he' => ?_,fun st'' he' => ?_⟩
        · obtain ⟨-,rfl⟩ := Prod.mk.inj (Option.some.inj (he.symm.trans he'))
          refine iff_of_false hpos (fun hnp => ?_)
          rw [hpage.mp hnp.2] at ha
          simp at ha
        · exact absurd (Prod.mk.inj (Option.some.inj (he.symm.trans he'))).2 hpos

end Inv
end SlabState

theorem slab_run_thrifty {K : Image} {st : SlabState} (h : Reached K (fun _ _ => True) st)
    {n : Nat} (hn : 0 < n) (hle : n ≤ 31) :
    ∃ F ps fs, SlabRep K st.machine.mem F ps fs ∧ (∃ st' r, st.doAlloc K n = some (st',r)) ∧
      (st.Thrifty K n F ps ↔
        (HeadFits st.machine.mem ps n ∨ NoneFits st.machine.mem ps n) ∧
        (NoneFits st.machine.mem ps n → NoPage F →
          st.machine.disableIntrCount.toNat + 2 < 65536)) := by
  obtain ⟨F,ps,fs,hi⟩ := h.inv
  obtain ⟨st',r,-,-,-,he,-⟩ := hi.doAlloc hn hle
  exact ⟨F,ps,fs,hi.rep,⟨st',r,he⟩,hi.thrifty_iff hn hle⟩

-- 20 blocks go to one page, 25 to another, which is now the first of the two. 8 blocks would fit
-- behind the 20, but the call fails.
theorem slab_run_wasteful : ∃ s st st',
    pmmFree .compact (pmmInit .compact .blank) 0x40000 0x800 = some s ∧
      (start .compact s ⟨[⟨0x40000,0x800⟩],[⟨0x40000,0x800⟩]⟩).calls .compact
        [.alloc 20,.alloc 25] = some st ∧
      Reached .compact (fun _ _ => True) st ∧ st.doAlloc .compact 8 = some (st',0) ∧
      ∃ F ps fs, SlabRep .compact st.machine.mem F ps fs ∧ 0x40000 ∈ ps ∧
        Fits (slabMap st.machine.mem 0x40000) 8 20 ∧ ¬ st.Thrifty .compact 8 F ps := by
  have hg : (⟨0x40000,0x800⟩ : Block).Good .compact :=
    ⟨by decide,by decide,by decide,by decide,by decide,by decide⟩
  obtain ⟨s,hs,hb,h0⟩ := boot_block hg (by decide) (by decide)
  have hno1 : ¬ HeadFits (start .compact s ⟨[⟨0x40000,0x800⟩],[⟨0x40000,0x800⟩]⟩).machine.mem
      [] 20 := by
    rintro ⟨p,hp,-⟩
    simp at hp
  have ha1 : FreeList.alloc ⟨[⟨0x40000,0x800⟩],[⟨0x40000,0x800⟩]⟩ 0x400 =
      some (⟨0x40000,0x800⟩,⟨[⟨0x40400,0x400⟩],[⟨0x40400,0x400⟩]⟩) := by decide
  obtain ⟨st1,ps1,fs1,he1,h1,hl1,ht1,-⟩ := h0.doAlloc_fresh (by omega) (by omega) hno1 ha1
  have hr1 : Reached .compact (fun _ _ => True) st1 := (hb.reached _).call (by simp [Valid])
    trivial (call_alloc he1)
  have hlive1 : st1.live = [⟨0x40000,20⟩] := hl1
  cases ht1 with
  | retired hfull =>
    obtain ⟨a,ha,hx⟩ := (h1.marked.full_iff (by simp)).mp hfull 25 (by omega)
    rw [hlive1,List.mem_singleton] at ha
    subst ha
    simp [Slot.bytes,Slot.stop] at hx
  | kept hne1 =>
    have hno2 : ¬ HeadFits st1.machine.mem [0x40000] 25 := by
      rintro ⟨p,hp,i,hf⟩
      obtain rfl : p = 0x40000 := by simpa [eq_comm] using hp
      obtain ⟨hle,hap⟩ := (h1.marked.fits_iff (by simp) (by omega)).mp hf
      have := hap ⟨0x40000,20⟩ (by simp [hlive1])
      simp only [Slot.Apart,Slot.stop] at this
      omega
    have ha2 : FreeList.alloc ⟨[⟨0x40400,0x400⟩],[⟨0x40400,0x400⟩]⟩ 0x400 =
        some (⟨0x40400,0x400⟩,⟨[],[]⟩) := by decide
    obtain ⟨st2,ps2,fs2,he2,h2,hl2,ht2,-⟩ := h1.doAlloc_fresh (by omega) (by omega) hno2 ha2
    have hr2 := hr1.call (by simp [Valid]) trivial (call_alloc he2)
    rw [hlive1] at hl2
    cases ht2 with
    | retired hfull =>
      obtain ⟨a,ha,hx⟩ := (h2.marked.full_iff (by simp)).mp hfull 28 (by omega)
      rw [hl2] at ha
      simp only [List.mem_cons,List.not_mem_nil,or_false] at ha
      rcases ha with rfl | rfl
      · simp [Slot.bytes,Slot.stop] at hx
      · simp [Slot.bytes,Slot.stop] at hx
    | kept hne2 =>
      have hno3 : ¬ HeadFits st2.machine.mem [0x40400,0x40000] 8 := by
        rintro ⟨p,hp,i,hf⟩
        obtain rfl : p = 0x40400 := by simpa [eq_comm] using hp
        obtain ⟨hle,hap⟩ := (h2.marked.fits_iff (by simp) (by omega)).mp hf
        have := hap ⟨0x40400,25⟩ (by simp [hl2])
        simp only [Slot.Apart,Slot.stop] at this
        omega
      have hfit : Fits (slabMap st2.machine.mem 0x40000) 8 20 := by
        refine (h2.marked.fits_iff (by simp) (by omega)).mpr ⟨by omega,?_⟩
        rw [hl2]
        simp [Slot.Apart,Slot.stop]
      have hfail := h2.doAlloc_failed (n := 8) (by omega) (by omega) hno3 (by decide)
      refine ⟨s,st2,_,hs,?_,hr2,hfail,_,_,_,h2.rep,by simp,hfit,?_⟩
      · exact (calls_cons (call_alloc he1) _).trans (calls_cons (call_alloc he2) _)
      · intro ht
        have hreq := (h2.requests_iff (n := 8) (by omega) (by omega)).mpr hno3
        exact ht.request hreq 0x40000 (by simp) 20 hfit

theorem slab_run_thrifty_one : ∃ st, Boot .compact st ∧
    ∃ F ps fs, SlabRep .compact st.machine.mem F ps fs ∧
      (∃ st' r, st.doAlloc .compact 3 = some (st',r)) ∧
      (st.Thrifty .compact 3 F ps ↔
        (HeadFits st.machine.mem ps 3 ∨ NoneFits st.machine.mem ps 3) ∧
        (NoneFits st.machine.mem ps 3 → NoPage F →
          st.machine.disableIntrCount.toNat + 2 < 65536)) := by
  have hg : (⟨0x40000,0x800⟩ : Block).Good .compact :=
    ⟨by decide,by decide,by decide,by decide,by decide,by decide⟩
  obtain ⟨s,-,hb,-⟩ := boot_block hg (by decide) (by decide)
  exact ⟨_,hb,slab_run_thrifty (hb.reached _) (by decide) (by decide)⟩

end RoscoM68k
