import Mathlib.Logic.Relation
import RoscoM68k.Kernel.SlabAlloc

namespace RoscoM68k

inductive SlabCall where
  | alloc (n : Nat)
  | free (a : Slot)
  | pmmAlloc (size : Nat)
  | pmmFree (addr size : Nat)
  | write (m : Mem)

-- The machine with the memory that the two allocators share between them and the allocations
-- that callers of slab_alloc_c hold.
structure SlabState where
  machine : Machine
  arena : Set Nat
  live : List Slot

namespace SlabState

def start (K : Image) (s : Machine) (F : FreeList) : SlabState := ⟨slabInit K s,F.bytes,[]⟩

-- The memory manager has been set up, with memory outside of the kernel's variables.
def Boot (K : Image) (st : SlabState) : Prop :=
  ∃ s F, PmmInv K s.mem F ∧ (∀ h ∈ K.headers, ∀ x ∈ F.bytes, x < h ∨ h + 12 ≤ x) ∧
    st = start K s F

def doAlloc (K : Image) (st : SlabState) (n : Nat) : Option (SlabState × Nat) :=
  (slabAlloc K st.machine (BitVec.ofNat 32 n)).map (fun r =>
    (⟨r.1,st.arena,if r.2 = 0 then st.live else ⟨r.2,n⟩ :: st.live⟩,r.2))

def call (K : Image) (st : SlabState) : SlabCall → Option SlabState
  | .alloc n => (st.doAlloc K n).map Prod.fst
  | .free a =>
    (slabFree K st.machine a.addr a.n).map (fun s => ⟨s,st.arena,st.live.erase a⟩)
  | .pmmAlloc size =>
    (pmmAlloc K st.machine size).map (fun r =>
      ⟨r.1,if r.2 = 0 then st.arena else st.arena \ Block.bytes ⟨r.2,pmmRound size⟩,st.live⟩)
  | .pmmFree addr size =>
    (pmmFree K st.machine addr size).map (fun s =>
      ⟨s,st.arena ∪ Block.bytes ⟨addr,pmmRound size⟩,st.live⟩)
  | .write m => some ⟨{ st.machine with mem := m },st.arena,st.live⟩

def calls (K : Image) (st : SlabState) : List SlabCall → Option SlabState
  | [] => some st
  | c :: cs => (st.call K c).bind (fun st => st.calls K cs)

theorem calls_cons {K : Image} {st st' : SlabState} {c : SlabCall} (h : st.call K c = some st')
    (cs : List SlabCall) : st.calls K (c :: cs) = st'.calls K cs := by
  rw [calls,h,Option.bind_some]

theorem call_alloc {K : Image} {st st' : SlabState} {n r : Nat}
    (h : st.doAlloc K n = some (st',r)) : st.call K (.alloc n) = some st' := by
  rw [call,h,Option.map_some]

-- The bytes nobody but the allocators may write: their list headers and the arena but for the
-- allocations.
def guarded (K : Image) (st : SlabState) : Set Nat :=
  {x | (∃ h ∈ K.allocHeaders, h ≤ x ∧ x < h + 12) ∨ x ∈ st.arena ∧ ∀ a ∈ st.live, x ∉ a.bytes}

def Valid (K : Image) (st : SlabState) : SlabCall → Prop
  | .alloc n => n < 256
  | .free a => a ∈ st.live
  | .pmmAlloc size => size < addressSpace
  | .pmmFree addr size => 1024 ∣ addr ∧ 0 < addr ∧ 0 < size ∧ addr + size ≤ addressSpace ∧
      (∀ h ∈ K.headers, addr + pmmRound size ≤ h ∨ h + 12 ≤ addr) ∧
      Disjoint (Block.bytes ⟨addr,pmmRound size⟩) st.arena
  | .write m => Mem.Agree (st.guarded K) st.machine.mem m

def Step (K : Image) (ok : SlabState → SlabCall → Prop) (st st' : SlabState) : Prop :=
  ∃ c, st.Valid K c ∧ ok st c ∧ st.call K c = some st'

def Reached (K : Image) (ok : SlabState → SlabCall → Prop) (st : SlabState) : Prop :=
  ∃ st0, Boot K st0 ∧ Relation.ReflTransGen (Step K ok) st0 st

structure Inv (K : Image) (st : SlabState) (F : FreeList) (ps fs : List Nat) : Prop
    extends SlabOk K st.machine.mem F ps fs st.live where
  arena : ∀ x, x ∈ st.arena ↔ x ∈ F.bytes ∨ ∃ p ∈ ps ++ fs, p ≤ x ∧ x < p + 1024

variable {K : Image} {st st' : SlabState} {F : FreeList} {ps fs : List Nat} {n p : Nat} {a : Slot}

theorem start_inv {s : Machine} (hp : PmmInv K s.mem F)
    (hoff : ∀ h ∈ K.headers, ∀ x ∈ F.bytes, x < h ∨ h + 12 ≤ x) :
    (start K s F).Inv K F [] [] := by
  have hf : ∀ l ∈ [K.partialSlabs,K.fullSlabs], cells l [] ⊆ slabLinks K [] := by
    rintro l hl x (hx | ⟨y,hy,-⟩)
    · simp only [List.mem_cons,List.not_mem_nil,or_false] at hl
      rcases hl with rfl | rfl
      · exact .inl hx
      · exact .inr (.inl hx)
    · simp at hy
  obtain ⟨h1,hag1⟩ := list_init (m := s.mem) (K.spaced_nil partial_mem)
  obtain ⟨h2,hag2⟩ := list_init (m := listInit s.mem K.partialSlabs) (K.spaced_nil full_mem)
  have hag : Mem.Agree (slabLinks K [])ᶜ s.mem (slabInit K s).mem :=
    (hag1.mono (Set.compl_subset_compl.mpr (hf _ (by simp)))).trans
      (hag2.mono (Set.compl_subset_compl.mpr (hf _ (by simp))))
  have h1' : IsList (slabInit K s).mem K.partialSlabs [] := by
    refine h1.agree (hag2.mono ?_)
    rintro x (hx | ⟨y,hy,-⟩) (hx' | ⟨y',hy',-⟩)
    · have := slab_headers_apart K
      omega
    · simp at hy'
    · simp at hy
    · simp at hy
  have hrep : SlabRep K (slabInit K s).mem F [] [] := by
    refine ⟨hp.agree (hag.mono (fun x hx hx' => ?_)),hoff,
      ⟨partial_mem,full_mem,slab_headers_apart K,by simp,by simp,h1',h2⟩,by simp⟩
    have hnone : ∀ p ∈ ([] : List Nat), (page p).Usable K ∧
        ∀ x ∈ F.bytes, x < p ∨ p + 1024 ≤ x := by simp
    exact page_links_off hoff hnone (.inl hx') hx
  exact ⟨⟨hrep,⟨by simp,by simp [start],.nil,by simp,by simp⟩,by simp⟩,by simp [start]⟩

theorem Boot.inv (h : Boot K st) : ∃ F, st.Inv K F [] [] := by
  obtain ⟨s,F,hp,hoff,rfl⟩ := h
  exact ⟨F,start_inv hp hoff⟩

namespace Inv

-- Nothing the allocators rely on lies in an allocation or outside of the guarded bytes.
theorem guarded_foot (h : st.Inv K F ps fs) :
    F.foot K ∪ slabLinks K (ps ++ fs) ∪ slabMaps (ps ++ fs) ⊆ st.guarded K := by
  have hslot : ∀ a ∈ st.live, ∀ x ∈ a.bytes, ∃ p ∈ ps ++ fs, p ≤ x ∧ x < p + 0x3e0 := by
    intro a ha x hx
    obtain ⟨p,hp,i,hai,hn,hle⟩ := h.marked.slot a ha
    simp only [Slot.bytes,Slot.stop,Set.mem_Ico] at hx
    exact ⟨p,hp,by omega,by omega⟩
  have hmeta : ∀ p ∈ ps ++ fs, ∀ x, p + 0x3e0 ≤ x → x < p + 1024 → x ∈ st.guarded K := by
    intro p hp x h1 h2
    refine .inr ⟨(h.arena x).mpr (.inr ⟨p,hp,by omega,h2⟩),fun a ha hx => ?_⟩
    obtain ⟨q,hq,h3,h4⟩ := hslot a ha x hx
    have hdp := h.marked.aligned p hp
    have hdq := h.marked.aligned q hq
    omega
  rintro x (((⟨l,hl,hx⟩ | hx) | hx | hx | ⟨p,hp,hx⟩) | ⟨p,hp,hx⟩)
  · refine .inl ⟨l,?_,hx⟩
    simp only [pmmHeaders,Symbols.allocHeaders,List.mem_cons,List.not_mem_nil,or_false] at hl ⊢
    tauto
  · refine .inr ⟨(h.arena x).mpr (.inl hx),fun a ha hxa => ?_⟩
    obtain ⟨q,hq,h3,h4⟩ := hslot a ha x hxa
    have := h.rep.clear q hq x hx
    omega
  · exact .inl ⟨K.partialSlabs,by simp [Symbols.allocHeaders],hx⟩
  · exact .inl ⟨K.fullSlabs,by simp [Symbols.allocHeaders],hx⟩
  · exact hmeta p hp x hx.1 (by omega)
  · exact hmeta p hp x (by omega) (by omega)

theorem blockCount (hn : 0 < n) (hle : n ≤ 31) : BlockCount (BitVec.ofNat 32 n) n := by
  refine ⟨?_,hn,hle⟩
  rw [BitVec.toNat_ofNat]
  omega

-- The three ways a call of slab_alloc_c with a proper block count goes.
inductive Allocated (K : Image) (st : SlabState) (F : FreeList) (ps fs : List Nat) (n : Nat) :
    SlabState → Nat → FreeList → List Nat → List Nat → Prop where
  | reused {p i m' qs ps' fs'} (hps : ps = p :: qs) (hf : Fits (slabMap st.machine.mem p) n i)
      (ht : SlabOk.Taken m' p qs fs ps' fs')
      (hq : ∀ q ∈ qs ++ fs, slabMap m' q = slabMap st.machine.mem q) :
      Allocated K st F ps fs n
        ⟨{ Machine.nested 1 st.machine with mem := m' },st.arena,⟨p + 32 * i,n⟩ :: st.live⟩
        (p + 32 * i) F ps' fs'
  | fresh {c m' ps' fs'} (hh : ¬ HeadFits st.machine.mem ps n) (hc : c ∈ F.byAddr)
      (hsz : 0x400 ≤ c.size) (ht : SlabOk.Taken m' c.addr ps fs ps' fs')
      (hq : ∀ q ∈ ps ++ fs, slabMap m' q = slabMap st.machine.mem q) :
      Allocated K st F ps fs n
        ⟨{ Machine.nested (1 + allocDepth F 0x400) st.machine with mem := m' },st.arena,
          ⟨c.addr,n⟩ :: st.live⟩
        c.addr (F.take 0x400 c) ps' fs'
  | failed (hh : ¬ HeadFits st.machine.mem ps n) (ha : F.alloc 0x400 = none) :
      Allocated K st F ps fs n ⟨Machine.nested 2 st.machine,st.arena,st.live⟩ 0 F ps fs

theorem doAlloc_reused (h : st.Inv K F ps fs) (hn : 0 < n) (hle : n ≤ 31)
    (hh : HeadFits st.machine.mem ps n) :
    ∃ p i qs st' ps' fs', ps = p :: qs ∧ Fits (slabMap st.machine.mem p) n i ∧
      st.doAlloc K n = some (st',p + 32 * i) ∧ st'.Inv K F ps' fs' ∧
      st'.live = ⟨p + 32 * i,n⟩ :: st.live ∧ SlabOk.Taken st'.machine.mem p qs fs ps' fs' ∧
      Allocated K st F ps fs n st' (p + 32 * i) F ps' fs' := by
  obtain ⟨p,i,m',qs,ps',fs',rfl,hfit,he,hok,hq,ht⟩ :=
    slabAlloc_found h.toSlabOk (blockCount hn hle) hh
  have hpos : p + 32 * i ≠ 0 := by
    have := (page_bounds (h.rep.lists.usable p (by simp))).2.1
    omega
  refine ⟨p,i,qs,_,ps',fs',rfl,hfit,?_,⟨hok,fun x => ?_⟩,rfl,ht,.reused rfl hfit ht hq⟩
  · rw [SlabState.doAlloc,he,Option.map_some]
    simp only [if_neg hpos]
  · rw [h.arena x]
    refine or_congr_right (exists_congr (fun q => and_congr_left (fun _ => ?_)))
    exact ht.perm.mem_iff.symm

theorem doAlloc_fresh (h : st.Inv K F ps fs) (hn : 0 < n) (hle : n ≤ 31)
    (hh : ¬ HeadFits st.machine.mem ps n) {c : Block} {F' : FreeList}
    (ha : F.alloc 0x400 = some (c,F')) :
    ∃ st' ps' fs', st.doAlloc K n = some (st',c.addr) ∧ st'.Inv K F' ps' fs' ∧
      st'.live = ⟨c.addr,n⟩ :: st.live ∧ SlabOk.Taken st'.machine.mem c.addr ps fs ps' fs' ∧
      Allocated K st F ps fs n st' c.addr F' ps' fs' := by
  obtain ⟨m',ps',fs',he,hc,hsz,rfl,hok,hq,ht⟩ :=
    slabAlloc_page h.toSlabOk (blockCount hn hle) hh ha
  have hpos : c.addr ≠ 0 := (h.rep.pmm.good c hc).addr_pos.ne'
  refine ⟨_,ps',fs',?_,⟨hok,fun x => ?_⟩,rfl,ht,.fresh hh hc hsz ht hq⟩
  · rw [SlabState.doAlloc,he,Option.map_some]
    simp only [if_neg hpos]
  · have hb := FreeList.bytes_take h.rep.pmm.toOk hc hsz
    have hin : c.addr ≤ x → x < c.addr + 0x400 → x ∈ F.bytes :=
      fun h1 h2 => ⟨c,hc,h1,by simp only [Block.stop]; omega⟩
    simp only [ht.perm.mem_iff,List.mem_cons,exists_eq_or_imp,hb,Set.mem_sdiff,Block.bytes,
      Block.stop,Set.mem_Ico,h.arena x]
    constructor
    · rintro (h1 | h1)
      · by_cases h2 : c.addr ≤ x ∧ x < c.addr + 0x400
        · exact .inr (.inl h2)
        · exact .inl ⟨h1,h2⟩
      · exact .inr (.inr h1)
    · rintro (⟨h1,-⟩ | h1 | h1)
      · exact .inl h1
      · exact .inl (hin h1.1 h1.2)
      · exact .inr h1

theorem doAlloc_failed (h : st.Inv K F ps fs) (hn : 0 < n) (hle : n ≤ 31)
    (hh : ¬ HeadFits st.machine.mem ps n) (ha : F.alloc 0x400 = none) :
    st.doAlloc K n = some (⟨Machine.nested 2 st.machine,st.arena,st.live⟩,0) := by
  rw [SlabState.doAlloc,slabAlloc_none h.toSlabOk (blockCount hn hle) hh ha]
  rfl

theorem doAlloc (h : st.Inv K F ps fs) (hn : 0 < n) (hle : n ≤ 31) :
    ∃ st' a F' ps' fs', st.doAlloc K n = some (st',a) ∧ st'.Inv K F' ps' fs' ∧
      Allocated K st F ps fs n st' a F' ps' fs' := by
  by_cases hh : HeadFits st.machine.mem ps n
  · obtain ⟨p,i,qs,st',ps',fs',-,-,he,hi,-,-,ha⟩ := h.doAlloc_reused hn hle hh
    exact ⟨st',_,F,ps',fs',he,hi,ha⟩
  · cases ha : F.alloc 0x400 with
    | none =>
      refine ⟨_,0,F,ps,fs,h.doAlloc_failed hn hle hh ha,⟨?_,h.arena⟩,.failed hh ha⟩
      rw [Machine.mem_nested]
      exact h.toSlabOk
    | some r =>
      obtain ⟨st',ps',fs',he,hi,-,-,hal⟩ := h.doAlloc_fresh hn hle hh ha
      exact ⟨st',_,_,ps',fs',he,hi,hal⟩

theorem doAlloc_odd (st : SlabState) (hn : n < 256) (h : n = 0 ∨ 31 < n) :
    st.doAlloc K n = some (st,0) := by
  have hlow : (lowByte (BitVec.ofNat 32 n)).toNat = n := by
    rw [lowByte,BitVec.toNat_setWidth,BitVec.toNat_ofNat]
    omega
  have he : slabAlloc K st.machine (BitVec.ofNat 32 n) = some (st.machine,0) := by
    rw [slabAlloc]
    by_cases h0 : n = 0
    · subst h0
      rfl
    · have hne : lowByte (BitVec.ofNat 32 n) ≠ 0#8 := by
        intro hz
        rw [hz] at hlow
        simp only [BitVec.toNat_ofNat] at hlow
        omega
      rw [if_neg hne,if_pos (by omega)]
  rw [SlabState.doAlloc,he]
  rfl

-- The two ways a call of slab_free_c goes.
inductive Released (K : Image) (st : SlabState) (F : FreeList) (ps fs : List Nat) (a : Slot) :
    SlabState → FreeList → List Nat → List Nat → Prop where
  | kept {p i m'} (hp : p ∈ ps ++ fs) (hai : a.addr = p + 32 * i) (hn : 0 < a.n)
      (hle : i + a.n ≤ 31) (hcl : Cleared (slabMap st.machine.mem p) (slabMap m' p) i a.n)
      (hne : slabMap m' p ≠ 0x80000000#32)
      (hq : ∀ q ∈ ps ++ fs, q ≠ p → slabMap m' q = slabMap st.machine.mem q) :
      Released K st F ps fs a
        ⟨{ Machine.nested 1 st.machine with mem := m' },st.arena,st.live.erase a⟩ F ps fs
  | dropped {p i m'} (hp : p ∈ ps ++ fs) (hai : a.addr = p + 32 * i) (hn : 0 < a.n)
      (hle : i + a.n ≤ 31) (hcl : Cleared (slabMap st.machine.mem p) 0x80000000#32 i a.n)
      (hq : ∀ q ∈ ps ++ fs, q ≠ p → slabMap m' q = slabMap st.machine.mem q) :
      Released K st F ps fs a
        ⟨{ Machine.nested 2 st.machine with mem := m' },st.arena,st.live.erase a⟩
        (F.free (page p)) (ps.erase p) (fs.erase p)

theorem free (h : st.Inv K F ps fs) (ha : a ∈ st.live) :
    ∃ st' F' ps' fs', st.call K (.free a) = some st' ∧ st'.Inv K F' ps' fs' ∧
      Released K st F ps fs a st' F' ps' fs' := by
  obtain ⟨p,i,v,hp,hai,hn,hle,hcl,⟨hv,m',he,hok,rfl,hq⟩ | ⟨rfl,hfr,m',he,hok,hq⟩⟩ :=
    slabFree_spec h.toSlabOk ha
  · exact ⟨⟨{ Machine.nested 1 st.machine with mem := m' },st.arena,st.live.erase a⟩,F,ps,fs,
      by rw [call,he,Option.map_some],⟨hok,h.arena⟩,.kept hp hai hn hle hcl hv hq⟩
  · refine ⟨⟨{ Machine.nested 2 st.machine with mem := m' },st.arena,st.live.erase a⟩,
      F.free (page p),ps.erase p,fs.erase p,by rw [call,he,Option.map_some],⟨hok,fun x => ?_⟩,
      .dropped hp hai hn hle hcl hq⟩
    have hnd := List.nodup_append.mp h.rep.lists.nodup
    have hmem : ∀ q, q ∈ ps.erase p ++ fs.erase p ↔ q ∈ ps ++ fs ∧ q ≠ p := by
      intro q
      simp only [List.mem_append,hnd.1.mem_erase_iff,hnd.2.1.mem_erase_iff]
      tauto
    rw [FreeList.bytes_free hfr,Set.mem_union,h.arena x]
    simp only [hmem,page,Block.bytes,Block.stop,Set.mem_Ico]
    constructor
    · rintro (h1 | ⟨q,hq1,h1⟩)
      · exact .inl (.inl h1)
      · by_cases hqp : q = p
        · exact .inl (.inr (hqp ▸ h1))
        · exact .inr ⟨q,⟨hq1,hqp⟩,h1⟩
    · rintro ((h1 | h1) | ⟨q,⟨hq1,-⟩,h1⟩)
      · exact .inl h1
      · exact .inr ⟨p,hp,h1⟩
      · exact .inr ⟨q,hq1,h1⟩

-- A call that is none of the slab allocator's leaves its lists and bitmaps as they are.
structure Foreign (st st' : SlabState) (pages : List Nat) : Prop where
  live : st'.live = st.live
  maps : ∀ q ∈ pages, slabMap st'.machine.mem q = slabMap st.machine.mem q

theorem slabOk_congr {m m' : Mem} {F' : FreeList} {live : List Slot}
    (h : SlabOk K m F ps fs live) (hr : SlabRep K m' F' ps fs)
    (hq : ∀ q ∈ ps ++ fs, slabMap m' q = slabMap m q) : SlabOk K m' F' ps fs live :=
  ⟨hr,h.marked.congr hq,fun q hm => by rw [hq q (by simp [hm])]; exact h.partial_free q hm⟩

theorem pmmAlloc (h : st.Inv K F ps fs) {size : Nat} (hv : st.Valid K (.pmmAlloc size)) :
    ∃ st' F', st.call K (.pmmAlloc size) = some st' ∧ st'.Inv K F' ps fs ∧
      Foreign st st' (ps ++ fs) ∧
      ∃ m', st'.machine =
        { Machine.nested (allocDepth F (pmmRound size)) st.machine with mem := m' } := by
  cases ha : F.alloc (pmmRound size) with
  | none =>
    have he := pmmAlloc_none (s := st.machine) h.rep.pmm ha
    have hd : allocDepth F (pmmRound size) = 1 := by
      rw [allocDepth,Option.map_eq_none_iff.mp ha]
    rw [hd]
    refine ⟨⟨Machine.nested 1 st.machine,st.arena,st.live⟩,F,?_,⟨?_,h.arena⟩,⟨rfl,fun q _ => ?_⟩,
      _,rfl⟩
    · rw [call,he]
      rfl
    · rw [Machine.mem_nested]
      exact h.toSlabOk
    · rw [Machine.mem_nested]
  | some r =>
    obtain ⟨c,F'⟩ := r
    obtain ⟨hf,rfl⟩ := FreeList.alloc_some ha
    have hc : c ∈ F.byAddr := h.rep.pmm.toOk.mem_bySize.mp (List.mem_of_find?_eq_some hf)
    have hle : pmmRound size ≤ c.size := by simpa using List.find?_some hf
    have hpos : c.addr ≠ 0 := (h.rep.pmm.good c hc).addr_pos.ne'
    obtain ⟨m',he,hi,hag⟩ := pmmAlloc_some (s := st.machine) h.rep.pmm hv ha
    obtain ⟨hr,hq⟩ := h.rep.take hc hle hi hag
    refine ⟨⟨{ Machine.nested (allocDepth F (pmmRound size)) st.machine with mem := m' },
      st.arena \ Block.bytes ⟨c.addr,pmmRound size⟩,st.live⟩,F.take (pmmRound size) c,?_,
      ⟨slabOk_congr h.toSlabOk hr hq,fun x => ?_⟩,⟨rfl,hq⟩,m',rfl⟩
    · rw [call,he,Option.map_some]
      simp only [if_neg hpos]
    · rw [Set.mem_sdiff,h.arena x,FreeList.bytes_take h.rep.pmm.toOk hc hle,Set.mem_sdiff]
      have hout : ∀ q ∈ ps ++ fs, q ≤ x → x < q + 1024 →
          x ∉ Block.bytes ⟨c.addr,pmmRound size⟩ := by
        intro q hq h1 h2 hx
        simp only [Block.bytes,Block.stop,Set.mem_Ico] at hx
        have := h.rep.clear q hq x ⟨c,hc,hx.1,by simp only [Block.stop]; omega⟩
        omega
      constructor
      · rintro ⟨h1 | h1,h2⟩
        · exact .inl ⟨h1,h2⟩
        · exact .inr h1
      · rintro (⟨h1,h2⟩ | ⟨q,hq1,h1,h2⟩)
        · exact ⟨.inl h1,h2⟩
        · exact ⟨.inr ⟨q,hq1,h1,h2⟩,hout q hq1 h1 h2⟩

theorem pmmFree (h : st.Inv K F ps fs) {addr size : Nat} (hv : st.Valid K (.pmmFree addr size)) :
    ∃ st' F', st.call K (.pmmFree addr size) = some st' ∧ st'.Inv K F' ps fs ∧
      Foreign st st' (ps ++ fs) ∧
      ∃ m', st'.machine = { Machine.nested 1 st.machine with mem := m' } := by
  obtain ⟨hd,hpos,hsz,htop,hoff,hdis⟩ := hv
  rw [Set.disjoint_left] at hdis
  have hr : pmmRound size = (size + 1023) / 1024 * 1024 :=
    pmmRound_eq (by simp only [addressSpace] at htop; omega)
  have hu : (⟨addr,pmmRound size⟩ : Block).Usable K := by
    refine ⟨⟨hd,pmmRound_dvd (by simp only [addressSpace] at *; omega),hpos,?_,?_,?_⟩,hoff⟩
    · simp only [hr]
      omega
    · simp only [Block.stop,hr,addressSpace] at *
      omega
    · exact fun l hl => hoff l (pmm_header_mem hl)
  have hfr : F.Fresh ⟨addr,pmmRound size⟩ := by
    refine ⟨h.rep.pmm.toOk,hu.size_pos,(FreeList.clear_iff h.rep.pmm.toOk hu.size_pos).mpr ?_⟩
    exact Set.disjoint_left.mpr (fun x hx hx' => hdis hx ((h.arena x).mpr (.inl hx')))
  obtain ⟨m',he,hi,hag⟩ := pmmFree_spec (s := st.machine) (n := size) h.rep.pmm hu.toGood hfr rfl
  simp only at he
  obtain ⟨hr',hq⟩ := h.rep.give hu (by
    intro p hp x hx
    by_contra hno
    exact hdis hx ((h.arena x).mpr (.inr ⟨p,hp,by omega,by omega⟩))) hfr hi hag
  refine ⟨⟨{ Machine.nested 1 st.machine with mem := m' },
    st.arena ∪ Block.bytes ⟨addr,pmmRound size⟩,st.live⟩,F.free ⟨addr,pmmRound size⟩,
    by rw [call,he,Option.map_some],⟨slabOk_congr h.toSlabOk hr' hq,fun x => ?_⟩,⟨rfl,hq⟩,m',rfl⟩
  rw [FreeList.bytes_free hfr,Set.mem_union,Set.mem_union,h.arena x]
  exact or_right_comm

theorem write (h : st.Inv K F ps fs) {m : Mem} (hv : st.Valid K (.write m)) :
    ∃ st', st.call K (.write m) = some st' ∧ st'.Inv K F ps fs ∧ Foreign st st' (ps ++ fs) := by
  have hag : Mem.Agree (F.foot K ∪ slabLinks K (ps ++ fs) ∪ slabMaps (ps ++ fs))
    st.machine.mem m := hv.mono h.guarded_foot
  have hq : ∀ q ∈ ps ++ fs, slabMap m q = slabMap st.machine.mem q := by
    intro q hq
    refine congrArg (BitVec.ofNat 32) (hag.readL (fun x hx => .inr ⟨q,hq,hx.1,?_⟩))
    have := hx.2
    omega
  exact ⟨_,rfl,⟨slabOk_congr h.toSlabOk (h.rep.agree (hag.mono Set.subset_union_left)) hq,h.arena⟩,
    rfl,hq⟩

theorem step (h : st.Inv K F ps fs) {c : SlabCall} (hv : st.Valid K c) :
    ∃ st' F' ps' fs', st.call K c = some st' ∧ st'.Inv K F' ps' fs' := by
  cases c with
  | alloc n =>
    by_cases hn : 0 < n ∧ n ≤ 31
    · obtain ⟨st',a,F',ps',fs',he,hi,-⟩ := h.doAlloc hn.1 hn.2
      exact ⟨st',F',ps',fs',call_alloc he,hi⟩
    · have he := doAlloc_odd (K := K) st (n := n) hv (by omega)
      exact ⟨st,F,ps,fs,call_alloc he,h⟩
  | free a =>
    obtain ⟨st',F',ps',fs',he,hi,-⟩ := h.free hv
    exact ⟨st',F',ps',fs',he,hi⟩
  | pmmAlloc size =>
    obtain ⟨st',F',he,hi,-⟩ := h.pmmAlloc hv
    exact ⟨st',F',ps,fs,he,hi⟩
  | pmmFree addr size =>
    obtain ⟨st',F',he,hi,-⟩ := h.pmmFree hv
    exact ⟨st',F',ps,fs,he,hi⟩
  | write m =>
    obtain ⟨st',he,hi,-⟩ := h.write hv
    exact ⟨st',F,ps,fs,he,hi⟩

end Inv

theorem Reached.inv {ok : SlabState → SlabCall → Prop} (h : Reached K ok st) :
    ∃ F ps fs, st.Inv K F ps fs := by
  obtain ⟨st0,hb,hr⟩ := h
  induction hr with
  | refl =>
    obtain ⟨F,hi⟩ := hb.inv
    exact ⟨F,[],[],hi⟩
  | tail _ hstep ih =>
    obtain ⟨F,ps,fs,hi⟩ := ih
    obtain ⟨c,hv,-,he⟩ := hstep
    obtain ⟨st',F',ps',fs',he',hi'⟩ := hi.step hv
    obtain rfl : st' = _ := Option.some.inj (he'.symm.trans he)
    exact ⟨F',ps',fs',hi'⟩

theorem Boot.reached (h : Boot K st) (ok : SlabState → SlabCall → Prop) : Reached K ok st :=
  ⟨st,h,.refl⟩

theorem Reached.call {ok : SlabState → SlabCall → Prop} (h : Reached K ok st) {c : SlabCall}
    (hv : st.Valid K c) (hok : ok st c) (he : st.call K c = some st') : Reached K ok st' := by
  obtain ⟨st0,hb,hr⟩ := h
  exact ⟨st0,hb,hr.tail ⟨c,hv,hok,he⟩⟩

end SlabState

open SlabState

theorem slab_run_sound {K : Image} {st : SlabState} (h : Reached K (fun _ _ => True) st) :
    (∃ F ps fs, SlabRep K st.machine.mem F ps fs ∧
      Marked (ps ++ fs) (slabMap st.machine.mem) st.live ∧
      ∀ x, x ∈ st.arena ↔ x ∈ F.bytes ∨ ∃ p ∈ ps ++ fs, p ≤ x ∧ x < p + 1024) ∧
    ∀ c, st.Valid K c → ∃ st', st.call K c = some st' := by
  obtain ⟨F,ps,fs,hi⟩ := h.inv
  refine ⟨⟨F,ps,fs,hi.rep,hi.marked,hi.arena⟩,fun c hv => ?_⟩
  obtain ⟨st',-,-,-,he,-⟩ := hi.step hv
  exact ⟨st',he⟩

-- A memory manager that has been given one block.
theorem boot_block {b : Block} (hg : b.Good .compact)
    (hoff : ∀ h ∈ Image.compact.headers, b.stop ≤ h ∨ h + 12 ≤ b.addr)
    (hr : pmmRound b.size = b.size) :
    ∃ s, pmmFree .compact (pmmInit .compact .blank) b.addr b.size = some s ∧
      Boot .compact (start .compact s ⟨[b],[b]⟩) ∧
      (start .compact s ⟨[b],[b]⟩).Inv .compact ⟨[b],[b]⟩ [] [] := by
  obtain ⟨m0,he0,hi0,-⟩ := pmmInit_spec .compact .blank
  have hfr : FreeList.Fresh ⟨[],[]⟩ b := ⟨hi0.toOk,hg.size_pos,by simp [FreeList.Clear]⟩
  have hF : FreeList.free ⟨[],[]⟩ b = ⟨[b],[b]⟩ := rfl
  obtain ⟨m1,he,hi,-⟩ := pmmFree_spec (s := pmmInit .compact .blank) (by rw [he0]; exact hi0) hg
    hfr hr
  rw [hF] at hi
  have hout : ∀ h ∈ Image.compact.headers, ∀ x ∈ FreeList.bytes ⟨[b],[b]⟩, x < h ∨ h + 12 ≤ x := by
    rintro h hh x ⟨c,hc,hx⟩
    obtain rfl := List.mem_singleton.mp hc
    have := hoff h hh
    simp only [Block.bytes,Set.mem_Ico] at hx
    omega
  exact ⟨_,he,⟨_,_,hi,hout,rfl⟩,start_inv hi hout⟩

theorem slab_run_sound_one : ∃ st st', Boot .compact st ∧ st.call .compact (.alloc 3) = some st' ∧
    (∃ F ps fs, SlabRep .compact st'.machine.mem F ps fs ∧
      Marked (ps ++ fs) (slabMap st'.machine.mem) st'.live ∧
      ∀ x, x ∈ st'.arena ↔ x ∈ F.bytes ∨ ∃ p ∈ ps ++ fs, p ≤ x ∧ x < p + 1024) ∧
    ∀ c, st'.Valid .compact c → ∃ st'', st'.call .compact c = some st'' := by
  have hg : (⟨0x40000,0x800⟩ : Block).Good .compact :=
    ⟨by decide,by decide,by decide,by decide,by decide,by decide⟩
  obtain ⟨s,-,hb,hi⟩ := boot_block hg (by decide) (by decide)
  have hv : (start .compact s ⟨[⟨0x40000,0x800⟩],[⟨0x40000,0x800⟩]⟩).Valid .compact (.alloc 3) := by
    simp [Valid]
  obtain ⟨st',-,-,-,he,-⟩ := hi.step hv
  exact ⟨_,st',hb,he,slab_run_sound ((hb.reached _).call hv trivial he)⟩

end RoscoM68k
