import RoscoM68k.Kernel.SlabRuns

namespace RoscoM68k

-- The address-ordered free list as it stands in memory.
structure AddrList (K : Image) (m : Mem) (bs : List Block) : Prop where
  list : IsList m K.pmmAddrList (bs.map Block.addr)
  sizes : ∀ b ∈ bs, nodeSize m b.addr = b.size

theorem PmmInv.addrList {K : Image} {m : Mem} {F : FreeList} (h : PmmInv K m F) :
    AddrList K m F.byAddr := ⟨h.addrs,h.addr_size⟩

theorem AddrList.unique {K : Image} {m : Mem} {bs cs : List Block} (h : AddrList K m bs)
    (h' : AddrList K m cs) : bs = cs := by
  have hread : ∀ {ds : List Block}, AddrList K m ds →
      (ds.map Block.addr).map (fun x => (⟨x,nodeSize m x⟩ : Block)) = ds := by
    intro ds hd
    rw [List.map_map]
    refine (List.map_congr_left (fun b hb => ?_)).trans (List.map_id _)
    simp only [Function.comp,hd.sizes b hb,id]
  rw [← hread h,← hread h',h.list.unique h'.list]

namespace SlabState

variable {K : Image} {st st' : SlabState} {F : FreeList} {ps fs : List Nat} {a : Slot}
  {cs : List SlabCall}

-- No slab on either list.
structure NoSlabs (K : Image) (m : Mem) : Prop where
  partial_nil : IsList m K.partialSlabs []
  full_nil : IsList m K.fullSlabs []

-- slab_alloc_c and slab_free_c, and what their callers do with the memory.
def SlabOnly : SlabCall → Prop
  | .pmmAlloc _ => False
  | .pmmFree _ _ => False
  | _ => True

def ValidCalls (K : Image) (st : SlabState) : List SlabCall → Prop
  | [] => True
  | c :: cs => st.Valid K c ∧ ∀ st', st.call K c = some st' → st'.ValidCalls K cs

-- Each page on the lists holds an allocation.
def Used (pages : List Nat) (live : List Slot) : Prop := ∀ p ∈ pages, ∃ a ∈ live, a.Within p

theorem Used.perm {pages pages' : List Nat} {live : List Slot} (h : Used pages live)
    (hp : pages'.Perm pages) : Used pages' live := fun p hm => h p (hp.mem_iff.mp hm)

theorem Used.cons {pages : List Nat} {live : List Slot} (h : Used pages live) (a : Slot) :
    Used pages (a :: live) := by
  intro p hp
  obtain ⟨b,hb,hw⟩ := h p hp
  exact ⟨b,List.mem_cons_of_mem _ hb,hw⟩

-- Block 31 apart, a bitmap that is not the empty one marks a block.
theorem exists_marked {x : BitVec 32} (htop : x.getLsbD 31 = true) (hne : x ≠ 0x80000000#32) :
    ∃ i < 31, x.getLsbD i = true := by
  by_contra hno
  simp only [not_exists,not_and,Bool.not_eq_true] at hno
  refine hne (BitVec.eq_of_getLsbD_eq (fun i hi => ?_))
  have h31 : 0x80000000#32 = BitVec.twoPow 32 31 := rfl
  rw [h31,BitVec.getLsbD_twoPow]
  by_cases he : i = 31
  · subst he
    rw [htop]
    rfl
  · rw [hno i (by omega)]
    simp only [Bool.false_eq,Bool.and_eq_false_iff,decide_eq_false_iff_not]
    omega

namespace Inv

theorem marked_used (h : st.Inv K F ps fs) {p : Nat} (hp : p ∈ ps ++ fs)
    (hne : slabMap st.machine.mem p ≠ 0x80000000#32) : ∃ a ∈ st.live, a.Within p := by
  obtain ⟨i,hi,hset⟩ := exists_marked (h.marked.top p hp) hne
  obtain ⟨a,ha,hx⟩ := (h.marked.bit p hp i hi).mp hset
  obtain ⟨q,hq,hw⟩ := h.marked.slot a ha
  have hpage := hw.page (h.marked.aligned q hq) hx
  have hd := h.marked.aligned p hp
  have hqp : q = p := by omega
  exact ⟨a,ha,hqp ▸ hw⟩

-- A page that the freed allocation is not in keeps what it holds.
theorem erase_used (h : st.Inv K F ps fs) (hu : Used (ps ++ fs) st.live) {p q : Nat}
    (hw : a.Within p) (hp : p ∈ ps ++ fs) (hq : q ∈ ps ++ fs) (hne : q ≠ p) :
    ∃ b ∈ st.live.erase a, b.Within q := by
  obtain ⟨b,hb,hbw⟩ := hu q hq
  refine ⟨b,(List.mem_erase_of_ne ?_).mpr hb,hbw⟩
  rintro rfl
  obtain ⟨i,h1,h2,h3⟩ := hw
  obtain ⟨j,h4,h5,h6⟩ := hbw
  have := h.marked.aligned p hp
  have := h.marked.aligned q hq
  omega

theorem alloc_used (h : st.Inv K F ps fs) (hu : Used (ps ++ fs) st.live) {n : Nat} (hn : n < 256) :
    ∃ st' F' ps' fs', st.call K (.alloc n) = some st' ∧ st'.Inv K F' ps' fs' ∧
      Used (ps' ++ fs') st'.live ∧ st'.arena = st.arena := by
  by_cases hb : 0 < n ∧ n ≤ 31
  · obtain ⟨st',r,F',ps',fs',he,hi,hal⟩ := h.doAlloc hb.1 hb.2
    refine ⟨st',F',ps',fs',call_alloc he,hi,?_⟩
    cases hal with
    | reused hps hf ht hq =>
      subst hps
      exact ⟨(hu.cons _).perm ht.perm,rfl⟩
    | fresh hh hc hsz ht hq =>
      refine ⟨Used.perm (fun p hp => ?_) ht.perm,rfl⟩
      rcases List.mem_cons.mp hp with rfl | hp
      · exact ⟨_,List.mem_cons_self,0,rfl,hb.1,by simpa using hb.2⟩
      · exact hu.cons _ p hp
    | failed hh ha => exact ⟨hu,rfl⟩
  · exact ⟨st,F,ps,fs,call_alloc (doAlloc_odd st hn (by omega)),h,hu,rfl⟩

theorem free_used (h : st.Inv K F ps fs) (hu : Used (ps ++ fs) st.live) (ha : a ∈ st.live) :
    ∃ st' F' ps' fs', st.call K (.free a) = some st' ∧ st'.Inv K F' ps' fs' ∧
      Used (ps' ++ fs') st'.live ∧ st'.arena = st.arena := by
  obtain ⟨st',F',ps',fs',he,hi,hr⟩ := h.free ha
  refine ⟨st',F',ps',fs',he,hi,?_⟩
  cases hr with
  | kept hp hai hn hle hcl hne hq =>
    rename_i p i m'
    refine ⟨fun q hqm => ?_,rfl⟩
    by_cases hqp : q = p
    · subst hqp
      exact hi.marked_used hp hne
    · exact h.erase_used hu ⟨_,hai,hn,hle⟩ hp hqm hqp
  | dropped hp hai hn hle hcl hq =>
    rename_i p i m'
    refine ⟨fun q hqm => ?_,rfl⟩
    have hnd := List.nodup_append.mp h.rep.lists.nodup
    have hqm' : q ∈ ps ++ fs ∧ q ≠ p := by
      simp only [List.mem_append,hnd.1.mem_erase_iff,hnd.2.1.mem_erase_iff] at hqm
      exact ⟨List.mem_append.mpr (hqm.imp And.right And.right),hqm.elim And.left And.left⟩
    exact h.erase_used hu ⟨_,hai,hn,hle⟩ hp hqm'.1 hqm'.2

theorem step_used (h : st.Inv K F ps fs) (hu : Used (ps ++ fs) st.live) {c : SlabCall}
    (hv : st.Valid K c) (hc : SlabOnly c) :
    ∃ st' F' ps' fs', st.call K c = some st' ∧ st'.Inv K F' ps' fs' ∧
      Used (ps' ++ fs') st'.live ∧ st'.arena = st.arena := by
  cases c with
  | alloc n => exact h.alloc_used hu hv
  | free a => exact h.free_used hu hv
  | pmmAlloc size => exact absurd hc id
  | pmmFree addr size => exact absurd hc id
  | write m =>
    obtain ⟨st',he,hi,hf⟩ := h.write hv
    obtain rfl := Option.some.inj he
    exact ⟨_,F,ps,fs,he,hi,hu,rfl⟩

theorem calls_used (h : st.Inv K F ps fs) (hu : Used (ps ++ fs) st.live)
    (hv : st.ValidCalls K cs) (hc : ∀ c ∈ cs, SlabOnly c) :
    ∃ st' F' ps' fs', st.calls K cs = some st' ∧ st'.Inv K F' ps' fs' ∧
      Used (ps' ++ fs') st'.live ∧ st'.arena = st.arena := by
  induction cs generalizing st F ps fs with
  | nil => exact ⟨st,F,ps,fs,rfl,h,hu,rfl⟩
  | cons c cs ih =>
    obtain ⟨hv0,hvs⟩ := hv
    obtain ⟨st1,F1,ps1,fs1,he,hi,hu1,ha⟩ := h.step_used hu hv0 (hc c List.mem_cons_self)
    obtain ⟨st',F',ps',fs',he',hi',hu',ha'⟩ :=
      ih hi hu1 (hvs st1 he) (fun c hm => hc c (List.mem_cons_of_mem _ hm))
    exact ⟨st',F',ps',fs',(calls_cons he cs).trans he',hi',hu',ha'.trans ha⟩

theorem used_nil {live : List Slot} {pages : List Nat} (h : Used pages live) (hl : live = []) :
    pages = [] := by
  subst hl
  refine List.eq_nil_iff_forall_not_mem.mpr (fun p hp => ?_)
  obtain ⟨a,ha,-⟩ := h p hp
  exact absurd ha List.not_mem_nil

theorem pages_nil (h : st.Inv K F ps fs) (hn : NoSlabs K st.machine.mem) : ps = [] ∧ fs = [] :=
  ⟨List.map_eq_nil_iff.mp (h.rep.lists.first.unique hn.partial_nil),
    List.map_eq_nil_iff.mp (h.rep.lists.second.unique hn.full_nil)⟩

theorem bytes_of_nil (h : st.Inv K F [] []) : F.bytes = st.arena := by
  ext x
  rw [h.arena x]
  simp

end Inv
end SlabState

open SlabState

theorem slab_run_no_leak {K : Image} {st : SlabState} (h : Reached K (fun _ _ => True) st)
    (hn : NoSlabs K st.machine.mem) {cs : List SlabCall} (hc : ∀ c ∈ cs, SlabOnly c)
    (hv : st.ValidCalls K cs) :
    ∃ st', st.calls K cs = some st' ∧ (st'.live = [] → NoSlabs K st'.machine.mem ∧
      ∃ bs, AddrList K st.machine.mem bs ∧ AddrList K st'.machine.mem bs) := by
  obtain ⟨F,ps,fs,hi⟩ := h.inv
  obtain ⟨rfl,rfl⟩ := hi.pages_nil hn
  obtain ⟨st',F',ps',fs',he,hi',hu,ha⟩ := hi.calls_used (by simp [Used]) hv hc
  refine ⟨st',he,fun hl => ?_⟩
  obtain ⟨rfl,rfl⟩ := List.append_eq_nil_iff.mp (Inv.used_nil hu hl)
  have hb : F'.bytes = F.bytes := by rw [hi'.bytes_of_nil,hi.bytes_of_nil,ha]
  have heq := FreeList.Ok.byAddr_eq hi'.rep.pmm.toOk hi.rep.pmm.toOk hb
  refine ⟨⟨hi'.rep.lists.first,hi'.rep.lists.second⟩,F.byAddr,hi.rep.pmm.addrList,?_⟩
  rw [← heq]
  exact hi'.rep.pmm.addrList

-- An object of three blocks from the only two pages there are, and back.
theorem slab_run_no_leak_one : ∃ st st', Reached .compact (fun _ _ => True) st ∧
    NoSlabs .compact st.machine.mem ∧
    (∀ c ∈ [SlabCall.alloc 3,.free ⟨0x40000,3⟩], SlabOnly c) ∧
    st.ValidCalls .compact [.alloc 3,.free ⟨0x40000,3⟩] ∧
    st.calls .compact [.alloc 3,.free ⟨0x40000,3⟩] = some st' ∧ st'.live = [] ∧
    NoSlabs .compact st'.machine.mem ∧
    ∃ bs, AddrList .compact st.machine.mem bs ∧ AddrList .compact st'.machine.mem bs := by
  have hg : (⟨0x40000,0x800⟩ : Block).Good .compact :=
    ⟨by decide,by decide,by decide,by decide,by decide,by decide⟩
  obtain ⟨s,-,hb,h0⟩ := boot_block hg (by decide) (by decide)
  have hn : NoSlabs .compact (start .compact s ⟨[⟨0x40000,0x800⟩],[⟨0x40000,0x800⟩]⟩).machine.mem :=
    ⟨h0.rep.lists.first,h0.rep.lists.second⟩
  have hno : ¬ HeadFits (start .compact s ⟨[⟨0x40000,0x800⟩],[⟨0x40000,0x800⟩]⟩).machine.mem
      [] 3 := by
    rintro ⟨p,hp,-⟩
    simp at hp
  have ha : FreeList.alloc ⟨[⟨0x40000,0x800⟩],[⟨0x40000,0x800⟩]⟩ 0x400 =
      some (⟨0x40000,0x800⟩,⟨[⟨0x40400,0x400⟩],[⟨0x40400,0x400⟩]⟩) := by decide
  obtain ⟨st1,_,_,he1,h1,hl1,-,-⟩ := h0.doAlloc_fresh (by omega) (by omega) hno ha
  have hlive : st1.live = [⟨0x40000,3⟩] := hl1
  have hc : ∀ c ∈ [SlabCall.alloc 3,.free ⟨0x40000,3⟩], SlabOnly c := by simp [SlabOnly]
  have hv : (start .compact s ⟨[⟨0x40000,0x800⟩],[⟨0x40000,0x800⟩]⟩).ValidCalls .compact
      [.alloc 3,.free ⟨0x40000,3⟩] := by
    refine ⟨show (3 : Nat) < 256 by decide,fun st he => ⟨?_,fun _ _ => trivial⟩⟩
    obtain rfl := Option.some.inj ((call_alloc he1).symm.trans he)
    change _ ∈ st1.live
    rw [hlive]
    exact List.mem_singleton.mpr rfl
  obtain ⟨st',he,himp⟩ := slab_run_no_leak (hb.reached _) hn hc hv
  have hlive' : st'.live = [] := by
    rw [calls_cons (call_alloc he1)] at he
    obtain ⟨st2,_,_,_,he2,-,hr⟩ := h1.free (a := ⟨0x40000,3⟩) (by rw [hlive]; simp)
    rw [calls_cons he2] at he
    obtain rfl := Option.some.inj he
    cases hr <;> simp [hlive]
  exact ⟨_,st',hb.reached _,hn,hc,hv,he,hlive',himp hlive'⟩

end RoscoM68k
