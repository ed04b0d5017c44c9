import RoscoM68k.Kernel.PmmRuns

namespace RoscoM68k

open PmmState

-- The whole pages a request needs, without a bound on the result.
def wholePages (size : Nat) : Nat := (size + 1023) / 1024 * 1024

-- What a caller of pmm_alloc counts on, whatever the lists hold.
structure PmmState.Served (K : Image) (st st' : PmmState) (size a : Nat) : Prop where
  success : a ≠ 0 ↔ ∃ F, PmmLists K st.machine.mem F ∧ ∃ b ∈ F.byAddr, wholePages size ≤ b.size
  was_free : a ≠ 0 → ∀ F, PmmLists K st.machine.mem F →
    Block.bytes ⟨a,wholePages size⟩ ⊆ F.bytes
  off_free : a ≠ 0 → ∀ F, PmmLists K st'.machine.mem F →
    Disjoint (Block.bytes ⟨a,wholePages size⟩) F.bytes
  refused : a = 0 → st'.machine.mem = st.machine.mem

def PmmState.MeetsRequest (K : Image) (st : PmmState) (size : Nat) : Prop :=
  ∃ st' a, st.doAlloc K size = some (st',a) ∧ st.Served K st' size a

section Requests

variable {K : Image} {st st' : PmmState} {F : FreeList} {c : Block} {size : Nat}

theorem pmmRound_wholePages (h : size ≤ 0xFFFFFC00) : pmmRound size = wholePages size :=
  pmmRound_eq h

-- A block lies above the null address, so it is smaller than the address space.
theorem PmmState.Inv.size_lt (h : st.Inv K F) (hc : c ∈ F.byAddr) : c.size < addressSpace := by
  have hpos := (h.inv.good c hc).addr_pos
  have htop := (h.inv.good c hc).top
  simp only [Block.stop] at htop
  omega

theorem PmmState.Inv.success_iff (h : st.Inv K F) :
    (∃ G, PmmLists K st.machine.mem G ∧ ∃ b ∈ G.byAddr, wholePages size ≤ b.size) ↔
      ∃ b ∈ F.byAddr, wholePages size ≤ b.size := by
  constructor
  · rintro ⟨G,hG,hb⟩
    rwa [hG.byAddr_unique h.inv.lists] at hb
  · exact fun hb => ⟨F,h.inv.lists,hb⟩

-- Only a request whose rounding stays inside 32 bits can fit into a block.
theorem PmmState.Inv.fits (h : st.Inv K F) (hb : ∃ b ∈ F.byAddr, wholePages size ≤ b.size) :
    size ≤ 0xFFFFFC00 := by
  obtain ⟨b,hb,hle⟩ := hb
  have hlt := h.size_lt hb
  unfold wholePages at hle
  simp only [addressSpace] at hlt
  omega

theorem PmmState.Inv.refused_iff (h : st.Inv K F) (hv : st.Valid (.alloc size))
    (hn : F.alloc (pmmRound size) = none) (he : st.doAlloc K size = some (st',0)) :
    st.Served K st' size 0 ↔ size ≤ 0xFFFFFC00 ∨ st.avail = ∅ := by
  have hno : ∀ c ∈ F.byAddr, ¬ pmmRound size ≤ c.size :=
    fun c hc => FreeList.alloc_none hn (h.inv.toOk.mem_bySize.mpr hc)
  have hmem : st'.machine.mem = st.machine.mem := by
    rw [doAlloc,pmmAlloc_none h.inv hn] at he
    obtain ⟨rfl,-⟩ := Prod.mk.inj (Option.some.inj he)
    exact Machine.mem_nested 1 st.machine
  constructor
  · intro _
    by_cases hs : size ≤ 0xFFFFFC00
    · exact .inl hs
    · have hround := pmmRound_overflow (Nat.lt_of_not_le hs) hv
      refine .inr (h.avail_eq_empty.mpr (List.eq_nil_iff_forall_not_mem.mpr (fun c hc => ?_)))
      exact hno c hc (hround ▸ Nat.zero_le _)
  · intro hs
    refine ⟨?_,fun ha => absurd rfl ha,fun ha => absurd rfl ha,fun _ => hmem⟩
    rw [h.success_iff]
    refine ⟨fun ha => absurd rfl ha,?_⟩
    rintro ⟨b,hb,hle⟩
    rcases hs with hs | hs
    · exact absurd (pmmRound_wholePages hs ▸ hle) (hno b hb)
    · rw [h.avail_eq_empty.mp hs] at hb
      exact absurd hb List.not_mem_nil

theorem PmmState.Inv.granted_iff (h : st.Inv K F) (hc : c ∈ F.byAddr)
    (hle : pmmRound size ≤ c.size) (hi : st'.Inv K (F.take (pmmRound size) c))
    (hl : st'.live = st.live ∪ Block.bytes ⟨c.addr,pmmRound size⟩) :
    st.Served K st' size c.addr ↔ size ≤ 0xFFFFFC00 ∨ st.avail = ∅ := by
  have hpos : c.addr ≠ 0 := (h.inv.good c hc).addr_pos.ne'
  constructor
  · exact fun hs => .inl (h.fits (h.success_iff.mp (hs.success.mp hpos)))
  · rintro (hs | hs)
    · have hg := h.granted hc hle hi hl
      rw [pmmRound_wholePages hs] at hg hle
      exact ⟨⟨fun _ => h.success_iff.mpr ⟨c,hc,hle⟩,fun _ => hpos⟩,fun _ => hg.was_free,
        fun _ => hg.off_free,fun ha => absurd ha hpos⟩
    · rw [h.avail_eq_empty.mp hs] at hc
      exact absurd hc List.not_mem_nil

end Requests

theorem pmm_run_requests {K : Image} {s : Machine} {st : PmmState}
    (h : Reached K (fun _ c => c.Guarded K) s st) {size : Nat}
    (hsize : size < addressSpace) :
    st.MeetsRequest K size ↔ size ≤ 0xFFFFFC00 ∨ st.avail = ∅ := by
  obtain ⟨F,hF⟩ := Reached.inv (fun _ _ hc => hc) h
  have hdet : ∀ {st' a}, st.doAlloc K size = some (st',a) →
      (st.MeetsRequest K size ↔ st.Served K st' size a) := by
    intro st' a he
    refine ⟨?_,fun hs => ⟨st',a,he,hs⟩⟩
    rintro ⟨st'',a',he',hs⟩
    obtain ⟨rfl,rfl⟩ := Prod.mk.inj (Option.some.inj (he'.symm.trans he))
    exact hs
  rcases hF.alloc hsize with ⟨hn,st',he,-,-⟩ | ⟨c,hc,hf,st',he,hi,hl⟩
  · exact (hdet he).trans (hF.refused_iff hsize hn he)
  · exact (hdet he).trans (hF.granted_iff hc (by simpa using List.find?_some hf) hi hl)

theorem pmm_one_page : ∃ st, Reached Image.compact (fun _ c => c.Guarded .compact) .blank st ∧
    (start .compact .blank).call .compact (.free 0x40000 0x400) = some st ∧
      st.Inv .compact ⟨[⟨0x40000,0x400⟩],[⟨0x40000,0x400⟩]⟩ := by
  have h0 := start_inv .compact .blank
  have hg : (PmmCall.free 0x40000 0x400).Guarded .compact := ⟨by decide,by decide⟩
  have hv : (start .compact .blank).Valid (.free 0x40000 0x400) :=
    FreeList.Clear.valid (b := ⟨0x40000,0x400⟩) h0 (by decide) (by decide) (by decide)
      (by simp [FreeList.Clear])
  obtain ⟨st,he,hi⟩ := h0.free hv hg
  refine ⟨st,.single ⟨_,hv,hg,he⟩,he,?_⟩
  have hF : FreeList.free ⟨[],[]⟩ ⟨0x40000,pmmRound 0x400⟩ =
      ⟨[⟨0x40000,0x400⟩],[⟨0x40000,0x400⟩]⟩ := by decide
  rwa [hF] at hi

theorem pmm_run_requests_one_page : ∃ st,
    Reached Image.compact (fun _ c => c.Guarded .compact) .blank st ∧
      st.MeetsRequest .compact 0x3FF := by
  obtain ⟨st,hr,-,-⟩ := pmm_one_page
  exact ⟨st,hr,(pmm_run_requests hr (by decide)).mpr (.inl (by decide))⟩

-- The rounding wraps to zero, so the only free page is handed out for a request of 4 GiB and
-- stays on both lists.
theorem pmm_alloc_wraps : ∃ st, Reached Image.compact (fun _ c => c.Guarded .compact) .blank st ∧
    (start .compact .blank).call .compact (.free 0x40000 0x400) = some st ∧
      ¬ st.MeetsRequest .compact 0xFFFFFFFF ∧
      ∃ st', st.doAlloc .compact 0xFFFFFFFF = some (st',0x40000) ∧
        ∃ F, PmmLists .compact st'.machine.mem F ∧ 0x40000 ∈ F.bytes := by
  obtain ⟨st,hr,hcall,hi⟩ := pmm_one_page
  have hround : pmmRound 0xFFFFFFFF = 0 := by decide
  have hv : st.Valid (.alloc 0xFFFFFFFF) := by simp [Valid,addressSpace]
  rcases hi.alloc hv with ⟨hn,-⟩ | ⟨c,hc,-,st',he,hi',-⟩
  · exact absurd hn (by decide)
  · obtain rfl : c = ⟨0x40000,0x400⟩ := by simpa using hc
    refine ⟨st,hr,hcall,?_,st',he,_,hi'.inv.lists,?_⟩
    · rintro ⟨st'',a,he',hs⟩
      obtain ⟨rfl,rfl⟩ := Prod.mk.inj (Option.some.inj (he'.symm.trans he))
      have := hi.fits (hi.success_iff.mp (hs.success.mp (by decide)))
      omega
    · have hF : FreeList.take ⟨[⟨0x40000,0x400⟩],[⟨0x40000,0x400⟩]⟩ (pmmRound 0xFFFFFFFF)
          ⟨0x40000,0x400⟩ = ⟨[⟨0x40000,0x400⟩],[⟨0x40000,0x400⟩]⟩ := by decide
      rw [hF]
      exact ⟨_,List.mem_singleton_self _,by simp [Block.bytes,Block.stop]⟩

end RoscoM68k
