import RoscoM68k.Kernel.Pmm
import RoscoM68k.Kernel.FreeList

namespace RoscoM68k

def pmmHeaders (K : Image) : List Nat := [K.pmmAddrList,K.pmmSizeList]

structure Block.Good (K : Image) (b : Block) : Prop where
  addr_dvd : 1024 ∣ b.addr
  size_dvd : 1024 ∣ b.size
  addr_pos : 0 < b.addr
  size_pos : 0 < b.size
  top : b.stop ≤ addressSpace
  off : ∀ h ∈ pmmHeaders K, b.stop ≤ h ∨ h + 12 ≤ b.addr

def Block.Apart (b c : Block) : Prop := b.stop ≤ c.addr ∨ c.stop ≤ b.addr

-- Any two of the blocks are the same or share no byte.
structure Coherent (K : Image) (bs : List Block) : Prop where
  good : ∀ b ∈ bs, b.Good K
  apart : ∀ b ∈ bs, ∀ c ∈ bs, b = c ∨ b.Apart c

structure Rep (K : Image) (m : Mem) (as ss : List Block) : Prop where
  coherent : Coherent K (as ++ ss)
  addrs : IsList m K.pmmAddrList (as.map Block.addr)
  sizes : IsList m K.pmmSizeList (ss.map (fun b => b.addr + 16))
  addr_size : ∀ b ∈ as, nodeSize m b.addr = b.size
  size_size : ∀ b ∈ ss, nodeSize m (b.addr + 16) = b.size

def pmmFoot (K : Image) (bs : List Block) : Set Nat :=
  {a | (∃ h ∈ pmmHeaders K, h ≤ a ∧ a < h + 12) ∨ ∃ b ∈ bs, a ∈ b.bytes}

-- The part of it that is looked at: of a block, its two nodes up to their sizes.
def pmmNodes (K : Image) (bs : List Block) : Set Nat :=
  {a | (∃ h ∈ pmmHeaders K, h ≤ a ∧ a < h + 12) ∨ ∃ b ∈ bs, b.addr ≤ a ∧ a < b.addr + 28}

variable {K : Image} {m m' : Mem} {as bs ss : List Block} {b c : Block}

theorem Block.Good.size_le (h : b.Good K) : 1024 ≤ b.size :=
  Nat.le_of_dvd h.size_pos h.size_dvd

theorem Block.Good.stop_ge (h : b.Good K) : b.addr + 1024 ≤ b.stop := by
  have := h.size_le
  simp only [Block.stop]
  omega

theorem Coherent.mono (h : Coherent K bs) (hs : as ⊆ bs) : Coherent K as where
  good := fun b hb => h.good b (hs hb)
  apart := fun b hb c hc => h.apart b (hs hb) c (hs hc)

theorem pmm_headers_apart (K : Image) :
    K.pmmAddrList + 12 ≤ K.pmmSizeList ∨ K.pmmSizeList + 12 ≤ K.pmmAddrList := by
  have := K.headers_apart
  simp only [Symbols.headers,List.cons_append,List.pairwise_cons] at this
  exact this.1 _ (by simp)

theorem addr_cells_sub : cells K.pmmAddrList (as.map Block.addr) ⊆
    {x | (K.pmmAddrList ≤ x ∧ x < K.pmmAddrList + 12) ∨
      ∃ b ∈ as, b.addr ≤ x ∧ x < b.addr + 8} := by
  rintro x (h | ⟨y,hy,h1,h2⟩)
  · exact .inl h
  · obtain ⟨b,hb,rfl⟩ := List.mem_map.mp hy
    exact .inr ⟨b,hb,h1,h2⟩

theorem size_cells_sub : cells K.pmmSizeList (ss.map (fun b => b.addr + 16)) ⊆
    {x | (K.pmmSizeList ≤ x ∧ x < K.pmmSizeList + 12) ∨
      ∃ b ∈ ss, b.addr + 16 ≤ x ∧ x < b.addr + 24} := by
  rintro x (h | ⟨y,hy,h1,h2⟩)
  · exact .inl h
  · obtain ⟨b,hb,rfl⟩ := List.mem_map.mp hy
    exact .inr ⟨b,hb,by omega,by omega⟩

theorem addr_cells_nodes : cells K.pmmAddrList (as.map Block.addr) ⊆ pmmNodes K as := by
  intro x hx
  rcases addr_cells_sub hx with h1 | ⟨b,hb,h1,h2⟩
  · exact .inl ⟨_,by simp [pmmHeaders],h1⟩
  · exact .inr ⟨b,hb,h1,by omega⟩

theorem size_cells_nodes : cells K.pmmSizeList (ss.map (fun b => b.addr + 16)) ⊆ pmmNodes K ss := by
  intro x hx
  rcases size_cells_sub hx with h1 | ⟨b,hb,h1,h2⟩
  · exact .inl ⟨_,by simp [pmmHeaders],h1⟩
  · exact .inr ⟨b,hb,by omega,by omega⟩

theorem pmmNodes_mono (h : as ⊆ bs) : pmmNodes K as ⊆ pmmNodes K bs := by
  rintro x (hx | ⟨b,hb,hx⟩)
  · exact .inl hx
  · exact .inr ⟨b,h hb,hx⟩

theorem pmmNodes_foot (h : Coherent K bs) : pmmNodes K bs ⊆ pmmFoot K bs := by
  rintro x (hx | ⟨b,hb,h1,h2⟩)
  · exact .inl hx
  · exact .inr ⟨b,hb,h1,by have := (h.good b hb).stop_ge; omega⟩

theorem addr_cells_foot (h : Coherent K as) :
    cells K.pmmAddrList (as.map Block.addr) ⊆ pmmFoot K as :=
  addr_cells_nodes.trans (pmmNodes_foot h)

theorem size_cells_foot (h : Coherent K ss) :
    cells K.pmmSizeList (ss.map (fun b => b.addr + 16)) ⊆ pmmFoot K ss :=
  size_cells_nodes.trans (pmmNodes_foot h)

theorem pmmFoot_mono (h : as ⊆ bs) : pmmFoot K as ⊆ pmmFoot K bs := by
  rintro x (hx | ⟨b,hb,hx⟩)
  · exact .inl hx
  · exact .inr ⟨b,h hb,hx⟩

-- The nodes of the two lists, their size fields and the headers share no byte.
theorem addr_cells_off (h : Coherent K (as ++ ss)) {x : Nat}
    (hx : x ∈ cells K.pmmAddrList (as.map Block.addr)) :
    x ∉ cells K.pmmSizeList (ss.map (fun b => b.addr + 16)) ∧
      ∀ c ∈ as ++ ss, x < c.addr + 8 ∨ c.stop ≤ x := by
  have hh := pmm_headers_apart K
  have hoff : ∀ c ∈ as ++ ss, (c.stop ≤ K.pmmAddrList ∨ K.pmmAddrList + 12 ≤ c.addr) ∧
      (c.stop ≤ K.pmmSizeList ∨ K.pmmSizeList + 12 ≤ c.addr) ∧ c.addr + 1024 ≤ c.stop :=
    fun c hc => ⟨(h.good c hc).off _ (by simp [pmmHeaders]),
      (h.good c hc).off _ (by simp [pmmHeaders]),(h.good c hc).stop_ge⟩
  rcases addr_cells_sub hx with h1 | ⟨b,hb,h1,h2⟩
  · refine ⟨fun hs => ?_,fun c hc => ?_⟩
    · rcases size_cells_sub hs with h3 | ⟨c,hc,h3,h4⟩
      · omega
      · have := hoff c (by simp [hc])
        omega
    · have := hoff c hc
      omega
  · have hb' := hoff b (by simp [hb])
    refine ⟨fun hs => ?_,fun c hc => ?_⟩
    · rcases size_cells_sub hs with h3 | ⟨c,hc,h3,h4⟩
      · omega
      · have hc' := hoff c (by simp [hc])
        rcases h.apart b (by simp [hb]) c (by simp [hc]) with rfl | ha
        · omega
        · simp only [Block.Apart] at ha
          omega
    · have hc' := hoff c hc
      rcases h.apart b (by simp [hb]) c hc with rfl | ha
      · omega
      · simp only [Block.Apart] at ha
        omega

theorem size_cells_off (h : Coherent K (as ++ ss)) {x : Nat}
    (hx : x ∈ cells K.pmmSizeList (ss.map (fun b => b.addr + 16))) :
    x ∉ cells K.pmmAddrList (as.map Block.addr) ∧
      ∀ c ∈ as ++ ss, x < c.addr + 8 ∨ (c.addr + 16 ≤ x ∧ x < c.addr + 24) ∨ c.stop ≤ x := by
  have hoff : ∀ c ∈ as ++ ss,
      (c.stop ≤ K.pmmSizeList ∨ K.pmmSizeList + 12 ≤ c.addr) ∧ c.addr + 1024 ≤ c.stop :=
    fun c hc => ⟨(h.good c hc).off _ (by simp [pmmHeaders]),(h.good c hc).stop_ge⟩
  refine ⟨fun ha => (addr_cells_off h ha).1 hx,fun c hc => ?_⟩
  have hc' := hoff c hc
  rcases size_cells_sub hx with h1 | ⟨b,hb,h1,h2⟩
  · omega
  · have hb' := hoff b (by simp [hb])
    rcases h.apart b (by simp [hb]) c hc with rfl | ha
    · omega
    · simp only [Block.Apart] at ha
      omega

namespace Rep

theorem agree_nodes (h : Rep K m as ss) (ha : Mem.Agree (pmmNodes K (as ++ ss)) m m') :
    Rep K m' as ss := by
  have hsize : ∀ b ∈ as ++ ss, ∀ k, k + 4 ≤ 28 → m'.readL (b.addr + k) = m.readL (b.addr + k) := by
    intro b hb k hk
    refine ha.readL (fun x hx => .inr ⟨b,hb,?_,?_⟩)
    · have := hx.1
      omega
    · have := hx.2
      omega
  refine ⟨h.coherent,h.addrs.agree (ha.mono ?_),h.sizes.agree (ha.mono ?_),fun b hb => ?_,
    fun b hb => ?_⟩
  · exact addr_cells_nodes.trans (pmmNodes_mono (by simp))
  · exact size_cells_nodes.trans (pmmNodes_mono (by simp))
  · rw [← h.addr_size b hb]
    exact hsize b (by simp [hb]) 8 (by omega)
  · rw [← h.size_size b hb]
    exact hsize b (by simp [hb]) 24 (by omega)

theorem agree (h : Rep K m as ss) (ha : Mem.Agree (pmmFoot K (as ++ ss)) m m') :
    Rep K m' as ss :=
  h.agree_nodes (ha.mono (pmmNodes_foot h.coherent))

-- Stores into the address list leave the rest of the representation alone, and conversely.
theorem frame_addr (h : Rep K m as ss) (hc : Coherent K (bs ++ ss))
    (ha : Mem.Agree (cells K.pmmAddrList (bs.map Block.addr))ᶜ m m') :
    IsList m' K.pmmSizeList (ss.map (fun b => b.addr + 16)) ∧
      ∀ c ∈ bs ++ ss, nodeSize m' c.addr = nodeSize m c.addr ∧
        nodeSize m' (c.addr + 16) = nodeSize m (c.addr + 16) := by
  refine ⟨h.sizes.agree (fun x hx => ha x (fun hx' => (addr_cells_off hc hx').1 hx)),
    fun c hc' => ⟨?_,?_⟩⟩
  all_goals
    refine ha.readL (fun x hx hx' => ?_)
    have h1 := (addr_cells_off hc hx').2 c hc'
    have h2 := (hc.good c hc').stop_ge
    have := hx.1
    have := hx.2
    omega

theorem frame_size (h : Rep K m as ss) (hc : Coherent K (as ++ bs))
    (ha : Mem.Agree (cells K.pmmSizeList (bs.map (fun b => b.addr + 16)))ᶜ m m') :
    IsList m' K.pmmAddrList (as.map Block.addr) ∧
      ∀ c ∈ as ++ bs, nodeSize m' c.addr = nodeSize m c.addr ∧
        nodeSize m' (c.addr + 16) = nodeSize m (c.addr + 16) := by
  refine ⟨h.addrs.agree (fun x hx => ha x (fun hx' => (size_cells_off hc hx').1 hx)),
    fun c hc' => ⟨?_,?_⟩⟩
  all_goals
    refine ha.readL (fun x hx hx' => ?_)
    have h1 := (size_cells_off hc hx').2 c hc'
    have h2 := (hc.good c hc').stop_ge
    have := hx.1
    have := hx.2
    omega

theorem deleteAddr (h : Rep K m as ss) (hc : c ∈ as) :
    Rep K (listNodeDelete m c.addr) (as.erase c) ss ∧
      Mem.Agree (pmmFoot K (as ++ ss))ᶜ m (listNodeDelete m c.addr) ∧
      ∀ d ∈ as ++ ss, nodeSize (listNodeDelete m c.addr) d.addr = nodeSize m d.addr := by
  obtain ⟨a1,a2,-,ha,he⟩ := List.exists_erase_eq hc
  have hsub : as.erase c ⊆ as := List.erase_subset
  have haddrs := h.addrs
  rw [ha,List.map_append,List.map_cons] at haddrs
  obtain ⟨hl,hag⟩ := haddrs.delete
  rw [← List.map_append,← he] at hl hag
  have hag' : Mem.Agree (cells K.pmmAddrList (as.map Block.addr))ᶜ m (listNodeDelete m c.addr) :=
    hag.mono (Set.compl_subset_compl.mpr (cells_mono (List.map_subset _ hsub)))
  obtain ⟨hs,hfr⟩ := h.frame_addr h.coherent hag'
  refine ⟨⟨h.coherent.mono ?_,hl,hs,fun b hb => ?_,fun b hb => ?_⟩,?_,fun d hd => (hfr d hd).1⟩
  · exact List.append_subset.mpr ⟨fun b hb => by simp [hsub hb],by simp⟩
  · rw [(hfr b (by simp [hsub hb])).1]
    exact h.addr_size b (hsub hb)
  · rw [(hfr b (by simp [hb])).2]
    exact h.size_size b hb
  · exact hag'.mono (Set.compl_subset_compl.mpr
      ((addr_cells_foot (h.coherent.mono (by simp))).trans (pmmFoot_mono (by simp))))

theorem deleteSize (h : Rep K m as ss) (hc : c ∈ ss) :
    Rep K (listNodeDelete m (c.addr + 16)) as (ss.erase c) ∧
      Mem.Agree (pmmFoot K (as ++ ss))ᶜ m (listNodeDelete m (c.addr + 16)) ∧
      ∀ d ∈ as ++ ss, nodeSize (listNodeDelete m (c.addr + 16)) d.addr = nodeSize m d.addr ∧
        nodeSize (listNodeDelete m (c.addr + 16)) (d.addr + 16) = nodeSize m (d.addr + 16) := by
  obtain ⟨s1,s2,-,hs,he⟩ := List.exists_erase_eq hc
  have hsub : ss.erase c ⊆ ss := List.erase_subset
  have hsizes := h.sizes
  rw [hs,List.map_append,List.map_cons] at hsizes
  obtain ⟨hl,hag⟩ := hsizes.delete
  rw [← List.map_append,← he] at hl hag
  have hag' : Mem.Agree (cells K.pmmSizeList (ss.map (fun b => b.addr + 16)))ᶜ m
      (listNodeDelete m (c.addr + 16)) :=
    hag.mono (Set.compl_subset_compl.mpr (cells_mono (List.map_subset _ hsub)))
  obtain ⟨ha,hfr⟩ := h.frame_size h.coherent hag'
  refine ⟨⟨h.coherent.mono ?_,ha,hl,fun b hb => ?_,fun b hb => ?_⟩,?_,hfr⟩
  · exact List.append_subset.mpr ⟨by simp,fun b hb => by simp [hsub hb]⟩
  · rw [(hfr b (by simp [hb])).1]
    exact h.addr_size b hb
  · rw [(hfr b (by simp [hsub hb])).2]
    exact h.size_size b (hsub hb)
  · exact hag'.mono (Set.compl_subset_compl.mpr
      ((size_cells_foot (h.coherent.mono (by simp))).trans (pmmFoot_mono (by simp))))

theorem deleteBoth (h : Rep K m as ss) (hca : c ∈ as) (hcs : c ∈ ss) :
    Rep K (deleteBoth m c.addr) (as.erase c) (ss.erase c) ∧
      Mem.Agree (pmmFoot K (as ++ ss))ᶜ m (RoscoM68k.deleteBoth m c.addr) ∧
      nodeSize (RoscoM68k.deleteBoth m c.addr) c.addr = c.size := by
  obtain ⟨h1,hag1,hsz1⟩ := h.deleteAddr hca
  obtain ⟨h2,hag2,hsz2⟩ := h1.deleteSize hcs
  refine ⟨h2,hag1.trans (hag2.mono (Set.compl_subset_compl.mpr (pmmFoot_mono ?_))),?_⟩
  · exact List.append_subset.mpr
      ⟨fun b hb => by simp [List.mem_of_mem_erase hb],by simp⟩
  · exact ((hsz2 c (by simp [hcs])).1.trans (hsz1 c (by simp [hca]))).trans (h.addr_size c hca)

theorem insertAddr {a1 a2 : List Block} (h : Rep K m (a1 ++ a2) ss)
    (hc : Coherent K ((a1 ++ b :: a2) ++ ss)) (hb : ∀ c ∈ a1 ++ a2, b.Apart c)
    (hsz : nodeSize m b.addr = b.size)
    (hm : m' = listNodeInsertAfter m 0
      ((K.pmmAddrList :: a1.map Block.addr).getLast (by simp)) b.addr) :
    Rep K m' (a1 ++ b :: a2) ss ∧ Mem.Agree (pmmFoot K (a1 ++ b :: a2))ᶜ m m' ∧
      nodeSize m' (b.addr + 16) = nodeSize m (b.addr + 16) := by
  have hgb := hc.good b (by simp)
  have hspaced : Spaced K.pmmAddrList (a1.map Block.addr ++ b.addr :: a2.map Block.addr) := by
    have h0 := h.addrs.toSpaced
    rw [List.map_append] at h0
    have hbo := hgb.off K.pmmAddrList (by simp [pmmHeaders])
    refine (h0.cons hgb.addr_pos ?_ ?_ ?_).perm List.perm_middle.symm
    · have := hgb.stop_ge
      have := hgb.top
      omega
    · have := hgb.stop_ge
      omega
    · intro x hx
      rw [← List.map_append] at hx
      obtain ⟨c,hcm,rfl⟩ := List.mem_map.mp hx
      have h1 := hb c hcm
      have h2 := hgb.stop_ge
      have h3 := (h.coherent.good c (by simp only [List.mem_append] at hcm ⊢; tauto)).stop_ge
      simp only [Block.Apart] at h1
      omega
  have haddrs := h.addrs
  rw [List.map_append] at haddrs
  obtain ⟨hl,hag⟩ := haddrs.insert_after 0 hspaced
  rw [← hm] at hl hag
  have hmap :
      a1.map Block.addr ++ b.addr :: a2.map Block.addr = (a1 ++ b :: a2).map Block.addr := by
    simp
  rw [hmap] at hl hag
  obtain ⟨hs,hfr⟩ := h.frame_addr hc hag
  refine ⟨⟨hc,hl,hs,fun c hcm => ?_,fun c hcm => ?_⟩,?_,(hfr b (by simp)).2⟩
  · rw [(hfr c (by simp only [List.mem_append] at hcm ⊢; tauto)).1]
    rcases List.mem_append.mp hcm with h1 | h1
    · exact h.addr_size c (by simp [h1])
    · rcases List.mem_cons.mp h1 with rfl | h1
      · exact hsz
      · exact h.addr_size c (by simp [h1])
  · rw [(hfr c (by simp [hcm])).2]
    exact h.size_size c hcm
  · exact hag.mono (Set.compl_subset_compl.mpr (addr_cells_foot
      (hc.mono (List.subset_append_left _ _))))

theorem insertSize {s1 s2 : List Block} (h : Rep K m as (s1 ++ s2))
    (hc : Coherent K (as ++ (s1 ++ b :: s2))) (hb : ∀ c ∈ s1 ++ s2, b.Apart c)
    (hsz : nodeSize m (b.addr + 16) = b.size)
    (hm : m' = listNodeInsertAfter m 0
      ((K.pmmSizeList :: s1.map (fun b => b.addr + 16)).getLast (by simp)) (b.addr + 16)) :
    Rep K m' as (s1 ++ b :: s2) ∧ Mem.Agree (pmmFoot K (s1 ++ b :: s2))ᶜ m m' := by
  have hgb := hc.good b (by simp)
  have hspaced : Spaced K.pmmSizeList
      (s1.map (fun b => b.addr + 16) ++ (b.addr + 16) :: s2.map (fun b => b.addr + 16)) := by
    have h0 := h.sizes.toSpaced
    rw [List.map_append] at h0
    have hbo := hgb.off K.pmmSizeList (by simp [pmmHeaders])
    refine (h0.cons (by omega) ?_ ?_ ?_).perm List.perm_middle.symm
    · have := hgb.stop_ge
      have := hgb.top
      omega
    · have := hgb.stop_ge
      omega
    · intro x hx
      rw [← List.map_append] at hx
      obtain ⟨c,hcm,rfl⟩ := List.mem_map.mp hx
      have h1 := hb c hcm
      have h2 := hgb.stop_ge
      have h3 := (h.coherent.good c (by simp only [List.mem_append] at hcm ⊢; tauto)).stop_ge
      simp only [Block.Apart] at h1
      omega
  have hsizes := h.sizes
  rw [List.map_append] at hsizes
  obtain ⟨hl,hag⟩ := hsizes.insert_after 0 hspaced
  rw [← hm] at hl hag
  have hmap : s1.map (fun b => b.addr + 16) ++ (b.addr + 16) :: s2.map (fun b => b.addr + 16) =
      (s1 ++ b :: s2).map (fun b => b.addr + 16) := by
    simp
  rw [hmap] at hl hag
  obtain ⟨hs,hfr⟩ := h.frame_size hc hag
  refine ⟨⟨hc,hs,hl,fun c hcm => ?_,fun c hcm => ?_⟩,?_⟩
  · rw [(hfr c (by simp [hcm])).1]
    exact h.addr_size c hcm
  · rw [(hfr c (by simp only [List.mem_append] at hcm ⊢; tauto)).2]
    rcases List.mem_append.mp hcm with h1 | h1
    · exact h.size_size c (by simp [h1])
    · rcases List.mem_cons.mp h1 with rfl | h1
      · exact hsz
      · exact h.size_size c (by simp [h1])
  · exact hag.mono (Set.compl_subset_compl.mpr (size_cells_foot (hc.mono (by simp))))

theorem setBothSizes (h : Rep K m as ss) {a n : Nat} (hb : (⟨a,n⟩ : Block).Good K)
    (hcl : ∀ c ∈ as ++ ss, (⟨a,n⟩ : Block).Apart c) :
    Rep K (setBothSizes m a n) as ss ∧ nodeSize (RoscoM68k.setBothSizes m a n) a = n ∧
      nodeSize (RoscoM68k.setBothSizes m a n) (a + 16) = n ∧
      Mem.Agree (Block.bytes ⟨a,n⟩)ᶜ m (RoscoM68k.setBothSizes m a n) := by
  have hge := hb.stop_ge
  have htop := hb.top
  simp only [Block.stop] at hge htop
  have hn : n < 4294967296 := by
    have := hb.addr_pos
    unfold addressSpace at htop
    simp only at this
    omega
  have hag : Mem.Agree (Block.bytes ⟨a,n⟩)ᶜ m (RoscoM68k.setBothSizes m a n) := by
    have hout : ∀ k, k + 4 ≤ 1024 → ∀ x ∈ (Block.bytes ⟨a,n⟩)ᶜ, x < a + k ∨ a + k + 4 ≤ x := by
      intro k hk x hx
      by_contra hcon
      refine hx ⟨?_,?_⟩
      · simp only
        omega
      · simp only [Block.stop]
        omega
    exact (Mem.agree_writeL _ _ (hout 24 (by omega))).trans
      (Mem.agree_writeL _ _ (hout 8 (by omega)))
  refine ⟨h.agree (hag.mono ?_),?_,?_,hag⟩
  · intro x hx hxb
    rcases hx with ⟨l,hl,h1,h2⟩ | ⟨c,hc,hxc⟩
    · have hoff := hb.off l hl
      have h3 := hxb.1
      have h4 := hxb.2
      simp only [Block.stop] at *
      omega
    · have hap := hcl c hc
      have h3 := hxb.1
      have h4 := hxb.2
      have h5 := hxc.1
      have h6 := hxc.2
      simp only [Block.Apart,Block.stop] at *
      omega
  · exact Mem.readL_writeL_self_of_lt _ hn
  · rw [nodeSize,RoscoM68k.setBothSizes,Mem.readL_writeL_apart _ _ (by omega)]
    exact Mem.readL_writeL_self_of_lt _ hn

end Rep
end RoscoM68k
