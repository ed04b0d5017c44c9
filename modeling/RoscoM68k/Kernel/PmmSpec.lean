import RoscoM68k.Kernel.PmmRep

namespace RoscoM68k

-- The free list the two lists in memory stand for.
structure PmmInv (K : Image) (m : Mem) (F : FreeList) : Prop extends F.Ok where
  good : ∀ b ∈ F.byAddr, b.Good K
  addrs : IsList m K.pmmAddrList (F.byAddr.map Block.addr)
  sizes : IsList m K.pmmSizeList (F.bySize.map (fun b => b.addr + 16))
  addr_size : ∀ b ∈ F.byAddr, nodeSize m b.addr = b.size
  size_size : ∀ b ∈ F.byAddr, nodeSize m (b.addr + 16) = b.size

-- Every byte the manager may store to: the two headers and the free blocks.
def FreeList.foot (K : Image) (F : FreeList) : Set Nat := pmmFoot K F.byAddr

variable {K : Image} {m m' : Mem} {F : FreeList} {b c : Block}

theorem FreeList.Ok.coherent (h : F.Ok) (hg : ∀ b ∈ F.byAddr, b.Good K) :
    Coherent K (F.byAddr ++ F.bySize) := by
  have hmem : ∀ b ∈ F.byAddr ++ F.bySize, b ∈ F.byAddr := by
    intro b hb
    rcases List.mem_append.mp hb with hb | hb
    · exact hb
    · exact h.mem_bySize.mp hb
  refine ⟨fun b hb => hg b (hmem b hb),fun b hb c hc => ?_⟩
  by_cases he : b = c
  · exact .inl he
  · have := h.stop_lt_or (hmem b hb) (hmem c hc) he
    refine .inr ?_
    simp only [Block.Apart]
    omega

theorem PmmInv.rep (h : PmmInv K m F) : Rep K m F.byAddr F.bySize where
  coherent := h.toOk.coherent h.good
  addrs := h.addrs
  sizes := h.sizes
  addr_size := h.addr_size
  size_size := fun b hb => h.size_size b (h.toOk.mem_bySize.mp hb)

theorem Rep.pmmInv (h : Rep K m F.byAddr F.bySize) (ho : F.Ok) (hg : ∀ b ∈ F.byAddr, b.Good K) :
    PmmInv K m F where
  toOk := ho
  good := hg
  addrs := h.addrs
  sizes := h.sizes
  addr_size := h.addr_size
  size_size := fun b hb => h.size_size b (ho.mem_bySize.mpr hb)

theorem FreeList.Ok.foot_eq (h : F.Ok) : pmmFoot K (F.byAddr ++ F.bySize) = F.foot K := by
  refine Set.Subset.antisymm (pmmFoot_mono ?_) (pmmFoot_mono (by simp))
  exact List.append_subset.mpr ⟨List.Subset.refl _,fun b hb => h.mem_bySize.mp hb⟩

def FreeList.nodes (K : Image) (F : FreeList) : Set Nat := pmmNodes K F.byAddr

theorem FreeList.Ok.nodes_eq (h : F.Ok) : pmmNodes K (F.byAddr ++ F.bySize) = F.nodes K := by
  refine Set.Subset.antisymm (pmmNodes_mono ?_) (pmmNodes_mono (by simp))
  exact List.append_subset.mpr ⟨List.Subset.refl _,fun b hb => h.mem_bySize.mp hb⟩

theorem PmmInv.agree_nodes (h : PmmInv K m F) (ha : Mem.Agree (F.nodes K) m m') : PmmInv K m' F :=
  (h.rep.agree_nodes (by rwa [h.toOk.nodes_eq])).pmmInv h.toOk h.good

theorem PmmInv.agree (h : PmmInv K m F) (ha : Mem.Agree (F.foot K) m m') : PmmInv K m' F :=
  (h.rep.agree (by rwa [h.toOk.foot_eq])).pmmInv h.toOk h.good

theorem foot_remove : (F.remove c).foot K ⊆ F.foot K := pmmFoot_mono List.erase_subset

section Scan

-- A listed block against the block being freed: `total` bytes at `addr`, of which the local
-- variable `size` may count fewer.
structure Freeing (m : Mem) (addr size total : Nat) (c : Block) : Prop where
  addr_pos : 0 < addr
  le : size ≤ total
  top : addr + total ≤ addressSpace
  c_pos : 0 < c.addr
  c_size : 0 < c.size
  c_top : c.stop ≤ addressSpace
  stored : nodeSize m c.addr = c.size

variable {addr size total : Nat}

theorem scan_lower (h : Freeing m addr size total c) (hc : c.stop = addr) :
    coalesceScan m addr size c.addr = some (.lower c.addr) := by
  obtain ⟨h1,h2,h3,h4,h5,h6,h7⟩ := h
  simp only [Block.stop,addressSpace] at *
  unfold coalesceScan wrap addressSpace
  rw [h7,if_neg (by omega),if_pos (by omega)]

theorem scan_below (h : Freeing m addr size total c) (hc : c.stop < addr) :
    coalesceScan m addr size c.addr = none := by
  obtain ⟨h1,h2,h3,h4,h5,h6,h7⟩ := h
  simp only [Block.stop,addressSpace] at *
  unfold coalesceScan wrap addressSpace
  rw [h7,if_neg (by omega),if_neg (by omega),if_neg (by omega)]

theorem scan_higher (h : Freeing m addr size total c) (hc : addr + size = c.addr) :
    coalesceScan m addr size c.addr = some (.higher c.addr) := by
  obtain ⟨h1,h2,h3,h4,h5,h6,h7⟩ := h
  simp only [Block.stop,addressSpace] at *
  unfold coalesceScan wrap addressSpace
  rw [if_pos (by omega)]

theorem scan_above (h : Freeing m addr size total c) (hc : addr + size < c.addr) :
    coalesceScan m addr size c.addr = some (.place (nodePrev m c.addr)) := by
  obtain ⟨h1,h2,h3,h4,h5,h6,h7⟩ := h
  simp only [Block.stop,addressSpace] at *
  unfold coalesceScan wrap addressSpace
  rw [h7,if_neg (by omega),if_neg (by omega),if_pos (by omega)]

end Scan

theorem findSome_append_cons {α β : Type} {f : α → Option β} {xs ys : List α} {x : α} {r : β}
    (hxs : ∀ y ∈ xs, f y = none) (hx : f x = some r) :
    (xs ++ x :: ys).findSome? f = some r := by
  rw [List.findSome?_append,List.findSome?_eq_none_iff.mpr hxs,List.findSome?_cons,hx]
  rfl

-- The block under coalescing: not listed, its size stored in both of its nodes.
structure Pending (K : Image) (m : Mem) (F : FreeList) (b : Block) : Prop where
  inv : PmmInv K m F
  fresh : F.Fresh b
  good : b.Good K
  addr_size : nodeSize m b.addr = b.size
  size_size : nodeSize m (b.addr + 16) = b.size

def Pending.foot (K : Image) (F : FreeList) (b : Block) : Set Nat := F.foot K ∪ b.bytes

namespace Pending

theorem freeing (h : Pending K m F b) {size : Nat} (hs : size ≤ b.size) (hc : c ∈ F.byAddr) :
    Freeing m b.addr size b.size c where
  addr_pos := h.good.addr_pos
  le := hs
  top := h.good.top
  c_pos := (h.inv.good c hc).addr_pos
  c_size := (h.inv.good c hc).size_pos
  c_top := (h.inv.good c hc).top
  stored := h.inv.addr_size c hc

theorem size_lt (h : Pending K m F b) : b.addr + b.size ≤ addressSpace := h.good.top

-- Deleting a neighbour and storing the joint size in the nodes of the block that stays.
theorem absorb (h : Pending K m F b) (hc : c ∈ F.byAddr) {d : Block} (hd : d.Good K)
    (hdu : d.bytes = b.bytes ∪ c.bytes) (hfr : (F.remove c).Fresh d) :
    Pending K (setBothSizes (deleteBoth m c.addr) d.addr d.size) (F.remove c) d ∧
      Mem.Agree (Pending.foot K F b)ᶜ m
        (setBothSizes (deleteBoth m c.addr) d.addr d.size) := by
  have hcs : c ∈ F.bySize := h.inv.toOk.mem_bySize.mpr hc
  obtain ⟨hr,hag,-⟩ := h.inv.rep.deleteBoth hc hcs
  have hcl : ∀ e ∈ (F.remove c).byAddr ++ (F.remove c).bySize, d.Apart e := by
    intro e he
    have he : e ∈ (F.remove c).byAddr := by
      rcases List.mem_append.mp he with he | he
      · exact he
      · exact (h.inv.toOk.remove c).mem_bySize.mp he
    exact (hfr.clear e he).symm
  obtain ⟨hr',hs1,hs2,hag'⟩ := hr.setBothSizes (a := d.addr) (n := d.size) hd hcl
  have hgood : ∀ e ∈ (F.remove c).byAddr, e.Good K :=
    fun e he => h.inv.good e (List.mem_of_mem_erase he)
  refine ⟨⟨Rep.pmmInv hr' (h.inv.toOk.remove c) hgood,hfr,hd,hs1,hs2⟩,?_⟩
  refine (hag.mono (Set.compl_subset_compl.mpr ?_)).trans
    (hag'.mono (Set.compl_subset_compl.mpr ?_))
  · rw [h.inv.toOk.foot_eq]
    exact Set.subset_union_left
  · change d.bytes ⊆ _
    rw [hdu]
    exact Set.union_subset Set.subset_union_right
      (fun x hx => .inl (.inr ⟨c,hc,hx⟩))

theorem deleted (h : Pending K m F b) (hc : c ∈ F.byAddr) :
    nodeSize (deleteBoth m c.addr) c.addr = c.size ∧
      nodeSize (deleteBoth m c.addr) b.addr = b.size := by
  obtain ⟨-,hag,hsz⟩ := h.inv.rep.deleteBoth hc (h.inv.toOk.mem_bySize.mpr hc)
  refine ⟨hsz,?_⟩
  rw [← h.addr_size]
  refine hag.readL (fun x hx hx' => ?_)
  have hge := h.good.stop_ge
  have h1 := hx.1
  have h2 := hx.2
  rw [h.inv.toOk.foot_eq] at hx'
  rcases hx' with ⟨l,hl,h3,h4⟩ | ⟨e,he,h3,h4⟩
  · have := h.good.off l hl
    omega
  · have := h.fresh.clear e he
    omega

theorem lower_step (h : Pending K m F b) (hc : c ∈ F.byAddr) (hcb : c.stop = b.addr)
    (fuel : Nat) :
    coalesce K (fuel + 1) m b.addr b.size =
      coalesce K fuel (setBothSizes (deleteBoth m c.addr) c.addr (b.size + c.size)) c.addr
        (b.size + c.size) := by
  obtain ⟨l1,l2,hl⟩ := List.append_of_mem hc
  have hscan : listFor m K.pmmAddrList (coalesceScan m b.addr b.size) =
      some (some (.lower c.addr)) := by
    rw [h.inv.addrs.listFor_eq,hl,List.map_append,List.map_cons]
    refine congrArg some (findSome_append_cons ?_ (scan_lower (h.freeing le_rfl hc) hcb))
    intro y hy
    obtain ⟨d,hd,rfl⟩ := List.mem_map.mp hy
    have hg := h.inv.gapped
    rw [hl] at hg
    have hdc : d.stop < c.addr := (List.pairwise_append.mp hg).2.2 d hd c (by simp)
    refine scan_below (h.freeing le_rfl (by simp [hl,hd])) ?_
    simp only [Block.stop] at *
    omega
  have hw : wrap (b.size + nodeSize (deleteBoth m c.addr) c.addr) = b.size + c.size := by
    rw [(h.deleted hc).1]
    have := h.good.top
    have := (h.inv.good c hc).addr_pos
    simp only [Block.stop,wrap] at *
    exact Nat.mod_eq_of_lt (by omega)
  rw [coalesce_lower hscan,hw]

theorem higher_step (h : Pending K m F b) (hlo : ∀ e ∈ F.byAddr, e.stop ≠ b.addr)
    (hc : c ∈ F.byAddr) (hbc : b.stop = c.addr) (fuel : Nat) :
    coalesce K (fuel + 1) m b.addr b.size =
      coalesce K fuel (setBothSizes (deleteBoth m c.addr) b.addr (b.size + c.size)) b.addr
        b.size := by
  obtain ⟨l1,l2,hl⟩ := List.append_of_mem hc
  have hscan : listFor m K.pmmAddrList (coalesceScan m b.addr b.size) =
      some (some (.higher c.addr)) := by
    rw [h.inv.addrs.listFor_eq,hl,List.map_append,List.map_cons]
    refine congrArg some (findSome_append_cons ?_ (scan_higher (h.freeing le_rfl hc) hbc))
    intro y hy
    obtain ⟨d,hd,rfl⟩ := List.mem_map.mp hy
    have hdF : d ∈ F.byAddr := by simp [hl,hd]
    have hg := h.inv.gapped
    rw [hl] at hg
    have hdc : d.stop < c.addr := (List.pairwise_append.mp hg).2.2 d hd c (by simp)
    have h1 := hlo d hdF
    have h2 := h.fresh.clear d hdF
    have h3 := h.inv.pos d hdF
    refine scan_below (h.freeing le_rfl hdF) ?_
    simp only [Block.stop] at *
    omega
  have hw : wrap (nodeSize (deleteBoth m c.addr) b.addr + nodeSize (deleteBoth m c.addr) c.addr) =
      b.size + c.size := by
    rw [(h.deleted hc).1,(h.deleted hc).2]
    have := (h.inv.good c hc).top
    have := h.good.addr_pos
    simp only [Block.stop,wrap] at *
    exact Nat.mod_eq_of_lt (by omega)
  rw [coalesce_higher hscan,hw]

-- The pass that finds neither neighbour threads the block into the address list.
theorem place_step (h : Pending K m F b) {size : Nat} (hs : size ≤ b.size)
    (hlo : ∀ e ∈ F.byAddr, e.stop ≠ b.addr) (hhi : ∀ e ∈ F.byAddr, b.addr + size ≠ e.addr)
    (fuel : Nat) : ∃ m', coalesce K (fuel + 1) m b.addr size = some (m',b.addr,size) ∧
      Rep K m' (F.byAddr.orderedInsert (fun b c => b.addr < c.addr) b) F.bySize ∧
      nodeSize m' (b.addr + 16) = b.size ∧ Mem.Agree (Pending.foot K F b)ᶜ m m' := by
  obtain ⟨a1,a2,hl,hi,ha1,ha2⟩ :=
    FreeList.insert_split (r := fun b c => b.addr < c.addr) b F.byAddr
  have hbelow : ∀ x ∈ a1.map Block.addr, coalesceScan m b.addr size x = none := by
    intro x hx
    obtain ⟨d,hd,rfl⟩ := List.mem_map.mp hx
    have hdF : d ∈ F.byAddr := by simp [hl,hd]
    have h1 := ha1 d hd
    have h2 := h.fresh.clear d hdF
    have h3 := hlo d hdF
    have h4 := h.fresh.size_pos
    refine scan_below (h.freeing hs hdF) ?_
    simp only [Block.stop] at *
    omega
  have haddrs := h.inv.addrs
  rw [hl,List.map_append] at haddrs
  have hstep : coalesce K (fuel + 1) m b.addr size =
      some (listNodeInsertAfter m 0 ((K.pmmAddrList :: a1.map Block.addr).getLast (by simp)) b.addr,
        b.addr,size) := by
    cases a2 with
    | nil =>
      rw [List.map_nil,List.append_nil] at haddrs
      have hscan : listFor m K.pmmAddrList (coalesceScan m b.addr size) = some none := by
        rw [haddrs.listFor_eq,List.findSome?_eq_none_iff.mpr hbelow]
      rw [coalesce_end hscan,listAddTail,haddrs.tail_prev]
    | cons c a2 =>
      have hcF : c ∈ F.byAddr := by simp [hl]
      have hbc : b.addr < c.addr := ha2 c (by simp)
      have habove : b.addr + size < c.addr := by
        have h1 := h.fresh.clear c hcF
        have h2 := hhi c hcF
        have h3 := h.inv.pos c hcF
        simp only [Block.stop] at *
        omega
      rw [List.map_cons] at haddrs
      have hscan : listFor m K.pmmAddrList (coalesceScan m b.addr size) =
          some (some (.place (nodePrev m c.addr))) := by
        rw [haddrs.listFor_eq]
        exact congrArg some (findSome_append_cons hbelow (scan_above (h.freeing hs hcF) habove))
      rw [coalesce_place hscan,haddrs.prev_eq]
  have hcoh : Coherent K ((a1 ++ b :: a2) ++ F.bySize) := by
    have h0 := h.inv.rep.coherent
    have hcases : ∀ e ∈ (a1 ++ b :: a2) ++ F.bySize, e = b ∨ e ∈ F.byAddr := by
      intro e he
      rcases List.mem_append.mp he with he | he
      · rw [hl]
        simp only [List.mem_append,List.mem_cons] at he ⊢
        tauto
      · exact .inr (h.inv.toOk.mem_bySize.mp he)
    refine ⟨fun e he => ?_,fun e he d hd => ?_⟩
    · rcases hcases e he with rfl | he
      · exact h.good
      · exact h.inv.good e he
    · rcases hcases e he with h1 | h1 <;> rcases hcases d hd with h2 | h2
      · exact .inl (h1.trans h2.symm)
      · exact .inr (h1 ▸ (h.fresh.clear d h2).symm)
      · exact .inr (h2 ▸ h.fresh.clear e h1)
      · exact h0.apart e (by simp [h1]) d (by simp [h2])
  have hap : ∀ e ∈ a1 ++ a2, b.Apart e := fun e he => (h.fresh.clear e (by rw [hl]; exact he)).symm
  have hrep := h.inv.rep
  rw [hl] at hrep
  obtain ⟨hr,hag,hsz⟩ := hrep.insertAddr hcoh hap h.addr_size rfl
  refine ⟨_,hstep,?_,hsz.trans h.size_size,hag.mono (Set.compl_subset_compl.mpr ?_)⟩
  · rw [hi]
    exact hr
  · rintro x (hx | ⟨e,he,hx⟩)
    · exact .inl (.inl hx)
    · have he : e = b ∨ e ∈ F.byAddr := by
        rw [hl]
        simp only [List.mem_append,List.mem_cons] at he ⊢
        tauto
      rcases he with rfl | he
      · exact .inr hx
      · exact .inl (.inr ⟨e,he,hx⟩)

end Pending

theorem addToSizeList_spec {as ss : List Block} (h : Rep K m as ss) (hb : b ∈ as)
    (hap : ∀ c ∈ ss, b.Apart c) (hsz : nodeSize m (b.addr + 16) = b.size) (asked : Nat) :
    ∃ m', addToSizeList K m (b.addr + 16) asked = some m' ∧
      Rep K m' as (ss.orderedInsert (fun _ c => asked < c.size) b) ∧
      Mem.Agree (pmmFoot K (b :: ss))ᶜ m m' := by
  obtain ⟨s1,s2,hl,hi,hs1,hs2⟩ := FreeList.insert_split (r := fun _ c => asked < c.size) b ss
  have hnone : ∀ x ∈ s1.map (fun b => b.addr + 16),
      (if nodeSize m x > asked then some (nodePrev m x) else none) = none := by
    intro x hx
    obtain ⟨d,hd,rfl⟩ := List.mem_map.mp hx
    rw [h.size_size d (by simp [hl,hd])]
    exact if_neg (hs1 d hd)
  have hsizes := h.sizes
  rw [hl,List.map_append] at hsizes
  have hstep : addToSizeList K m (b.addr + 16) asked = some (listNodeInsertAfter m 0
      ((K.pmmSizeList :: s1.map (fun b => b.addr + 16)).getLast (by simp)) (b.addr + 16)) := by
    cases s2 with
    | nil =>
      rw [List.map_nil,List.append_nil] at hsizes
      rw [addToSizeList,hsizes.listFor_eq,List.findSome?_eq_none_iff.mpr hnone,listAddTail,
        hsizes.tail_prev]
    | cons c s2 =>
      have hc : (if nodeSize m (c.addr + 16) > asked then some (nodePrev m (c.addr + 16))
          else none) = some (nodePrev m (c.addr + 16)) := by
        rw [h.size_size c (by simp [hl])]
        exact if_pos (hs2 c (by simp))
      rw [List.map_cons] at hsizes
      rw [addToSizeList,hsizes.listFor_eq,findSome_append_cons hnone hc,hsizes.prev_eq]
  have hcoh : Coherent K (as ++ (s1 ++ b :: s2)) := by
    refine h.coherent.mono (fun e he => ?_)
    rw [hl]
    simp only [List.mem_append,List.mem_cons] at he ⊢
    rcases he with he | he | rfl | he <;> tauto
  have hrep := h
  rw [hl] at hrep
  obtain ⟨hr,hag⟩ := hrep.insertSize hcoh (fun e he => hap e (by rw [hl]; exact he)) hsz rfl
  refine ⟨_,hstep,?_,hag.mono (Set.compl_subset_compl.mpr (pmmFoot_mono ?_))⟩
  · rw [hi]
    exact hr
  · intro e he
    rw [hl]
    simp only [List.mem_append,List.mem_cons] at he ⊢
    tauto

theorem Block.Good.join (hc : c.Good K) (hb : b.Good K) (h : c.stop = b.addr) :
    (⟨c.addr,b.size + c.size⟩ : Block).Good K where
  addr_dvd := hc.addr_dvd
  size_dvd := dvd_add hb.size_dvd hc.size_dvd
  addr_pos := hc.addr_pos
  size_pos := by have := hc.size_pos; simp only; omega
  top := by have := hb.top; simp only [Block.stop] at *; omega
  off := by
    intro l hl
    have h1 := hc.off l hl
    have h2 := hb.off l hl
    simp only [Block.stop] at *
    omega

theorem pending_foot_eq (K : Image) (F : FreeList) (b : Block) : Pending.foot K F b =
    {a | ∃ h ∈ pmmHeaders K, h ≤ a ∧ a < h + 12} ∪ (F.bytes ∪ b.bytes) := by
  rw [← Set.union_assoc]
  rfl

namespace Pending

theorem below (h : Pending K m F b) (fuel : Nat) : ∃ m' fuel', fuel ≤ fuel' ∧
    coalesce K (fuel + 1) m b.addr b.size =
      coalesce K fuel' m' (F.mergeBelow b).2.addr (F.mergeBelow b).2.size ∧
    Pending K m' (F.mergeBelow b).1 (F.mergeBelow b).2 ∧ Mem.Agree (Pending.foot K F b)ᶜ m m' := by
  have hfr := h.fresh.mergeBelow.1
  rcases FreeList.mergeBelow_cases F b with ⟨c,hc,hcb,he⟩ | ⟨-,he⟩
  · rw [he] at hfr ⊢
    have hd := (h.inv.good c hc).join h.good hcb
    have hu : (⟨c.addr,b.size + c.size⟩ : Block).bytes = b.bytes ∪ c.bytes := by
      ext a
      simp only [Block.bytes,Block.stop,Set.mem_union,Set.mem_Ico] at *
      omega
    obtain ⟨hp,hag⟩ := h.absorb hc hd hu hfr
    exact ⟨_,fuel,le_rfl,h.lower_step hc hcb fuel,hp,hag⟩
  · rw [he]
    exact ⟨m,fuel + 1,by omega,rfl,h,Mem.Agree.refl _ _⟩

theorem above (h : Pending K m F b) (hlo : ∀ e ∈ F.byAddr, e.stop ≠ b.addr) (fuel : Nat) :
    ∃ m' fuel', fuel ≤ fuel' ∧ coalesce K (fuel + 1) m b.addr b.size =
      coalesce K fuel' m' (F.mergeAbove b).2.addr b.size ∧
    Pending K m' (F.mergeAbove b).1 (F.mergeAbove b).2 ∧ b.size ≤ (F.mergeAbove b).2.size ∧
    (∀ e ∈ (F.mergeAbove b).1.byAddr, (F.mergeAbove b).2.addr + b.size ≠ e.addr) ∧
    Mem.Agree (Pending.foot K F b)ᶜ m m' := by
  have hfr := (h.fresh.mergeAbove hlo).1
  rcases FreeList.mergeAbove_cases F b with ⟨c,hc,hbc,he⟩ | ⟨hno,he⟩
  · rw [he] at hfr ⊢
    have hd : (⟨b.addr,b.size + c.size⟩ : Block).Good K := by
      rw [Nat.add_comm]
      exact h.good.join (h.inv.good c hc) hbc
    have hu : (⟨b.addr,b.size + c.size⟩ : Block).bytes = b.bytes ∪ c.bytes := by
      ext a
      simp only [Block.bytes,Block.stop,Set.mem_union,Set.mem_Ico] at *
      omega
    obtain ⟨hp,hag⟩ := h.absorb hc hd hu hfr
    refine ⟨_,fuel,le_rfl,h.higher_step hlo hc hbc fuel,hp,Nat.le_add_right _ _,?_,hag⟩
    intro e he'
    have h1 := hfr.clear e he'
    have h2 := h.good.size_pos
    have h3 := (h.inv.good c hc).size_pos
    have h4 := hfr.pos e he'
    simp only [Block.stop] at *
    omega
  · rw [he]
    exact ⟨m,fuel + 1,by omega,rfl,h,le_rfl,hno,Mem.Agree.refl _ _⟩

end Pending

theorem FreeList.good_free (hg : ∀ c ∈ F.byAddr, c.Good K) (hb : b.Good K) :
    ∀ c ∈ (F.free b).byAddr, c.Good K := by
  have h1 : (F.mergeBelow b).2.Good K ∧ ∀ c ∈ (F.mergeBelow b).1.byAddr, c.Good K := by
    rcases FreeList.mergeBelow_cases F b with ⟨c,hc,hcb,he⟩ | ⟨-,he⟩
    · rw [he]
      exact ⟨(hg c hc).join hb hcb,fun e he => hg e (List.mem_of_mem_erase he)⟩
    · rw [he]
      exact ⟨hb,hg⟩
  have h2 : ((F.mergeBelow b).1.mergeAbove (F.mergeBelow b).2).2.Good K ∧
      ∀ c ∈ ((F.mergeBelow b).1.mergeAbove (F.mergeBelow b).2).1.byAddr, c.Good K := by
    rcases FreeList.mergeAbove_cases (F.mergeBelow b).1 (F.mergeBelow b).2 with
      ⟨c,hc,hbc,he⟩ | ⟨-,he⟩
    · rw [he]
      refine ⟨?_,fun e he => h1.2 e (List.mem_of_mem_erase he)⟩
      rw [Nat.add_comm]
      exact h1.1.join (h1.2 c hc) hbc
    · rw [he]
      exact h1
  intro c hc
  rcases List.mem_cons.mp ((FreeList.perm_insert _ _ _).mem_iff.mp hc) with rfl | hc
  · exact h2.1
  · exact h2.2 c hc

theorem pmmFreeBody_spec (h : PmmInv K m F) (hb : b.Good K) (hfr : F.Fresh b) :
    ∃ m', pmmFreeBody K m b.addr b.size = some m' ∧ PmmInv K m' (F.free b) ∧
      Mem.Agree (Pending.foot K F b)ᶜ m m' := by
  have hcl : ∀ e ∈ F.byAddr ++ F.bySize, b.Apart e := by
    intro e he
    have he : e ∈ F.byAddr := by
      rcases List.mem_append.mp he with he | he
      · exact he
      · exact h.toOk.mem_bySize.mp he
    exact (hfr.clear e he).symm
  obtain ⟨hr,hs1,hs2,hag0⟩ := h.rep.setBothSizes (a := b.addr) (n := b.size) hb hcl
  have hp0 : Pending K (setBothSizes m b.addr b.size) F b :=
    ⟨hr.pmmInv h.toOk h.good,hfr,hb,hs1,hs2⟩
  obtain ⟨m1,f1,hf1,he1,hp1,hag1⟩ := hp0.below 4294967295
  have hlo1 := hfr.mergeBelow.2
  obtain ⟨f1,rfl⟩ : ∃ k, f1 = k + 1 := ⟨f1 - 1,by omega⟩
  obtain ⟨m2,f2,hf2,he2,hp2,hle,hhi,hag2⟩ := hp1.above hlo1 f1
  have hlo2 := (hp1.fresh.mergeAbove hlo1).2.1
  obtain ⟨f2,rfl⟩ : ∃ k, f2 = k + 1 := ⟨f2 - 1,by omega⟩
  obtain ⟨m3,he3,hr3,hs3,hag3⟩ := hp2.place_step hle hlo2 hhi f2
  have hmem : ((F.mergeBelow b).1.mergeAbove (F.mergeBelow b).2).2 ∈
      ((F.mergeBelow b).1.mergeAbove (F.mergeBelow b).2).1.byAddr.orderedInsert
        (fun b c => b.addr < c.addr) ((F.mergeBelow b).1.mergeAbove (F.mergeBelow b).2).2 :=
    (List.perm_orderedInsert _ _ _).mem_iff.mpr (by simp)
  have hap : ∀ c ∈ ((F.mergeBelow b).1.mergeAbove (F.mergeBelow b).2).1.bySize,
      ((F.mergeBelow b).1.mergeAbove (F.mergeBelow b).2).2.Apart c :=
    fun c hc => (hp2.fresh.clear c (hp2.inv.toOk.mem_bySize.mp hc)).symm
  obtain ⟨m4,he4,hr4,hag4⟩ := addToSizeList_spec hr3 hmem hap hs3 (F.mergeBelow b).2.size
  have hfoot1 : Pending.foot K (F.mergeBelow b).1 (F.mergeBelow b).2 = Pending.foot K F b := by
    rw [pending_foot_eq,pending_foot_eq,FreeList.bytes_mergeBelow hfr]
  have hfoot2 : Pending.foot K ((F.mergeBelow b).1.mergeAbove (F.mergeBelow b).2).1
      ((F.mergeBelow b).1.mergeAbove (F.mergeBelow b).2).2 = Pending.foot K F b := by
    rw [pending_foot_eq,FreeList.bytes_mergeAbove hp1.fresh,← pending_foot_eq,hfoot1]
  refine ⟨m4,?_,Rep.pmmInv hr4 hfr.free (FreeList.good_free h.good hb),?_⟩
  · have hfuel : addressSpace = 4294967295 + 1 := rfl
    rw [pmmFreeBody,hfuel,he1,he2,he3,Option.bind_some]
    exact he4
  · have hag0' : Mem.Agree (Pending.foot K F b)ᶜ m (setBothSizes m b.addr b.size) :=
      hag0.mono (Set.compl_subset_compl.mpr Set.subset_union_right)
    rw [hfoot1] at hag2
    rw [hfoot2] at hag3
    refine (((hag0'.trans hag1).trans hag2).trans hag3).trans
      (hag4.mono (Set.compl_subset_compl.mpr ?_))
    rw [← hfoot2]
    rintro x (hx | ⟨e,he,hx⟩)
    · exact .inl (.inl hx)
    · rcases List.mem_cons.mp he with rfl | he
      · exact .inr hx
      · exact .inl (.inr ⟨e,hp2.inv.toOk.mem_bySize.mp he,hx⟩)

theorem pmmFree_spec {s : Machine} {n : Nat} (h : PmmInv K s.mem F) (hb : b.Good K)
    (hfr : F.Fresh b) (hn : pmmRound n = b.size) :
    ∃ m', pmmFree K s b.addr n = some { Machine.nested 1 s with mem := m' } ∧
      PmmInv K m' (F.free b) ∧ Mem.Agree (Pending.foot K F b)ᶜ s.mem m' := by
  obtain ⟨m',he,hi,hag⟩ := pmmFreeBody_spec h hb hfr
  refine ⟨m',?_,hi,hag⟩
  have he' : pmmFreeBody K s.disableInterrupts.mem b.addr b.size = some m' := he
  rw [pmmFree,hn,he',Option.map_some,Machine.enable_mem]
  rfl

theorem findSome_if {α β : Type} (xs : List α) (p : α → Prop) [DecidablePred p] (f : α → β) :
    xs.findSome? (fun x => if p x then some (f x) else none) =
      (xs.find? (fun x => decide (p x))).map f := by
  induction xs with
  | nil => rfl
  | cons x xs ih =>
    by_cases hp : p x
    · simp [hp]
    · simp [hp,ih]

theorem findSome_congr {α β : Type} {xs : List α} {f g : α → Option β}
    (h : ∀ x ∈ xs, f x = g x) : xs.findSome? f = xs.findSome? g := by
  induction xs with
  | nil => rfl
  | cons x xs ih =>
    rw [List.findSome?_cons,List.findSome?_cons,h x (by simp),
      ih (fun y hy => h y (by simp [hy]))]

theorem size_search (h : PmmInv K m F) (n : Nat) :
    listFor m K.pmmSizeList
        (fun current => if n ≤ nodeSize m current then some current else none) =
      some ((F.bySize.find? (fun c => n ≤ c.size)).map (fun c => c.addr + 16)) := by
  rw [h.sizes.listFor_eq,List.findSome?_map,← findSome_if]
  refine congrArg some (findSome_congr (fun c hc => ?_))
  simp only [Function.comp,h.size_size c (h.toOk.mem_bySize.mp hc)]

-- The nodes leave the size list first here.
theorem deleteFound (h : PmmInv K m F) (hc : c ∈ F.byAddr) :
    PmmInv K (listNodeDelete (listNodeDelete m (c.addr + 16)) c.addr) (F.remove c) ∧
      nodeSize (listNodeDelete (listNodeDelete m (c.addr + 16)) c.addr) (c.addr + 16) = c.size ∧
      Mem.Agree (F.foot K)ᶜ m (listNodeDelete (listNodeDelete m (c.addr + 16)) c.addr) := by
  have hcs : c ∈ F.bySize := h.toOk.mem_bySize.mpr hc
  obtain ⟨h1,hag1,hsz1⟩ := h.rep.deleteSize hcs
  obtain ⟨h2,hag2,-⟩ := h1.deleteAddr hc
  have hgood : ∀ e ∈ (F.remove c).byAddr, e.Good K :=
    fun e he => h.good e (List.mem_of_mem_erase he)
  have hcoh : Coherent K (F.byAddr ++ F.bySize) := h.rep.coherent
  refine ⟨Rep.pmmInv h2 (h.toOk.remove c) hgood,?_,?_⟩
  · rw [← h.size_size c hc,← (hsz1 c (by simp [hc])).2]
    obtain ⟨a1,a2,-,ha,he⟩ := List.exists_erase_eq hc
    have haddrs := h1.addrs
    rw [ha,List.map_append,List.map_cons] at haddrs
    obtain ⟨-,hag⟩ := haddrs.delete
    rw [← List.map_append,← he] at hag
    have hag' := hag.mono (Set.compl_subset_compl.mpr
      (cells_mono (l := K.pmmAddrList) (List.map_subset Block.addr
        (List.erase_subset : F.byAddr.erase c ⊆ F.byAddr))))
    have hcoh' : Coherent K (F.byAddr ++ F.bySize.erase c) := h1.coherent
    exact ((h1.frame_addr hcoh' hag').2 c (by simp [hc])).2
  · rw [← h.toOk.foot_eq]
    refine hag1.trans (hag2.mono (Set.compl_subset_compl.mpr (pmmFoot_mono ?_)))
    exact List.append_subset.mpr ⟨by simp,fun b hb => by simp [List.mem_of_mem_erase hb]⟩

def allocDepth (F : FreeList) (n : Nat) : Nat :=
  match F.bySize.find? (fun c => n ≤ c.size) with
  | some c => if n < c.size then 2 else 1
  | none => 1

theorem FreeList.alloc_some {n : Nat} {F' : FreeList} (h : F.alloc n = some (c,F')) :
    F.bySize.find? (fun c => n ≤ c.size) = some c ∧ F' = F.take n c := by
  obtain ⟨d,hd,he⟩ := Option.map_eq_some_iff.mp h
  simp only [Prod.mk.injEq] at he
  obtain ⟨rfl,rfl⟩ := he
  exact ⟨hd,rfl⟩

theorem FreeList.alloc_none {n : Nat} (h : F.alloc n = none) (hc : c ∈ F.bySize) :
    ¬ n ≤ c.size := by
  have hnone := List.find?_eq_none.mp (Option.map_eq_none_iff.mp h)
  simpa using hnone c hc

-- The part of a block that an allocation of its first `n` bytes gives back.
def Block.rest (c : Block) (n : Nat) : Block := ⟨c.addr + n,c.size - n⟩

theorem Block.Good.rest (h : c.Good K) {n : Nat} (hd : 1024 ∣ n) (hn : n < c.size) :
    (c.rest n).Good K where
  addr_dvd := dvd_add h.addr_dvd hd
  size_dvd := Nat.dvd_sub h.size_dvd hd
  addr_pos := by have := h.addr_pos; simp only [Block.rest]; omega
  size_pos := by simp only [Block.rest]; omega
  top := by have := h.top; simp only [Block.rest,Block.stop] at *; omega
  off := by
    intro l hl
    have := h.off l hl
    simp only [Block.rest,Block.stop] at *
    omega

theorem FreeList.Ok.rest (h : F.Ok) (hc : c ∈ F.byAddr) {n : Nat} (hn : n < c.size) :
    (F.remove c).Fresh (c.rest n) where
  toOk := h.remove c
  size_pos := by simp only [Block.rest]; omega
  clear := by
    intro d hd
    obtain ⟨hne,hdF⟩ := (FreeList.mem_remove h).mp hd
    have := h.stop_lt_or hdF hc hne
    simp only [Block.rest,Block.stop] at *
    omega

theorem FreeList.Ok.take (h : F.Ok) (hc : c ∈ F.byAddr) (n : Nat) : (F.take n c).Ok := by
  unfold FreeList.take
  split
  · exact (h.rest hc (by assumption)).free
  · exact h.remove c

theorem FreeList.bytes_take (h : F.Ok) (hc : c ∈ F.byAddr) {n : Nat} (hn : n ≤ c.size) :
    (F.take n c).bytes = F.bytes \ Block.bytes ⟨c.addr,n⟩ := by
  have hd : ∀ a ∈ c.bytes, a ∈ F.bytes := fun a ha => ⟨c,hc,ha⟩
  unfold FreeList.take
  split
  · rename_i hlt
    have hr : (F.remove c).free ⟨c.addr + n,c.size - n⟩ = (F.remove c).free (c.rest n) := rfl
    rw [hr,FreeList.bytes_free (h.rest hc hlt),FreeList.bytes_remove h hc]
    ext a
    have := hd a
    simp only [Block.bytes,Block.stop,Block.rest,Set.mem_union,Set.mem_sdiff,Set.mem_Ico] at *
    constructor
    · rintro (⟨h1,h2⟩ | h1)
      · exact ⟨h1,by omega⟩
      · exact ⟨this (by omega),by omega⟩
    · rintro ⟨h1,h2⟩
      by_cases h3 : c.addr ≤ a ∧ a < c.addr + c.size
      · exact .inr (by omega)
      · exact .inl ⟨h1,h3⟩
  · have he : n = c.size := by omega
    rw [FreeList.bytes_remove h hc,he]

theorem FreeList.Sorted.take (h : F.Ok) (hs : F.Sorted) (hc : c ∈ F.byAddr) (n : Nat) :
    (F.take n c).Sorted := by
  unfold FreeList.take
  split
  · rename_i hlt
    refine (FreeList.sorted_free (h.rest hc hlt) (hs.remove c)).mpr (fun hi hhi hadd => ?_)
    obtain ⟨hne,hhF⟩ := (FreeList.mem_remove h).mp hhi
    have h1 := h.stop_lt_or hhF hc hne
    have h2 := h.pos hi hhF
    simp only [Block.rest,Block.stop] at *
    omega
  · exact hs.remove c

theorem rest_foot (hc : c ∈ F.byAddr) (n : Nat) :
    Pending.foot K (F.remove c) (c.rest n) ⊆ F.foot K := by
  refine Set.union_subset foot_remove (fun x hx => .inr ⟨c,hc,?_⟩)
  simp only [Block.rest,Block.bytes,Block.stop,Set.mem_Ico] at *
  omega

theorem pmmAlloc_none {s : Machine} {n : Nat} (h : PmmInv K s.mem F)
    (ha : F.alloc (pmmRound n) = none) : pmmAlloc K s n = some (Machine.nested 1 s,0) := by
  have hl := size_search h (pmmRound n)
  rw [Option.map_eq_none_iff.mp ha,Option.map_none] at hl
  have hl' : listFor s.disableInterrupts.mem K.pmmSizeList (fun current =>
      if pmmRound n ≤ nodeSize s.disableInterrupts.mem current then some current else none) =
        some none := hl
  rw [pmmAlloc,hl']
  rfl

theorem pmmAlloc_some {s : Machine} {n : Nat} {F' : FreeList} (h : PmmInv K s.mem F)
    (hn : n < addressSpace) (ha : F.alloc (pmmRound n) = some (c,F')) :
    ∃ m', pmmAlloc K s n =
        some ({ Machine.nested (allocDepth F (pmmRound n)) s with mem := m' },c.addr) ∧
      PmmInv K m' F' ∧ Mem.Agree (F.foot K)ᶜ s.mem m' := by
  obtain ⟨hf,rfl⟩ := FreeList.alloc_some ha
  have hcF : c ∈ F.byAddr := h.toOk.mem_bySize.mp (List.mem_of_find?_eq_some hf)
  have hle : pmmRound n ≤ c.size := by simpa using List.find?_some hf
  have hl := size_search h (pmmRound n)
  rw [hf,Option.map_some] at hl
  have hl' : listFor s.disableInterrupts.mem K.pmmSizeList (fun current =>
      if pmmRound n ≤ nodeSize s.disableInterrupts.mem current then some current else none) =
        some (some (c.addr + 16)) := hl
  obtain ⟨hdel,hsz,hag⟩ := deleteFound h hcF
  have hfound : nodeSize s.disableInterrupts.mem (c.addr + 16) = c.size := h.size_size c hcF
  have hback : c.addr + 16 - 16 = c.addr := Nat.add_sub_cancel _ _
  have hgood := h.good c hcF
  have htop : c.addr + c.size ≤ addressSpace := hgood.top
  rw [pmmAlloc,hl']
  simp only [hfound,hback]
  by_cases hlt : pmmRound n < c.size
  · have hd : allocDepth F (pmmRound n) = 2 := by rw [allocDepth,hf]; exact if_pos hlt
    have hw1 : wrap (c.addr + pmmRound n) = (c.rest (pmmRound n)).addr :=
      Nat.mod_eq_of_lt (by omega)
    have hw2 : wrap (c.size + addressSpace - pmmRound n) = (c.rest (pmmRound n)).size := by
      have := hgood.addr_pos
      simp only [wrap,addressSpace,Block.rest] at *
      omega
    have hrgood := hgood.rest (pmmRound_dvd hn) hlt
    have hround : pmmRound (c.rest (pmmRound n)).size = (c.rest (pmmRound n)).size := by
      have h1 := hrgood.size_dvd
      have h2 := hrgood.top
      have h3 := hrgood.addr_pos
      have h4 := hrgood.addr_dvd
      simp only [Block.stop,addressSpace] at *
      rw [pmmRound_eq (by omega)]
      omega
    obtain ⟨m',he,hinv,hag'⟩ := pmmFree_spec
      (s := { s.disableInterrupts with
        mem := listNodeDelete (listNodeDelete s.mem (c.addr + 16)) c.addr })
      hdel hrgood (h.toOk.rest hcF hlt) hround
    have htake : F.take (pmmRound n) c = (F.remove c).free (c.rest (pmmRound n)) := if_pos hlt
    refine ⟨m',?_,htake ▸ hinv,
      hag.trans (hag'.mono (Set.compl_subset_compl.mpr (rest_foot hcF _)))⟩
    have hsz' : nodeSize (listNodeDelete (listNodeDelete s.disableInterrupts.mem (c.addr + 16))
        c.addr) (c.addr + 16) = c.size := hsz
    have he' : pmmFree K { s.disableInterrupts with
        mem := listNodeDelete (listNodeDelete s.disableInterrupts.mem (c.addr + 16)) c.addr }
        (c.rest (pmmRound n)).addr (c.rest (pmmRound n)).size = _ := he
    rw [if_pos hlt,hsz',hw1,hw2,he',Option.map_some,hd,Machine.enable_mem,Machine.nested_mem,
      Machine.enable_mem]
    rfl
  · have hd : allocDepth F (pmmRound n) = 1 := by rw [allocDepth,hf]; exact if_neg hlt
    have htake : F.take (pmmRound n) c = F.remove c := if_neg hlt
    refine ⟨_,?_,htake ▸ hdel,hag⟩
    rw [if_neg hlt,hd,Machine.enable_mem]
    rfl

-- A block that fits exactly is taken off the two lists, and nothing of it is stored to.
theorem pmmAlloc_exact {s : Machine} {n : Nat} (h : PmmInv K s.mem F)
    (hf : F.bySize.find? (fun c => pmmRound n ≤ c.size) = some c) (hc : c.size = pmmRound n) :
    ∃ m', pmmAlloc K s n = some ({ Machine.nested 1 s with mem := m' },c.addr) ∧
      Mem.Agree (F.nodes K)ᶜ s.mem m' := by
  have hcF : c ∈ F.byAddr := h.toOk.mem_bySize.mp (List.mem_of_find?_eq_some hf)
  have hl := size_search h (pmmRound n)
  rw [hf,Option.map_some] at hl
  have hl' : listFor s.disableInterrupts.mem K.pmmSizeList (fun current =>
      if pmmRound n ≤ nodeSize s.disableInterrupts.mem current then some current else none) =
        some (some (c.addr + 16)) := hl
  have hfound : nodeSize s.disableInterrupts.mem (c.addr + 16) = c.size := h.size_size c hcF
  have hback : c.addr + 16 - 16 = c.addr := Nat.add_sub_cancel _ _
  refine ⟨listNodeDelete (listNodeDelete s.mem (c.addr + 16)) c.addr,?_,?_⟩
  · rw [pmmAlloc,hl']
    simp only [hfound,hback]
    rw [if_neg (by omega),Machine.enable_mem]
    rfl
  · obtain ⟨h1,-,-⟩ := h.rep.deleteSize (h.toOk.mem_bySize.mpr hcF)
    obtain ⟨s1,s2,-,hs,-⟩ := List.exists_erase_eq (h.toOk.mem_bySize.mpr hcF)
    obtain ⟨a1,a2,-,ha,-⟩ := List.exists_erase_eq hcF
    have hsizes := h.sizes
    rw [hs,List.map_append,List.map_cons] at hsizes
    have haddrs := h1.addrs
    rw [ha,List.map_append,List.map_cons] at haddrs
    have hag1 := hsizes.delete.2
    have hag2 := haddrs.delete.2
    rw [← List.map_append] at hag1 hag2
    refine (hag1.mono (Set.compl_subset_compl.mpr ?_)).trans
      (hag2.mono (Set.compl_subset_compl.mpr ?_))
    · rw [← h.toOk.nodes_eq]
      refine size_cells_nodes.trans (pmmNodes_mono (fun b hb => ?_))
      rw [hs]
      simp only [List.mem_append,List.mem_cons] at hb ⊢
      tauto
    · refine addr_cells_nodes.trans (pmmNodes_mono (fun b hb => ?_))
      rw [ha]
      simp only [List.mem_append,List.mem_cons] at hb ⊢
      tauto

theorem pmmInit_spec (K : Image) (s : Machine) : ∃ m', pmmInit K s = { s with mem := m' } ∧
    PmmInv K m' ⟨[],[]⟩ ∧ Mem.Agree (FreeList.foot K ⟨[],[]⟩)ᶜ s.mem m' := by
  have ha : K.pmmAddrList ∈ K.headers := by simp [Symbols.headers]
  have hs : K.pmmSizeList ∈ K.headers := by simp [Symbols.headers]
  obtain ⟨h1,hag1⟩ := list_init (m := s.mem) (K.spaced_nil ha)
  obtain ⟨h2,hag2⟩ := list_init (m := listInit s.mem K.pmmAddrList) (K.spaced_nil hs)
  have hcell : ∀ l ∈ pmmHeaders K, cells l [] ⊆ FreeList.foot K ⟨[],[]⟩ := by
    rintro l hl x (hx | ⟨y,hy,-⟩)
    · exact .inl ⟨l,hl,hx⟩
    · simp at hy
  have hoff : Mem.Agree (cells K.pmmAddrList []) (listInit s.mem K.pmmAddrList)
      (listInit (listInit s.mem K.pmmAddrList) K.pmmSizeList) := by
    refine hag2.mono ?_
    rintro x (hx | ⟨y,hy,-⟩) (hx' | ⟨y',hy',-⟩)
    · have := pmm_headers_apart K
      omega
    · simp at hy'
    · simp at hy
    · simp at hy
  refine ⟨_,rfl,?_,?_⟩
  · exact { gapped := .nil, pos := by simp, perm := .refl _, good := by simp
            addrs := h1.agree hoff, sizes := h2, addr_size := by simp, size_size := by simp }
  · exact (hag1.mono (Set.compl_subset_compl.mpr (hcell _ (by simp [pmmHeaders])))).trans
      (hag2.mono (Set.compl_subset_compl.mpr (hcell _ (by simp [pmmHeaders]))))

end RoscoM68k
