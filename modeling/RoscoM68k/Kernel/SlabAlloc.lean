import RoscoM68k.Kernel.SlabSpec

namespace RoscoM68k

variable {K : Image} {m m' : Mem} {F F' : FreeList} {ps fs : List Nat} {live : List Slot}
  {p i n : Nat} {c b : Block}

namespace SlabRep

theorem outside_foot (h : SlabRep K m F ps fs) {S : Set Nat} (hS : S ⊆ F.foot K) :
    slabLinks K (ps ++ fs) ∪ slabMaps (ps ++ fs) ⊆ Sᶜ := by
  rintro x hx hx'
  exact page_links_off h.free_off h.page_ok hx (hS hx')

theorem maps_agree {S : Set Nat} (hS : slabLinks K (ps ++ fs) ∪ slabMaps (ps ++ fs) ⊆ Sᶜ)
    (ha : Mem.Agree Sᶜ m m') : ∀ q ∈ ps ++ fs, slabMap m' q = slabMap m q := by
  intro q hq
  refine congrArg (BitVec.ofNat 32) (ha.readL (fun x hx => hS (.inr ⟨q,hq,hx.1,?_⟩)))
  have := hx.2
  omega

-- The memory manager serves a request or takes a block back without touching the slabs.
theorem take (h : SlabRep K m F ps fs) (hc : c ∈ F.byAddr) (hn : n ≤ c.size)
    (hp : PmmInv K m' (F.take n c)) (ha : Mem.Agree (F.foot K)ᶜ m m') :
    SlabRep K m' (F.take n c) ps fs ∧ ∀ q ∈ ps ++ fs, slabMap m' q = slabMap m q := by
  have hoff := h.outside_foot (Set.Subset.refl _)
  have hsub : ∀ x ∈ (F.take n c).bytes, x ∈ F.bytes := by
    rw [FreeList.bytes_take h.pmm.toOk hc hn]
    exact fun x hx => hx.1
  exact ⟨⟨hp,fun l hl x hx => h.free_off l hl x (hsub x hx),
    h.lists.agree (ha.mono (Set.subset_union_left.trans hoff)),
    fun p hp x hx => h.clear p hp x (hsub x hx)⟩,maps_agree hoff ha⟩

theorem give (h : SlabRep K m F ps fs) (hb : b.Usable K)
    (hbp : ∀ p ∈ ps ++ fs, ∀ x ∈ b.bytes, x < p ∨ p + 1024 ≤ x) (hfr : F.Fresh b)
    (hp : PmmInv K m' (F.free b)) (ha : Mem.Agree (Pending.foot K F b)ᶜ m m') :
    SlabRep K m' (F.free b) ps fs ∧ ∀ q ∈ ps ++ fs, slabMap m' q = slabMap m q := by
  have hoff : slabLinks K (ps ++ fs) ∪ slabMaps (ps ++ fs) ⊆ (Pending.foot K F b)ᶜ := by
    rintro x hx (hx' | hx')
    · exact h.outside_foot (Set.Subset.refl _) hx hx'
    · have hh : ∀ l ∈ K.headers, x < l ∨ l + 12 ≤ x := by
        intro l hl
        have := hb.off_kernel l hl
        simp only [Block.bytes,Set.mem_Ico] at hx'
        omega
      rcases hx with (h2 | h2 | ⟨p,hpp,h2⟩) | ⟨p,hpp,h2⟩
      · have := hh _ partial_mem
        omega
      · have := hh _ full_mem
        omega
      · have := hbp p hpp x hx'
        omega
      · have := hbp p hpp x hx'
        omega
  have hbytes : ∀ x ∈ (F.free b).bytes, x ∈ F.bytes ∨ x ∈ b.bytes := by
    rw [FreeList.bytes_free hfr]
    exact fun x hx => hx
  refine ⟨⟨hp,fun l hl x hx => ?_,h.lists.agree (ha.mono (Set.subset_union_left.trans hoff)),
    fun p hp x hx => ?_⟩,maps_agree hoff ha⟩
  · rcases hbytes x hx with hx | hx
    · exact h.free_off l hl x hx
    · have := hb.off_kernel l hl
      simp only [Block.bytes,Set.mem_Ico] at hx
      omega
  · rcases hbytes x hx with hx | hx
    · exact h.clear p hp x hx
    · exact hbp p hp x hx

-- A page the memory manager has just handed out.
theorem spare (h : SlabRep K m F ps fs) (hc : c ∈ F.byAddr) (hn : 1024 ≤ c.size) :
    Spare K (F.take 1024 c) (ps ++ fs) c.addr := by
  have hgood := h.pmm.good c hc
  have hin : ∀ x, c.addr ≤ x → x < c.addr + 1024 → x ∈ F.bytes :=
    fun x h1 h2 => ⟨c,hc,h1,by simp only [Block.stop]; omega⟩
  have hbounds : ∀ l, (∀ x, c.addr ≤ x → x < c.addr + 1024 → x < l ∨ l + 12 ≤ x) →
      c.addr + 1024 ≤ l ∨ l + 12 ≤ c.addr := by
    intro l hl
    by_contra hno
    have h1 := hl l
    have h2 := hl c.addr
    omega
  refine ⟨⟨⟨hgood.addr_dvd,⟨1,rfl⟩,hgood.addr_pos,by simp [page],?_,?_⟩,?_⟩,?_,?_⟩
  · have := hgood.top
    simp only [page,Block.stop] at *
    omega
  · exact fun l hl => hbounds l (fun x h1 h2 => h.free_off l (pmm_header_mem hl) x (hin x h1 h2))
  · exact fun l hl => hbounds l (fun x h1 h2 => h.free_off l hl x (hin x h1 h2))
  · intro x hx
    rw [FreeList.bytes_take h.pmm.toOk hc hn] at hx
    have := hx.2
    simp only [Block.bytes,Block.stop,Set.mem_Ico] at this
    omega
  · intro hm
    have := h.clear c.addr hm c.addr (hin _ le_rfl (by omega))
    omega

end SlabRep

-- What holds of the slabs between two calls.
structure SlabOk (K : Image) (m : Mem) (F : FreeList) (ps fs : List Nat) (live : List Slot) :
    Prop where
  rep : SlabRep K m F ps fs
  marked : Marked (ps ++ fs) (slabMap m) live
  partial_free : ∀ p ∈ ps, slabMap m p ≠ 0xFFFFFFFF#32

namespace SlabOk

-- Where page `p`, whose blocks are being taken, is listed afterwards.
inductive Taken (m : Mem) (p : Nat) (ps fs : List Nat) : List Nat → List Nat → Prop where
  | kept (hne : slabMap m p ≠ 0xFFFFFFFF#32) : Taken m p ps fs (p :: ps) fs
  | retired (hfull : slabMap m p = 0xFFFFFFFF#32) : Taken m p ps fs ps (p :: fs)

theorem Taken.perm {ps' fs' : List Nat} (h : Taken m p ps fs ps' fs') :
    (ps' ++ fs').Perm (p :: (ps ++ fs)) := by
  cases h with
  | kept hne => exact .refl _
  | retired hfull => exact List.perm_middle

theorem Taken.full {ps' fs' : List Nat} (h : Taken m p ps fs ps' fs')
    (hall : ∀ q ∈ fs, slabMap m q = 0xFFFFFFFF#32) : ∀ q ∈ fs', slabMap m q = 0xFFFFFFFF#32 := by
  cases h with
  | kept hne => exact hall
  | retired hfull => exact List.forall_mem_cons.mpr ⟨hfull,hall⟩

theorem allocBlock (h : SlabOk K m F (p :: ps) fs live) {d2 : BitVec 8} (hn : 0 < d2.toNat)
    (hf : Fits (slabMap m p) d2.toNat i) :
    ∃ m' ps' fs', slabAllocBlock K m (slabMeta p - 0x3e0) (slabMeta p) (BitVec.ofNat 32 i) d2 =
        (m',p + 32 * i) ∧
      SlabOk K m' F ps' fs' (⟨p + 32 * i,d2.toNat⟩ :: live) ∧
      (∀ q ∈ ps ++ fs, slabMap m' q = slabMap m q) ∧ Taken m' p ps fs ps' fs' := by
  have hpm : p ∈ (p :: ps) ++ fs := by simp
  obtain ⟨m',ps',fs',he,hr,hq,hbit,hcase⟩ := h.rep.allocBlock (h.marked.fits_le hpm hn hf)
  have hqs : ∀ q ∈ (p :: ps) ++ fs, q ≠ p → slabMap m' q = slabMap m q := by
    intro q hm hne
    exact hq q ((List.mem_cons.mp hm).resolve_left hne)
  have hmk := h.marked.alloc hpm hn hf hqs hbit
  refine ⟨m',ps',fs',he,?_,hq,?_⟩
  · rcases hcase with ⟨hfull,rfl,rfl⟩ | ⟨hnot,rfl,rfl⟩
    · refine ⟨hr,hmk.perm List.perm_middle,fun q hm => ?_⟩
      rw [hq q (by simp [hm])]
      exact h.partial_free q (by simp [hm])
    · refine ⟨hr,hmk,fun q hm => ?_⟩
      rcases List.mem_cons.mp hm with rfl | hm
      · exact hnot
      · rw [hq q (by simp [hm])]
        exact h.partial_free q (by simp [hm])
  · rcases hcase with ⟨hfull,rfl,rfl⟩ | ⟨hnot,rfl,rfl⟩
    · exact .retired hfull
    · exact .kept hnot

theorem fits_fresh (hn : n ≤ 31) : Fits 0x80000000#32 n 0 := by
  refine ⟨by omega,fun j hj => ?_⟩
  have h31 : 0x80000000#32 = BitVec.twoPow 32 31 := rfl
  rw [h31,BitVec.getLsbD_twoPow]
  simp only [Bool.and_eq_false_iff,decide_eq_false_iff_not]
  omega

theorem setUp (h : SlabOk K m F ps fs live) (hp : SlabRep.Spare K F (ps ++ fs) p) (d0 : Nat) :
    SlabOk K (listAddHead (slabSetUp m p (slabMeta p)) d0 K.partialSlabs (slabMeta p)) F
        (p :: ps) fs live ∧
      slabMap (listAddHead (slabSetUp m p (slabMeta p)) d0 K.partialSlabs (slabMeta p)) p =
        0x80000000#32 ∧
      ∀ q ∈ ps ++ fs, slabMap (listAddHead (slabSetUp m p (slabMeta p)) d0 K.partialSlabs
        (slabMeta p)) q = slabMap m q := by
  obtain ⟨hr,hq,hnew⟩ := h.rep.setUp hp d0
  refine ⟨⟨hr,h.marked.add_page hp.usable.addr_dvd hp.unlisted hq hnew,fun q hm => ?_⟩,hnew,hq⟩
  rcases List.mem_cons.mp hm with rfl | hm
  · rw [hnew]
    decide
  · rw [hq q (by simp [hm])]
    exact h.partial_free q hm

end SlabOk

section Alloc

variable {s : Machine} {d0 : BitVec 32}

-- The argument of slab_alloc_c: a byte, from 1 to 31.
structure BlockCount (d0 : BitVec 32) (n : Nat) : Prop where
  byte : d0.toNat = n
  pos : 0 < n
  le : n ≤ 31

namespace BlockCount

theorem low (h : BlockCount d0 n) : (lowByte d0).toNat = n := by
  have h1 := h.byte
  have h2 := h.le
  rw [lowByte,BitVec.toNat_setWidth]
  omega

theorem ne_zero (h : BlockCount d0 n) : lowByte d0 ≠ 0#8 := by
  intro hc
  have h1 := congrArg BitVec.toNat hc
  rw [h.low] at h1
  have h2 := h.pos
  simp only [BitVec.toNat_ofNat] at h1
  omega

theorem lt (h : BlockCount d0 n) : d0.toNat < 256 := by
  have h1 := h.byte
  have h2 := h.le
  omega

theorem slabAlloc_eq (h : BlockCount d0 n) : slabAlloc K s d0 = slabAllocChecked K s d0 := by
  have h1 : ¬ 31 < (lowByte d0).toNat := by
    rw [h.low]
    exact Nat.not_lt.mpr h.le
  rw [slabAlloc,if_neg h.ne_zero,if_neg h1]

end BlockCount

-- Whether the first partial slab has room, which is all the search finds out.
def HeadFits (m : Mem) (ps : List Nat) (n : Nat) : Prop :=
  ∃ p ∈ ps.head?, ∃ i, Fits (slabMap m p) n i

theorem slabAlloc_found (h : SlabOk K s.mem F ps fs live) (hd : BlockCount d0 n)
    (hf : HeadFits s.mem ps n) :
    ∃ p i m' qs ps' fs', ps = p :: qs ∧ Fits (slabMap s.mem p) n i ∧
      slabAlloc K s d0 = some ({ Machine.nested 1 s with mem := m' },p + 32 * i) ∧
      SlabOk K m' F ps' fs' (⟨p + 32 * i,n⟩ :: live) ∧
      (∀ q ∈ qs ++ fs, slabMap m' q = slabMap s.mem q) ∧ SlabOk.Taken m' p qs fs ps' fs' := by
  obtain ⟨p,hp,i0,hf⟩ := hf
  obtain ⟨qs,rfl⟩ : ∃ qs, ps = p :: qs := by
    cases ps with
    | nil => simp at hp
    | cons q qs => exact ⟨qs,by simpa using hp⟩
  rcases slabScan_cons hd.ne_zero hd.lt h.rep.lists.usable_first h.rep.lists.first with
    ⟨hno,-⟩ | ⟨i,hfit,hscan⟩
  · exact absurd (hd.low ▸ hf) (hno i0)
  · obtain ⟨m',ps',fs',he,hok,hq,ht⟩ := h.allocBlock (hd.low ▸ hd.pos) hfit
    rw [hd.low] at hfit hok
    refine ⟨p,i,m',qs,ps',fs',rfl,hfit,?_,hok,hq,ht⟩
    have he' : slabAllocBlock K s.disableInterrupts.mem (slabMeta p - 0x3e0) (slabMeta p)
        (BitVec.ofNat 32 i) (lowByte d0) = (m',p + 32 * i) := he
    rw [hd.slabAlloc_eq,slabAllocChecked]
    rw [show slabScan K s.disableInterrupts.mem (lowByte d0) addressSpace d0
      (nodeNext s.disableInterrupts.mem K.partialSlabs) = _ from hscan]
    simp only [he',Machine.enable_mem]
    rfl

theorem slabScan_none (h : SlabOk K s.mem F ps fs live) (hd : BlockCount d0 n)
    (hf : ¬ HeadFits s.mem ps n) :
    slabScan K s.mem (lowByte d0) addressSpace d0 (nodeNext s.mem K.partialSlabs) = some none := by
  cases ps with
  | nil => exact slabScan_nil h.rep.lists.first
  | cons p ps =>
    rcases slabScan_cons hd.ne_zero hd.lt h.rep.lists.usable_first h.rep.lists.first with
      ⟨-,hscan⟩ | ⟨i,hfit,-⟩
    · exact hscan
    · exact absurd ⟨p,by simp,i,hd.low ▸ hfit⟩ hf

theorem slabAlloc_none (h : SlabOk K s.mem F ps fs live) (hd : BlockCount d0 n)
    (hf : ¬ HeadFits s.mem ps n) (ha : F.alloc 0x400 = none) :
    slabAlloc K s d0 = some (Machine.nested 2 s,0) := by
  have hp : pmmAlloc K s.disableInterrupts 0x400 = some (Machine.nested 1 s.disableInterrupts,0) :=
    pmmAlloc_none (s := s.disableInterrupts) h.rep.pmm ha
  rw [hd.slabAlloc_eq,slabAllocChecked]
  rw [show slabScan K s.disableInterrupts.mem (lowByte d0) addressSpace d0
    (nodeNext s.disableInterrupts.mem K.partialSlabs) = _ from slabScan_none h hd hf]
  dsimp only
  rw [slabAllocSlab,hp]
  rfl

theorem slabAlloc_page (h : SlabOk K s.mem F ps fs live) (hd : BlockCount d0 n)
    (hf : ¬ HeadFits s.mem ps n) (ha : F.alloc 0x400 = some (c,F')) :
    ∃ m' ps' fs', slabAlloc K s d0 =
        some ({ Machine.nested (1 + allocDepth F 0x400) s with mem := m' },c.addr) ∧
      c ∈ F.byAddr ∧ 0x400 ≤ c.size ∧ F' = F.take 0x400 c ∧
      SlabOk K m' F' ps' fs' (⟨c.addr,n⟩ :: live) ∧
      (∀ q ∈ ps ++ fs, slabMap m' q = slabMap s.mem q) ∧
      SlabOk.Taken m' c.addr ps fs ps' fs' := by
  obtain ⟨hfind,rfl⟩ := FreeList.alloc_some ha
  have hcF : c ∈ F.byAddr := h.rep.pmm.toOk.mem_bySize.mp (List.mem_of_find?_eq_some hfind)
  have hle : 0x400 ≤ c.size := by simpa using List.find?_some hfind
  obtain ⟨m1,hp,hinv,hag⟩ := pmmAlloc_some (s := s.disableInterrupts) (n := 0x400) h.rep.pmm
    (by decide) ha
  obtain ⟨hr1,hq1⟩ := h.rep.take hcF hle hinv hag
  have h1 : SlabOk K m1 (F.take 0x400 c) ps fs live :=
    ⟨hr1,h.marked.congr hq1,fun q hm => by rw [hq1 q (by simp [hm])]; exact h.partial_free q hm⟩
  have hpos : c.addr ≠ 0 := (h.rep.pmm.good c hcF).addr_pos.ne'
  obtain ⟨h2,hnew,hq2⟩ := h1.setUp (h.rep.spare hcF hle) c.addr
  have hn : 0 < (lowByte d0).toNat := by
    rw [hd.low]
    exact hd.pos
  have hfit : Fits (slabMap (listAddHead (slabSetUp m1 c.addr (slabMeta c.addr)) c.addr
      K.partialSlabs (slabMeta c.addr)) c.addr) (lowByte d0).toNat 0 := by
    rw [hnew,hd.low]
    exact SlabOk.fits_fresh hd.le
  obtain ⟨m3,ps',fs',he,h3,hq3,ht⟩ := h2.allocBlock hn hfit
  rw [hd.low,Nat.mul_zero,Nat.add_zero] at h3
  refine ⟨m3,ps',fs',?_,hcF,hle,rfl,h3,fun q hm => ?_,ht⟩
  · have hround : pmmRound 0x400 = 0x400 := by decide
    rw [hround] at hp
    rw [hd.slabAlloc_eq,slabAllocChecked]
    rw [show slabScan K s.disableInterrupts.mem (lowByte d0) addressSpace d0
      (nodeNext s.disableInterrupts.mem K.partialSlabs) = _ from slabScan_none h hd hf]
    have he' : slabAllocBlock K (listAddHead (slabSetUp m1 c.addr (slabMeta c.addr)) c.addr
        K.partialSlabs (slabMeta c.addr)) (slabMeta c.addr - 0x3e0) (slabMeta c.addr) 0#32
        (lowByte d0) = (m3,c.addr) := he
    dsimp only
    rw [slabAllocSlab,hp]
    simp only [if_neg hpos,he',Machine.enable_mem]
    rw [Nat.add_comm]
    rfl
  · rw [hq3 q hm,hq2 q hm,hq1 q hm]

end Alloc
section Free

variable {s : Machine} {a : Slot}

-- Clearing `n` bits of `x` from bit `i` on.
def Cleared (x v : BitVec 32) (i n : Nat) : Prop :=
  ∀ j < 32, v.getLsbD j = if i ≤ j ∧ j < i + n then false else x.getLsbD j

theorem page_fresh (h : SlabRep K m F ps fs) (hp : p ∈ ps ++ fs) : F.Fresh (page p) where
  toOk := h.pmm.toOk
  size_pos := by simp [page]
  clear := by
    refine (FreeList.clear_iff h.pmm.toOk (by simp [page])).mpr ?_
    rw [Set.disjoint_left]
    intro x hx hx'
    have := h.clear p hp x hx'
    simp only [page,Block.bytes,Block.stop,Set.mem_Ico] at hx
    omega

theorem SlabOk.clear (h : SlabOk K m F ps fs live) (hp : p ∈ ps ++ fs) (ha : a ∈ live)
    (hai : a.addr = p + 32 * i) (hn : 0 < a.n) (hle : i + a.n ≤ 31)
    (hm : m' = (markLoop bitmapClear (slabBmp (slabMeta p)) a.n m (BitVec.ofNat 32 i)).1) :
    SlabOk K m' F ps fs (live.erase a) ∧ Cleared (slabMap m p) (slabMap m' p) i a.n ∧
      ∀ q ∈ ps ++ fs, q ≠ p → slabMap m' q = slabMap m q := by
  have hb := page_bounds (h.rep.lists.usable p hp)
  obtain ⟨hbit,hag⟩ := markLoop_spec (m := m) (a := slabBmp (slabMeta p)) (i := i) (n := a.n)
    bitmapClear_marks (by simp only [slabBmp,slabMeta]; omega) (by omega)
  rw [← hm] at hbit hag
  obtain ⟨h1,hq⟩ := h.rep.remap hp hag
  have hcl : Cleared (slabMap m p) (slabMap m' p) i a.n := hbit
  have hset : ∀ j < 32, (slabMap m' p).getLsbD j =
      ((slabMap m p).getLsbD j && !decide (i ≤ j ∧ j < i + a.n)) := by
    intro j hj
    rw [hcl j hj]
    by_cases hc : i ≤ j ∧ j < i + a.n <;> simp [hc]
  have hmk := h.marked.free hp ha hai hn hle hq hset
  refine ⟨⟨h1,hmk,fun q hm' => ?_⟩,hcl,hq⟩
  by_cases hqp : q = p
  · subst hqp
    intro hfull
    have := hcl i (by omega)
    rw [hfull,if_pos (by omega)] at this
    have hones : 0xFFFFFFFF#32 = BitVec.allOnes 32 := rfl
    rw [hones,BitVec.getLsbD_allOnes] at this
    simp only [decide_eq_false_iff_not] at this
    omega
  · rw [hq q (by simp [hm']) hqp]
    exact h.partial_free q hm'

theorem slabFree_spec (h : SlabOk K s.mem F ps fs live) (ha : a ∈ live) :
    ∃ p i v, p ∈ ps ++ fs ∧ a.addr = p + 32 * i ∧ 0 < a.n ∧ i + a.n ≤ 31 ∧
      Cleared (slabMap s.mem p) v i a.n ∧
      (v ≠ 0x80000000#32 ∧ (∃ m', slabFree K s a.addr a.n =
          some { Machine.nested 1 s with mem := m' } ∧ SlabOk K m' F ps fs (live.erase a) ∧
          slabMap m' p = v ∧ ∀ q ∈ ps ++ fs, q ≠ p → slabMap m' q = slabMap s.mem q) ∨
        v = 0x80000000#32 ∧ F.Fresh (page p) ∧ ∃ m', slabFree K s a.addr a.n =
          some { Machine.nested 2 s with mem := m' } ∧
          SlabOk K m' (F.free (page p)) (ps.erase p) (fs.erase p) (live.erase a) ∧
          ∀ q ∈ ps ++ fs, q ≠ p → slabMap m' q = slabMap s.mem q) := by
  obtain ⟨p,hp,i,hai,hn,hle⟩ := h.marked.slot a ha
  have hb := page_bounds (h.rep.lists.usable p hp)
  have hbase : a.addr &&& 0xFFFFFC00 = p := by
    simp only [addressSpace] at hb
    rw [and_size_mask (by simp only [addressSpace]; omega)]
    omega
  have hfirst : (a.addr - p) / 32 = i := by omega
  obtain ⟨m1,hm1⟩ : ∃ m1, m1 = (markLoop bitmapClear (slabBmp (slabMeta p)) a.n
    s.disableInterrupts.mem (BitVec.ofNat 32 i)).1 := ⟨_,rfl⟩
  obtain ⟨h1,hcl,hq1⟩ := h.clear hp ha hai hn hle hm1
  have hdef : slabFree K s a.addr a.n = if m1.readL (slabBmp (slabMeta p)) = 0x80000000 then
      (pmmFree K { s.disableInterrupts with mem := listNodeDelete m1 (slabMeta p) } p 0x400).map
        Machine.enableInterrupts
      else some { s.disableInterrupts with mem := m1 }.enableInterrupts := by
    have hnode : slabBmp (slabMeta p) - 0x14 = slabMeta p := Nat.add_sub_cancel _ _
    have hstart : slabMeta p - 0x3e0 = p := Nat.add_sub_cancel _ _
    rw [slabFree]
    simp only [hbase,hfirst,← hm1,hnode,hstart]
  refine ⟨p,i,slabMap m1 p,hp,hai,hn,hle,hcl,?_⟩
  by_cases he : slabMap m1 p = 0x80000000#32
  · refine .inr ⟨he,page_fresh h.rep hp,?_⟩
    obtain ⟨h2,hq2⟩ := h1.rep.delete hp
    have hnp : p ∉ ps.erase p ++ fs.erase p := by
      obtain ⟨hps,hfs,-⟩ := List.nodup_append.mp h.rep.lists.nodup
      simp only [List.mem_append,hps.mem_erase_iff,hfs.mem_erase_iff]
      tauto
    have hsub : ∀ q ∈ ps.erase p ++ fs.erase p, q ∈ ps ++ fs := by
      intro q hq
      simp only [List.mem_append] at hq ⊢
      exact hq.imp List.mem_of_mem_erase List.mem_of_mem_erase
    have hu := h.rep.lists.usable p hp
    have hfr : F.Fresh (page p) := page_fresh h.rep hp
    obtain ⟨m3,hfree,hinv,hag⟩ := pmmFree_spec
      (s := { s.disableInterrupts with mem := listNodeDelete m1 (slabMeta p) }) (b := page p)
      (n := 0x400) h2.pmm hu.toGood hfr (show pmmRound 0x400 = 0x400 by decide)
    obtain ⟨h3,hq3⟩ := h2.give hu (by
      intro q hq x hx
      have h4 := pages_apart (page_bounds (h.rep.lists.usable q (hsub q hq))).1 hb.1
        (ne_of_mem_of_not_mem hq hnp)
      simp only [page,Block.bytes,Block.stop,Set.mem_Ico] at hx
      omega) hfr hinv hag
    have hq : ∀ q ∈ ps.erase p ++ fs.erase p, slabMap m3 q = slabMap m1 q := by
      intro q hq
      rw [hq3 q hq,hq2 q (hsub q hq)]
    have herase : (ps.erase p ++ fs.erase p).Perm ((ps ++ fs).erase p) := by
      rw [List.erase_append]
      obtain ⟨-,-,hd⟩ := List.nodup_append.mp h.rep.lists.nodup
      split
      · rename_i hps
        rw [List.erase_of_not_mem (fun hf => hd p hps p hf rfl)]
      · rename_i hps
        rw [List.erase_of_not_mem hps]
    refine ⟨m3,?_,⟨h3,?_,?_⟩,fun q hm hne => ?_⟩
    · rw [hdef,if_pos ((SlabRep.map_empty m1 p).mpr he)]
      simp only [page] at hfree
      rw [hfree,Option.map_some,Machine.enable_mem,Machine.nested_mem,Machine.enable_mem]
      rfl
    · exact ((h1.marked.drop_page hp he).perm herase).congr hq
    · intro q hm
      rw [hq q (by simp [hm])]
      exact h1.partial_free q (List.mem_of_mem_erase hm)
    · have hmem : q ∈ ps.erase p ++ fs.erase p := by
        simp only [List.mem_append,List.mem_erase_of_ne hne]
        exact List.mem_append.mp hm
      rw [hq q hmem,hq1 q hm hne]
  · refine .inl ⟨he,m1,?_,h1,rfl,hq1⟩
    rw [hdef,if_neg (fun hc => he ((SlabRep.map_empty m1 p).mp hc)),Machine.enable_mem]
    rfl

end Free
end RoscoM68k
