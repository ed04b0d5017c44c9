import RoscoM68k.Kernel.Slab
import RoscoM68k.Kernel.Slots
import RoscoM68k.Kernel.PmmSpec

namespace RoscoM68k

-- Memory that holds none of the kernel's list headers.
structure Block.Usable (K : Image) (b : Block) : Prop extends b.Good K where
  off_kernel : ∀ h ∈ K.headers, b.stop ≤ h ∨ h + 12 ≤ b.addr

def page (p : Nat) : Block := ⟨p,1024⟩

-- Two lists of pages, each page linked through its metadata.
structure PageLists (K : Image) (m : Mem) (l l' : Nat) (xs ys : List Nat) : Prop where
  header : l ∈ K.headers
  header' : l' ∈ K.headers
  headers_apart : l + 12 ≤ l' ∨ l' + 12 ≤ l
  usable : ∀ p ∈ xs ++ ys, (page p).Usable K
  nodup : (xs ++ ys).Nodup
  first : IsList m l (xs.map slabMeta)
  second : IsList m l' (ys.map slabMeta)

-- What holds the two lists together: the headers and the first two fields of each node.
def pageLinks (l l' : Nat) (pages : List Nat) : Set Nat :=
  {x | (l ≤ x ∧ x < l + 12) ∨ (l' ≤ x ∧ x < l' + 12) ∨
    ∃ p ∈ pages, p + 0x3e0 ≤ x ∧ x < p + 0x3e8}

abbrev SlabLists (K : Image) (m : Mem) (ps fs : List Nat) : Prop :=
  PageLists K m K.partialSlabs K.fullSlabs ps fs

abbrev slabLinks (K : Image) (pages : List Nat) : Set Nat :=
  pageLinks K.partialSlabs K.fullSlabs pages

def slabMap (m : Mem) (p : Nat) : BitVec 32 := bits m (p + 0x3f4)

def slabMaps (pages : List Nat) : Set Nat := {x | ∃ p ∈ pages, p + 0x3f4 ≤ x ∧ x < p + 0x3f8}

variable {K : Image} {m m' : Mem} {F : FreeList} {xs ys pages pages' : List Nat}
  {l l' p q : Nat}

theorem pmm_header_mem {h : Nat} (hh : h ∈ pmmHeaders K) : h ∈ K.headers := by
  simp only [pmmHeaders,List.mem_cons,List.not_mem_nil,or_false] at hh
  rcases hh with rfl | rfl <;> simp [Symbols.headers]

theorem partial_mem : K.partialSlabs ∈ K.headers := by simp [Symbols.headers]

theorem full_mem : K.fullSlabs ∈ K.headers := by simp [Symbols.headers]

theorem slab_headers_apart (K : Image) :
    K.partialSlabs + 12 ≤ K.fullSlabs ∨ K.fullSlabs + 12 ≤ K.partialSlabs := by
  have := K.headers_apart
  simp only [Symbols.headers,List.cons_append,List.pairwise_cons] at this
  exact this.2.2.1 _ (by simp)

theorem pmm_slab_apart {h : Nat} (hh : h ∈ pmmHeaders K) :
    (h + 12 ≤ K.partialSlabs ∨ K.partialSlabs + 12 ≤ h) ∧
      (h + 12 ≤ K.fullSlabs ∨ K.fullSlabs + 12 ≤ h) := by
  have := K.headers_apart
  simp only [Symbols.headers,List.cons_append,List.pairwise_cons] at this
  simp only [pmmHeaders,List.mem_cons,List.not_mem_nil,or_false] at hh
  rcases hh with rfl | rfl
  · exact ⟨this.1 _ (by simp),this.1 _ (by simp)⟩
  · exact ⟨this.2.1 _ (by simp),this.2.1 _ (by simp)⟩

theorem page_bounds (h : (page p).Usable K) : 1024 ∣ p ∧ 0 < p ∧ p + 1024 ≤ addressSpace :=
  ⟨h.addr_dvd,h.addr_pos,h.top⟩

theorem page_off (h : (page p).Usable K) (hl : l ∈ K.headers) :
    p + 1024 ≤ l ∨ l + 12 ≤ p := h.off_kernel l hl

theorem pages_apart (hp : 1024 ∣ p) (hq : 1024 ∣ q) (hne : p ≠ q) :
    p + 1024 ≤ q ∨ q + 1024 ≤ p := by omega

theorem spaced_pages (hl : l ∈ K.headers) (hu : ∀ p ∈ pages, (page p).Usable K)
    (hn : pages.Nodup) : Spaced l (pages.map slabMeta) where
  pos := (K.spaced_nil hl).pos
  top := (K.spaced_nil hl).top
  node_pos := by
    intro x hx
    obtain ⟨p,-,rfl⟩ := List.mem_map.mp hx
    simp only [slabMeta]
    omega
  node_top := by
    intro x hx
    obtain ⟨p,hp,rfl⟩ := List.mem_map.mp hx
    have := page_bounds (hu p hp)
    simp only [slabMeta]
    omega
  off_header := by
    intro x hx
    obtain ⟨p,hp,rfl⟩ := List.mem_map.mp hx
    have := page_off (hu p hp) hl
    simp only [slabMeta]
    omega
  apart := by
    refine List.pairwise_map.mpr (hn.imp_of_mem (fun {p q} hp hq hne => ?_))
    have := pages_apart (page_bounds (hu p hp)).1 (page_bounds (hu q hq)).1 hne
    simp only [NodesApart,slabMeta]
    omega

theorem cells_links : cells l (pages.map slabMeta) ⊆ pageLinks l l' pages := by
  rintro x (hx | ⟨y,hy,h1,h2⟩)
  · exact .inl hx
  · obtain ⟨p,hp,rfl⟩ := List.mem_map.mp hy
    exact .inr (.inr ⟨p,hp,h1,by simp only [slabMeta] at h2; omega⟩)

theorem pageLinks_mono (h : pages ⊆ pages') : pageLinks l l' pages ⊆ pageLinks l l' pages' := by
  rintro x (hx | hx | ⟨p,hp,hx⟩)
  · exact .inl hx
  · exact .inr (.inl hx)
  · exact .inr (.inr ⟨p,h hp,hx⟩)

theorem pageLinks_symm : pageLinks l' l pages = pageLinks l l' pages := by
  ext x
  exact or_left_comm

-- The two lists have no byte in common.
theorem cells_off (hl : l ∈ K.headers) (hl' : l' ∈ K.headers)
    (hll : l + 12 ≤ l' ∨ l' + 12 ≤ l) (hx : ∀ p ∈ xs, (page p).Usable K)
    (hy : ∀ p ∈ ys, (page p).Usable K) (hd : ∀ p ∈ xs, p ∉ ys) {x : Nat}
    (hxl : x ∈ cells l (xs.map slabMeta)) : x ∉ cells l' (ys.map slabMeta) := by
  rintro (h2 | ⟨y,hym,h2⟩)
  · rcases hxl with h1 | ⟨z,hz,h1⟩
    · omega
    · obtain ⟨p,hp,rfl⟩ := List.mem_map.mp hz
      have := page_off (hx p hp) hl'
      simp only [slabMeta] at h1
      omega
  · obtain ⟨q,hq,rfl⟩ := List.mem_map.mp hym
    rcases hxl with h1 | ⟨z,hz,h1⟩
    · have := page_off (hy q hq) hl
      simp only [slabMeta] at h2
      omega
    · obtain ⟨p,hp,rfl⟩ := List.mem_map.mp hz
      have := pages_apart (page_bounds (hx p hp)).1 (page_bounds (hy q hq)).1
        (ne_of_mem_of_not_mem hq (hd p hp)).symm
      simp only [slabMeta] at h1 h2
      omega

namespace PageLists

theorem symm (h : PageLists K m l l' xs ys) : PageLists K m l' l ys xs where
  header := h.header'
  header' := h.header
  headers_apart := h.headers_apart.symm
  usable := fun p hp => h.usable p (List.perm_append_comm.mem_iff.mp hp)
  nodup := List.perm_append_comm.nodup_iff.mp h.nodup
  first := h.second
  second := h.first

theorem agree (h : PageLists K m l l' xs ys) (ha : Mem.Agree (pageLinks l l' (xs ++ ys)) m m') :
    PageLists K m' l l' xs ys := by
  have ha' : Mem.Agree (pageLinks l' l (xs ++ ys)) m m' := by
    rw [pageLinks_symm]
    exact ha
  exact { h with
    first := h.first.agree (ha.mono (cells_links.trans (pageLinks_mono (by simp))))
    second := h.second.agree (ha'.mono (cells_links.trans (pageLinks_mono (by simp)))) }

theorem usable_first (h : PageLists K m l l' xs ys) : ∀ p ∈ xs, (page p).Usable K :=
  fun p hp => h.usable p (by simp [hp])

theorem usable_second (h : PageLists K m l l' xs ys) : ∀ p ∈ ys, (page p).Usable K :=
  fun p hp => h.usable p (by simp [hp])

theorem add_head (h : PageLists K m l l' xs ys) (hp : (page p).Usable K) (hn : p ∉ xs ++ ys)
    (d0 : Nat) : PageLists K (listAddHead m d0 l (slabMeta p)) l l' (p :: xs) ys ∧
      Mem.Agree (pageLinks l l' (p :: (xs ++ ys)))ᶜ m (listAddHead m d0 l (slabMeta p)) := by
  have hu : ∀ q ∈ p :: (xs ++ ys), (page q).Usable K := by
    intro q hq
    rcases List.mem_cons.mp hq with rfl | hq
    · exact hp
    · exact h.usable q hq
  have hu' : ∀ q ∈ p :: xs, (page q).Usable K := fun q hq => hu q (by simp at hq ⊢; tauto)
  have hnd : ((p :: xs) ++ ys).Nodup := List.nodup_cons.mpr ⟨hn,h.nodup⟩
  obtain ⟨hxs,-,hd⟩ := List.nodup_append.mp hnd
  have hsp : Spaced l ((p :: xs).map slabMeta) := spaced_pages h.header hu' hxs
  have hsub : cells l ((p :: xs).map slabMeta) ⊆ pageLinks l l' (p :: xs) := cells_links
  obtain ⟨hl,hag⟩ := h.first.add_head d0 hsp
  refine ⟨{ h with usable := hu, nodup := hnd, first := hl, second := ?_ },
    hag.mono (Set.compl_subset_compl.mpr ?_)⟩
  · refine h.second.agree (hag.mono (fun x hx hx' => ?_))
    have hx' : x ∈ cells l ((p :: xs).map slabMeta) := hx'
    exact cells_off h.header h.header' h.headers_apart hu' h.usable_second
      (fun q hq hq' => hd q hq q hq' rfl) hx' hx
  · exact hsub.trans (pageLinks_mono (by simp))

theorem delete (h : PageLists K m l l' xs ys) (hp : p ∈ xs) :
    PageLists K (listNodeDelete m (slabMeta p)) l l' (xs.erase p) ys ∧
      Mem.Agree (pageLinks l l' (xs ++ ys))ᶜ m (listNodeDelete m (slabMeta p)) := by
  obtain ⟨x1,x2,-,hx,he⟩ := List.exists_erase_eq hp
  obtain ⟨-,-,hd⟩ := List.nodup_append.mp h.nodup
  have hsub : xs.erase p ⊆ xs := List.erase_subset
  have hfirst := h.first
  rw [hx,List.map_append,List.map_cons] at hfirst
  obtain ⟨hl,hag⟩ := hfirst.delete
  rw [← List.map_append,← he] at hl hag
  refine ⟨{ h with usable := ?_, nodup := ?_, first := hl, second := ?_ },
    hag.mono (Set.compl_subset_compl.mpr ?_)⟩
  · intro q hq
    refine h.usable q ?_
    rcases List.mem_append.mp hq with hq | hq
    · exact List.mem_append_left _ (hsub hq)
    · exact List.mem_append_right _ hq
  · exact h.nodup.sublist (List.Sublist.append List.erase_sublist (List.Sublist.refl _))
  · refine h.second.agree (hag.mono (fun x hx hx' => ?_))
    exact cells_off h.header h.header' h.headers_apart (fun q hq => h.usable_first q (hsub hq))
      h.usable_second (fun q hq hq' => hd q (hsub hq) q hq' rfl) hx' hx
  · exact cells_links.trans (pageLinks_mono (fun q hq => by simp [hsub hq]))

end PageLists

-- The slab allocator over the physical memory manager.
structure SlabRep (K : Image) (m : Mem) (F : FreeList) (ps fs : List Nat) : Prop where
  pmm : PmmInv K m F
  free_off : ∀ h ∈ K.headers, ∀ x ∈ F.bytes, x < h ∨ h + 12 ≤ x
  lists : SlabLists K m ps fs
  clear : ∀ p ∈ ps ++ fs, ∀ x ∈ F.bytes, x < p ∨ p + 1024 ≤ x

theorem page_links_off (hf : ∀ h ∈ K.headers, ∀ x ∈ F.bytes, x < h ∨ h + 12 ≤ x)
    (hp : ∀ p ∈ pages, (page p).Usable K ∧ ∀ x ∈ F.bytes, x < p ∨ p + 1024 ≤ x) {x : Nat}
    (hx : x ∈ slabLinks K pages ∨ x ∈ slabMaps pages) : x ∉ F.foot K := by
  rintro (⟨h,hh,h1⟩ | h1)
  · have hap := pmm_slab_apart hh
    rcases hx with (h2 | h2 | ⟨p,hpp,h2⟩) | ⟨p,hpp,h2⟩
    · omega
    · omega
    · have := page_off (hp p hpp).1 (pmm_header_mem hh)
      omega
    · have := page_off (hp p hpp).1 (pmm_header_mem hh)
      omega
  · rcases hx with (h2 | h2 | ⟨p,hpp,h2⟩) | ⟨p,hpp,h2⟩
    · have := hf _ partial_mem x h1
      omega
    · have := hf _ full_mem x h1
      omega
    · have := (hp p hpp).2 x h1
      omega
    · have := (hp p hpp).2 x h1
      omega

theorem maps_off_links (hp : ∀ p ∈ pages, (page p).Usable K) {x : Nat} (hx : x ∈ slabMaps pages) :
    x ∉ slabLinks K pages := by
  obtain ⟨p,hpp,h1⟩ := hx
  rintro (h2 | h2 | ⟨q,hq,h2⟩)
  · have := page_off (hp p hpp) partial_mem
    omega
  · have := page_off (hp p hpp) full_mem
    omega
  · have h3 := page_bounds (hp p hpp)
    have h4 := page_bounds (hp q hq)
    omega

namespace SlabRep

variable {ps fs : List Nat}

theorem page_ok (h : SlabRep K m F ps fs) :
    ∀ p ∈ ps ++ fs, (page p).Usable K ∧ ∀ x ∈ F.bytes, x < p ∨ p + 1024 ≤ x :=
  fun p hp => ⟨h.lists.usable p hp,h.clear p hp⟩

theorem agree (h : SlabRep K m F ps fs)
    (ha : Mem.Agree (F.foot K ∪ slabLinks K (ps ++ fs)) m m') : SlabRep K m' F ps fs where
  pmm := h.pmm.agree (ha.mono Set.subset_union_left)
  free_off := h.free_off
  lists := h.lists.agree (ha.mono Set.subset_union_right)
  clear := h.clear

theorem links_off (h : SlabRep K m F ps fs) {x : Nat} (hx : x ∈ slabLinks K (ps ++ fs)) :
    x ∉ F.foot K := page_links_off h.free_off h.page_ok (.inl hx)

theorem maps_off (h : SlabRep K m F ps fs) {x : Nat} (hx : x ∈ slabMaps (ps ++ fs)) :
    x ∉ F.foot K ∪ slabLinks K (ps ++ fs) := by
  rintro (h1 | h1)
  · exact page_links_off h.free_off h.page_ok (.inr hx) h1
  · exact maps_off_links h.lists.usable hx h1

-- The bitmaps are neither links nor anything of the memory manager's.
theorem slabMap_eq (h : SlabRep K m F ps fs) (hp : p ∈ ps ++ fs) {S : Set Nat}
    (hS : S ⊆ F.foot K ∪ slabLinks K (ps ++ fs)) (ha : Mem.Agree Sᶜ m m') :
    slabMap m' p = slabMap m p := by
  refine congrArg (BitVec.ofNat 32) (ha.readL (fun x hx hx' => ?_))
  refine h.maps_off (x := x) ⟨p,hp,hx.1,?_⟩ (hS hx')
  have := hx.2
  omega

-- The lists change, the memory manager and the bitmaps do not.
theorem relist {ps' fs' : List Nat} (h : SlabRep K m F ps fs) (hl : SlabLists K m' ps' fs')
    (hsub : ps' ++ fs' ⊆ ps ++ fs) (ha : Mem.Agree (slabLinks K (ps ++ fs))ᶜ m m') :
    SlabRep K m' F ps' fs' ∧ ∀ q ∈ ps ++ fs, slabMap m' q = slabMap m q := by
  refine ⟨⟨h.pmm.agree (ha.mono (fun x hx hx' => h.links_off hx' hx)),h.free_off,hl,
    fun p hp => h.clear p (hsub hp)⟩,fun q hq => ?_⟩
  exact h.slabMap_eq hq Set.subset_union_right ha

-- A page that is not free and on neither list.
structure Spare (K : Image) (F : FreeList) (pages : List Nat) (p : Nat) : Prop where
  usable : (page p).Usable K
  clear : ∀ x ∈ F.bytes, x < p ∨ p + 1024 ≤ x
  unlisted : p ∉ pages

theorem add_partial (h : SlabRep K m F ps fs) (hp : Spare K F (ps ++ fs) p) (d0 : Nat) :
    SlabRep K (listAddHead m d0 K.partialSlabs (slabMeta p)) F (p :: ps) fs ∧
      ∀ q ∈ p :: (ps ++ fs),
        slabMap (listAddHead m d0 K.partialSlabs (slabMeta p)) q = slabMap m q := by
  obtain ⟨hl,ha⟩ := h.lists.add_head hp.usable hp.unlisted d0
  have hpages : ∀ q ∈ p :: (ps ++ fs), (page q).Usable K ∧
      ∀ x ∈ F.bytes, x < q ∨ q + 1024 ≤ x := by
    intro q hq
    rcases List.mem_cons.mp hq with rfl | hq
    · exact ⟨hp.usable,hp.clear⟩
    · exact h.page_ok q hq
  refine ⟨⟨h.pmm.agree (ha.mono (fun x hx hx' => ?_)),h.free_off,hl,fun q hq => (hpages q hq).2⟩,
    fun q hq => ?_⟩
  · exact page_links_off h.free_off hpages (.inl hx') hx
  · refine congrArg (BitVec.ofNat 32) (ha.readL (fun x hx hx' => ?_))
    refine maps_off_links (fun q hq => (hpages q hq).1) (x := x) ⟨q,hq,hx.1,?_⟩ hx'
    have := hx.2
    omega

theorem delete (h : SlabRep K m F ps fs) (hp : p ∈ ps ++ fs) :
    SlabRep K (listNodeDelete m (slabMeta p)) F (ps.erase p) (fs.erase p) ∧
      ∀ q ∈ ps ++ fs, slabMap (listNodeDelete m (slabMeta p)) q = slabMap m q := by
  have hsub : ps.erase p ++ fs.erase p ⊆ ps ++ fs :=
    List.append_subset.mpr ⟨fun q hq => by simp [List.mem_of_mem_erase hq],
      fun q hq => by simp [List.mem_of_mem_erase hq]⟩
  obtain ⟨-,-,hd⟩ := List.nodup_append.mp h.lists.nodup
  rcases List.mem_append.mp hp with hps | hfs
  · have hno : p ∉ fs := fun hf => hd p hps p hf rfl
    obtain ⟨hl,ha⟩ := h.lists.delete hps
    rw [List.erase_of_not_mem hno] at hsub ⊢
    exact h.relist hl hsub ha
  · have hno : p ∉ ps := fun hf => hd p hf p hfs rfl
    obtain ⟨hl,ha⟩ := h.lists.symm.delete hfs
    rw [List.erase_of_not_mem hno] at hsub ⊢
    rw [pageLinks_symm] at ha
    refine h.relist hl.symm hsub (ha.mono (Set.compl_subset_compl.mpr ?_))
    exact pageLinks_mono (fun q hq => List.perm_append_comm.mem_iff.mp hq)

-- The slab at the head of partial_slabs goes to the head of full_slabs.
theorem retire (h : SlabRep K m F (p :: ps) fs) (d0 : Nat) :
    SlabRep K (listAddHead (listNodeDelete m (slabMeta p)) d0 K.fullSlabs (slabMeta p)) F ps
        (p :: fs) ∧
      ∀ q ∈ p :: (ps ++ fs),
        slabMap (listAddHead (listNodeDelete m (slabMeta p)) d0 K.fullSlabs (slabMeta p)) q =
          slabMap m q := by
  obtain ⟨hdel,ha⟩ := h.lists.delete (p := p) (by simp)
  rw [List.erase_cons_head] at hdel
  have hnd : p ∉ ps ++ fs := (List.nodup_cons.mp h.lists.nodup).1
  obtain ⟨hadd,ha'⟩ := hdel.symm.add_head (h.lists.usable p (by simp))
    (fun hm => hnd (List.perm_append_comm.mem_iff.mp hm)) d0
  rw [pageLinks_symm] at ha'
  refine h.relist hadd.symm ?_ (ha.trans (ha'.mono (Set.compl_subset_compl.mpr ?_)))
  · intro q hq
    simp only [List.mem_append,List.mem_cons] at hq ⊢
    tauto
  · refine pageLinks_mono (fun q hq => ?_)
    simp only [List.mem_append,List.mem_cons] at hq ⊢
    tauto

end SlabRep
end RoscoM68k
