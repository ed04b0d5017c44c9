import RoscoM68k.Kernel.SlabRep

namespace RoscoM68k

section Marking

variable {m m' : Mem} {a i n : Nat}

theorem bits_writeL_self (m : Mem) (a : Nat) (v : BitVec 32) : bits (m.writeL a v.toNat) a = v := by
  rw [bits,Mem.readL_writeL_self_of_lt _ v.isLt]
  exact BitVec.ofNat_toNat 32 v |>.trans (BitVec.setWidth_eq v)

theorem toNat_bits (m : Mem) (a : Nat) : (bits m a).toNat = m.readL a := by
  rw [bits,BitVec.toNat_ofNat]
  exact Nat.mod_eq_of_lt (m.readL_lt a)

theorem bitmapLong_eq (hi : i < 32) (ha : a + 4 ≤ addressSpace) :
    bitmapLong a (BitVec.ofNat 32 i) = a := by
  have h0 : BitVec.ofNat 32 i >>> 5 = 0#32 := by
    refine BitVec.eq_of_toNat_eq ?_
    rw [BitVec.toNat_ushiftRight,BitVec.toNat_ofNat,Nat.shiftRight_eq_div_pow]
    simp only [BitVec.toNat_ofNat]
    omega
  rw [bitmapLong,h0]
  simp only [wrap,addressSpace] at *
  simp only [BitVec.zero_shiftLeft,BitVec.toNat_ofNat]
  omega

theorem bitmapMask_getLsbD (hi : i < 32) (j : Nat) :
    (bitmapMask (BitVec.ofNat 32 i)).getLsbD j = decide (i = j) := by
  have h0 : (BitVec.ofNat 32 i &&& 0x1f#32).toNat = i := by
    have h31 : (0x1f#32).toNat = 2 ^ 5 - 1 := rfl
    rw [BitVec.toNat_and,h31,Nat.and_two_pow_sub_one_eq_mod,BitVec.toNat_ofNat]
    omega
  rw [bitmapMask,h0,← BitVec.twoPow_eq,BitVec.getLsbD_twoPow]
  simp [hi]

-- What setting (`v` is true) or clearing one bit of the bitmap at `a` does.
def Marks (op : Mem → Nat → BitVec 32 → Mem) (v : Bool) : Prop :=
  ∀ m a i, i < 32 → a + 4 ≤ addressSpace →
    (∀ j < 32, (bits (op m a (BitVec.ofNat 32 i)) a).getLsbD j =
      if i = j then v else (bits m a).getLsbD j) ∧
    Mem.Agree (Set.Ico a (a + 4))ᶜ m (op m a (BitVec.ofNat 32 i))

theorem agree_long (m : Mem) (a v : Nat) : Mem.Agree (Set.Ico a (a + 4))ᶜ m (m.writeL a v) := by
  refine Mem.agree_writeL _ _ (fun x hx => ?_)
  simp only [Set.mem_compl_iff,Set.mem_Ico] at hx
  omega

theorem bitmapSet_marks : Marks bitmapSet true := by
  intro m a i hi ha
  rw [bitmapSet,bitmapLong_eq hi ha]
  refine ⟨fun j hj => ?_,agree_long _ _ _⟩
  rw [bits_writeL_self,BitVec.getLsbD_or,bitmapMask_getLsbD hi]
  by_cases h : i = j <;> simp [h]

theorem bitmapClear_marks : Marks bitmapClear false := by
  intro m a i hi ha
  rw [bitmapClear,bitmapLong_eq hi ha]
  refine ⟨fun j hj => ?_,agree_long _ _ _⟩
  rw [bits_writeL_self,BitVec.getLsbD_and,BitVec.getLsbD_not,bitmapMask_getLsbD hi]
  by_cases h : i = j <;> simp [h,hj]

theorem markLoop_spec {op : Mem → Nat → BitVec 32 → Mem} {v : Bool} (hop : Marks op v)
    (ha : a + 4 ≤ addressSpace) (hle : i + n ≤ 32) :
    (∀ j < 32, (bits (markLoop op a n m (BitVec.ofNat 32 i)).1 a).getLsbD j =
      if i ≤ j ∧ j < i + n then v else (bits m a).getLsbD j) ∧
    Mem.Agree (Set.Ico a (a + 4))ᶜ m (markLoop op a n m (BitVec.ofNat 32 i)).1 := by
  induction n generalizing m i with
  | zero =>
    refine ⟨fun j _ => ?_,Mem.Agree.refl _ _⟩
    rw [if_neg (by omega),markLoop]
  | succ n ih =>
    obtain ⟨hbit,hag⟩ := hop m a i (by omega) ha
    have hnext : BitVec.ofNat 32 i + 1#32 = BitVec.ofNat 32 (i + 1) := (BitVec.ofNat_add _ _).symm
    obtain ⟨hbit',hag'⟩ := ih (m := op m a (BitVec.ofNat 32 i)) (i := i + 1) (by omega)
    rw [markLoop,hnext]
    refine ⟨fun j hj => ?_,hag.trans hag'⟩
    rw [hbit' j hj,hbit j hj]
    by_cases h1 : i = j
    · rw [if_neg (by omega),if_pos h1,if_pos (by omega)]
    · by_cases h2 : i + 1 ≤ j ∧ j < i + 1 + n
      · rw [if_pos h2,if_pos (by omega)]
      · rw [if_neg h2,if_neg h1,if_neg (by omega)]

end Marking

section Scan

variable {K : Image} {m : Mem} {ps fs : List Nat} {p fuel : Nat} {n : BitVec 8} {d0 : BitVec 32}

theorem lowByte_ofNat {i : Nat} (hi : i < 32) : lowByte (BitVec.ofNat 32 i) ≠ 0xFF#8 := by
  intro h
  have := congrArg BitVec.toNat h
  rw [lowByte,BitVec.toNat_setWidth,BitVec.toNat_ofNat] at this
  simp only [BitVec.toNat_ofNat] at this
  omega

-- Once one search has failed, the rest of the list is walked without finding anything.
theorem slabScan_again {qs rs : List Nat} (hu : ∀ q ∈ qs ++ rs, (page q).Usable K)
    (hl : IsList m K.partialSlabs ((qs ++ rs).map slabMeta)) (hf : rs.length < fuel) :
    slabScan K m n fuel 0xFFFFFFFF#32 ((rs.map slabMeta ++ [K.partialSlabs + 4]).head (by simp)) =
      some none := by
  induction rs generalizing qs fuel with
  | nil =>
    obtain ⟨fuel,rfl⟩ : ∃ k, fuel = k + 1 := ⟨fuel - 1,by simp at hf; omega⟩
    rw [slabScan]
    simp
  | cons r rs ih =>
    obtain ⟨fuel,rfl⟩ : ∃ k, fuel = k + 1 := ⟨fuel - 1,by simp at hf; omega⟩
    have hoff := page_off (hu r (by simp)) partial_mem
    have hl' := hl
    rw [List.map_append,List.map_cons] at hl'
    have hu' : ∀ q ∈ (qs ++ [r]) ++ rs, (page q).Usable K := by simpa using hu
    have hwhole : IsList m K.partialSlabs (((qs ++ [r]) ++ rs).map slabMeta) := by simpa using hl
    have hstep := ih hu' hwhole (show rs.length < fuel by simp at hf; omega)
    have hne : slabMeta r ≠ K.partialSlabs + 4 := by
      simp only [slabMeta]
      omega
    change slabScan K m n (fuel + 1) 0xFFFFFFFF#32 (slabMeta r) = some none
    rw [slabScan,if_neg hne]
    simp only [bitmapFindNClear_again]
    rw [if_pos (by decide),hl'.next_eq]
    exact hstep

-- Only the first slab of the list is searched for `n` clear bits.
theorem slabScan_nil (hl : IsList m K.partialSlabs []) :
    slabScan K m n addressSpace d0 (nodeNext m K.partialSlabs) = some none := by
  have hfuel : addressSpace = 4294967295 + 1 := rfl
  rw [hl.header_next,hfuel,slabScan]
  exact if_pos rfl

theorem slabScan_cons (hn : n ≠ 0#8) (hd : d0.toNat < 256)
    (hu : ∀ q ∈ p :: ps, (page q).Usable K)
    (hl : IsList m K.partialSlabs ((p :: ps).map slabMeta)) :
    ((∀ i, ¬ Fits (slabMap m p) n.toNat i) ∧
        slabScan K m n addressSpace d0 (nodeNext m K.partialSlabs) = some none) ∨
      ∃ i, Fits (slabMap m p) n.toNat i ∧
        slabScan K m n addressSpace d0 (nodeNext m K.partialSlabs) =
          some (some (slabMeta p,BitVec.ofNat 32 i)) := by
  have hfuel : addressSpace = 4294967295 + 1 := rfl
  have hoff := page_off (hu p (by simp)) partial_mem
  have hhead : nodeNext m K.partialSlabs = slabMeta p := by
    rw [hl.header_next]
    rfl
  have hne : slabMeta p ≠ K.partialSlabs + 4 := by
    simp only [slabMeta]
    omega
  have hmap : bits m (slabBmp (slabMeta p)) = slabMap m p := rfl
  rw [hhead,hfuel,slabScan,if_neg hne]
  simp only [hmap]
  rcases bitmapFindNClear_first hn hd (slabMap m p) with ⟨hno,he⟩ | ⟨i,hf,he⟩
  · refine .inl ⟨hno,?_⟩
    rw [he,if_pos (by decide)]
    have hl' : IsList m K.partialSlabs ([] ++ slabMeta p :: ps.map slabMeta) := hl
    have hlen := hl.toSpaced.length_lt
    rw [hl'.next_eq]
    have hu' : ∀ q ∈ [p] ++ ps, (page q).Usable K := hu
    have hwhole : IsList m K.partialSlabs (([p] ++ ps).map slabMeta) := hl
    refine slabScan_again hu' hwhole ?_
    simp only [List.length_map,List.length_cons,addressSpace] at hlen
    omega
  · refine .inr ⟨i,hf,?_⟩
    have hpos : 0 < n.toNat := by
      have := mt BitVec.eq_of_toNat_eq hn
      simp only [BitVec.toNat_ofNat] at this
      omega
    have := hf.1
    rw [he,if_neg (lowByte_ofNat (by omega))]

end Scan

section Ops

variable {K : Image} {m m' : Mem} {F : FreeList} {ps fs : List Nat} {p i : Nat}

namespace SlabRep

-- Bits of the map of a listed page change, nothing else of the two lists or the free memory.
theorem remap (h : SlabRep K m F ps fs) (hp : p ∈ ps ++ fs)
    (ha : Mem.Agree (Set.Ico (p + 0x3f4) (p + 0x3f4 + 4))ᶜ m m') :
    SlabRep K m' F ps fs ∧ ∀ q ∈ ps ++ fs, q ≠ p → slabMap m' q = slabMap m q := by
  refine ⟨h.agree (ha.mono (fun x hx hx' => ?_)),fun q hq hne => ?_⟩
  · refine h.maps_off (x := x) ⟨p,hp,hx'.1,?_⟩ hx
    have := hx'.2
    omega
  · refine congrArg (BitVec.ofNat 32) (ha.readL (fun x hx hx' => ?_))
    have h1 := page_bounds (h.lists.usable p hp)
    have h2 := page_bounds (h.lists.usable q hq)
    simp only [Set.mem_Ico] at hx hx'
    omega

theorem map_full (m : Mem) (p : Nat) :
    m.readL (slabBmp (slabMeta p)) = 0xFFFFFFFF ↔ slabMap m p = 0xFFFFFFFF#32 := by
  have hb : (slabMap m p).toNat = m.readL (slabBmp (slabMeta p)) := toNat_bits _ _
  rw [← hb]
  exact ⟨fun h => BitVec.eq_of_toNat_eq h,fun h => congrArg BitVec.toNat h⟩

theorem map_empty (m : Mem) (p : Nat) :
    m.readL (slabBmp (slabMeta p)) = 0x80000000 ↔ slabMap m p = 0x80000000#32 := by
  have hb : (slabMap m p).toNat = m.readL (slabBmp (slabMeta p)) := toNat_bits _ _
  rw [← hb]
  exact ⟨fun h => BitVec.eq_of_toNat_eq h,fun h => congrArg BitVec.toNat h⟩

theorem block_addr (hu : (page p).Usable K) (hi : i < 32) :
    wrap (p + (BitVec.ofNat 32 i <<< 5).toNat) = p + 32 * i := by
  have hb := page_bounds hu
  rw [BitVec.toNat_shiftLeft,BitVec.toNat_ofNat,Nat.shiftLeft_eq]
  simp only [wrap,addressSpace] at *
  omega

-- Marking blocks of the first partial slab, which goes to full_slabs when none is left.
theorem allocBlock (h : SlabRep K m F (p :: ps) fs) {d2 : BitVec 8} (hle : i + d2.toNat ≤ 31) :
    ∃ m' ps' fs', slabAllocBlock K m (slabMeta p - 0x3e0) (slabMeta p) (BitVec.ofNat 32 i) d2 =
        (m',p + 32 * i) ∧
      SlabRep K m' F ps' fs' ∧ (∀ q ∈ ps ++ fs, slabMap m' q = slabMap m q) ∧
      (∀ j < 32, (slabMap m' p).getLsbD j =
        ((slabMap m p).getLsbD j || decide (i ≤ j ∧ j < i + d2.toNat))) ∧
      (slabMap m' p = 0xFFFFFFFF#32 ∧ ps' = ps ∧ fs' = p :: fs ∨
        slabMap m' p ≠ 0xFFFFFFFF#32 ∧ ps' = p :: ps ∧ fs' = fs) := by
  have hu := h.lists.usable p (by simp)
  have hb := page_bounds hu
  have hbase : slabMeta p - 0x3e0 = p := Nat.add_sub_cancel _ _
  obtain ⟨hbit,hag⟩ := markLoop_spec (m := m) (a := p + 0x3f4) (i := i) (n := d2.toNat)
    bitmapSet_marks (by omega) (by omega)
  have hbmp : slabBmp (slabMeta p) = p + 0x3f4 := rfl
  rw [slabAllocBlock,hbmp,hbase,block_addr hu (by omega)]
  obtain ⟨m1,d1,hr⟩ : ∃ m1 d1, markLoop bitmapSet (p + 0x3f4) d2.toNat m (BitVec.ofNat 32 i) =
    (m1,d1) := ⟨_,_,rfl⟩
  rw [hr] at hbit hag
  simp only [hr]
  obtain ⟨h1,hq1⟩ := h.remap (p := p) (by simp) hag
  have hnd := List.nodup_cons.mp h.lists.nodup
  have hq : ∀ q ∈ ps ++ fs, slabMap m1 q = slabMap m q := fun q hq =>
    hq1 q (by simp only [List.cons_append,List.mem_cons]; exact .inr hq)
      (ne_of_mem_of_not_mem hq hnd.1)
  have hset : ∀ j < 32, (slabMap m1 p).getLsbD j =
      ((slabMap m p).getLsbD j || decide (i ≤ j ∧ j < i + d2.toNat)) := by
    intro j hj
    refine (hbit j hj).trans ?_
    by_cases hc : i ≤ j ∧ j < i + d2.toNat
    · simp [hc]
    · rw [if_neg hc,decide_eq_false hc,Bool.or_false]
      rfl
  by_cases hfull : slabMap m1 p = 0xFFFFFFFF#32
  · have hread : m1.readL (p + 0x3f4) = 0xFFFFFFFF := (map_full m1 p).mpr hfull
    have hdel : listDeleteHead m1 K.partialSlabs = (listNodeDelete m1 (slabMeta p),slabMeta p) :=
      h1.lists.first.delete_head_cons
    rw [if_pos hread,hdel]
    obtain ⟨h2,hq2⟩ := h1.retire d1.toNat
    refine ⟨_,ps,p :: fs,rfl,h2,fun q hm => ?_,fun j hj => ?_,.inl ⟨?_,rfl,rfl⟩⟩
    · rw [hq2 q (List.mem_cons_of_mem _ hm),hq q hm]
    · rw [hq2 p (by simp),hset j hj]
    · rw [hq2 p (by simp),hfull]
  · have hread : m1.readL (p + 0x3f4) ≠ 0xFFFFFFFF := fun hc => hfull ((map_full m1 p).mp hc)
    rw [if_neg hread]
    exact ⟨m1,p :: ps,fs,rfl,h1,hq,hset,.inr ⟨hfull,rfl,rfl⟩⟩

-- A fresh page gets its metadata and becomes the first partial slab.
theorem setUp (h : SlabRep K m F ps fs) (hp : Spare K F (ps ++ fs) p) (d0 : Nat) :
    SlabRep K (listAddHead (slabSetUp m p (slabMeta p)) d0 K.partialSlabs (slabMeta p)) F
        (p :: ps) fs ∧
      (∀ q ∈ ps ++ fs, slabMap (listAddHead (slabSetUp m p (slabMeta p)) d0 K.partialSlabs
        (slabMeta p)) q = slabMap m q) ∧
      slabMap (listAddHead (slabSetUp m p (slabMeta p)) d0 K.partialSlabs (slabMeta p)) p =
        0x80000000#32 := by
  have hb := page_bounds hp.usable
  have hag : Mem.Agree (Set.Ico (p + 0x3e8) (p + 0x3f8))ᶜ m (slabSetUp m p (slabMeta p)) := by
    have hw : ∀ m' a v, p + 0x3e8 ≤ a → a + 4 ≤ p + 0x3f8 →
        Mem.Agree (Set.Ico (p + 0x3e8) (p + 0x3f8))ᶜ m' (m'.writeL a v) := by
      intro m' a v h1 h2
      refine Mem.agree_writeL _ _ (fun x hx => ?_)
      simp only [Set.mem_compl_iff,Set.mem_Ico] at hx
      omega
    simp only [slabSetUp,slabMeta,slabBmp]
    exact (((hw _ _ _ (by omega) (by omega)).trans (hw _ _ _ (by omega) (by omega))).trans
      (hw _ _ _ (by omega) (by omega))).trans (hw _ _ _ (by omega) (by omega))
  have hnew : slabMap (slabSetUp m p (slabMeta p)) p = 0x80000000#32 :=
    bits_writeL_self _ _ 0x80000000#32
  have hpages : ∀ q ∈ ps ++ fs, q + 1024 ≤ p ∨ p + 1024 ≤ q := by
    intro q hq
    exact pages_apart (page_bounds (h.lists.usable q hq)).1 hb.1
      (ne_of_mem_of_not_mem hq hp.unlisted)
  have h1 : SlabRep K (slabSetUp m p (slabMeta p)) F ps fs := by
    refine h.agree (hag.mono (fun x hx hx' => ?_))
    simp only [Set.mem_Ico] at hx'
    rcases hx with (⟨l,hl,hx⟩ | hx) | hx | hx | ⟨q,hq,hx⟩
    · have := page_off hp.usable (pmm_header_mem hl)
      omega
    · have := hp.clear x hx
      omega
    · have := page_off hp.usable partial_mem
      omega
    · have := page_off hp.usable full_mem
      omega
    · have := hpages q hq
      omega
  obtain ⟨h2,hq2⟩ := h1.add_partial hp d0
  refine ⟨h2,fun q hq => ?_,(hq2 p (by simp)).trans hnew⟩
  rw [hq2 q (List.mem_cons_of_mem _ hq)]
  refine congrArg (BitVec.ofNat 32) (hag.readL (fun x hx hx' => ?_))
  have := hpages q hq
  simp only [Set.mem_Ico] at hx hx'
  omega

end SlabRep

end Ops

end RoscoM68k
