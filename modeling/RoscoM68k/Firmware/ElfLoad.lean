import RoscoM68k.Firmware.Elf

namespace RoscoM68k
open Function

section Stores

variable {s : Loader} {a : Nat} {bs cs : List UInt8}

theorem Loader.store_nil (s : Loader) (a : Nat) : s.store a [] = s := by
  have hs : s.stored ++ storeAddrs addressSpace a 0 = s.stored := List.append_nil _
  rw [store,List.length_nil,hs]
  rfl

theorem Loader.store_append (s : Loader) (a : Nat) (bs cs : List UInt8) :
    (s.store a bs).store (a + bs.length) cs = s.store a (bs ++ cs) := by
  simp only [store,storeList_append,List.append_assoc,List.length_append,storeAddrs_append]

end Stores

namespace Phdr

variable {ph : Phdr} {s : Loader} {data : List UInt8} {c : Nat}

-- How far the copying gets before a chunk of 4096 bytes would begin at address 0.
def nullGap (ph : Phdr) : Nat :=
  if ph.vaddr % 4096 = 0 then wrap (addressSpace - ph.vaddr) else ph.filesz

-- Where the segment begins in the file.
def pos (ph : Phdr) (data : List UInt8) : Nat := min ph.offset data.length

-- The bytes that are copied before the segment, the file or the address space ends.
def copied (ph : Phdr) (data : List UInt8) : Nat :=
  min ph.filesz (min (data.length - ph.pos data) ph.nullGap)

def contents (ph : Phdr) (data : List UInt8) : List UInt8 :=
  (data.drop (ph.pos data)).take (ph.copied data)

-- The addresses and sizes are longs.
structure Sized (ph : Phdr) : Prop where
  vaddr : ph.vaddr < addressSpace
  filesz : ph.filesz < addressSpace
  memsz : ph.memsz < addressSpace

theorem ofBytes_sized (bs : List UInt8) : (ofBytes bs).Sized :=
  ⟨Mem.readL_lt _ _,Mem.readL_lt _ _,Mem.readL_lt _ _⟩

theorem length_contents (ph : Phdr) (data : List UInt8) :
    (ph.contents data).length = ph.copied data := by
  rw [contents,List.length_take,List.length_drop]
  unfold copied
  omega

-- A chunk begins at address 0 just where the gap ends.
theorem wrap_zero_iff (h : ph.vaddr < addressSpace) (hc : c < ph.filesz)
    (hf : ph.filesz < addressSpace) (h4 : 4096 ∣ c) :
    wrap (ph.vaddr + c) = 0 ↔ ph.vaddr % 4096 = 0 ∧ ph.nullGap = c := by
  simp only [wrap,nullGap,addressSpace] at *
  constructor
  · intro hz
    have hv : ph.vaddr % 4096 = 0 := by omega
    rw [if_pos hv]
    exact ⟨hv,by omega⟩
  · rintro ⟨hv,hg⟩
    rw [if_pos hv] at hg
    omega

-- Otherwise the whole chunk lies before the end of the gap.
theorem le_nullGap (h : ph.vaddr < addressSpace) (hc : c < ph.filesz)
    (hf : ph.filesz < addressSpace) (h4 : 4096 ∣ c) (hle : c ≤ ph.nullGap)
    (hz : wrap (ph.vaddr + c) ≠ 0) : c + min (ph.filesz - c) 4096 ≤ ph.nullGap := by
  rw [Ne,wrap_zero_iff h hc hf h4,not_and] at hz
  simp only [nullGap] at *
  split at hle
  · rename_i hv
    have hne := hz hv
    rw [if_pos hv] at hne ⊢
    simp only [wrap,addressSpace] at *
    omega
  · rename_i hv
    rw [if_neg hv]
    omega

-- What one read of the loop does, with `pos` bytes of the file before it.
theorem fread_end {buffer count pos : Nat} (hpos : s.file.bytenum = pos)
    (h : wrap buffer = 0 ∨ 0 < count ∧ s.file.data.length ≤ pos) :
    s.fread buffer count = (-1,s) := by
  rw [Loader.fread]
  by_cases hb : wrap buffer = 0
  · rw [if_pos hb]
  · obtain ⟨hc,hl⟩ := h.resolve_left hb
    have hr : flFread s.file count = (-1,[],s.file) := by
      rw [flFread,if_neg (by omega),if_pos (by omega)]
    rw [if_neg hb,hr]
    exact congrArg (Prod.mk (-1)) (s.store_nil buffer)

theorem fread_some {buffer count pos : Nat} (hpos : s.file.bytenum = pos) (hb : wrap buffer ≠ 0)
    (hc : 0 < count) (hl : pos < s.file.data.length) :
    s.fread buffer count = ((((s.file.data.drop pos).take count).length : Int),
      { s with file := ⟨s.file.data,pos + ((s.file.data.drop pos).take count).length⟩ }.store buffer
        ((s.file.data.drop pos).take count)) := by
  subst hpos
  rw [Loader.fread,if_neg hb,flFread,if_neg (by omega),if_neg (by omega)]

theorem loadSegment_turn (h : c < ph.filesz) {r : Int × Loader}
    (hr : s.fread (ph.vaddr + c) (thisCount (ph.filesz - c)) = r) :
    loadSegment ph s c = if r.1 ≠ thisCount (ph.filesz - c) then (.error .readSegment,r.2)
      else loadSegment ph r.2 (c + thisCount (ph.filesz - c)) := by
  subst hr
  rw [loadSegment,dif_pos h]

-- The copy loop stores what the file has of the segment.
theorem loadSegment_spec (hs : ph.Sized) (hd : s.file.data = data)
    (hpos : s.file.bytenum = ph.pos data + c) (hc : c ≤ ph.copied data)
    (h4 : 4096 ∣ c ∨ c = ph.filesz) :
    loadSegment ph s c = (if ph.copied data = ph.filesz then .ok () else .error .readSegment,
      { s with file := ⟨data,ph.pos data + ph.copied data⟩ }.store (ph.vaddr + c)
        ((data.drop (ph.pos data + c)).take (ph.copied data - c))) := by
  have hle : ph.copied data ≤ ph.filesz ∧ ph.copied data ≤ data.length - ph.pos data ∧
      ph.copied data ≤ ph.nullGap := by
    unfold copied
    omega
  have hmin : ∀ n, n ≤ ph.filesz → n ≤ data.length - ph.pos data → n ≤ ph.nullGap →
      n ≤ ph.copied data := by
    intro n h1 h2 h3
    unfold copied
    omega
  obtain ⟨hlef,hlea,hleg⟩ := hle
  have hposle : ph.pos data ≤ data.length := Nat.min_le_right _ _
  induction hk : ph.filesz - c using Nat.strong_induction_on generalizing s c with
  | _ k ih =>
    by_cases hlt : c < ph.filesz
    · have h4' : 4096 ∣ c := h4.resolve_right (by omega)
      have hcnt : thisCount (ph.filesz - c) = min (ph.filesz - c) 4096 := thisCount_eq _
      by_cases hstop : wrap (ph.vaddr + c) = 0 ∨
          0 < thisCount (ph.filesz - c) ∧ s.file.data.length ≤ ph.pos data + c
      · -- Nothing more is stored.
        have hend : ph.copied data = c := by
          rcases hstop with hz | ⟨-,hl⟩
          · have := ((wrap_zero_iff hs.vaddr hlt hs.filesz h4').mp hz).2
            omega
          · rw [hd] at hl
            omega
        have hne : (-1 : Int) ≠ (thisCount (ph.filesz - c) : Int) := by omega
        rw [loadSegment_turn hlt (fread_end hpos hstop),if_pos hne,hend,if_neg (by omega),
          Nat.sub_self,List.take_zero,Loader.store_nil]
        subst hd
        rw [← hpos]
      · have hz : wrap (ph.vaddr + c) ≠ 0 := fun h => hstop (.inl h)
        have hl : ph.pos data + c < s.file.data.length := by
          by_contra hno
          exact hstop (.inr ⟨by omega,by omega⟩)
        have hgap := le_nullGap hs.vaddr hlt hs.filesz h4' (by omega) hz
        rw [loadSegment_turn hlt (fread_some hpos hz (by omega) hl)]
        subst hd
        obtain ⟨bs,hbs⟩ : ∃ bs, bs = (s.file.data.drop (ph.pos s.file.data + c)).take
            (thisCount (ph.filesz - c)) := ⟨_,rfl⟩
        have hlen : bs.length = min (thisCount (ph.filesz - c))
            (s.file.data.length - (ph.pos s.file.data + c)) := by
          rw [hbs,List.length_take,List.length_drop]
        rw [← hbs]
        dsimp only
        by_cases hshort : (bs.length : Int) ≠ (thisCount (ph.filesz - c) : Int)
        · -- The file ends in this chunk.
          have hend : ph.copied s.file.data = c + bs.length := by
            have := hmin (c + bs.length) (by omega) (by omega) (by omega)
            omega
          have htake : (s.file.data.drop (ph.pos s.file.data + c)).take
              (ph.copied s.file.data - c) = bs := by
            rw [hbs,List.take_eq_take_iff,List.length_drop]
            omega
          rw [if_pos hshort,htake,if_neg (by omega),hend,Nat.add_assoc]
        · have hfull : bs.length = thisCount (ph.filesz - c) := by omega
          have hmore : c + bs.length ≤ ph.copied s.file.data :=
            hmin _ (by omega) (by omega) (by omega)
          rw [if_neg hshort,← hfull]
          have hnext := ih (ph.filesz - (c + bs.length)) (by omega) (c := c + bs.length)
            (s := { s with file := ⟨s.file.data,ph.pos s.file.data + c + bs.length⟩ }.store
              (ph.vaddr + c) bs) rfl (by simp only [Loader.store]; omega) hmore (by omega) rfl
          rw [hnext]
          congr 1
          have happ : (s.file.data.drop (ph.pos s.file.data + c)).take
              (ph.copied s.file.data - c) = bs ++
              (s.file.data.drop (ph.pos s.file.data + (c + bs.length))).take
                (ph.copied s.file.data - (c + bs.length)) := by
            have hsum : ph.copied s.file.data - c =
                bs.length + (ph.copied s.file.data - (c + bs.length)) := by omega
            have hdrop : ph.pos s.file.data + (c + bs.length) =
                ph.pos s.file.data + c + bs.length := by omega
            rw [hsum,List.take_add,List.drop_drop,hdrop]
            congr 1
            rw [hfull]
            exact hbs.symm
          rw [happ,← Loader.store_append,Nat.add_assoc ph.vaddr]
          rfl
    · have hend : c = ph.filesz := by omega
      have hall : ph.copied data = ph.filesz := by omega
      rw [loadSegment,dif_neg hlt,if_pos hall,hall,← hend,Nat.sub_self,List.take_zero,
        Loader.store_nil]
      subst hd
      rw [← hpos]

-- What loadSegment and memset store, from `vaddr` on. The size to clear is a size_t.
def image (ph : Phdr) (data : List UInt8) : List UInt8 :=
  ph.contents data ++ if ph.copied data = ph.filesz then
    List.replicate (wrap (ph.memsz + addressSpace - ph.filesz)) 0 else []

-- The checks before anything is stored.
structure Checked (L : Stage2) (memsize : Nat) (ph : Phdr) : Prop where
  aligned : 0 < ph.align → ph.vaddr % ph.align = ph.offset % ph.align
  allowed : loadRangeAllowed L memsize ph.vaddr ph.memsz = true

-- The loader goes on to the next header.
structure Passes (L : Stage2) (memsize : Nat) (data : List UInt8) (ph : Phdr) : Prop where
  checked : ph.Checked L memsize
  complete : ph.copied data = ph.filesz
  positive : ph.filesz < 0x80000000

instance (L : Stage2) (memsize : Nat) (ph : Phdr) : Decidable (ph.Checked L memsize) :=
  decidable_of_iff ((0 < ph.align → ph.vaddr % ph.align = ph.offset % ph.align) ∧
    loadRangeAllowed L memsize ph.vaddr ph.memsz = true)
    ⟨fun h => ⟨h.1,h.2⟩,fun h => ⟨h.aligned,h.allowed⟩⟩

instance (L : Stage2) (memsize : Nat) (data : List UInt8) (ph : Phdr) :
    Decidable (ph.Passes L memsize data) :=
  decidable_of_iff (ph.Checked L memsize ∧ ph.copied data = ph.filesz ∧ ph.filesz < 0x80000000)
    ⟨fun h => ⟨h.1,h.2.1,h.2.2⟩,fun h => ⟨h.checked,h.complete,h.positive⟩⟩

theorem negative_iff (h : ph.filesz < addressSpace) :
    (BitVec.ofNat 32 ph.filesz).toInt < 0 ↔ ¬ ph.filesz < 0x80000000 := by
  simp only [addressSpace] at h
  rw [BitVec.toInt_ofNat',Int.bmod_def]
  omega

theorem phdrLoad_unchecked {L : Stage2} (h : ¬ ph.Checked L (sdbMemsize s.mem)) :
    ∃ e, loadKernelElfPhdrLoad L s ph = (.error e,s) := by
  rw [loadKernelElfPhdrLoad]
  by_cases ha : ph.align > 0 ∧ ph.vaddr % ph.align ≠ ph.offset % ph.align
  · exact ⟨.alignment,if_pos ha⟩
  rw [if_neg ha]
  by_cases hr : loadRangeAllowed L (sdbMemsize s.mem) ph.vaddr ph.memsz = true
  · refine absurd ⟨fun h0 => ?_,hr⟩ h
    by_contra hne
    exact ha ⟨h0,hne⟩
  · exact ⟨.reserved,if_pos hr⟩

-- A checked segment is stored as far as the file has it, whatever the result.
theorem phdrLoad_checked {L : Stage2} (hs : ph.Sized) (h : ph.Checked L (sdbMemsize s.mem)) :
    ∃ res n, loadKernelElfPhdrLoad L s ph =
        (res,{ s with file := ⟨s.file.data,n⟩ }.store ph.vaddr (ph.image s.file.data)) ∧
      (res = .ok () ↔ ph.Passes L (sdbMemsize s.mem) s.file.data) := by
  have ha : ¬ (ph.align > 0 ∧ ph.vaddr % ph.align ≠ ph.offset % ph.align) :=
    fun hn => hn.2 (h.aligned hn.1)
  have hstart := loadSegment_spec hs
    (s := { s with file := (flFseek s.file ph.offset).2 }) (c := 0)
    (show _ = s.file.data from rfl) rfl (Nat.zero_le _) (.inl (Nat.dvd_zero _))
  rw [Nat.add_zero,Nat.add_zero,Nat.sub_zero] at hstart
  rw [loadKernelElfPhdrLoad,if_neg ha,if_neg (not_not_intro h.allowed)]
  dsimp only
  rw [if_neg (by rw [flFseek]; exact not_not_intro rfl),hstart]
  by_cases hc : ph.copied s.file.data = ph.filesz
  · rw [if_pos hc]
    dsimp only
    have hlen : ph.filesz = (ph.contents s.file.data).length := by
      rw [length_contents,hc]
    have hst : ({ s with file := ⟨s.file.data,ph.pos s.file.data + ph.copied s.file.data⟩ }.store
          ph.vaddr (ph.contents s.file.data)).memset (ph.vaddr + ph.filesz)
          (wrap (ph.memsz + addressSpace - ph.filesz)) =
        { s with file := ⟨s.file.data,ph.pos s.file.data + ph.copied s.file.data⟩ }.store
          ph.vaddr (ph.image s.file.data) := by
      rw [Loader.memset,image,if_pos hc,← Loader.store_append,← hlen]
    have hst' := hst
    rw [contents] at hst'
    rw [hst']
    by_cases hn : (BitVec.ofNat 32 ph.filesz).toInt < 0
    · refine ⟨_,_,if_pos hn,(fun hq => nomatch hq),fun hp => ?_⟩
      exact absurd hp.positive ((negative_iff hs.filesz).mp hn)
    · have hpos : ph.filesz < 0x80000000 := by
        by_contra hno
        exact hn ((negative_iff hs.filesz).mpr hno)
      exact ⟨_,_,if_neg hn,fun _ => ⟨h,hc,hpos⟩,fun _ => rfl⟩
  · rw [if_neg hc]
    refine ⟨.error .readSegment,ph.pos s.file.data + ph.copied s.file.data,?_,
      (fun hq => nomatch hq),fun hp => absurd hp.complete hc⟩
    rw [image,if_neg hc,List.append_nil]
    rfl

end Phdr
end RoscoM68k
