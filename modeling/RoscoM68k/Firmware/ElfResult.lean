import RoscoM68k.Firmware.ElfImage

namespace RoscoM68k
open Function

-- Before the first header that the loader does not accept, every segment that it stores fits the
-- memory that has been checked for it, or ends early outside reserved memory.
def SafeSegments (L : Stage2) (memsize : Nat) (data : List UInt8) : Prop :=
  ∀ ehdr, ehdrOf data = some ehdr → ehdr.Identified →
    ∀ k < ehdr.phnum, (∀ j < k, GoesOn L memsize data ehdr j) →
      ∀ ph, phdrAt data ehdr k = some ph → ph.type = PT_LOAD → ph.Checked L memsize →
        ph.Safe L memsize data

section Confine

variable {L : Stage2} {data : List UInt8} {m : Mem} {entry n : Nat}

theorem start_spares (memsize : Nat) :
    ((Loader.start data m entry).reading n).Spares L memsize := fun _ ha => nomatch ha

theorem loadKernelElf_spares : (loadKernelElf L (.start data m entry)).2.Spares L (sdbMemsize m) ↔
    SafeSegments L (sdbMemsize m) data := by
  cases hat : ehdrOf data with
  | none =>
    obtain ⟨n,hload⟩ := loadKernelElf_none L m entry hat
    rw [hload]
    refine ⟨fun _ ehdr he => ?_,fun _ => start_spares _⟩
    rw [hat] at he
    cases he
  | some ehdr =>
    obtain ⟨n,hload⟩ := loadKernelElf_some L m entry hat
    rw [hload]
    have hsafe : SafeSegments L (sdbMemsize m) data ↔ (ehdr.Identified →
        Confined L (sdbMemsize m) data ehdr (List.range ehdr.phnum)) := by
      rw [List.range_eq_range',confined_range]
      constructor
      · intro h hid k _ hk hgo ph hph
        obtain ⟨hp,ht,hc⟩ := laid_eq hph
        exact h ehdr hat hid k (by omega) (fun j hj => hgo j (Nat.zero_le _) hj) ph hp ht hc
      · intro h ehdr' he hid k hk hgo ph hp ht hc
        rw [hat] at he
        cases he
        exact h hid k (Nat.zero_le _) (by omega) (fun j _ hj => hgo j hj) ph (laid_of hp ht hc)
    rw [hsafe]
    cases hv : validateEhdr ehdr with
    | error e =>
      refine ⟨fun _ hid => ?_,fun _ => start_spares _⟩
      rw [validateEhdr_ok.mpr hid] at hv
      cases hv
    | ok u =>
      have hid := validateEhdr_ok.mp hv
      have hrun : (loadPhdrs L ehdr (List.range ehdr.phnum)
            ((Loader.start data m entry).reading n)).2.Spares L (sdbMemsize m) ↔
          Confined L (sdbMemsize m) data ehdr (List.range ehdr.phnum) :=
        loadPhdrs_spares hid.phentsize rfl rfl (start_spares _)
      rw [imp_iff_right hid,← hrun]
      generalize loadPhdrs L ehdr (List.range ehdr.phnum)
        ((Loader.start data m entry).reading n) = r
      obtain ⟨res,s⟩ := r
      cases res with
      | error e => exact Iff.rfl
      | ok u =>
        dsimp only
        split
        · exact Iff.rfl
        · exact Iff.rfl

-- The loader leaves reserved memory alone just on the files whose segments are safe.
theorem load_spares_iff (L : Stage2) (m : Mem) (data : List UInt8) (entry : Nat) :
    (∀ a ∈ (loadKernelElf L (.start data m entry)).2.stored, ¬ L.Reserved (sdbMemsize m) a) ↔
      SafeSegments L (sdbMemsize m) data := loadKernelElf_spares

end Confine

section Example

def long (v : Nat) : List UInt8 :=
  [UInt8.ofNat (v / 16777216),UInt8.ofNat (v / 65536),UInt8.ofNat (v / 256),UInt8.ofNat v]

-- A file with one segment of four bytes.
def smallElf (vaddr memsz : Nat) : List UInt8 :=
  [0x7f,0x45,0x4c,0x46,1,2,1,0,0,0,0,0,0,0,0,0] ++ [0,2,0,4] ++ long 1 ++ long 0x2000 ++ long 52 ++
    long 0 ++ long 0 ++ [0,52,0,32,0,1,0,0,0,0,0,0] ++
    long 1 ++ long 84 ++ long vaddr ++ long 0 ++ long 4 ++ long memsz ++ long 0 ++ long 0 ++
    [1,2,3,4]

def smallEhdr : Ehdr :=
  { mag := ELFMAG
    cls := 1
    data := 2
    identVersion := 1
    type := 2
    machine := 4
    version := 1
    entry := 0x2000
    phoff := 52
    ehsize := 52
    phentsize := 32
    phnum := 1 }

-- Stage 2 at the start of the last quarter of 1 MB of memory.
def smallStage2 : Stage2 := ⟨0xC0000,0xD0000,0xFFF00⟩

def smallMem : Mem := Mem.writeL (fun _ => 0) 0x414 0x100000

theorem smallEhdr_identified : smallEhdr.Identified :=
  ⟨rfl,rfl,rfl,rfl,rfl,rfl,rfl,rfl,by decide,rfl⟩

-- The range of a segment without memory is allowed, and its bytes go over the vectors.
theorem load_over_vectors : ¬ ∀ (L : Stage2) (m : Mem) (data : List UInt8) (entry : Nat),
    ∀ a ∈ (loadKernelElf L (.start data m entry)).2.stored, ¬ L.Reserved (sdbMemsize m) a := by
  intro h
  have hsafe := loadKernelElf_spares.mp (h smallStage2 smallMem (smallElf 0x400 0) 0)
  have hehdr : ehdrOf (smallElf 0x400 0) = some smallEhdr := rfl
  have hphdr : phdrAt (smallElf 0x400 0) smallEhdr 0 = some ⟨1,84,0x400,4,0,0⟩ := rfl
  have hfit := hsafe smallEhdr hehdr smallEhdr_identified 0 (by decide)
    (fun j hj => absurd hj (Nat.not_lt_zero j)) _ hphdr rfl ⟨by decide,rfl⟩
  rcases hfit with hle | ⟨hlt,-⟩
  · exact absurd hle (by decide)
  · exact absurd hlt (by decide)

end Example

namespace Phdr

variable {ph : Phdr} {L : Stage2} {memsize : Nat} {data : List UInt8} {m : Mem}

-- The segment's bytes of the file.
def fileImage (ph : Phdr) (data : List UInt8) : List UInt8 := (data.drop ph.offset).take ph.filesz

-- The memory with the segment in it, and zeros where the file has nothing for it.
def place (data : List UInt8) (m : Mem) (ph : Phdr) : Mem :=
  overlay m ph.vaddr (ph.fileImage data ++ List.replicate (ph.memsz - ph.filesz) 0)

-- The file has all of it, and it does not wrap around.
structure Fits (data : List UInt8) (ph : Phdr) : Prop where
  within : ph.filesz = 0 ∨ ph.offset + ph.filesz ≤ data.length
  below : ph.memsz = 0 ∨ ph.vaddr + ph.memsz ≤ addressSpace

theorem Passes.fits (hp : ph.Passes L memsize data) : ph.Fits data := by
  constructor
  · have hc := hp.complete
    rw [copied,pos] at hc
    omega
  · by_cases h0 : ph.memsz = 0
    · exact .inl h0
    · exact .inr (range_allowed hp.checked.allowed (by omega)).1

theorem image_eq (hs : ph.Sized) (hp : ph.Passes L memsize data) (hfit : ph.filesz ≤ ph.memsz) :
    ph.image data = ph.fileImage data ++ List.replicate (ph.memsz - ph.filesz) 0 := by
  have hclear : wrap (ph.memsz + addressSpace - ph.filesz) = ph.memsz - ph.filesz := by
    have hm := hs.memsz
    simp only [wrap,addressSpace] at *
    omega
  have hfile : ph.contents data = ph.fileImage data := by
    rw [contents,hp.complete,fileImage,pos]
    by_cases hle : ph.offset ≤ data.length
    · rw [Nat.min_eq_left hle]
    · rw [Nat.min_eq_right (by omega),List.drop_length,List.drop_eq_nil_of_le (by omega)]
  rw [image,if_pos hp.complete,hclear,hfile]

theorem store_image (hs : ph.Sized) (hp : ph.Passes L memsize data) (hfit : ph.filesz ≤ ph.memsz) :
    storeList addressSpace m ph.vaddr (ph.image data) = ph.place data m := by
  have hlen : (ph.image data).length ≤ ph.memsz := length_image_le hs hfit
  have hbelow := hp.fits.below
  have hv := hs.vaddr
  rw [storeList_eq (by omega),image_eq hs hp hfit]
  rfl

end Phdr

section Image

variable {L : Stage2} {data : List UInt8} {m : Mem} {ehdr : Ehdr} {ks : List Nat} {s : Loader}
  {memsize : Nat}

-- The loadable segments of the headers with the numbers `ks`, in their order.
def loadable (data : List UInt8) (ehdr : Ehdr) (ks : List Nat) : List Phdr :=
  (ks.filterMap (phdrAt data ehdr)).filter (fun ph => ph.type = PT_LOAD)

theorem loadable_cons_some {k : Nat} {ph : Phdr} (h : phdrAt data ehdr k = some ph) :
    loadable data ehdr (k :: ks) =
      if ph.type = PT_LOAD then ph :: loadable data ehdr ks else loadable data ehdr ks := by
  rw [loadable,List.filterMap_cons_some h,List.filter_cons]
  simp only [decide_eq_true_eq]
  rfl

-- Stores of a segment that fits.
theorem lay_fit {k : Nat} {ph : Phdr} (hat : phdrAt data ehdr k = some ph)
    (hfit : ph.type = PT_LOAD → ph.filesz ≤ ph.memsz) (hgo : GoesOn L memsize data ehdr k)
    (h : s.Spares L memsize) :
    (s.lay data (laid L memsize data ehdr k)).Spares L memsize ∧
      (s.lay data (laid L memsize data ehdr k)).mem =
        if ph.type = PT_LOAD then ph.place data s.mem else s.mem := by
  obtain ⟨ph',hat',hp⟩ := hgo
  rw [hat] at hat'
  cases hat'
  by_cases ht : ph.type = PT_LOAD
  · have hlaid := laid_of hat ht (hp ht).checked
    refine ⟨(Loader.lay_spares rfl h).mpr (fun ph'' hph => ?_),?_⟩
    · rw [hlaid] at hph
      cases hph
      exact .inl (hfit ht)
    · rw [hlaid,if_pos ht]
      exact Phdr.store_image (phdrAt_sized hat) (hp ht) (hfit ht)
  · have hlaid : laid L memsize data ehdr k = none := by
      rw [laid,hat]
      simp [ht]
    rw [hlaid,if_neg ht]
    exact ⟨h,rfl⟩

-- By induction on the headers: with segments that fit, the loader gets through just where each
-- header is accepted, and the segments have then been placed one after the other.
theorem loadPhdrs_image (hsz : ehdr.phentsize = Phdr.size) (hd : s.file.data = data)
    (hm : sdbMemsize s.mem = memsize) (h : s.Spares L memsize)
    (hfit : ∀ ph ∈ loadable data ehdr ks, ph.filesz ≤ ph.memsz) :
    ((loadPhdrs L ehdr ks s).1 = .ok () ↔ ∀ k ∈ ks, GoesOn L memsize data ehdr k) ∧
      ((loadPhdrs L ehdr ks s).1 = .ok () →
        (loadPhdrs L ehdr ks s).2.mem = (loadable data ehdr ks).foldl (Phdr.place data) s.mem) := by
  induction ks generalizing s with
  | nil => exact ⟨⟨fun _ k hk => (nomatch hk),fun _ => rfl⟩,fun _ => rfl⟩
  | cons k ks ih =>
    obtain ⟨n,hgo,hstop⟩ := loadPhdrs_turn (L := L) k ks hsz hd hm
    by_cases hg : GoesOn L memsize data ehdr k
    · obtain ⟨ph,hat,-⟩ := id hg
      rw [loadable_cons_some hat] at hfit ⊢
      have hhead : ph.type = PT_LOAD → ph.filesz ≤ ph.memsz := by
        intro ht
        rw [if_pos ht] at hfit
        exact hfit ph (List.mem_cons_self)
      have htail : ∀ ph ∈ loadable data ehdr ks, ph.filesz ≤ ph.memsz := by
        intro ph' hph
        refine hfit ph' ?_
        split
        · exact List.mem_cons_of_mem _ hph
        · exact hph
      obtain ⟨hlay,hmem⟩ := lay_fit (s := s.reading n) hat hhead hg h
      have hdata : ((s.reading n).lay data (laid L memsize data ehdr k)).file.data = data := by
        rw [Loader.lay_data]
        exact hd
      obtain ⟨hok,himg⟩ := ih hdata ((Loader.lay_memsize hlay).trans hm) hlay htail
      rw [hgo hg,List.forall_mem_cons,← hok]
      refine ⟨⟨fun h => ⟨hg,h⟩,fun h => h.2⟩,fun h => ?_⟩
      rw [himg h,hmem]
      by_cases ht : ph.type = PT_LOAD
      · rw [if_pos ht,if_pos ht]
        rfl
      · rw [if_neg ht,if_neg ht]
        rfl
    · obtain ⟨e,he⟩ := hstop hg
      rw [he]
      exact ⟨⟨fun hq => (nomatch hq),fun hall => absurd (hall k List.mem_cons_self) hg⟩,
        fun hq => (nomatch hq)⟩

-- The loadable segments of the whole table.
def segments (data : List UInt8) : List Phdr :=
  match ehdrOf data with
  | none => []
  | some ehdr => loadable data ehdr (List.range ehdr.phnum)

theorem segments_some (h : ehdrOf data = some ehdr) :
    segments data = loadable data ehdr (List.range ehdr.phnum) := by
  rw [segments,h]

theorem loadable_fits (h : ∀ k ∈ ks, GoesOn L memsize data ehdr k) {ph : Phdr}
    (hph : ph ∈ loadable data ehdr ks) : ph.Fits data := by
  obtain ⟨hmem,ht⟩ := List.mem_filter.mp hph
  obtain ⟨k,hk,hat⟩ := List.mem_filterMap.mp hmem
  obtain ⟨ph',hat',hp⟩ := h k hk
  rw [hat] at hat'
  cases hat'
  exact (hp (of_decide_eq_true ht)).fits

theorem loadKernelElf_ok {entry : Nat} (hfit : ∀ ph ∈ segments data, ph.filesz ≤ ph.memsz) :
    (loadKernelElf L (.start data m entry)).1 = .ok () ↔ ∃ ehdr, ehdrOf data = some ehdr ∧
      ehdr.Identified ∧ (∀ k < ehdr.phnum, GoesOn L (sdbMemsize m) data ehdr k) ∧
      ehdr.entry ≠ 0 := by
  cases hat : ehdrOf data with
  | none =>
    obtain ⟨n,hload⟩ := loadKernelElf_none L m entry hat
    rw [hload]
    exact ⟨fun hq => (nomatch hq),fun ⟨_,he,_⟩ => (nomatch he)⟩
  | some ehdr =>
    obtain ⟨n,hload⟩ := loadKernelElf_some L m entry hat
    have hall : (∃ ehdr', some ehdr = some ehdr' ∧ ehdr'.Identified ∧
        (∀ k < ehdr'.phnum, GoesOn L (sdbMemsize m) data ehdr' k) ∧ ehdr'.entry ≠ 0) ↔
        ehdr.Identified ∧ (∀ k < ehdr.phnum, GoesOn L (sdbMemsize m) data ehdr k) ∧
          ehdr.entry ≠ 0 := by
      simp
    rw [hall,hload,← validateEhdr_ok]
    rw [segments_some hat] at hfit
    cases hv : validateEhdr ehdr with
    | error e => exact ⟨fun hq => (nomatch hq),fun hq => nomatch hq.1⟩
    | ok u =>
      have hid := validateEhdr_ok.mp hv
      obtain ⟨hok,-⟩ := loadPhdrs_image (L := L) (s := (Loader.start data m entry).reading n)
        hid.phentsize rfl rfl (start_spares _) hfit
      simp only [List.mem_range] at hok
      rw [and_iff_right rfl]
      have hok' : _ ↔ ∀ k < ehdr.phnum, GoesOn L (sdbMemsize m) data ehdr k := hok
      rw [← hok']
      generalize loadPhdrs L ehdr (List.range ehdr.phnum)
        ((Loader.start data m entry).reading n) = r
      obtain ⟨res,s⟩ := r
      cases res with
      | error e => exact ⟨fun hq => (nomatch hq),fun hq => nomatch hq.1⟩
      | ok u =>
        rw [and_iff_right rfl]
        dsimp only
        by_cases he : ehdr.entry ≠ 0
        · rw [if_pos he]
          exact ⟨fun _ => he,fun _ => rfl⟩
        · rw [if_neg he]
          exact ⟨fun hq => (nomatch hq),fun hq => absurd hq he⟩

-- What is in memory when the loader has succeeded.
theorem loadKernelElf_image {entry : Nat} (hat : ehdrOf data = some ehdr)
    (hfit : ∀ ph ∈ segments data, ph.filesz ≤ ph.memsz)
    (h : (loadKernelElf L (.start data m entry)).1 = .ok ()) :
    (loadKernelElf L (.start data m entry)).2.mem = (segments data).foldl (Phdr.place data) m ∧
      (loadKernelElf L (.start data m entry)).2.kernelEntry = ehdr.entry := by
  obtain ⟨n,hload⟩ := loadKernelElf_some L m entry hat
  obtain ⟨ehdr',hat',hid,-,he⟩ := (loadKernelElf_ok hfit).mp h
  rw [hat] at hat'
  cases hat'
  rw [segments_some hat] at hfit ⊢
  rw [hload,validateEhdr_ok.mpr hid] at h ⊢
  obtain ⟨-,himg⟩ := loadPhdrs_image (L := L) (s := (Loader.start data m entry).reading n)
    hid.phentsize rfl rfl (start_spares _) hfit
  generalize loadPhdrs L ehdr (List.range ehdr.phnum)
    ((Loader.start data m entry).reading n) = r at h himg ⊢
  obtain ⟨res,s⟩ := r
  cases res with
  | error e => cases h
  | ok u =>
    dsimp only
    rw [if_pos he]
    exact ⟨himg rfl,rfl⟩

theorem loadKernelElf_kernelEntry {entry : Nat}
    (h : (loadKernelElf L (.start data m entry)).1 ≠ .ok ()) :
    (loadKernelElf L (.start data m entry)).2.kernelEntry = entry := by
  cases hat : ehdrOf data with
  | none =>
    obtain ⟨n,hload⟩ := loadKernelElf_none L m entry hat
    rw [hload]
    rfl
  | some ehdr =>
    obtain ⟨n,hload⟩ := loadKernelElf_some L m entry hat
    rw [hload] at h ⊢
    cases hv : validateEhdr ehdr with
    | error e => rfl
    | ok u =>
      rw [hv] at h
      have hentry := loadPhdrs_kernelEntry (L := L) (List.range ehdr.phnum)
        (s := (Loader.start data m entry).reading n) (validateEhdr_ok.mp hv).phentsize rfl
      generalize loadPhdrs L ehdr (List.range ehdr.phnum)
        ((Loader.start data m entry).reading n) = r at h hentry ⊢
      obtain ⟨res,s⟩ := r
      cases res with
      | error e => exact hentry
      | ok u =>
        dsimp only at h ⊢
        by_cases he : ehdr.entry ≠ 0
        · rw [if_pos he] at h
          exact absurd rfl h
        · rw [if_neg he]
          exact hentry

end Image
end RoscoM68k
