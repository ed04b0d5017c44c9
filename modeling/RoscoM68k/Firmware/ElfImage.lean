import RoscoM68k.Firmware.ElfLoad

namespace RoscoM68k
open Function

section File

variable {data : List UInt8} {f : FlFile} {off n : Nat}

-- `n` bytes of the file, if it has them.
def fileBytes (data : List UInt8) (off n : Nat) : Option (List UInt8) :=
  if off + n ≤ data.length then some ((data.drop off).take n) else none

theorem flFread_seek_data : (flFread (flFseek f off).2 n).2.2.data = f.data := by
  rw [flFread]
  split
  · rfl
  · split
    · rfl
    · rfl

theorem flFread_seek_some {bs : List UInt8} (hn : 0 < n) (h : fileBytes f.data off n = some bs) :
    (flFread (flFseek f off).2 n).1 = n ∧ (flFread (flFseek f off).2 n).2.1 = bs := by
  rw [fileBytes] at h
  split at h
  · rename_i hle
    cases h
    rw [flFread,if_neg (by omega),if_neg (by simp only [flFseek]; omega)]
    have hmin : min off f.data.length = off := by omega
    simp only [flFseek,hmin,List.length_take,List.length_drop]
    exact ⟨by omega,trivial⟩
  · cases h

theorem flFread_seek_none (hn : 0 < n) (h : fileBytes f.data off n = none) :
    (flFread (flFseek f off).2 n).1 ≠ n := by
  rw [fileBytes] at h
  split at h
  · cases h
  · rename_i hle
    rw [flFread,if_neg (by omega)]
    by_cases hend : (flFseek f off).2.data.length ≤ (flFseek f off).2.bytenum
    · rw [if_pos hend]
      dsimp only
      omega
    · rw [if_neg hend]
      simp only [flFseek,List.length_take,List.length_drop]
      omega

end File

-- The ELF header and the program header with a number, if the file has all of it.
def ehdrOf (data : List UInt8) : Option Ehdr := (fileBytes data 0 Ehdr.size).map Ehdr.ofBytes

def phdrAt (data : List UInt8) (ehdr : Ehdr) (phidx : Nat) : Option Phdr :=
  (fileBytes data (wrap (ehdr.phoff + phidx * ehdr.phentsize)) ehdr.phentsize).map Phdr.ofBytes

theorem phdrAt_sized {data : List UInt8} {ehdr : Ehdr} {k : Nat} {ph : Phdr}
    (h : phdrAt data ehdr k = some ph) : ph.Sized := by
  obtain ⟨bs,-,rfl⟩ := Option.map_eq_some_iff.mp h
  exact Phdr.ofBytes_sized bs

-- What the header says about itself.
structure Ehdr.Identified (ehdr : Ehdr) : Prop where
  mag : ehdr.mag = ELFMAG
  cls : ehdr.cls = ELFCLASS32
  data : ehdr.data = ELFDATA2MSB
  identVersion : ehdr.identVersion = EV_CURRENT
  type : ehdr.type = ET_EXEC
  machine : ehdr.machine = EM_68K
  version : ehdr.version = EV_CURRENT
  ehsize : ehdr.ehsize = Ehdr.size
  phoff : ehdr.phoff ≠ 0
  phentsize : ehdr.phentsize = Phdr.size

theorem check_ok {c : Prop} [Decidable c] {e : LoadError} {r : Except LoadError Unit} :
    (if c then .error e else r) = .ok () ↔ ¬ c ∧ r = .ok () := by
  by_cases h : c
  · rw [if_pos h]
    exact ⟨fun hq => (nomatch hq),fun hq => absurd h hq.1⟩
  · rw [if_neg h]
    exact ⟨fun hr => ⟨h,hr⟩,fun hr => hr.2⟩

theorem validateEhdr_ok {ehdr : Ehdr} : validateEhdr ehdr = .ok () ↔ ehdr.Identified := by
  simp only [validateEhdr,check_ok,not_not]
  constructor
  · rintro ⟨h1,h2,h3,h4,h5,h6,h7,h8,h9,h10,-⟩
    exact ⟨h1,h2,h3,h4,h5,h6,h7,h8,h9,h10⟩
  · rintro ⟨h1,h2,h3,h4,h5,h6,h7,h8,h9,h10⟩
    exact ⟨h1,h2,h3,h4,h5,h6,h7,h8,h9,h10,trivial⟩

namespace Loader

variable {L : Stage2} {ehdr : Ehdr} {k : Nat} {ks : List Nat} {s : Loader} {ph : Phdr}

-- Another file position.
def reading (s : Loader) (n : Nat) : Loader := { s with file := ⟨s.file.data,n⟩ }

theorem reading_of {f : FlFile} (h : f.data = s.file.data) :
    ({ s with file := f } : Loader) = s.reading f.bytenum := by
  cases f
  subst h
  rfl

end Loader

-- The vectors and system data, stage 2, and the stack with the page below it.
def Stage2.Reserved (L : Stage2) (memsize a : Nat) : Prop :=
  a < 0x2000 ∨ L.stage2Load ≤ a ∧ a < L.stage2End ∨ L.stackGuardStart ≤ a ∧ a < memsize

instance (L : Stage2) (memsize a : Nat) : Decidable (L.Reserved memsize a) :=
  inferInstanceAs (Decidable (_ ∨ _))

def Loader.Spares (s : Loader) (L : Stage2) (memsize : Nat) : Prop :=
  ∀ a ∈ s.stored, ¬ L.Reserved memsize a

section Range

variable {L : Stage2} {memsize start size a : Nat}

-- An allowed range neither wraps around nor touches what is reserved.
theorem range_allowed (h : loadRangeAllowed L memsize start size = true) (hpos : 0 < size) :
    start + size ≤ addressSpace ∧ ∀ i < size, ¬ L.Reserved memsize (start + i) := by
  rw [loadRangeAllowed,if_neg (by omega)] at h
  dsimp only at h
  by_cases h1 : start > 0xFFFFFFFF - (size - 1)
  · rw [if_pos h1] at h
    cases h
  by_cases h2 : start + (size - 1) ≥ 0 ∧ start < 0x2000
  · rw [if_neg h1,if_pos h2] at h
    cases h
  by_cases h3 : start + (size - 1) ≥ L.stage2Load ∧ start < L.stage2End
  · rw [if_neg h1,if_neg h2,if_pos h3] at h
    cases h
  by_cases h4 : start + (size - 1) ≥ L.stackGuardStart ∧ start < memsize
  · rw [if_neg h1,if_neg h2,if_neg h3,if_pos h4] at h
    cases h
  simp only [Stage2.Reserved,addressSpace]
  refine ⟨by omega,fun i hi => ?_⟩
  omega

end Range

namespace Phdr

variable {ph : Phdr} {L : Stage2} {memsize : Nat} {data : List UInt8} {i : Nat}

-- The segment fits the memory that has been checked for it, or the copying ends before it
-- reaches reserved memory.
def Safe (L : Stage2) (memsize : Nat) (data : List UInt8) (ph : Phdr) : Prop :=
  ph.filesz ≤ ph.memsz ∨
    ph.copied data < ph.filesz ∧ ∀ i < ph.copied data, ¬ L.Reserved memsize (wrap (ph.vaddr + i))

theorem copied_le (ph : Phdr) (data : List UInt8) : ph.copied data ≤ ph.filesz :=
  Nat.min_le_left _ _

theorem length_image (ph : Phdr) (data : List UInt8) : (ph.image data).length =
    if ph.copied data = ph.filesz then ph.filesz + wrap (ph.memsz + addressSpace - ph.filesz)
    else ph.copied data := by
  rw [image,List.length_append,length_contents]
  split
  · rw [List.length_replicate]
    omega
  · rfl

theorem length_image_le (hs : ph.Sized) (h : ph.filesz ≤ ph.memsz) :
    (ph.image data).length ≤ ph.memsz := by
  have hc := ph.copied_le data
  have hm := hs.memsz
  rw [length_image]
  simp only [wrap,addressSpace] at *
  split
  · omega
  · omega

-- A checked segment leaves reserved memory alone just if it is safe.
theorem safe_iff (hs : ph.Sized) (h : ph.Checked L memsize) :
    ph.Safe L memsize data ↔
      ∀ a ∈ storeAddrs addressSpace ph.vaddr (ph.image data).length, ¬ L.Reserved memsize a := by
  constructor
  · rintro (hfit | ⟨hlt,hsafe⟩) a ha
    · obtain ⟨i,hi,rfl⟩ := mem_storeAddrs.mp ha
      have hi := hi.trans_le (length_image_le hs hfit)
      obtain ⟨hend,hfree⟩ := range_allowed h.allowed (by omega)
      rw [Nat.mod_eq_of_lt (by omega)]
      exact hfree i hi
    · rw [length_image,if_neg (by omega)] at ha
      obtain ⟨i,hi,rfl⟩ := mem_storeAddrs.mp ha
      exact hsafe i hi
  · intro hfree
    by_cases hfit : ph.filesz ≤ ph.memsz
    · exact .inl hfit
    have hlt : ph.copied data < ph.filesz := by
      by_contra hno
      have hall : ph.copied data = ph.filesz := le_antisymm (ph.copied_le data) (by omega)
      -- What is left to clear has wrapped around, so all memory is stored to.
      have hlen : addressSpace ≤ (ph.image data).length := by
        have hf := hs.filesz
        rw [length_image,if_pos hall]
        simp only [wrap,addressSpace] at *
        omega
      exact hfree 0 (storeAddrs_all hlen (by decide)) (.inl (by decide))
    refine .inr ⟨hlt,fun i hi => hfree _ ?_⟩
    rw [length_image,if_neg (by omega)]
    exact mem_storeAddrs.mpr ⟨i,hi,rfl⟩

end Phdr

section Phdrs

variable {L : Stage2} {ehdr : Ehdr} {memsize k : Nat} {ks : List Nat} {s : Loader}
  {data : List UInt8} {o : Option Phdr}

-- The loader goes on after header `k`.
def GoesOn (L : Stage2) (memsize : Nat) (data : List UInt8) (ehdr : Ehdr) (k : Nat) : Prop :=
  ∃ ph, phdrAt data ehdr k = some ph ∧ (ph.type = PT_LOAD → ph.Passes L memsize data)

-- The segment that header `k` makes it store.
def laid (L : Stage2) (memsize : Nat) (data : List UInt8) (ehdr : Ehdr) (k : Nat) : Option Phdr :=
  (phdrAt data ehdr k).filter (fun ph => ph.type = PT_LOAD ∧ ph.Checked L memsize)

def Loader.lay (s : Loader) (data : List UInt8) : Option Phdr → Loader
  | none => s
  | some ph => s.store ph.vaddr (ph.image data)

theorem laid_eq {ph : Phdr} (h : laid L memsize data ehdr k = some ph) :
    phdrAt data ehdr k = some ph ∧ ph.type = PT_LOAD ∧ ph.Checked L memsize := by
  obtain ⟨hat,hcond⟩ := Option.filter_eq_some_iff.mp h
  exact ⟨hat,by simpa using hcond⟩

theorem laid_of {ph : Phdr} (h : phdrAt data ehdr k = some ph) (ht : ph.type = PT_LOAD)
    (hc : ph.Checked L memsize) : laid L memsize data ehdr k = some ph :=
  Option.filter_eq_some_iff.mpr ⟨h,by simp [ht,hc]⟩

-- What loadPhdrs does with the next header.
theorem loadPhdrs_turn (k : Nat) (ks : List Nat) (hsz : ehdr.phentsize = Phdr.size)
    (hd : s.file.data = data) (hm : sdbMemsize s.mem = memsize) :
    ∃ n, (GoesOn L memsize data ehdr k → loadPhdrs L ehdr (k :: ks) s =
        loadPhdrs L ehdr ks ((s.reading n).lay data (laid L memsize data ehdr k))) ∧
      (¬ GoesOn L memsize data ehdr k → ∃ e, loadPhdrs L ehdr (k :: ks) s =
        (.error e,(s.reading n).lay data (laid L memsize data ehdr k))) := by
  subst hd hm
  have hpos : 0 < ehdr.phentsize := by rw [hsz]; decide
  have hseek : ¬ (flFseek s.file (wrap (ehdr.phoff + k * ehdr.phentsize))).1 ≠ 0 :=
    not_not_intro rfl
  have hread : ({ s with file := (flFread (flFseek s.file (wrap (ehdr.phoff + k *
      ehdr.phentsize))).2 ehdr.phentsize).2.2 } : Loader) = _ :=
    Loader.reading_of flFread_seek_data
  rw [loadPhdrs]
  dsimp only
  rw [if_neg hseek,hread]
  generalize (flFread (flFseek s.file (wrap (ehdr.phoff + k * ehdr.phentsize))).2
    ehdr.phentsize).2.2.bytenum = n
  cases hat : phdrAt s.file.data ehdr k with
  | none =>
    have hlaid : laid L (sdbMemsize s.mem) s.file.data ehdr k = none := by
      rw [laid,hat]
      rfl
    have hstop : ¬ GoesOn L (sdbMemsize s.mem) s.file.data ehdr k := by
      rintro ⟨ph,hph,-⟩
      rw [hat] at hph
      cases hph
    rw [if_pos (flFread_seek_none hpos (Option.map_eq_none_iff.mp hat)),hlaid]
    exact ⟨n,fun h => absurd h hstop,fun _ => ⟨_,rfl⟩⟩
  | some ph =>
    have hs := phdrAt_sized hat
    obtain ⟨bs,hbs,hph⟩ := Option.map_eq_some_iff.mp hat
    obtain ⟨hcount,hbytes⟩ := flFread_seek_some hpos hbs
    have hgo : GoesOn L (sdbMemsize s.mem) s.file.data ehdr k ↔
        (ph.type = PT_LOAD → ph.Passes L (sdbMemsize s.mem) s.file.data) := by
      rw [GoesOn,hat]
      simp
    rw [if_neg (not_not_intro hcount),hbytes,hph,hgo]
    by_cases ht : ph.type = PT_LOAD
    · rw [if_pos ht]
      by_cases hc : ph.Checked L (sdbMemsize s.mem)
      · rw [laid_of hat ht hc]
        obtain ⟨res,n',hload,hok⟩ := Phdr.phdrLoad_checked (s := s.reading n) hs hc
        rw [hload]
        refine ⟨n',fun h => ?_,fun h => ?_⟩
        · rw [hok.mpr (h ht)]
          rfl
        · cases res with
          | error e => exact ⟨e,rfl⟩
          | ok u => exact absurd (fun _ => hok.mp rfl) h
      · have hlaid : laid L (sdbMemsize s.mem) s.file.data ehdr k = none := by
          rw [laid,hat]
          simp [hc]
        obtain ⟨e,hload⟩ := Phdr.phdrLoad_unchecked (s := s.reading n) hc
        rw [hload,hlaid]
        exact ⟨n,fun h => absurd (h ht).checked hc,fun _ => ⟨e,rfl⟩⟩
    · have hlaid : laid L (sdbMemsize s.mem) s.file.data ehdr k = none := by
        rw [laid,hat]
        simp [ht]
      rw [if_neg ht,hlaid]
      exact ⟨n,fun _ => rfl,fun h => absurd (fun hl => absurd hl ht) h⟩

-- The segments that are stored on the way through the headers `ks` leave reserved memory alone.
def Confined (L : Stage2) (memsize : Nat) (data : List UInt8) (ehdr : Ehdr) : List Nat → Prop
  | [] => True
  | k :: ks => (∀ ph, laid L memsize data ehdr k = some ph → ph.Safe L memsize data) ∧
      (GoesOn L memsize data ehdr k → Confined L memsize data ehdr ks)

theorem confined_range (a n : Nat) : Confined L memsize data ehdr (List.range' a n) ↔
    ∀ k, a ≤ k → k < a + n → (∀ j, a ≤ j → j < k → GoesOn L memsize data ehdr j) →
      ∀ ph, laid L memsize data ehdr k = some ph → ph.Safe L memsize data := by
  induction n generalizing a with
  | zero =>
    refine ⟨fun _ k h1 h2 => ?_,fun _ => trivial⟩
    omega
  | succ n ih =>
    rw [List.range'_succ,Confined,ih]
    constructor
    · rintro ⟨hhead,htail⟩ k h1 h2 hgo
      rcases Nat.eq_or_lt_of_le h1 with rfl | hlt
      · exact hhead
      · exact htail (hgo a le_rfl hlt) k hlt (by omega) (fun j hj hk => hgo j (by omega) hk)
    · intro h
      refine ⟨h a le_rfl (by omega) (fun j h1 h2 => absurd h1 (by omega)),fun hgo k h1 h2 hk => ?_⟩
      refine h k (by omega) (by omega) (fun j hj hlt => ?_)
      rcases Nat.eq_or_lt_of_le hj with rfl | hlt'
      · exact hgo
      · exact hk j hlt' hlt

namespace Loader

theorem lay_data (o : Option Phdr) : (s.lay data o).file = s.file := by
  cases o with
  | none => rfl
  | some ph => rfl

theorem lay_kernelEntry (o : Option Phdr) : (s.lay data o).kernelEntry = s.kernelEntry := by
  cases o with
  | none => rfl
  | some ph => rfl

theorem lay_stored (o : Option Phdr) : s.stored <+: (s.lay data o).stored := by
  cases o with
  | none => exact List.prefix_rfl
  | some ph => exact List.prefix_append _ _

theorem lay_spares (hl : laid L memsize data ehdr k = o) (h : s.Spares L memsize) :
    (s.lay data o).Spares L memsize ↔ ∀ ph, o = some ph → ph.Safe L memsize data := by
  cases o with
  | none => exact ⟨fun _ ph hph => (nomatch hph),fun _ => h⟩
  | some ph =>
    obtain ⟨hat,-,hc⟩ := laid_eq hl
    have hiff : ph.Safe L memsize data ↔ _ := Phdr.safe_iff (phdrAt_sized hat) hc
    constructor
    · intro hsp ph' hph
      cases hph
      exact hiff.mpr (fun a ha => hsp a (List.mem_append_right _ ha))
    · intro hsafe a ha
      rcases List.mem_append.mp ha with ha | ha
      · exact h a ha
      · exact hiff.mp (hsafe ph rfl) a ha

-- The size of memory is kept where nothing is stored to.
theorem lay_memsize (h : (s.lay data o).Spares L memsize) :
    sdbMemsize (s.lay data o).mem = sdbMemsize s.mem := by
  cases o with
  | none => rfl
  | some ph =>
    refine Mem.readL_congr (fun x h1 h2 => storeList_off (fun hx => ?_))
    exact h x (List.mem_append_right _ hx) (.inl (by omega))

end Loader

theorem loadPhdrs_stored (hsz : ehdr.phentsize = Phdr.size) (hd : s.file.data = data) :
    s.stored <+: (loadPhdrs L ehdr ks s).2.stored := by
  induction ks generalizing s with
  | nil => exact List.prefix_rfl
  | cons k ks ih =>
    obtain ⟨n,hgo,hstop⟩ := loadPhdrs_turn k ks hsz hd rfl
    have hlay : s.stored <+:
        ((s.reading n).lay data (laid L (sdbMemsize s.mem) data ehdr k)).stored :=
      Loader.lay_stored (s := s.reading n) _
    by_cases h : GoesOn L (sdbMemsize s.mem) data ehdr k
    · rw [hgo h]
      exact hlay.trans (ih (by rw [Loader.lay_data]; exact hd))
    · obtain ⟨e,he⟩ := hstop h
      rw [he]
      exact hlay

theorem loadPhdrs_kernelEntry (ks : List Nat) (hsz : ehdr.phentsize = Phdr.size)
    (hd : s.file.data = data) : (loadPhdrs L ehdr ks s).2.kernelEntry = s.kernelEntry := by
  induction ks generalizing s with
  | nil => rfl
  | cons k ks ih =>
    obtain ⟨n,hgo,hstop⟩ := loadPhdrs_turn k ks hsz hd rfl
    by_cases h : GoesOn L (sdbMemsize s.mem) data ehdr k
    · rw [hgo h,ih (by rw [Loader.lay_data]; exact hd),Loader.lay_kernelEntry]
      rfl
    · obtain ⟨e,he⟩ := hstop h
      rw [he,Loader.lay_kernelEntry]
      rfl

-- By induction on the headers: the size of memory is the first one until something reserved is
-- stored to, and what has been stored stays so.
theorem loadPhdrs_spares (hsz : ehdr.phentsize = Phdr.size) (hd : s.file.data = data)
    (hm : sdbMemsize s.mem = memsize) (h : s.Spares L memsize) :
    (loadPhdrs L ehdr ks s).2.Spares L memsize ↔ Confined L memsize data ehdr ks := by
  induction ks generalizing s with
  | nil => exact ⟨fun _ => trivial,fun _ => h⟩
  | cons k ks ih =>
    obtain ⟨n,hgo,hstop⟩ := loadPhdrs_turn (L := L) k ks hsz hd hm
    have hsafe := Loader.lay_spares (s := s.reading n) (o := laid L memsize data ehdr k) rfl h
    have hdata : ((s.reading n).lay data (laid L memsize data ehdr k)).file.data = data := by
      rw [Loader.lay_data]
      exact hd
    by_cases hg : GoesOn L memsize data ehdr k
    · rw [hgo hg,Confined,← hsafe]
      constructor
      · intro hall
        have hlay : ((s.reading n).lay data (laid L memsize data ehdr k)).Spares L memsize :=
          fun a ha => hall a ((loadPhdrs_stored hsz hdata).subset ha)
        exact ⟨hlay,fun _ => (ih hdata ((Loader.lay_memsize hlay).trans hm) hlay).mp hall⟩
      · rintro ⟨hlay,hrest⟩
        exact (ih hdata ((Loader.lay_memsize hlay).trans hm) hlay).mpr (hrest hg)
    · obtain ⟨e,he⟩ := hstop hg
      rw [he,Confined,← hsafe]
      exact ⟨fun hlay => ⟨hlay,fun hno => absurd hno hg⟩,fun hlay => hlay.1⟩

end Phdrs

section Load

variable {data : List UInt8} {m : Mem} {entry : Nat} {ehdr : Ehdr}

-- The ELF header is read where the file has been opened.
theorem start_seek : (flFseek (Loader.start data m entry).file 0).2 =
    (Loader.start data m entry).file := by
  rw [flFseek,Loader.start,Nat.zero_min]

theorem start_reading : ({ Loader.start data m entry with
      file := (flFread (Loader.start data m entry).file Ehdr.size).2.2 } : Loader) =
    (Loader.start data m entry).reading
      (flFread (Loader.start data m entry).file Ehdr.size).2.2.bytenum := by
  refine Loader.reading_of ?_
  rw [← start_seek]
  exact flFread_seek_data

theorem loadKernelElf_none (L : Stage2) (m : Mem) (entry : Nat) (h : ehdrOf data = none) :
    ∃ n, loadKernelElf L (.start data m entry) =
      (.error .readEhdr,(Loader.start data m entry).reading n) := by
  have hread := flFread_seek_none (f := (Loader.start data m entry).file) (by decide)
    (Option.map_eq_none_iff.mp h)
  rw [start_seek] at hread
  rw [loadKernelElf]
  dsimp only
  rw [if_pos hread,start_reading]
  exact ⟨_,rfl⟩

theorem loadKernelElf_some (L : Stage2) (m : Mem) (entry : Nat) (h : ehdrOf data = some ehdr) :
    ∃ n, loadKernelElf L (.start data m entry) =
      match validateEhdr ehdr with
      | .error e => (.error e,(Loader.start data m entry).reading n)
      | .ok () =>
        match loadPhdrs L ehdr (List.range ehdr.phnum) ((Loader.start data m entry).reading n) with
        | (.error e,s) => (.error e,s)
        | (.ok (),s) =>
          if ehdr.entry ≠ 0 then (.ok (),{ s with kernelEntry := ehdr.entry })
          else (.error .noEntry,s) := by
  obtain ⟨bs,hbs,rfl⟩ := Option.map_eq_some_iff.mp h
  obtain ⟨hcount,hbytes⟩ :=
    flFread_seek_some (f := (Loader.start data m entry).file) (by decide) hbs
  rw [start_seek] at hcount hbytes
  rw [loadKernelElf]
  dsimp only
  rw [if_neg (not_not_intro hcount),hbytes,start_reading]
  exact ⟨_,rfl⟩

end Load
end RoscoM68k
