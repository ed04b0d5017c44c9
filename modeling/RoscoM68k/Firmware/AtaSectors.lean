import RoscoM68k.Firmware.Ata

namespace RoscoM68k

-- The drive serves `n` sectors one after the other.
def SectorsServed (st : Nat → UInt16) (p : Nat) : Nat → Nat → Prop
  | 0, q => q = p
  | n + 1, q => ∃ r, SectorsServed st p n r ∧ SectorServed st r q

-- It comes to the sector after `j` others, and gets ready for its command.
def Turn (st : Nat → UInt16) (p j : Nat) : Prop := ∃ q, SectorsServed st p j q ∧ GetsReady st q

-- The drive times out or reports an error on the sector after `j` others.
def Breaks (st : Nat → UInt16) (p j : Nat) : Prop :=
  ∃ q, SectorsServed st p j q ∧ ∀ q', ¬ SectorServed st q q'

-- The commands are for the sectors from `lba` on, in order, as many as are transferred and perhaps
-- the one that is not; and all are transferred, unless there is a reason.
structure SectorsRight (code : UInt16) (s : AtaBus) (lba num : UInt32) (drive : UInt8)
    (r : UInt32 × AtaBus) : Prop where
  count : r.1 ≤ num
  commands : ∃ m, r.1.toNat ≤ m ∧ m ≤ r.1.toNat + 1 ∧ m ≤ num.toNat ∧
    r.2.commands = s.commands ++ (List.range m).map fun i => ⟨code,drive.toNat,lba.toNat + i,1⟩
  complete : r.1 = num ∨ (drive ≠ ATA_MASTER ∧ drive ≠ ATA_SLAVE) ∨
    268435456 ≤ lba.toNat + r.1.toNat ∨ Breaks s.status s.polls r.1.toNat

-- The sectors are in consecutive pieces of the buffer.
structure ReadRight (s : AtaBus) (buf : Nat) (lba num : UInt32) (drive : UInt8)
    (r : UInt32 × AtaBus) : Prop extends SectorsRight ATA_CMD_READ_PIO s lba num drive r where
  mem : r.2.mem = overlay s.mem buf
    ((List.range r.1.toNat).flatMap fun i => slice (s.disk drive.toNat (lba.toNat + i)) 0 512)
  disk : r.2.disk = s.disk

-- The pieces of the buffer are in the sectors, and no other sector is touched.
structure WriteRight (s : AtaBus) (buf : Nat) (lba num : UInt32) (drive : UInt8)
    (r : UInt32 × AtaBus) : Prop extends SectorsRight ATA_CMD_WRITE_PIO s lba num drive r where
  mem : r.2.mem = s.mem
  disk : r.2.disk = fun d n =>
    if d = drive.toNat ∧ lba.toNat ≤ n ∧ n < lba.toNat + r.1.toNat then
      overlay (s.disk d n) 0 (slice s.mem (buf + (n - lba.toNat) * 512) 512)
    else s.disk d n

-- Every sector whose turn comes has a number of 28 bits.
def Addressable (s : AtaBus) (lba num : UInt32) (drive : UInt8) : Prop :=
  drive = ATA_MASTER ∨ drive = ATA_SLAVE →
    ∀ j < num.toNat, Turn s.status s.polls j → lba.toNat + j < 268435456

section Served

variable {st : Nat → UInt16} {p q q' i j : Nat}

theorem SectorsServed.unique (h : SectorsServed st p j q) (h' : SectorsServed st p j q') :
    q = q' := by
  induction j generalizing q q' with
  | zero => exact h.trans h'.symm
  | succ j ih =>
    obtain ⟨r,hr,hq⟩ := h
    obtain ⟨r',hr',hq'⟩ := h'
    obtain rfl := ih hr hr'
    exact hq.unique hq'

theorem SectorsServed.shorter (h : SectorsServed st p j q) (hi : i ≤ j) :
    ∃ q, SectorsServed st p i q := by
  induction j generalizing q with
  | zero =>
    obtain rfl : i = 0 := by omega
    exact ⟨q,h⟩
  | succ j ih =>
    by_cases hlast : i = j + 1
    · exact ⟨q,hlast ▸ h⟩
    · obtain ⟨r,hr,-⟩ := h
      exact ih hr (by omega)

-- Where the drive breaks, there is no later turn.
theorem Breaks.no_turn (h : Breaks st p i) (hj : i < j) : ¬ Turn st p j := by
  rintro ⟨q,hq,-⟩
  obtain ⟨r,hr,hnone⟩ := h
  obtain ⟨q',r',hr',hserved⟩ := hq.shorter (show i + 1 ≤ j from hj)
  obtain rfl := hr.unique hr'
  exact hnone q' hserved

theorem GetsReady.of_served (h : SectorServed st p q) : GetsReady st p := by
  obtain ⟨a,-,-,ha,-⟩ := h
  exact ⟨a,ha⟩

end Served

section Runs

variable {s t : AtaBus} {code : UInt16} {transfer : AtaBus → Nat → AtaBus} {buf i n : Nat}
  {lba num : UInt32} {drive : UInt8} {P : Nat → AtaBus → Prop}

-- The commands that are sent for `m` sectors.
def sectorCommands (code : UInt16) (lba : UInt32) (drive : UInt8) (m : Nat) : List AtaCommand :=
  (List.range m).map fun i => sectorCommand code (lba.toNat + i) drive

theorem sectorCommands_succ (code : UInt16) (lba : UInt32) (drive : UInt8) (m : Nat) :
    sectorCommands code lba drive (m + 1) =
      sectorCommands code lba drive m ++ [sectorCommand code (lba.toNat + m) drive] := by
  rw [sectorCommands,List.range_succ,List.map_append]
  rfl

-- The state `t` after `i` sectors that have been transferred, with something that holds of it.
structure Transferred (s : AtaBus) (code : UInt16) (lba : UInt32) (drive : UInt8)
    (P : Nat → AtaBus → Prop) (i : Nat) (t : AtaBus) : Prop where
  status : t.status = s.status
  served : SectorsServed s.status s.polls i t.polls
  turns : ∀ j < i, Turn s.status s.polls j
  commands : t.commands = s.commands ++ sectorCommands code lba drive i
  holds : P i t

-- How the loop ends, after `k` sectors and with `m` commands.
structure Ended (s : AtaBus) (code : UInt16) (lba num : UInt32) (drive : UInt8)
    (P : Nat → AtaBus → Prop) (k m : Nat) (r : UInt32 × AtaBus) : Prop where
  count : r.1.toNat = k
  sent : k ≤ m ∧ m ≤ k + 1 ∧ m ≤ num.toNat
  commands : r.2.commands = s.commands ++ sectorCommands code lba drive m
  turns : ∀ j < num.toNat, Turn s.status s.polls j → j < m
  came : ∀ j < m, Turn s.status s.polls j
  complete : k = num.toNat ∨ Breaks s.status s.polls k
  holds : P k r.2

theorem sectors_ended (hdrive : drive = ATA_MASTER ∨ drive = ATA_SLAVE) (ht : DataOnly transfer)
    (hlba : lba.toNat + num.toNat ≤ 4294967296)
    (hkeep : ∀ j s t, t.mem = s.mem → t.disk = s.disk → P j s → P j t)
    (hstep : ∀ j t, j < num.toNat → Turn s.status s.polls j → P j t → t.drive = drive.toNat →
      t.sector = (lba.toNat + j) % 268435456 → t.word = 0 →
      P (j + 1) (transfer t (buf + 512 * j)))
    (hn : i + n = num.toNat) (h : Transferred s code lba drive P i t) :
    ∃ k m, Ended s code lba num drive P k m
      (AtaBus.sectors (AtaBus.ataOne code transfer) lba num drive t (buf + 512 * i)
        (UInt32.ofNat i) n) := by
  have hnum := num.toNat_lt
  induction n generalizing i t with
  | zero =>
    have hend : i = num.toNat := hn
    exact ⟨i,i,hend.symm,⟨le_rfl,Nat.le_succ i,hend.le⟩,h.commands,fun j hj _ => hend ▸ hj,
      h.turns,.inl hend,h.holds⟩
  | succ n ih =>
    have hindex : (UInt32.ofNat i).toNat = i := by
      rw [UInt32.toNat_ofNat']
      exact Nat.mod_eq_of_lt (by omega)
    have hsector : (lba + UInt32.ofNat i).toNat = lba.toNat + i := by
      rw [UInt32.toNat_add,hindex]
      exact Nat.mod_eq_of_lt (by omega)
    have hspec := ataOne_spec t (buf + 512 * i) (lba + UInt32.ofNat i) code hdrive ht
    rw [h.status,hsector] at hspec
    rw [AtaBus.sectors]
    obtain ⟨hnot,p,hone⟩ | ⟨hready,u,hc,⟨q,hserved,hone⟩ | ⟨hnone,hone⟩⟩ := hspec
    · have hbreaks : Breaks s.status s.polls i :=
        ⟨t.polls,h.served,fun q' hq' => hnot (.of_served hq')⟩
      rw [hone]
      refine ⟨i,i,hindex,⟨le_rfl,Nat.le_succ i,by omega⟩,h.commands,fun j hj hturn => ?_,h.turns,
        .inr hbreaks,hkeep i t _ rfl rfl h.holds⟩
      -- The sector at which the drive does not get ready has no turn either.
      by_contra hge
      obtain rfl | hlater : j = i ∨ i < j := by omega
      · obtain ⟨q,hq,hgets⟩ := hturn
        obtain rfl := hq.unique h.served
        exact hnot hgets
      · exact hbreaks.no_turn hlater hturn
    · have hturn : Turn s.status s.polls i := ⟨t.polls,h.served,hready⟩
      have hpiece : buf + 512 * i + 512 = buf + 512 * (i + 1) := by omega
      have hnext : UInt32.ofNat i + 1 = UInt32.ofNat (i + 1) := (UInt32.ofNat_add i 1).symm
      have hholds := hstep i u (by omega) hturn (hkeep i t u hc.mem hc.disk h.holds) hc.drive
        hc.sector hc.word
      have hmore : Transferred s code lba drive P (i + 1)
          ((transfer u (buf + 512 * i)).atPoll q) := by
        refine ⟨(ht.status u _).trans (hc.status.trans h.status),⟨t.polls,h.served,hserved⟩,
          fun j hj => ?_,?_,hkeep (i + 1) (transfer u (buf + 512 * i)) _ rfl rfl hholds⟩
        · obtain hlt | rfl := Nat.lt_succ_iff_lt_or_eq.mp hj
          · exact h.turns j hlt
          · exact hturn
        · rw [sectorCommands_succ,← List.append_assoc,← h.commands]
          exact (ht.commands u _).trans hc.commands
      rw [hone]
      dsimp only
      rw [if_neg (by decide),hpiece,hnext]
      exact ih (by omega) hmore
    · have hturn : Turn s.status s.polls i := ⟨t.polls,h.served,hready⟩
      have hbreaks : Breaks s.status s.polls i := ⟨t.polls,h.served,hnone⟩
      rw [hone]
      refine ⟨i,i + 1,hindex,⟨Nat.le_succ i,le_rfl,by omega⟩,?_,fun j hj hj' => ?_,fun j hj => ?_,
        .inr hbreaks,hkeep i t u hc.mem hc.disk h.holds⟩
      · rw [sectorCommands_succ,← List.append_assoc,← h.commands]
        exact hc.commands
      · by_contra hge
        exact hbreaks.no_turn (by omega) hj'
      · obtain hlt | rfl := Nat.lt_succ_iff_lt_or_eq.mp hj
        · exact h.turns j hlt
        · exact hturn

-- The drive selection before the loop has to do with the registers alone.
theorem ataSelectDrive_eq (s : AtaBus) (drive : UInt8) : ∃ devsel selectedDrive,
    s.ataSelectDrive drive = { s with
      devsel := devsel
      selectedDrive := selectedDrive } := by
  rw [AtaBus.ataSelectDrive]
  split
  · exact ⟨_,_,rfl⟩
  · exact ⟨s.devsel,s.selectedDrive,rfl⟩

theorem sectors_run (s : AtaBus) (buf : Nat) (code : UInt16) (P : Nat → AtaBus → Prop)
    (hdrive : drive = ATA_MASTER ∨ drive = ATA_SLAVE) (ht : DataOnly transfer)
    (hlba : lba.toNat + num.toNat ≤ 4294967296)
    (hkeep : ∀ j s t, t.mem = s.mem → t.disk = s.disk → P j s → P j t)
    (hstep : ∀ j t, j < num.toNat → Turn s.status s.polls j → P j t → t.drive = drive.toNat →
      t.sector = (lba.toNat + j) % 268435456 → t.word = 0 →
      P (j + 1) (transfer t (buf + 512 * j)))
    (h : P 0 s) :
    ∃ k m, Ended s code lba num drive P k m (AtaBus.sectors (AtaBus.ataOne code transfer) lba num
      drive (s.ataSelectDrive drive) buf 0 num.toNat) := by
  obtain ⟨devsel,selectedDrive,hselect⟩ := ataSelectDrive_eq s drive
  have hstart : Transferred s code lba drive P 0 (s.ataSelectDrive drive) := by
    rw [hselect]
    exact ⟨rfl,rfl,fun j hj => absurd hj (Nat.not_lt_zero j),(List.append_nil _).symm,
      hkeep 0 s _ rfl rfl h⟩
  exact sectors_ended (i := 0) hdrive ht hlba hkeep hstep (Nat.zero_add _) hstart

theorem sectorCommands_exact {m m' : Nat} : sectorCommands code lba drive m =
    ((List.range m').map fun i => ⟨code,drive.toNat,lba.toNat + i,1⟩) ↔
      m = m' ∧ ∀ j < m, lba.toNat + j < 268435456 := by
  constructor
  · intro h
    obtain rfl : m = m' := by
      have hlength := congrArg List.length h
      rwa [sectorCommands,List.length_map,List.length_map,List.length_range,
        List.length_range] at hlength
    refine ⟨rfl,fun j hj => ?_⟩
    have hj' := List.map_inj_left.mp h j (List.mem_range.mpr hj)
    have hsector : (lba.toNat + j) % 268435456 = lba.toNat + j := (AtaCommand.mk.inj hj').2.2.1
    omega
  · rintro ⟨rfl,h⟩
    refine List.map_congr_left fun j hj => ?_
    have hlow := h j (List.mem_range.mp hj)
    rw [sectorCommand,Nat.mod_eq_of_lt hlow]

-- The commands are right just when the sectors whose turn came can be addressed.
theorem Ended.right_iff {k m : Nat} {r : UInt32 × AtaBus}
    (h : Ended s code lba num drive P k m r) : SectorsRight code s lba num drive r ↔
      ∀ j < num.toNat, Turn s.status s.polls j → lba.toNat + j < 268435456 := by
  constructor
  · intro hright j hj hturn
    obtain ⟨m',-,-,-,hsent⟩ := hright.commands
    have hexact := List.append_cancel_left (h.commands.symm.trans hsent)
    exact (sectorCommands_exact.mp hexact).2 j (h.turns j hj hturn)
  · intro hlow
    obtain ⟨hk,hm,hnum⟩ := h.sent
    have hexact : sectorCommands code lba drive m =
        ((List.range m).map fun i => ⟨code,drive.toNat,lba.toNat + i,1⟩) :=
      sectorCommands_exact.mpr ⟨rfl,fun j hj => hlow j (by omega) (h.came j hj)⟩
    refine ⟨UInt32.le_iff_toNat_le.mpr (by rw [h.count]; omega),⟨m,?_,?_,hnum,?_⟩,?_⟩
    · rwa [h.count]
    · rwa [h.count]
    · rw [h.commands,hexact]
    · rw [h.count]
      exact h.complete.imp (fun hall => UInt32.toNat_inj.mp (h.count.trans hall))
        fun hbreaks => .inr (.inr hbreaks)

theorem sectors_low (hdrive : drive = ATA_MASTER ∨ drive = ATA_SLAVE) (ht : DataOnly transfer)
    (hlba : lba.toNat + num.toNat ≤ 4294967296)
    (h : SectorsRight code s lba num drive (AtaBus.sectors (AtaBus.ataOne code transfer) lba num
      drive (s.ataSelectDrive drive) buf 0 num.toNat)) :
    ∀ j < num.toNat, Turn s.status s.polls j → lba.toNat + j < 268435456 := by
  obtain ⟨k,m,hend⟩ := sectors_run s buf code (fun _ _ => True) hdrive ht hlba
    (fun _ _ _ _ _ _ => trivial) (fun _ _ _ _ _ _ _ _ => trivial) trivial
  exact hend.right_iff.mp h

end Runs

section Contents

variable {s : AtaBus} {buf : Nat} {lba num : UInt32} {drive : UInt8}

theorem readSector_eq (s : AtaBus) (buf : Nat) (h : s.word = 0) : s.readSector buf =
    { s with
      word := 256
      mem := overlay s.mem buf (slice (s.disk s.drive s.sector) 0 512) } := by
  rw [AtaBus.readSector,readWords_eq,h]
  simp only [Nat.zero_mul,Nat.mul_zero,Nat.add_zero,Nat.zero_add,Nat.reduceMul]

theorem writeSector_eq (s : AtaBus) (buf : Nat) (h : s.word = 0) : s.writeSector buf =
    { s with
      word := 256
      disk := laidOver s.disk s.drive s.sector 0 (slice s.mem buf 512) } := by
  rw [AtaBus.writeSector,writeWords_eq,h]
  simp only [Nat.zero_mul,Nat.mul_zero,Nat.add_zero,Nat.zero_add,Nat.reduceMul]

theorem readSector_dataOnly : DataOnly AtaBus.readSector where
  status s buf := by rw [AtaBus.readSector,readWords_eq]
  polls s buf := by rw [AtaBus.readSector,readWords_eq]
  commands s buf := by rw [AtaBus.readSector,readWords_eq]

theorem writeSector_dataOnly : DataOnly AtaBus.writeSector where
  status s buf := by rw [AtaBus.writeSector,writeWords_eq]
  polls s buf := by rw [AtaBus.writeSector,writeWords_eq]
  commands s buf := by rw [AtaBus.writeSector,writeWords_eq]

-- The bytes of the sectors from `lba` on, `k` of them.
def sectorBytes (s : AtaBus) (lba : UInt32) (drive : UInt8) (k : Nat) : List UInt8 :=
  (List.range k).flatMap fun i => slice (s.disk drive.toNat (lba.toNat + i)) 0 512

theorem sectorBytes_succ (s : AtaBus) (lba : UInt32) (drive : UInt8) (k : Nat) :
    sectorBytes s lba drive (k + 1) =
      sectorBytes s lba drive k ++ slice (s.disk drive.toNat (lba.toNat + k)) 0 512 := by
  rw [sectorBytes,List.range_succ,List.flatMap_append,List.flatMap_singleton]
  rfl

theorem sectorBytes_length (s : AtaBus) (lba : UInt32) (drive : UInt8) (k : Nat) :
    (sectorBytes s lba drive k).length = 512 * k := by
  induction k with
  | zero => rfl
  | succ k ih =>
    rw [sectorBytes_succ,List.length_append,ih,slice_length]
    omega

-- The disks after the pieces of the buffer have been written to `k` sectors.
def written (s : AtaBus) (buf : Nat) (lba : UInt32) (drive : UInt8) (k : Nat) : Nat → Nat → Mem :=
  fun d n =>
    if d = drive.toNat ∧ lba.toNat ≤ n ∧ n < lba.toNat + k then
      overlay (s.disk d n) 0 (slice s.mem (buf + (n - lba.toNat) * 512) 512)
    else s.disk d n

theorem written_zero (s : AtaBus) (buf : Nat) (lba : UInt32) (drive : UInt8) :
    written s buf lba drive 0 = s.disk := by
  funext d n
  exact if_neg fun ⟨_,hle,hlt⟩ => by omega

theorem written_succ (s : AtaBus) (buf : Nat) (lba : UInt32) (drive : UInt8) (k : Nat) :
    laidOver (written s buf lba drive k) drive.toNat (lba.toNat + k) 0
      (slice s.mem (buf + 512 * k) 512) = written s buf lba drive (k + 1) := by
  funext d n
  rw [laidOver]
  by_cases hlast : d = drive.toNat ∧ n = lba.toNat + k
  · obtain ⟨rfl,rfl⟩ := hlast
    have hbefore : ¬ (drive.toNat = drive.toNat ∧ lba.toNat ≤ lba.toNat + k ∧
        lba.toNat + k < lba.toNat + k) := fun h => Nat.lt_irrefl _ h.2.2
    have hafter : drive.toNat = drive.toNat ∧ lba.toNat ≤ lba.toNat + k ∧
        lba.toNat + k < lba.toNat + (k + 1) := ⟨rfl,by omega,by omega⟩
    have hpiece : (lba.toNat + k - lba.toNat) * 512 = 512 * k := by
      rw [Nat.add_sub_cancel_left,Nat.mul_comm]
    rw [if_pos ⟨rfl,rfl⟩,written,written,if_neg hbefore,if_pos hafter,hpiece]
  · have hsame : (d = drive.toNat ∧ lba.toNat ≤ n ∧ n < lba.toNat + k) ↔
        (d = drive.toNat ∧ lba.toNat ≤ n ∧ n < lba.toNat + (k + 1)) := by
      constructor
      · rintro ⟨hd,hle,hlt⟩
        exact ⟨hd,hle,by omega⟩
      · rintro ⟨hd,hle,hlt⟩
        refine ⟨hd,hle,?_⟩
        by_contra hn
        exact hlast ⟨hd,by omega⟩
    rw [if_neg hlast,written,written]
    exact if_congr hsame rfl rfl

-- Both loops are right, the one as the other, just when their sectors can be addressed.
theorem read_right_iff (s : AtaBus) (buf : Nat) (hlba : lba.toNat + num.toNat ≤ 4294967296)
    (hdrive : drive = ATA_MASTER ∨ drive = ATA_SLAVE) :
    ReadRight s buf lba num drive (s.ataRead buf lba num drive) ↔
      ∀ j < num.toNat, Turn s.status s.polls j → lba.toNat + j < 268435456 := by
  constructor
  · exact fun h => sectors_low hdrive readSector_dataOnly hlba h.toSectorsRight
  · intro hlow
    obtain ⟨k,m,hend⟩ := sectors_run s buf ATA_CMD_READ_PIO
      (fun j t => t.disk = s.disk ∧ t.mem = overlay s.mem buf (sectorBytes s lba drive j))
      hdrive readSector_dataOnly hlba
      (fun j t u hmem hdisk hp => ⟨hdisk.trans hp.1,hmem.trans hp.2⟩)
      (fun j t hj hturn hp hd hsector hword => by
        have hmod := Nat.mod_eq_of_lt (hlow j hj hturn)
        rw [readSector_eq t _ hword,hp.1,hp.2,hd,hsector,hmod,sectorBytes_succ]
        refine ⟨rfl,?_⟩
        rw [← sectorBytes_length s lba drive j,overlay_append])
      ⟨rfl,(overlay_nil _ _).symm⟩
    refine ⟨hend.right_iff.mpr hlow,?_,hend.holds.1⟩
    have hmem := hend.holds.2
    rw [← hend.count] at hmem
    exact hmem

theorem write_right_iff (s : AtaBus) (buf : Nat) (hlba : lba.toNat + num.toNat ≤ 4294967296)
    (hdrive : drive = ATA_MASTER ∨ drive = ATA_SLAVE) :
    WriteRight s buf lba num drive (s.ataWrite buf lba num drive) ↔
      ∀ j < num.toNat, Turn s.status s.polls j → lba.toNat + j < 268435456 := by
  constructor
  · exact fun h => sectors_low hdrive writeSector_dataOnly hlba h.toSectorsRight
  · intro hlow
    obtain ⟨k,m,hend⟩ := sectors_run s buf ATA_CMD_WRITE_PIO
      (fun j t => t.mem = s.mem ∧ t.disk = written s buf lba drive j)
      hdrive writeSector_dataOnly hlba
      (fun j t u hmem hdisk hp => ⟨hmem.trans hp.1,hdisk.trans hp.2⟩)
      (fun j t hj hturn hp hd hsector hword => by
        have hmod := Nat.mod_eq_of_lt (hlow j hj hturn)
        rw [writeSector_eq t _ hword,hp.1,hp.2,hd,hsector,hmod]
        exact ⟨rfl,written_succ s buf lba drive j⟩)
      ⟨rfl,(written_zero s buf lba drive).symm⟩
    refine ⟨hend.right_iff.mpr hlow,hend.holds.1,?_⟩
    have hdisk := hend.holds.2
    rw [← hend.count] at hdisk
    exact hdisk

-- For a drive there is not, nothing is done at all.
theorem sectors_no_drive {code : UInt16} {transfer : AtaBus → Nat → AtaBus} (t : AtaBus)
    (hdrive : drive ≠ ATA_MASTER ∧ drive ≠ ATA_SLAVE) :
    AtaBus.sectors (AtaBus.ataOne code transfer) lba num drive t buf 0 num.toNat = (0,t) := by
  obtain ⟨n,hn⟩ : ∃ n, num.toNat = n := ⟨_,rfl⟩
  rw [hn]
  cases n with
  | zero =>
    obtain rfl : num = 0 := UInt32.toNat_inj.mp hn
    rfl
  | succ n =>
    rw [AtaBus.sectors,AtaBus.ataOne,if_pos hdrive]
    rfl

theorem none_right {code : UInt16} (s : AtaBus) (lba num : UInt32)
    (hdrive : drive ≠ ATA_MASTER ∧ drive ≠ ATA_SLAVE) :
    SectorsRight code s lba num drive (0,s.ataSelectDrive drive) := by
  obtain ⟨devsel,selectedDrive,hselect⟩ := ataSelectDrive_eq s drive
  rw [hselect]
  exact ⟨UInt32.zero_le,⟨0,le_rfl,Nat.zero_le _,Nat.zero_le _,(List.append_nil _).symm⟩,
    .inr (.inl hdrive)⟩

end Contents

theorem sectors_right (s : AtaBus) (buf : Nat) (lba num : UInt32) (dev : ATADevice)
    (hlba : lba.toNat + num.toNat ≤ 4294967296) :
    (ReadRight s buf lba num dev.deviceNum (s.ataReadSectors buf lba num dev) ↔
      Addressable s lba num dev.deviceNum) ∧
    (WriteRight s buf lba num dev.deviceNum (s.ataWriteSectors buf lba num dev) ↔
      Addressable s lba num dev.deviceNum) := by
  obtain ⟨drive⟩ := dev
  by_cases hdrive : drive = ATA_MASTER ∨ drive = ATA_SLAVE
  · have hcond : Addressable s lba num drive ↔
        ∀ j < num.toNat, Turn s.status s.polls j → lba.toNat + j < 268435456 :=
      ⟨fun h => h hdrive,fun h _ => h⟩
    exact ⟨(read_right_iff s buf hlba hdrive).trans hcond.symm,
      (write_right_iff s buf hlba hdrive).trans hcond.symm⟩
  · have hnone := not_or.mp hdrive
    have hcond : Addressable s lba num drive := fun h => absurd h hdrive
    obtain ⟨devsel,selectedDrive,hselect⟩ := ataSelectDrive_eq s drive
    have hread : s.ataReadSectors buf lba num ⟨drive⟩ = (0,s.ataSelectDrive drive) :=
      sectors_no_drive _ hnone
    have hwrite : s.ataWriteSectors buf lba num ⟨drive⟩ = (0,s.ataSelectDrive drive) :=
      sectors_no_drive _ hnone
    rw [hread,hwrite]
    refine ⟨iff_of_true ⟨none_right s lba num hnone,?_,?_⟩ hcond,
      iff_of_true ⟨none_right s lba num hnone,?_,?_⟩ hcond⟩
    · rw [hselect]
      exact (overlay_nil _ _).symm
    · rw [hselect]
    · rw [hselect]
    · rw [hselect]
      exact (written_zero s buf lba drive).symm

-- A drive that is ready and has data whenever it is asked.
def readyBus : AtaBus := ⟨0,0,0,0,0,fun _ => 0x48,0,[],0,0,0,fun _ _ _ => 0,fun _ => 0,0xff⟩

theorem sectors_right_first :
    (ReadRight readyBus 0 7 1 ATA_MASTER (readyBus.ataReadSectors 0 7 1 ⟨ATA_MASTER⟩) ↔
      Addressable readyBus 7 1 ATA_MASTER) ∧
    (WriteRight readyBus 0 7 1 ATA_MASTER (readyBus.ataWriteSectors 0 7 1 ⟨ATA_MASTER⟩) ↔
      Addressable readyBus 7 1 ATA_MASTER) :=
  sectors_right readyBus 0 7 1 ⟨ATA_MASTER⟩ (by decide)

-- The first sector without a number of 28 bits.
theorem sectors_wrong :
    ¬ ReadRight readyBus 0 0x10000000 1 ATA_MASTER
      (readyBus.ataReadSectors 0 0x10000000 1 ⟨ATA_MASTER⟩) ∧
    ¬ WriteRight readyBus 0 0x10000000 1 ATA_MASTER
      (readyBus.ataWriteSectors 0 0x10000000 1 ⟨ATA_MASTER⟩) := by
  have hready : DriveReady (readyBus.status 0) := by
    unfold DriveReady
    decide
  have hturn : Turn readyBus.status readyBus.polls 0 := ⟨0,rfl,0,.here (n := 499999) hready⟩
  have hhigh : ¬ ∀ j < (1 : UInt32).toNat, Turn readyBus.status readyBus.polls j →
      (0x10000000 : UInt32).toNat + j < 268435456 :=
    fun h => absurd (h 0 (by decide) hturn) (by decide)
  exact ⟨fun h => hhigh ((read_right_iff readyBus 0 (by decide) (.inl rfl)).mp h),
    fun h => hhigh ((write_right_iff readyBus 0 (by decide) (.inl rfl)).mp h)⟩

end RoscoM68k
