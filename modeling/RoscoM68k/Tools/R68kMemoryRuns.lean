import RoscoM68k.Tools.R68kMemory

namespace RoscoM68k
open Function

section Values

variable {s : EmuMemory} {size address data : Nat} {m : Mem} {w : Width}

theorem readWidth_eq (s : EmuMemory) (address : Nat) (w : Width) :
    s.readWidth address w =
      if address < s.size then
        (bigEndian (slice s.store address w.bytes),
          { s with accesses := s.accesses ++ List.range' address w.bytes })
      else (256 ^ w.bytes - 1,s) := by
  cases w with
  | byte => rfl
  | word =>
    rw [EmuMemory.readWidth,EmuMemory.read16,EmuMemory.read,
      byteSwap_littleEndian (slice_length s.store address 2)]
    rfl
  | long =>
    rw [EmuMemory.readWidth,EmuMemory.read32,EmuMemory.read,
      byteSwap_littleEndian (slice_length s.store address 4)]
    rfl

theorem writeWidth_eq (s : EmuMemory) (address data : Nat) (w : Width) :
    s.writeWidth address data w =
      if address < s.size then
        { s with
          store := overlay s.store address (bigBytes w.bytes data)
          accesses := s.accesses ++ List.range' address w.bytes }
      else s := by
  cases w with
  | byte => rfl
  | word =>
    rw [EmuMemory.writeWidth,EmuMemory.write16,EmuMemory.write,littleBytes_byteSwap]
    rfl
  | long =>
    rw [EmuMemory.writeWidth,EmuMemory.write32,EmuMemory.write,littleBytes_byteSwap]
    rfl

-- Outside the memory all is ones.
theorem seen_outside (h : size ≤ address) :
    bigEndian (slice (seenByte size m) address w.bytes) = 256 ^ w.bytes - 1 := by
  have hones : slice (seenByte size m) address w.bytes = slice (fun _ => 0xff) address w.bytes :=
    slice_congr fun x hx _ => if_neg (by omega)
  rw [hones]
  cases w <;> simp [Width.bytes,slice,bigEndian,littleEndian]

theorem seen_inside (h : address + w.bytes ≤ size) :
    slice (seenByte size m) address w.bytes = slice m address w.bytes :=
  slice_congr fun x _ hx => if_pos (by omega)

theorem bytes_pos (w : Width) : 0 < w.bytes := by
  cases w <;> decide

end Values

-- The store has the bytes that are meant, and only these have been accessed.
structure Backs (size : Nat) (s : EmuMemory) (m : Mem) : Prop where
  sized : s.size = size
  bytes : ∀ a < size, s.store a = m a
  inside : ∀ a ∈ s.accesses, a < size

namespace Backs

variable {size : Nat} {s : EmuMemory} {m : Mem} {op : MemoryOp} {ops : List MemoryOp}

theorem access (h : Backs size s m) {address n : Nat} (hn : n = 0 ∨ address + n ≤ size) :
    Backs size { s with accesses := s.accesses ++ List.range' address n } m := by
  refine ⟨h.sized,h.bytes,fun a ha => ?_⟩
  obtain ha | ha := List.mem_append.mp ha
  · exact h.inside a ha
  · have := List.mem_range'_1.mp ha
    omega

theorem store (h : Backs size s m) (address : Nat) (bytes : List UInt8) :
    Backs size { s with store := overlay s.store address bytes } (overlay m address bytes) :=
  ⟨h.sized,fun a ha => overlay_congr (h.bytes a ha),h.inside⟩

theorem beyond (h : Backs size s m) {address : Nat} (hout : size ≤ address) (bytes : List UInt8) :
    Backs size s (overlay m address bytes) :=
  ⟨h.sized,fun a ha => (h.bytes a ha).trans (overlay_below (by omega)).symm,h.inside⟩

theorem step (h : Backs size s m) (hop : op.Within size) :
    (s.step op).1 = (op.meant size m).1 ∧ Backs size (s.step op).2 (op.meant size m).2 := by
  have hsized := h.sized
  cases op with
  | read w address =>
    rw [EmuMemory.step,readWidth_eq,MemoryOp.meant]
    by_cases hin : address < s.size
    · have hfits : address + w.bytes ≤ size := hop (by omega)
      have hsame : slice s.store address w.bytes = slice m address w.bytes :=
        slice_congr fun x _ hx => h.bytes x (by omega)
      rw [if_pos hin,seen_inside hfits,hsame]
      exact ⟨rfl,h.access (.inr hfits)⟩
    · rw [if_neg hin,seen_outside (by omega)]
      exact ⟨rfl,h⟩
  | write w address data =>
    rw [EmuMemory.step,writeWidth_eq,MemoryOp.meant]
    by_cases hin : address < s.size
    · have hfits : address + w.bytes ≤ size := hop (by omega)
      rw [if_pos hin]
      exact ⟨rfl,(h.store address (bigBytes w.bytes data)).access (.inr hfits)⟩
    · rw [if_neg hin]
      exact ⟨rfl,h.beyond (by omega) _⟩
  | loadData baseAddr file =>
    cases file with
    | none => exact ⟨rfl,h⟩
    | some bytes =>
      rw [EmuMemory.step,EmuMemory.loadData,MemoryOp.meant]
      by_cases hlong : s.size < bytes.length
      · have hfits : ¬ FileFits size baseAddr bytes := by
          rintro (rfl | hfits)
          · exact absurd hlong (Nat.not_lt_zero s.size)
          · omega
        rw [if_pos hlong,if_neg hfits]
        exact ⟨rfl,h⟩
      · have hfits : FileFits size baseAddr bytes := hop (by omega)
        rw [if_neg hlong,if_pos hfits]
        exact ⟨rfl,(h.store baseAddr bytes).access (hfits.imp_left List.length_eq_zero_iff.mpr)⟩

theorem run (h : Backs size s m) (hops : ∀ op ∈ ops, op.Within size) :
    (s.run ops).1 = (meantRun size m ops).1 ∧ Backs size (s.run ops).2 (meantRun size m ops).2 := by
  induction ops generalizing s m with
  | nil => exact ⟨rfl,h⟩
  | cons op ops ih =>
    obtain ⟨hresult,hstep⟩ := h.step (hops op List.mem_cons_self)
    obtain ⟨hresults,hrun⟩ := ih hstep fun o ho => hops o (List.mem_cons_of_mem op ho)
    exact ⟨congrArg₂ List.cons hresult hresults,hrun⟩

end Backs

-- What an operation accesses, in a memory of `size` bytes.
def MemoryOp.touches (size : Nat) : MemoryOp → List Nat
  | .read w address => if address < size then List.range' address w.bytes else []
  | .write w address _ => if address < size then List.range' address w.bytes else []
  | .loadData _ none => []
  | .loadData baseAddr (some bytes) =>
    if size < bytes.length then [] else List.range' baseAddr bytes.length

section Logs

variable {size a : Nat} {s : EmuMemory} {op : MemoryOp} {ops : List MemoryOp}

theorem step_touches (s : EmuMemory) (op : MemoryOp) :
    (s.step op).2.size = s.size ∧ (s.step op).2.accesses = s.accesses ++ op.touches s.size := by
  cases op with
  | read w address =>
    rw [EmuMemory.step,readWidth_eq,MemoryOp.touches]
    split_ifs
    · exact ⟨rfl,rfl⟩
    · exact ⟨rfl,(List.append_nil _).symm⟩
  | write w address data =>
    rw [EmuMemory.step,writeWidth_eq,MemoryOp.touches]
    split_ifs
    · exact ⟨rfl,rfl⟩
    · exact ⟨rfl,(List.append_nil _).symm⟩
  | loadData baseAddr file =>
    cases file with
    | none => exact ⟨rfl,(List.append_nil _).symm⟩
    | some bytes =>
      rw [EmuMemory.step,EmuMemory.loadData,MemoryOp.touches]
      by_cases hlong : s.size < bytes.length
      · rw [if_pos hlong,if_pos hlong]
        exact ⟨rfl,(List.append_nil _).symm⟩
      · rw [if_neg hlong,if_neg hlong]
        exact ⟨rfl,rfl⟩

-- An operation that straddles the end accesses what is behind it.
theorem touches_outside (hop : ¬ op.Within size) : ∃ a ∈ op.touches size, size ≤ a := by
  have hlast {address n : Nat} (hn : 0 < n) (hout : size < address + n) :
      ∃ a ∈ List.range' address n, size ≤ a :=
    ⟨address + n - 1,List.mem_range'_1.mpr ⟨by omega,by omega⟩,by omega⟩
  cases op with
  | read w address =>
    obtain ⟨hin,hout⟩ := Classical.not_imp.mp hop
    rw [MemoryOp.touches,if_pos hin]
    exact hlast (bytes_pos w) (by omega)
  | write w address data =>
    obtain ⟨hin,hout⟩ := Classical.not_imp.mp hop
    rw [MemoryOp.touches,if_pos hin]
    exact hlast (bytes_pos w) (by omega)
  | loadData baseAddr file =>
    cases file with
    | none => exact absurd trivial hop
    | some bytes =>
      obtain ⟨hshort,hfits⟩ := Classical.not_imp.mp hop
      obtain ⟨hne,hout⟩ := not_or.mp hfits
      rw [MemoryOp.touches,if_neg (by omega)]
      exact hlast (List.length_pos_of_ne_nil hne) (by omega)

theorem run_keeps (h : a ∈ s.accesses) : a ∈ (s.run ops).2.accesses := by
  induction ops generalizing s with
  | nil => exact h
  | cons op ops ih =>
    refine ih ?_
    rw [(step_touches s op).2]
    exact List.mem_append_left _ h

theorem run_outside (hops : ¬ ∀ op ∈ ops, op.Within s.size) :
    ∃ a ∈ (s.run ops).2.accesses, s.size ≤ a := by
  induction ops generalizing s with
  | nil => exact absurd (fun op hop => absurd hop List.not_mem_nil) hops
  | cons op ops ih =>
    obtain ⟨hsize,haccesses⟩ := step_touches s op
    by_cases hop : op.Within s.size
    · have hrest : ¬ ∀ o ∈ ops, o.Within (s.step op).2.size := by
        rw [hsize]
        exact fun h => hops (List.forall_mem_cons.mpr ⟨hop,h⟩)
      obtain ⟨a,ha,hout⟩ := ih hrest
      exact ⟨a,ha,hsize.symm.le.trans hout⟩
    · obtain ⟨a,ha,hout⟩ := touches_outside hop
      have hnext : a ∈ (s.step op).2.accesses := by
        rw [haccesses]
        exact List.mem_append_right _ ha
      have hlast : a ∈ ((s.step op).2.run ops).2.accesses := run_keeps hnext
      exact ⟨a,hlast,hout⟩

end Logs

-- The memory does what is meant as long as nothing straddles its end.
theorem memory_keeps_iff (size : Nat) (store : Mem) (ops : List MemoryOp) :
    MemoryKeeps size store ops ↔ ∀ op ∈ ops, op.Within size := by
  constructor
  · rintro ⟨hin,-⟩
    by_contra hops
    obtain ⟨a,ha,hout⟩ := run_outside (s := ⟨store,size,[]⟩) hops
    exact Nat.not_lt_of_le hout (hin a ha)
  · intro hops
    have hstart : Backs size ⟨store,size,[]⟩ store :=
      ⟨rfl,fun _ _ => rfl,fun a ha => absurd ha List.not_mem_nil⟩
    obtain ⟨hresults,hrun⟩ := hstart.run hops
    exact ⟨hrun.inside,hresults,hrun.bytes⟩

-- A long that starts two bytes before the end.
theorem memory_straddled : ¬ MemoryKeeps 0x100000 (fun _ => 0) [.read .long 0xffffe] := by
  rintro ⟨hin,-⟩
  have hbad : ¬ ∀ op ∈ [MemoryOp.read .long 0xffffe], op.Within 0x100000 := fun h =>
    absurd (h _ List.mem_cons_self (by decide)) (by decide)
  obtain ⟨a,ha,hout⟩ := run_outside (s := ⟨fun _ => 0,0x100000,[]⟩) hbad
  exact Nat.not_lt_of_le hout (hin a ha)

end RoscoM68k
