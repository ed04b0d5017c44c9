import RoscoM68k.Kernel.Machine

namespace RoscoM68k

-- PMM_MIN_SIZE 0x400 and PMM_SIZE_MASK ~0x3ff.
def pmmRound (size : Nat) : Nat :=
  let allocSize := size &&& 0xFFFFFC00
  if allocSize < size then wrap (allocSize + 0x400) else size

theorem and_size_mask {n : Nat} (h : n < addressSpace) : n &&& 0xFFFFFC00 = n / 1024 * 1024 :=
  and_high_mask (k := 10) (by omega) h

theorem pmmRound_eq {n : Nat} (h : n ≤ 0xFFFFFC00) : pmmRound n = (n + 1023) / 1024 * 1024 := by
  unfold pmmRound wrap
  rw [and_size_mask (by unfold addressSpace; omega)]
  simp only [addressSpace]
  split <;> omega

-- Past the last page boundary the rounding wraps to zero.
theorem pmmRound_overflow {n : Nat} (h : 0xFFFFFC00 < n) (ht : n < addressSpace) :
    pmmRound n = 0 := by
  unfold pmmRound wrap
  rw [and_size_mask ht]
  simp only [addressSpace] at *
  split <;> omega

theorem pmmRound_dvd {n : Nat} (ht : n < addressSpace) : 1024 ∣ pmmRound n := by
  by_cases h : n ≤ 0xFFFFFC00
  · rw [pmmRound_eq h]
    exact Nat.dvd_mul_left _ _
  · rw [pmmRound_overflow (by omega) ht]
    exact dvd_zero _

def pmmInit (K : Image) (s : Machine) : Machine :=
  { s with mem := listInit (listInit s.mem K.pmmAddrList) K.pmmSizeList }

-- What one iteration of the coalescing `for` loop leaves it with.
inductive Scan where
  | higher (current : Nat)
  | lower (current : Nat)
  | place (previous : Nat)
  deriving DecidableEq, Repr

-- `this_addr` is the block at `addr` throughout, and `this_size` the node 16 bytes above it.
def coalesceScan (m : Mem) (addr size current : Nat) : Option Scan :=
  if current = wrap (addr + size) then some (.higher current)
  else if current = wrap (addr + addressSpace - nodeSize m current) then some (.lower current)
  else if current > addr then some (.place (nodePrev m current))
  else none

def deleteBoth (m : Mem) (current : Nat) : Mem :=
  listNodeDelete (listNodeDelete m current) (current + 16)

def setBothSizes (m : Mem) (addr size : Nat) : Mem :=
  (m.writeL (addr + 16 + 8) size).writeL (addr + 8) size

-- The `while (1)` loop up to the label add_to_size_list. The result holds `this_addr` and the
-- local variable `size`, which the branch for a higher neighbour does not update.
def coalesce (K : Image) : Nat → Mem → Nat → Nat → Option (Mem × Nat × Nat)
  | 0, _, _, _ => none
  | fuel + 1, m, addr, size =>
    match listFor m K.pmmAddrList (coalesceScan m addr size) with
    | none => none
    | some (some (.higher current)) =>
      let m := deleteBoth m current
      coalesce K fuel (setBothSizes m addr (wrap (nodeSize m addr + nodeSize m current))) addr size
    | some (some (.lower current)) =>
      let m := deleteBoth m current
      let size := wrap (size + nodeSize m current)
      coalesce K fuel (setBothSizes m current size) current size
    | some (some (.place previous)) => some (listNodeInsertAfter m 0 previous addr,addr,size)
    | some none => some (listAddTail m 0 K.pmmAddrList addr,addr,size)

section CoalesceSteps

variable {K : Image} {m : Mem} {addr size current previous fuel : Nat}

theorem coalesce_higher
    (h : listFor m K.pmmAddrList (coalesceScan m addr size) = some (some (.higher current))) :
    coalesce K (fuel + 1) m addr size =
      coalesce K fuel (setBothSizes (deleteBoth m current) addr
        (wrap (nodeSize (deleteBoth m current) addr + nodeSize (deleteBoth m current) current)))
        addr size := by
  rw [coalesce,h]

theorem coalesce_lower
    (h : listFor m K.pmmAddrList (coalesceScan m addr size) = some (some (.lower current))) :
    coalesce K (fuel + 1) m addr size =
      coalesce K fuel (setBothSizes (deleteBoth m current) current
        (wrap (size + nodeSize (deleteBoth m current) current))) current
        (wrap (size + nodeSize (deleteBoth m current) current)) := by
  rw [coalesce,h]

theorem coalesce_place
    (h : listFor m K.pmmAddrList (coalesceScan m addr size) = some (some (.place previous))) :
    coalesce K (fuel + 1) m addr size = some (listNodeInsertAfter m 0 previous addr,addr,size) := by
  rw [coalesce,h]

theorem coalesce_end
    (h : listFor m K.pmmAddrList (coalesceScan m addr size) = some none) :
    coalesce K (fuel + 1) m addr size = some (listAddTail m 0 K.pmmAddrList addr,addr,size) := by
  rw [coalesce,h]

end CoalesceSteps

def addToSizeList (K : Image) (m : Mem) (thisSize size : Nat) : Option Mem :=
  match listFor m K.pmmSizeList
      (fun current => if nodeSize m current > size then some (nodePrev m current) else none) with
  | none => none
  | some (some previous) => some (listNodeInsertAfter m 0 previous thisSize)
  | some none => some (listAddTail m 0 K.pmmSizeList thisSize)

def pmmFreeBody (K : Image) (m : Mem) (addr size : Nat) : Option Mem :=
  (coalesce K addressSpace (setBothSizes m addr size) addr size).bind
    (fun r => addToSizeList K r.1 (r.2.1 + 16) r.2.2)

def pmmFree (K : Image) (s : Machine) (addr size : Nat) : Option Machine :=
  let s := s.disableInterrupts
  (pmmFreeBody K s.mem addr (pmmRound size)).map
    (fun m => { s with mem := m }.enableInterrupts)

def pmmAlloc (K : Image) (s : Machine) (size : Nat) : Option (Machine × Nat) :=
  let s := s.disableInterrupts
  let size := pmmRound size
  match listFor s.mem K.pmmSizeList
      (fun current => if size ≤ nodeSize s.mem current then some current else none) with
  | none => none
  | some none => some (s.enableInterrupts,0)
  | some (some current) =>
    let found := nodeSize s.mem current
    let s := { s with mem := listNodeDelete (listNodeDelete s.mem current) (current - 16) }
    if found > size then
      (pmmFree K s (wrap (current - 16 + size))
          (wrap (nodeSize s.mem current + addressSpace - size))).map
        (fun s => (s.enableInterrupts,current - 16))
    else some (s.enableInterrupts,current - 16)

end RoscoM68k
