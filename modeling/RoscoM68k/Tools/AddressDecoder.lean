import RoscoM68k.Tools.R68kMemoryRuns

namespace RoscoM68k

inductive EmuChip where
  | ram
  | rom

structure AddressDecoder where
  rom : EmuMemory
  ram : EmuMemory
  bootLineActive : Bool
  bootReadCount : Nat

inductive BusOp where
  | read (w : Width) (address : Nat)
  | write (w : Width) (address data : Nat)
  | reset
  | loadMemoryFile (baseAddr : Nat) (file : Option (List UInt8))

namespace AddressDecoder

def getMemoryForAddress (d : AddressDecoder) (address : Nat) : Option EmuChip :=
  if address < d.ram.size then some .ram
  else if 0x00e00000 ≤ address ∧ address < 0x00f00000 then some .rom
  else none

def makeRelativeAddress (d : AddressDecoder) (address : Nat) : Nat :=
  if address < d.ram.size then address
  else if 0x00e00000 ≤ address ∧ address < 0x00f00000 then address - 0x00e00000
  else 0

-- Two longs are read of the ROM after a reset.
def bootMemory (d : AddressDecoder) (address : Nat) : Option EmuChip × AddressDecoder :=
  if d.bootLineActive = true ∧ address < d.rom.size then
    let boot := decide (d.bootReadCount < 1)
    (some .rom,{ d with bootReadCount := d.bootReadCount + 1, bootLineActive := boot })
  else (d.getMemoryForAddress address,d)

def readMemory (d : AddressDecoder) (address : Nat) : Width → Option EmuChip × AddressDecoder
  | .byte => (d.getMemoryForAddress address,d)
  | .word => (d.getMemoryForAddress address,d)
  | .long => d.bootMemory address

def onChip (d : AddressDecoder) (op : MemoryOp) : EmuChip → MemoryResult × AddressDecoder
  | .ram => ((d.ram.step op).1,{ d with ram := (d.ram.step op).2 })
  | .rom => ((d.rom.step op).1,{ d with rom := (d.rom.step op).2 })

-- A bus error reads as zero.
def step (d : AddressDecoder) : BusOp → MemoryResult × AddressDecoder
  | .read w address =>
    let b := d.readMemory address w
    match b.1 with
    | none => (.value 0,b.2)
    | some c => b.2.onChip (.read w (b.2.makeRelativeAddress address)) c
  | .write w address data =>
    match d.getMemoryForAddress address with
    | none => (.done,d)
    | some c => d.onChip (.write w (d.makeRelativeAddress address) data) c
  | .reset => (.done,{ d with bootLineActive := true, bootReadCount := 0 })
  | .loadMemoryFile baseAddr file => d.onChip (.loadData baseAddr file) .ram

def run (d : AddressDecoder) : List BusOp → List MemoryResult × AddressDecoder
  | [] => ([],d)
  | op :: ops => ((d.step op).1 :: ((d.step op).2.run ops).1,((d.step op).2.run ops).2)

end AddressDecoder

theorem run_append (s : EmuMemory) (ops ops' : List MemoryOp) :
    (s.run (ops ++ ops')).2 = ((s.run ops).2.run ops').2 := by
  induction ops generalizing s with
  | nil => rfl
  | cons op ops ih => exact ih (s.step op).2

-- What the bus does to the memories: a run of operations on each.
structure Reaches (d d' : AddressDecoder) (onRam onRom : List MemoryOp) : Prop where
  ram : d'.ram = (d.ram.run onRam).2
  rom : d'.rom = (d.rom.run onRom).2

namespace Reaches

variable {d d' d'' : AddressDecoder} {xs xs' ys ys' : List MemoryOp}

theorem trans (h : Reaches d d' xs ys) (h' : Reaches d' d'' xs' ys') :
    Reaches d d'' (xs ++ xs') (ys ++ ys') := by
  refine ⟨?_,?_⟩
  · rw [h'.ram,h.ram,run_append]
  · rw [h'.rom,h.rom,run_append]

theorem onChip (d : AddressDecoder) (op : MemoryOp) (c : EmuChip) :
    ∃ xs ys, Reaches d (d.onChip op c).2 xs ys := by
  cases c with
  | ram => exact ⟨[op],[],rfl,rfl⟩
  | rom => exact ⟨[],[op],rfl,rfl⟩

theorem readMemory (d : AddressDecoder) (address : Nat) (w : Width) :
    Reaches d (d.readMemory address w).2 [] [] := by
  cases w with
  | byte => exact ⟨rfl,rfl⟩
  | word => exact ⟨rfl,rfl⟩
  | long =>
    rw [AddressDecoder.readMemory,AddressDecoder.bootMemory]
    split_ifs
    · exact ⟨rfl,rfl⟩
    · exact ⟨rfl,rfl⟩

theorem step (d : AddressDecoder) (op : BusOp) : ∃ xs ys, Reaches d (d.step op).2 xs ys := by
  cases op with
  | read w address =>
    have hread := readMemory d address w
    obtain ⟨b,hb⟩ : ∃ b, b = d.readMemory address w := ⟨_,rfl⟩
    rw [AddressDecoder.step,← hb]
    rw [← hb] at hread
    cases hchip : b.1 with
    | none => exact ⟨[],[],hread⟩
    | some c =>
      obtain ⟨xs,ys,hon⟩ := onChip b.2 (.read w (b.2.makeRelativeAddress address)) c
      exact ⟨_,_,hread.trans hon⟩
  | write w address data =>
    rw [AddressDecoder.step]
    cases hchip : d.getMemoryForAddress address with
    | none => exact ⟨[],[],rfl,rfl⟩
    | some c => exact onChip d _ c
  | reset => exact ⟨[],[],rfl,rfl⟩
  | loadMemoryFile baseAddr file => exact onChip d (.loadData baseAddr file) .ram

-- So what holds of every run of a memory holds under the bus.
theorem run (d : AddressDecoder) (ops : List BusOp) : ∃ xs ys, Reaches d (d.run ops).2 xs ys := by
  induction ops generalizing d with
  | nil => exact ⟨[],[],rfl,rfl⟩
  | cons op ops ih =>
    obtain ⟨xs,ys,hstep⟩ := step d op
    obtain ⟨xs',ys',hrun⟩ := ih (d.step op).2
    exact ⟨_,_,hstep.trans hrun⟩

end Reaches
end RoscoM68k
