import RoscoM68k.Kernel.List

namespace RoscoM68k

structure Symbols where
  pmmAddrList : Nat
  pmmSizeList : Nat
  partialSlabs : Nat
  fullSlabs : Nat
  runnableList3 : Nat
  runnableList2 : Nat
  runnableList1 : Nat
  runnableList0 : Nat
  sleepingList : Nat
  irq1List : Nat
  tidle : Nat
  tickHandlerDone : Nat
  waitReenable : Nat
  signalReenable : Nat
  taskTrampoline : Nat
  idleTrampoline : Nat
  initTrampoline : Nat
  tickRte : Nat
  taskRte : Nat
  idleRte : Nat
  enableReturn : Nat
  signalReturn : Nat
  taskDone : Nat
  taskDoneDisable : Nat
  taskYield : Nat
  switchA1 : Nat
  panicIdleDone : Nat

-- The seven interrupt lists are laid out one after the other from irq_1_list.
def Symbols.headers (K : Symbols) : List Nat :=
  [K.pmmAddrList,K.pmmSizeList,K.partialSlabs,K.fullSlabs,K.runnableList3,K.runnableList2,
    K.runnableList1,K.runnableList0,K.sleepingList] ++
    (List.range 7).map (fun i => K.irq1List + 12 * i)

def Symbols.allocHeaders (K : Symbols) : List Nat :=
  [K.pmmAddrList,K.pmmSizeList,K.partialSlabs,K.fullSlabs]

-- Where a suspended task goes on.
def Symbols.resumePoints (K : Symbols) : List Nat :=
  [K.tickHandlerDone,K.waitReenable,K.signalReenable,K.taskTrampoline,K.idleTrampoline,
    K.initTrampoline]

-- The last instruction of each way back into a task, and the places in task_done and
-- task_yield where an exiting task can still be interrupted.
def Symbols.interruptible (K : Symbols) : List Nat :=
  [K.tickRte,K.taskRte,K.idleRte,K.enableReturn,K.signalReturn,K.taskDone,K.taskDoneDisable,
    K.taskYield,K.switchA1]

-- A linked kernel: its variables do not overlap and lie above the exception vectors.
structure Image extends Symbols where
  headers_apart : toSymbols.headers.Pairwise (fun a b => a + 12 ≤ b ∨ b + 12 ≤ a)
  headers_low : ∀ h ∈ toSymbols.headers, 1024 ≤ h
  headers_top : ∀ h ∈ toSymbols.headers, h + 12 ≤ addressSpace
  tidle_low : 1024 ≤ tidle
  tidle_top : tidle + 40 ≤ addressSpace
  tidle_off : ∀ h ∈ toSymbols.headers, tidle + 40 ≤ h ∨ h + 12 ≤ tidle
  code_top : ∀ p ∈ panicIdleDone :: toSymbols.resumePoints ++ toSymbols.interruptible,
    p < addressSpace
  code_nodup : (panicIdleDone :: toSymbols.resumePoints ++ toSymbols.interruptible).Nodup

theorem Image.header_apart (K : Image) {a b : Nat} (ha : a ∈ K.headers) (hb : b ∈ K.headers)
    (hne : a ≠ b) : a + 12 ≤ b ∨ b + 12 ≤ a := by
  have : Std.Symm (fun a b : Nat => a + 12 ≤ b ∨ b + 12 ≤ a) := ⟨fun _ _ => Or.symm⟩
  exact K.headers_apart.forall ha hb hne

theorem Image.spaced_nil (K : Image) {l : Nat} (hl : l ∈ K.headers) : Spaced l [] where
  pos := by have := K.headers_low l hl; omega
  top := K.headers_top l hl
  node_pos := by simp
  node_top := by simp
  off_header := by simp
  apart := .nil

-- One way to place the variables: all of them in the KiB from $1000 on.
def Symbols.compact : Symbols where
  pmmAddrList := 0x1000
  pmmSizeList := 0x100c
  partialSlabs := 0x1018
  fullSlabs := 0x1024
  runnableList3 := 0x1030
  runnableList2 := 0x103c
  runnableList1 := 0x1048
  runnableList0 := 0x1054
  sleepingList := 0x1060
  irq1List := 0x106c
  tidle := 0x10c0
  tickHandlerDone := 0x2000
  waitReenable := 0x2010
  signalReenable := 0x2020
  taskTrampoline := 0x2030
  idleTrampoline := 0x2040
  initTrampoline := 0x2050
  tickRte := 0x2060
  taskRte := 0x2070
  idleRte := 0x2080
  enableReturn := 0x2090
  signalReturn := 0x20f0
  taskDone := 0x20a0
  taskDoneDisable := 0x20b0
  taskYield := 0x20c0
  switchA1 := 0x20d0
  panicIdleDone := 0x20e0

def Image.compact : Image where
  toSymbols := .compact
  headers_apart := by decide
  headers_low := by decide
  headers_top := by decide
  tidle_low := by decide
  tidle_top := by decide
  tidle_off := by decide
  code_top := by decide
  code_nodup := by decide

-- `reg` holds d0-d7 at 0-7 and a0-a6 at 8-14; `sp` is a7.
structure Machine where
  mem : Mem
  reg : Fin 15 → BitVec 32
  sp : Nat
  pc : Nat
  sr : BitVec 16
  disableIntrCount : BitVec 16
  currentTaskVar : Nat
  tickCounter : BitVec 16

def Machine.blank : Machine where
  mem := fun _ => 0
  reg := fun _ => 0#32
  sp := 0x10000
  pc := 0
  sr := 0x2000#16
  disableIntrCount := 0#16
  currentTaskVar := 0
  tickCounter := 0#16

-- The interrupt mask in bits 8-10 of the status register.
def ipl (sr : BitVec 16) : BitVec 3 := sr.extractLsb' 8 3

theorem ipl_disable (sr : BitVec 16) : ipl (sr ||| 0x0700#16) = 7#3 := by
  unfold ipl
  ext i hi
  have : i = 0 ∨ i = 1 ∨ i = 2 := by omega
  rcases this with rfl | rfl | rfl <;> simp

theorem ipl_enable (sr : BitVec 16) : ipl (sr &&& 0xF0FF#16) = 0#3 := by
  unfold ipl
  ext i hi
  have : i = 0 ∨ i = 1 ∨ i = 2 := by omega
  rcases this with rfl | rfl | rfl <;> simp

namespace Machine

def disableInterrupts (s : Machine) : Machine :=
  { s with sr := s.sr ||| 0x0700#16, disableIntrCount := s.disableIntrCount + 1#16 }

def enableInterrupts (s : Machine) : Machine :=
  if s.disableIntrCount = 0#16 then s
  else
    let count := s.disableIntrCount - 1#16
    if count = 0#16 then { s with sr := s.sr &&& 0xF0FF#16, disableIntrCount := count }
    else { s with disableIntrCount := count }

-- `n` critical sections inside each other, as a service and the services it calls open them.
def nested : Nat → Machine → Machine
  | 0, s => s
  | n + 1, s => (nested n s.disableInterrupts).enableInterrupts

theorem enable_mem (s : Machine) (m : Mem) :
    { s with mem := m }.enableInterrupts = { s.enableInterrupts with mem := m } := by
  unfold enableInterrupts
  split
  · rfl
  · simp only
    split <;> rfl

theorem nested_mem (n : Nat) (s : Machine) (m : Mem) :
    nested n { s with mem := m } = { nested n s with mem := m } := by
  induction n generalizing s with
  | zero => rfl
  | succ n ih =>
    have hd : { s with mem := m }.disableInterrupts = { s.disableInterrupts with mem := m } := rfl
    rw [nested,hd,ih,enable_mem]
    rfl

theorem mem_nested (n : Nat) (s : Machine) : (nested n s).mem = s.mem := by
  have h := congrArg mem (nested_mem n s s.mem)
  exact h

-- The interrupt mask follows the nesting count.
def Consistent (s : Machine) : Prop :=
  ipl s.sr = if s.disableIntrCount = 0#16 then 0#3 else 7#3

theorem enable_pred {s : Machine} {c : BitVec 16} (hc : c + 1#16 ≠ 0#16)
    (h : s.disableIntrCount = c + 1#16) : s.enableInterrupts.disableIntrCount = c := by
  have hsub : c + 1#16 - 1#16 = c := BitVec.add_sub_cancel c 1#16
  rw [enableInterrupts,h,if_neg hc]
  simp only [hsub]
  split <;> rfl

theorem enable_zero {s : Machine} (h : s.disableIntrCount = 0#16) : s.enableInterrupts = s := by
  rw [enableInterrupts,if_pos h]

theorem succ_ne_zero {c : BitVec 16} (h : c.toNat + 1 < 65536) : c + 1#16 ≠ 0#16 := by
  intro hz
  have := congrArg BitVec.toNat hz
  rw [BitVec.toNat_add] at this
  simp only [BitVec.toNat_ofNat] at this
  omega

theorem toNat_succ {c : BitVec 16} (h : c.toNat + 1 < 65536) : (c + 1#16).toNat = c.toNat + 1 := by
  rw [BitVec.toNat_add]
  simp only [BitVec.toNat_ofNat]
  omega

theorem nested_count (n : Nat) {s : Machine} (h : s.disableIntrCount.toNat + n < 65536) :
    (nested n s).disableIntrCount = s.disableIntrCount := by
  induction n generalizing s with
  | zero => rfl
  | succ n ih =>
    have hs := toNat_succ (c := s.disableIntrCount) (by omega)
    have hd : s.disableInterrupts.disableIntrCount = s.disableIntrCount + 1#16 := rfl
    have hn := ih (s := s.disableInterrupts) (by rw [hd,hs]; omega)
    exact enable_pred (succ_ne_zero (by omega)) (hn.trans hd)

-- The count wraps to zero on the way in, and enabling stops there on the way out.
theorem nested_overflow (n : Nat) {s : Machine} (h : 65536 ≤ s.disableIntrCount.toNat + n)
    (hn : n < 65536) : (nested n s).disableIntrCount = 0#16 := by
  induction n generalizing s with
  | zero =>
    have := s.disableIntrCount.isLt
    omega
  | succ n ih =>
    have hd : s.disableInterrupts.disableIntrCount = s.disableIntrCount + 1#16 := rfl
    have hin : (nested n s.disableInterrupts).disableIntrCount = 0#16 := by
      by_cases hmax : s.disableIntrCount.toNat = 65535
      · have hz : s.disableIntrCount + 1#16 = 0#16 := by
          refine BitVec.eq_of_toNat_eq ?_
          rw [BitVec.toNat_add,hmax]
          rfl
        rw [nested_count n (by rw [hd,hz]; simpa using by omega),hd,hz]
      · have hlt := s.disableIntrCount.isLt
        have hs := toNat_succ (c := s.disableIntrCount) (by omega)
        exact ih (by rw [hd,hs]; omega) (by omega)
    rw [nested,enable_zero hin]
    exact hin

theorem nested_count_iff {n : Nat} (s : Machine) (hn : n < 65536) :
    (nested n s).disableIntrCount = s.disableIntrCount ↔
      s.disableIntrCount.toNat + n < 65536 := by
  refine ⟨fun h => ?_,nested_count n⟩
  by_contra hc
  have hz := nested_overflow n (Nat.le_of_not_lt hc) hn
  rw [h] at hz
  rw [hz] at hc
  exact hc (by simpa using hn)

theorem Consistent.enable {s : Machine} (h : s.Consistent) {c : BitVec 16}
    (hc : c + 1#16 ≠ 0#16) (hs : s.disableIntrCount = c + 1#16) :
    s.enableInterrupts.Consistent := by
  have hsub : c + 1#16 - 1#16 = c := BitVec.add_sub_cancel c 1#16
  rw [Consistent,hs,if_neg hc] at h
  unfold Consistent enableInterrupts
  rw [hs,if_neg hc]
  simp only [hsub]
  by_cases hz : c = 0#16
  · simp only [hz,if_true]
    exact ipl_enable _
  · simp only [if_neg hz]
    exact h

theorem Consistent.nested {n : Nat} {s : Machine} (h : s.Consistent)
    (hc : s.disableIntrCount.toNat + n < 65536) : (nested n s).Consistent := by
  induction n generalizing s with
  | zero => exact h
  | succ n ih =>
    have hne := succ_ne_zero (c := s.disableIntrCount) (by omega)
    have hs := toNat_succ (c := s.disableIntrCount) (by omega)
    have hd : s.disableInterrupts.disableIntrCount = s.disableIntrCount + 1#16 := rfl
    have hdis : s.disableInterrupts.Consistent := by
      rw [Consistent,hd,if_neg hne]
      exact ipl_disable _
    have hlt : s.disableInterrupts.disableIntrCount.toNat + n < 65536 := by
      rw [hd,hs]
      omega
    exact (ih hdis hlt).enable hne ((nested_count n hlt).trans hd)

end Machine

-- subq.l #1,d0 and mulu.w #12,d0, of which the multiplication sees the low word.
def irqListOffset (d0 : Nat) : Nat := (d0 + 4294967295) % 65536 * 12

def irqRegister (K : Image) (s : Machine) (d0 a1 : Nat) : Machine :=
  let d0 := irqListOffset d0
  let a0 := K.irq1List + d0
  let s := s.disableInterrupts
  let s := { s with mem := listAddTail s.mem d0 a0 a1 }
  s.enableInterrupts

-- Ends in a branch to list_node_delete, so the enable_interrupts after it is never reached.
def irqRemove (s : Machine) (a0 : Nat) : Machine :=
  let s := s.disableInterrupts
  { s with mem := listNodeDelete s.mem a0 }

end RoscoM68k
