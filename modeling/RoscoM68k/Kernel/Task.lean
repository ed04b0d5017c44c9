import RoscoM68k.Kernel.Slab

namespace RoscoM68k
open Function

-- Task: the node $00-$0f, stack_addr $10, tid $14, sig_wait $18, stack_size $1c, stack_bottom $20
-- and the byte priority $24.
def taskStack (t : Nat) : Nat := t + 0x10
def taskWaits (t : Nat) : Nat := t + 0x18
def taskStackSize (t : Nat) : Nat := t + 0x1c
def taskStackBottom (t : Nat) : Nat := t + 0x20
def taskPrio (t : Nat) : Nat := t + 0x24

def Symbols.runnable (K : Symbols) (priority : Nat) : Nat :=
  if priority = 3 then K.runnableList3
  else if priority = 2 then K.runnableList2
  else if priority = 1 then K.runnableList1
  else K.runnableList0

def runnablePriorityQueuePtr (K : Image) (m : Mem) (a1 : Nat) : Nat :=
  let d0 := m.readB (taskPrio a1) &&& 3
  if d0 = 0 then K.runnableList0
  else if d0 = 1 then K.runnableList1
  else if d0 = 2 then K.runnableList2
  else K.runnableList3

def taskInit (K : Image) (m : Mem) : Mem :=
  listInit (listInit (listInit (listInit (listInit m K.runnableList3) K.runnableList2)
    K.runnableList1) K.runnableList0) K.sleepingList

-- movem.l d0-d7/a0-a6, with d0 at the lowest address.
def saveRegs (m : Mem) (a : Nat) (r : Fin 15 → BitVec 32) : Mem :=
  (List.finRange 15).foldl (fun m i => m.writeL (a + 4 * i.val) (r i).toNat) m

def loadRegs (m : Mem) (a : Nat) : Fin 15 → BitVec 32 :=
  fun i => BitVec.ofNat 32 (m.readL (a + 4 * i.val))

namespace Machine

def pushW (s : Machine) (v : Nat) : Machine :=
  { s with sp := s.sp - 2, mem := s.mem.writeW (s.sp - 2) v }

def pushL (s : Machine) (v : Nat) : Machine :=
  { s with sp := s.sp - 4, mem := s.mem.writeL (s.sp - 4) v }

def pushRegs (s : Machine) : Machine :=
  { s with sp := s.sp - 60, mem := saveRegs s.mem (s.sp - 60) s.reg }

def popRegs (s : Machine) : Machine :=
  { s with reg := loadRegs s.mem s.sp, sp := s.sp + 60 }

def popSr (s : Machine) : Machine :=
  { s with sr := BitVec.ofNat 16 (s.mem.readW s.sp), sp := s.sp + 2 }

def rts (s : Machine) : Machine := { s with pc := s.mem.readL s.sp, sp := s.sp + 4 }

-- With the format word of a 68010 and later.
def rte (s : Machine) : Machine :=
  { s with sr := BitVec.ofNat 16 (s.mem.readW s.sp), pc := s.mem.readL (s.sp + 2), sp := s.sp + 8 }

-- The timer interrupt, vector $45, at the given level: the supervisor bit is set, the trace
-- bit is cleared and the mask is raised to the level.
def interrupt (level : BitVec 3) (s : Machine) : Machine :=
  let s' := ((s.pushW 0x114).pushL s.pc).pushW s.sr.toNat
  { s' with sr := s.sr &&& 0x78FF#16 ||| 0x2000#16 ||| level.setWidth 16 <<< 8 }

-- The return addresses that `bsr` and `rts` keep below the stack pointer for a while are left
-- out, here and in what follows: `suspend` takes its own off before it saves anything.
def suspend (s : Machine) : Machine :=
  let s := (s.pushW s.sr.toNat).pushRegs
  { s with mem := s.mem.writeL (taskStack s.currentTaskVar) s.sp }

def switchA1 (s : Machine) (a1 : Nat) : Machine :=
  { s with currentTaskVar := a1, sp := s.mem.readL (taskStack a1) }.popRegs.popSr.rts

end Machine

def taskFindNext (m : Mem) (a0 : Nat) : Mem × Nat :=
  if nodeNext m a0 = a0 + 4 then (m,0) else listDeleteHead m a0

-- The first of the given lists that is not empty yields its head.
def taskFindFirst (m : Mem) : List Nat → Mem × Nat
  | [] => (m,0)
  | l :: ls =>
    let r := taskFindNext m l
    if r.2 ≠ 0 then r else taskFindFirst r.1 ls

-- The search of task_switch_next, up to the label switch_a1.
def taskNext (K : Image) (m : Mem) : Mem × Nat :=
  let r := taskFindFirst m [K.runnableList3,K.runnableList2,K.runnableList1,K.runnableList0]
  if r.2 ≠ 0 then r else (r.1,K.tidle)

-- From the point a switch returned to up to the last instruction before the task's own code.
-- Nothing is ever resumed at the label reenable_return of task_signal.
def resume (K : Image) (s : Machine) : Machine :=
  if s.pc = K.tickHandlerDone then { s.popRegs.enableInterrupts with pc := K.tickRte }
  else if s.pc = K.waitReenable then { s.enableInterrupts with pc := K.enableReturn }
  else if s.pc = K.taskTrampoline then { s.enableInterrupts with pc := K.taskRte }
  else if s.pc = K.idleTrampoline then { s.enableInterrupts with pc := K.idleRte }
  else if s.pc = K.initTrampoline then
    (Machine.pushL { s with sp := s.sp + 8 } (s.mem.readL (s.sp + 2))).rts
  else s

def switchTo (K : Image) (s : Machine) (a1 : Nat) : Machine := resume K (s.switchA1 a1)

def taskSwitchNext (K : Image) (s : Machine) : Machine :=
  let r := taskNext K s.mem
  switchTo K { s with mem := r.1 } r.2

def taskYield (K : Image) (s : Machine) : Machine :=
  let s := s.suspend
  let a1 := s.currentTaskVar
  if a1 = 0 ∨ a1 = K.tidle then taskSwitchNext K s
  else
    let a0 := runnablePriorityQueuePtr K s.mem a1
    taskSwitchNext K { s with mem := listAddTail s.mem (s.reg 0).toNat a0 a1 }

-- task_yield as task_done jumps to it, up to the label switch_a1, where a1 holds the next task.
def taskPick (K : Image) (s : Machine) : Machine :=
  let s := s.suspend
  let r := taskNext K s.mem
  { s with mem := r.1, reg := update s.reg 9 (BitVec.ofNat 32 r.2), pc := K.switchA1 }

theorem taskYield_pick {K : Image} {s : Machine} (h : s.currentTaskVar = 0)
    (ht : (taskNext K s.suspend.mem).2 < addressSpace) :
    taskYield K s = switchTo K (taskPick K s) ((taskPick K s).reg 9).toNat := by
  have hr : ((taskPick K s).reg 9).toNat = (taskNext K s.suspend.mem).2 := by
    simp only [taskPick,update_self]
    rw [BitVec.toNat_ofNat]
    exact Nat.mod_eq_of_lt ht
  have hc : s.suspend.currentTaskVar = 0 := h
  rw [hr,taskYield,if_pos (.inl hc)]
  rfl

def QUANTUM_TICKS : BitVec 16 := 1#16

-- tick_handler up to the jump to the handler that was installed before it. The frame that is
-- made up for its rte is gone when the rest goes on at post_jump.
def tickHandler (level : BitVec 3) (s : Machine) : Machine := (s.interrupt level).pushRegs

def postJump (K : Image) (s : Machine) : Machine :=
  let s := s.disableInterrupts
  let s := { s with tickCounter := s.tickCounter - 1#16 }
  if s.tickCounter ≠ 0#16 then resume K { s with pc := K.tickHandlerDone }
  else taskYield K ({ s with tickCounter := QUANTUM_TICKS }.pushL K.tickHandlerDone)

-- On entry the stack holds the return address and sig_mask.
def taskWait (K : Image) (s : Machine) : Machine :=
  let s := (s.disableInterrupts.pushL K.waitReenable).suspend
  let a1 := s.currentTaskVar
  let d0 := s.mem.readL (s.sp + 0x46)
  let m := s.mem.writeL (taskWaits a1) d0
  taskSwitchNext K { s with mem := listAddHead m d0 K.sleepingList a1 }

def sleepingSearch (K : Image) (m : Mem) (a1 : Nat) : Nat → Nat → Option Bool
  | 0, _ => none
  | fuel + 1, a0 =>
    if a0 = a1 then some true
    else if a0 = K.sleepingList + 4 then some false
    else sleepingSearch K m a1 fuel (nodeNext m a0)

-- From the label found on.
def taskWake (K : Image) (m : Mem) (a1 temp : Nat) : Mem :=
  let m := listNodeDelete m a1
  let m := m.writeL (m.readL (taskStack a1)) temp
  listAddHead m temp (runnablePriorityQueuePtr K m a1) a1

-- On entry the stack holds the return address, the target and sig_mask. The registers that the
-- caller does not rely on keep their values here.
def taskSignal (K : Image) (s : Machine) : Option Machine :=
  let s := s.disableInterrupts
  let olda7 := s.sp
  let s := (s.pushL K.signalReenable).suspend
  let s := (((s.pushL (s.reg 10).toNat).pushL s.currentTaskVar).pushL (s.reg 1).toNat).pushL
    (s.reg 0).toNat
  let a1 := s.mem.readL (s.sp + 0x56)
  let d0 := s.mem.readL (s.sp + 0x5a)
  match sleepingSearch K s.mem a1 addressSpace (nodeNext s.mem K.sleepingList) with
  | none => none
  | some found =>
    let m := if found ∧ d0 &&& s.mem.readL (taskWaits a1) ≠ 0 then taskWake K s.mem a1 d0
      else s.mem
    some { { s with mem := m, sp := olda7 }.enableInterrupts with pc := K.signalReturn }

def taskTee (s : Machine) (a0 a1 d2 d0 d1 : Nat) : Machine :=
  let m := s.mem.writeL (a1 - 4) d1
  let m := m.writeW (a1 - 6) 0x45
  let m := m.writeL (a1 - 10) d0
  let m := m.writeW (a1 - 12) 0x2000
  let m := m.writeL (a1 - 16) d2
  let m := m.writeW (a1 - 18) 0x2700
  let r := update (update (update (update (update s.reg 0 (BitVec.ofNat 32 d0)) 1
    (BitVec.ofNat 32 d1)) 2 (BitVec.ofNat 32 d2)) 8 (BitVec.ofNat 32 a0)) 9
    (BitVec.ofNat 32 (a1 - 18))
  let m := saveRegs m (a1 - 78) r
  { s with mem := m.writeL (taskStack a0) (a1 - 78) }

-- task_schedule up to its critical section.
def taskPrepare (K : Image) (s : Machine) (task stackAddr stackSize entrypoint : Nat) : Machine :=
  let m := (s.mem.writeL (taskStackSize task) stackSize).writeL (taskStackBottom task) stackAddr
  taskTee { s with mem := m } task (wrap (stackAddr + stackSize)) K.taskTrampoline entrypoint
    K.taskDone

def taskEnlist (K : Image) (s : Machine) (task : Nat) : Machine :=
  let priority := s.mem.readB (taskPrio task) &&& 3
  let s := s.disableInterrupts
  { s with mem := listAddHead s.mem (s.reg 0).toNat (K.runnable priority) task }.enableInterrupts

def taskSchedule (K : Image) (s : Machine) (task stackAddr stackSize entrypoint : Nat) : Machine :=
  taskEnlist K (taskPrepare K s task stackAddr stackSize entrypoint) task

-- task_done, before its critical section and in it. `this` is what task_current gave.
def taskDone (s : Machine) : Machine := { s with currentTaskVar := 0 }

def TASK_SLAB_BLOCKS : Nat := 2

def taskDoneRelease (K : Image) (s : Machine) (this : Nat) : Option Machine :=
  let s := s.disableInterrupts
  match pmmFree K s (s.mem.readL (taskStackBottom this)) (s.mem.readL (taskStackSize this)) with
  | none => none
  | some s => (slabFree K s this TASK_SLAB_BLOCKS).map Machine.enableInterrupts

end RoscoM68k
