import RoscoM68k.Kernel.TaskDispatch

namespace RoscoM68k
open Function

-- `self` is the task on whose stack the processor works, `live` holds the tasks that have been
-- scheduled and have not exited, but for the idle task.
structure TaskState where
  machine : Machine
  self : Nat
  live : List Nat
  info : Nat → TaskInfo

-- Between two events the processor is in a task's own code, at the last instruction of a way
-- back there, or at one of the places in task_done and task_yield where an exiting task runs
-- with the interrupts enabled.
inductive TaskEvent where
  | own (s : Machine)
  | finish
  | tick (reg : Fin 15 → BitVec 32) (mem : Mem)
  | enlist (t bottom size entry : Nat)
  | wait
  | signal
  | exit
  | release
  | pick
  | switch

namespace TaskState

variable {K : Image} {level : BitVec 3}

def suspendAs (st : TaskState) (sv : Saved) : Nat → TaskInfo :=
  update st.info st.self { st.info st.self with saved := sv }

-- The arguments of task_signal.
def target (st : TaskState) : Nat := st.machine.mem.readL (st.machine.sp + 4)
def sigMask (st : TaskState) : Nat := st.machine.mem.readL (st.machine.sp + 8)

def enlisted (K : Image) (st : TaskState) (t bottom size entry : Nat) : TaskInfo where
  bottom := bottom
  top := bottom + size
  prio := Fin.ofNat 4 (st.machine.mem.readB (taskPrio t))
  saved := .fresh entry K.taskDone

def signalled (st : TaskState) : Nat → TaskInfo :=
  match (st.info st.target).saved with
  | .waiting c mask =>
    if st.target ∈ st.live ∧ st.target ≠ st.self ∧ st.sigMask &&& mask ≠ 0 then
      update st.info st.target
        { st.info st.target with saved := .woken c mask st.sigMask }
    else st.info
  | _ => st.info

def finishing (K : Image) (s : Machine) : Machine := if s.pc ∈ K.rtes then s.rte else s.rts

-- The registers and the memory of a tick are those that the chained handler leaves.
def next (K : Image) (level : BitVec 3) (st : TaskState) : TaskEvent → Option TaskState
  | .own s => some { st with machine := s }
  | .finish => some { st with machine := finishing K st.machine }
  | .tick reg mem =>
    let s := postJump K { tickHandler level st.machine with reg := reg, mem := mem }
    some { st with
      machine := s, self := s.currentTaskVar, info := st.suspendAs (.ticked st.machine) }
  | .enlist t bottom size entry =>
    some { st with
      machine := taskEnlist K st.machine t
      live := t :: st.live
      info := update st.info t (st.enlisted K t bottom size entry) }
  | .wait =>
    let s := taskWait K st.machine
    some { st with
      machine := s
      self := s.currentTaskVar
      info := st.suspendAs (.waiting st.machine (st.machine.mem.readL (st.machine.sp + 4))) }
  | .signal =>
    (taskSignal K st.machine).map (fun s => { st with machine := s, info := st.signalled })
  | .exit =>
    some { st with
      machine := { taskDone st.machine with pc := K.taskDoneDisable }
      live := st.live.erase st.self }
  | .release =>
    (taskDoneRelease K st.machine st.self).map (fun s =>
      { st with machine := { s with pc := K.taskYield } })
  | .pick => some { st with machine := taskPick K st.machine }
  | .switch =>
    let s := switchTo K st.machine (st.machine.reg 9).toNat
    some { st with machine := s, self := s.currentTaskVar }

def foot (K : Image) (st : TaskState) : Set Nat := tasksFoot K st.live st.info {st.self}

def memory (K : Image) (st : TaskState) : Set Nat := taskMemory K st.live st.info {st.self}

-- What a task's own code may do: anything to its registers, its stack and memory of nobody, but
-- the interrupts are left as they are.
structure OwnStep (K : Image) (st : TaskState) (s : Machine) : Prop where
  source : K.Own st.machine.pc
  target : K.Own s.pc
  stack : s.sp ≤ (st.info st.self).top
  mask : s.sr.extractLsb' 8 8 = st.machine.sr.extractLsb' 8 8
  count : s.disableIntrCount = st.machine.disableIntrCount
  current : s.currentTaskVar = st.machine.currentTaskVar
  quantum : s.tickCounter = st.machine.tickCounter
  agree : Mem.Agree (st.foot K) st.machine.mem s.mem

-- A tick is accepted below its level; there is room for what it puts on the stack, which the
-- chained handler leaves alone.
structure Tick (K : Image) (level : BitVec 3) (st : TaskState) (mem : Mem) : Prop where
  mask : (ipl st.machine.sr).toNat < level.toNat
  room : (st.info st.self).bottom + 134 ≤ st.machine.sp
  agree : Mem.Agree (st.foot K ∪ Set.Ico (st.machine.sp - 68) (st.info st.self).top)
    (tickHandler level st.machine).mem mem

-- A task whose structure and stack nobody else uses; the part of task_schedule before its
-- critical section has been run on it.
structure Enlist (K : Image) (st : TaskState) (t bottom size entry : Nat) : Prop where
  source : K.Own st.machine.pc
  fresh : ¬ (t = K.tidle ∨ t ∈ st.live ∨ t = st.self)
  placed : Placed K t (st.enlisted K t bottom size entry)
  apart : ∀ u, u = K.tidle ∨ u ∈ st.live ∨ u = st.self →
    Disjoint ((st.enlisted K t bottom size entry).footprint t) ((st.info u).footprint u)
  room : 78 ≤ size
  limit : bottom + size < addressSpace
  start : K.Own entry
  prepared : ∃ s, Mem.Agree ((st.enlisted K t bottom size entry).footprint t)
    (taskPrepare K s t bottom size entry).mem st.machine.mem

structure Wait (K : Image) (st : TaskState) : Prop where
  source : K.Own st.machine.pc
  busy : st.self ≠ K.tidle
  room : (st.info st.self).bottom + 66 ≤ st.machine.sp
  args : st.machine.sp + 8 ≤ (st.info st.self).top
  ret : K.Own (st.machine.mem.readL st.machine.sp)

structure Signal (K : Image) (st : TaskState) : Prop where
  source : K.Own st.machine.pc
  room : (st.info st.self).bottom + 82 ≤ st.machine.sp
  args : st.machine.sp + 12 ≤ (st.info st.self).top
  ret : K.Own (st.machine.mem.readL st.machine.sp)
  target : st.target ≠ K.sleepingList + 4

def Valid (K : Image) (level : BitVec 3) (st : TaskState) : TaskEvent → Prop
  | .own s => OwnStep K st s
  | .finish => st.machine.pc ∈ K.rtes ++ K.rtss
  | .tick _ mem => Tick K level st mem
  | .enlist t bottom size entry => Enlist K st t bottom size entry
  | .wait => Wait K st
  | .signal => Signal K st
  | .exit => K.Own st.machine.pc ∧ st.self ≠ K.tidle
  | .release => st.machine.pc = K.taskDoneDisable ∧
      ∃ s, taskDoneRelease K st.machine st.self = some s ∧
        Mem.Agree (st.foot K) st.machine.mem s.mem
  | .pick => st.machine.pc = K.taskYield ∧ (st.info st.self).bottom + 62 ≤ st.machine.sp
  | .switch => st.machine.pc = K.switchA1

inductive Phase (K : Image) (st : TaskState) : List Nat → Prop where
  | running (hc : st.machine.currentTaskVar = st.self)
      (hs : st.self = K.tidle ∨ st.self ∈ st.live)
      (hsnd : Sound K (st.info st.self).top (fun _ => True) st.machine) :
      Phase K st (onCpu K st.self)
  | leaving (hc : st.machine.currentTaskVar = 0) (hs : ¬ (st.self = K.tidle ∨ st.self ∈ st.live))
      (hsp : st.machine.sp ≤ (st.info st.self).top)
      (hpc : st.machine.pc = K.taskDoneDisable ∨ st.machine.pc = K.taskYield) : Phase K st []
  | switching (hc : st.machine.currentTaskVar = 0)
      (hs : ¬ (st.self = K.tidle ∨ st.self ∈ st.live)) (hpc : st.machine.pc = K.switchA1)
      (ht : (st.machine.reg 9).toNat = K.tidle ∨ (st.machine.reg 9).toNat ∈ st.live) :
      Phase K st (onCpu K (st.machine.reg 9).toNat)

structure Inv (K : Image) (st : TaskState) (Q : Queue → List Nat) (cpu : List Nat) : Prop where
  tasks : Tasks K st.machine.mem st.live st.info Q cpu {st.self}
  phase : st.Phase K cpu
  quantum : st.machine.tickCounter = 1#16

-- The queues with the running task at the end of its own.
def requeued (K : Image) (st : TaskState) (Q : Queue → List Nat) : Queue → List Nat :=
  if st.self = K.tidle then Q
  else
    let c := Queue.ready (st.info st.self).prio
    update Q c (Q c ++ [st.self])

-- The task that runs in `st` was chosen from `Q`. Its way back lowers a count of `n`.
structure Switched (K : Image) (st : TaskState) (n : BitVec 16) (Q Q' : Queue → List Nat) :
    Prop where
  pick : Pick K.tidle Q st.self Q'
  entered : ∃ s, s.disableIntrCount = n ∧ Entered K s st.machine st.self (st.info st.self)
  ok : (st.info st.self).saved.Ok K (st.info st.self).top (fun _ => True)

end TaskState
end RoscoM68k
