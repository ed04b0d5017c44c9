import RoscoM68k.Kernel.TaskStart

namespace RoscoM68k
open Function

namespace TaskState

-- The machine at the execution of suspend that an event leads to.
def suspended (K : Image) (level : BitVec 3) (st : TaskState) : TaskEvent → Option Machine
  | .tick reg mem =>
    if st.machine.tickCounter - 1#16 = 0#16 then some (tickSwitch K level st.machine reg mem)
    else none
  | .wait => some (callSuspend st.machine K.waitReenable)
  | .signal => some (callSuspend st.machine K.signalReenable)
  | .pick => some st.machine
  | _ => none

-- It stores to the stack and to stack_addr of a task that is there, and to nothing else.
structure SafeSuspend (K : Image) (st : TaskState) (s : Machine) : Prop where
  task : s.currentTaskVar = K.tidle ∨ s.currentTaskVar ∈ st.live
  low : (st.info s.currentTaskVar).bottom ≤ s.suspend.sp
  top : s.sp ≤ (st.info s.currentTaskVar).top
  frame : Machine.SuspendFrame s s.suspend

section Runs

variable (K : Image) (level : BitVec 3)

def ValidRun (st : TaskState) : List TaskEvent → Prop
  | [] => True
  | e :: es => st.Valid K level e ∧ ∀ st' ∈ st.next K level e, ValidRun st' es

-- Every execution of suspend in the run has the property.
def EachSuspend (P : TaskState → Machine → Prop) (st : TaskState) : List TaskEvent → Prop
  | [] => True
  | e :: es => (∀ s ∈ st.suspended K level e, P st s) ∧
      ∀ st' ∈ st.next K level e, EachSuspend P st' es

end Runs

variable {K : Image} {level : BitVec 3} {st st' : TaskState} {Q : Queue → List Nat}
  {cpu : List Nat} {s : Machine} {e : TaskEvent} {es : List TaskEvent}

theorem Inv.task_low (h : st.Inv K Q cpu) {t : Nat} (ht : t = K.tidle ∨ t ∈ st.live) : 1024 ≤ t :=
  (h.tasks.placed t (ht.imp_right .inl)).low

theorem Inv.safe_task (h : st.Inv K Q cpu) (hs : SafeSuspend K st s) : s.currentTaskVar ≠ 0 := by
  have := h.task_low hs.task
  omega

theorem Phase.current (h : st.Phase K cpu) (hc : st.machine.currentTaskVar ≠ 0) :
    st.machine.currentTaskVar = st.self ∧ (st.self = K.tidle ∨ st.self ∈ st.live) ∧
      Sound K (st.info st.self).top (fun _ => True) st.machine ∧ cpu = onCpu K st.self := by
  cases h with
  | running hc hs hsnd => exact ⟨hc,hs,hsnd,rfl⟩
  | leaving h0 => exact absurd h0 hc
  | switching h0 => exact absurd h0 hc

-- The current task as suspend sees it.
theorem suspended_current (hs : st.suspended K level e = some s) :
    s.currentTaskVar = st.machine.currentTaskVar := by
  cases e with
  | tick reg mem =>
    rw [suspended] at hs
    split at hs
    · cases hs
      rfl
    · cases hs
  | wait =>
    cases hs
    rfl
  | signal =>
    cases hs
    rfl
  | pick =>
    cases hs
    rfl
  | _ => cases hs

theorem Inv.suspend_safe (h : st.Inv K Q cpu) (hv : st.Valid K level e)
    (hs : st.suspended K level e = some s) (hne : s.currentTaskVar ≠ 0) : SafeSuspend K st s := by
  have hcs := suspended_current hs
  rw [hcs] at hne
  obtain ⟨hc,hown,hsnd,-⟩ := h.phase.current hne
  have hcur : s.currentTaskVar = st.self := hcs.trans hc
  have hcall : ∀ {ret}, ret < addressSpace → (st.info st.self).bottom + 66 ≤ st.machine.sp →
      SafeSuspend K st (callSuspend st.machine ret) := by
    intro ret hret hroom
    obtain ⟨-,hf,hsp,-⟩ := call_suspend ret h hret hroom hsnd.sp_le hc
    have hcur' : (callSuspend st.machine ret).currentTaskVar = st.self := hc
    have htop := hsnd.sp_le
    have hf' := hf.sp
    exact ⟨hcur'.symm ▸ hown,by rw [hcur']; omega,by rw [hcur']; omega,hf⟩
  have hcode := K.code_top
  cases e with
  | tick reg mem =>
    rw [suspended] at hs
    split at hs
    · cases hs
      have hroom := hv.room
      have htop := hsnd.sp_le
      obtain ⟨-,hf,hsp,-⟩ := tick_suspend reg h hv htop hsnd.pc_lt (.inl hc)
      have hf' := hf.sp
      exact ⟨hcur.symm ▸ hown,by rw [hcur]; omega,by rw [hcur]; omega,hf⟩
    · cases hs
  | wait =>
    cases hs
    exact hcall (hcode _ (by simp [Symbols.resumePoints])) hv.room
  | signal =>
    cases hs
    have hroom := hv.room
    exact hcall (hcode _ (by simp [Symbols.resumePoints])) (by omega)
  | pick =>
    cases hs
    exact absurd (h.phase.leave (.inr hv.1)).1 hne
  | _ => cases hs

-- A step that suspends nobody but the running task.
theorem Inv.step (h : st.Inv K Q cpu) (hv : st.Valid K level e)
    (hne : ∀ s ∈ st.suspended K level e, s.currentTaskVar ≠ 0) (he : st.next K level e = some st') :
    ∃ Q' cpu', st'.Inv K Q' cpu' := by
  cases e with
  | own s =>
    cases he
    exact ⟨Q,cpu,h.own hv⟩
  | finish =>
    cases he
    exact ⟨Q,cpu,h.finish hv⟩
  | tick reg mem =>
    have hz : st.machine.tickCounter - 1#16 = 0#16 := by rw [h.quantum]; rfl
    have hs : st.suspended K level (.tick reg mem) =
        some (tickSwitch K level st.machine reg mem) := if_pos hz
    have hc := hne _ hs
    obtain ⟨-,-,hsnd,-⟩ := h.phase.current (suspended_current hs ▸ hc)
    obtain ⟨Q',-,hi,-⟩ := h.tick hv hsnd.pc_cases he
    exact ⟨Q',_,hi⟩
  | enlist t bottom size entry => exact ⟨_,cpu,(h.enlist hv he).1⟩
  | wait =>
    obtain ⟨Q',-,hi,-⟩ := h.wait hv he
    exact ⟨Q',_,hi⟩
  | signal =>
    obtain ⟨-,-,⟨Q',-,hi⟩,-⟩ := h.signal hv he
    exact ⟨Q',cpu,hi⟩
  | exit => exact ⟨Q,[],(h.exit hv he).1⟩
  | release => exact ⟨Q,cpu,h.release hv he⟩
  | pick =>
    obtain ⟨Q',-,hi,-⟩ := h.pick hv he
    exact ⟨Q',_,hi⟩
  | switch => exact ⟨Q,cpu,(h.switch hv he).2.2.2.1⟩

-- By induction on the run.
theorem Inv.each_suspend (h : st.Inv K Q cpu) (hv : st.ValidRun K level es) :
    EachSuspend K level (SafeSuspend K) st es ↔
      EachSuspend K level (fun _ s => s.currentTaskVar ≠ 0) st es := by
  induction es generalizing st Q cpu with
  | nil => exact Iff.rfl
  | cons e es ih =>
    have hhead : (∀ s ∈ st.suspended K level e, SafeSuspend K st s) ↔
        ∀ s ∈ st.suspended K level e, s.currentTaskVar ≠ 0 :=
      ⟨fun hs s hin => h.safe_task (hs s hin),fun hs s hin => h.suspend_safe hv.1 hin (hs s hin)⟩
    have htail : (∀ s ∈ st.suspended K level e, s.currentTaskVar ≠ 0) →
        ∀ st' ∈ st.next K level e, (EachSuspend K level (SafeSuspend K) st' es ↔
          EachSuspend K level (fun _ s => s.currentTaskVar ≠ 0) st' es) := by
      intro hs st' hin
      obtain ⟨Q',cpu',hi⟩ := h.step hv.1 hs hin
      exact ih hi (hv.2 st' hin)
    constructor
    · rintro ⟨hs,hr⟩
      have hs' := hhead.mp hs
      exact ⟨hs',fun st' hin => (htail hs' st' hin).mp (hr st' hin)⟩
    · rintro ⟨hs,hr⟩
      exact ⟨hhead.mpr hs,fun st' hin => (htail hs st' hin).mpr (hr st' hin)⟩

end TaskState

open TaskState

theorem suspends_safe_iff {K : Image} {level : BitVec 3} {st : TaskState} {es : List TaskEvent}
    (h : Started K st) (hv : st.ValidRun K level es) :
    EachSuspend K level (SafeSuspend K) st es ↔
      EachSuspend K level (fun _ s => s.currentTaskVar ≠ 0) st es :=
  h.inv.1.each_suspend hv

end RoscoM68k
