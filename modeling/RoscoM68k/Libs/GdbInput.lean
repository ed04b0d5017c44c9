import RoscoM68k.Libs.GdbSupport

namespace RoscoM68k
open Function

section Order

variable {w : List UInt8} {es : List DebugEvent} {os : List (Option UInt8)}

-- The values returned are the values received, in their order, as far as they have been returned.
theorem keepsInput_order (hlen : os.length = es.length) (h : keepsInput w es os) :
    ∃ rest, w ++ es.flatMap (·.arrivals) = os.filterMap id ++ rest := by
  induction es generalizing w os with
  | nil =>
    obtain rfl := List.length_eq_zero_iff.mp hlen
    exact ⟨w,List.append_nil w⟩
  | cons e es ih =>
    obtain ⟨o,os,rfl⟩ := List.exists_cons_of_length_eq_add_one hlen
    have hlen' : os.length = es.length := Nat.succ.inj hlen
    cases e with
    | interrupt a b =>
      obtain ⟨rfl,hkeeps⟩ := h
      obtain ⟨rest,hrest⟩ := ih hlen' hkeeps
      refine ⟨rest,?_⟩
      rw [List.flatMap_cons,← List.append_assoc]
      exact hrest
    | ask buf =>
      obtain ⟨rfl,hkeeps⟩ := h
      obtain ⟨rest,hrest⟩ := ih hlen' hkeeps
      refine ⟨rest,?_⟩
      cases w with
      | nil => exact hrest
      | cons c w => exact congrArg (c :: ·) hrest
    | answer c =>
      obtain ⟨rfl,rfl,hkeeps⟩ := h
      obtain ⟨rest,hrest⟩ := ih hlen' hkeeps
      exact ⟨rest,congrArg (c :: ·) hrest⟩

end Order

-- The ring of the debugger stays as it has been cleared.
def RingCleared (T : DebugTarget) (m : Mem) : Prop := ∀ x, T.uartB ≤ x → x < T.uartB + 6 → m x = 0

namespace RingCleared

variable {T : DebugTarget} {m : Mem} {a : Nat} {u : Uart}

theorem readW (h : RingCleared T m) (ha : T.uartB ≤ a) (ha' : a + 2 ≤ T.uartB + 6) :
    m.readW a = 0 := by
  rw [Mem.readW,Mem.readB,Mem.readB,h a ha (by omega),h (a + 1) (by omega) (by omega)]
  rfl

theorem writeL (h : RingCleared T m) (v : Nat) (ha : a + 4 ≤ T.uartB ∨ T.uartB + 6 ≤ a) :
    RingCleared T (m.writeL a v) := fun x hx hx' =>
  (Mem.writeL_of_outside m v (by omega)).trans (h x hx hx')

-- The mask is zero, so that the write pointer stays where it is.
theorem bufferChar (h : RingCleared T u.mem) (htop : T.uartB + 1030 ≤ 2 ^ 32) (c : UInt8) :
    RingCleared T (duartBufferChar u T.uartB c).mem := by
  have hw : u.mem.readW (T.uartB + 2) = 0 := h.readW (by omega) (by omega)
  have hmask : u.mem.readW (T.uartB + 4) = 0 := h.readW (by omega) (by omega)
  have hplace : indexed (T.uartB + 6) 0 = T.uartB + 6 := indexed_small (by omega) (by omega)
  have hmem : (duartBufferChar u T.uartB c).mem =
      Mem.writeW (update u.mem (T.uartB + 6) c) (T.uartB + 2) 0 := by
    rw [duartBufferChar,hw,hmask,hplace,Nat.and_zero]
  intro x hx hx'
  have hkeep : update u.mem (T.uartB + 6) c x = 0 :=
    (update_of_ne (by omega) c u.mem).trans (h x hx hx')
  rw [hmem,Mem.writeW,Mem.writeB,Mem.writeB]
  split_ifs
  · rfl
  · rfl
  · exact hkeep

-- The pointers meet, whatever has been buffered.
theorem unbufferOne (h : RingCleared T u.mem) (buf : Nat) :
    duartUnbufferOne u T.uartB buf = ⟨u,buf,0,0,[]⟩ := by
  have hr : u.mem.readW T.uartB = 0 := h.readW le_rfl (by omega)
  have hw : u.mem.readW (T.uartB + 2) = 0 := h.readW (by omega) (by omega)
  rw [duartUnbufferOne,hr,hw]
  exact if_pos rfl

end RingCleared

-- After a start only UART B has a ring.
structure Debugging (T : DebugTarget) (s : Debugger) : Prop where
  low : 0x400 ≤ T.uartB
  top : T.uartB + 1030 ≤ 2 ^ 32
  ringA : s.ringbufA = 0
  ringB : s.ringbufB = T.uartB
  ring : RingCleared T s.uart.mem

namespace Debugging

variable {T : DebugTarget} {s s' : Debugger} {e : DebugEvent} {o : Option UInt8}

theorem congr (h : Debugging T s) (ha : s'.ringbufA = s.ringbufA) (hb : s'.ringbufB = s.ringbufB)
    (hu : s'.uart = s.uart) : Debugging T s' where
  low := h.low
  top := h.top
  ringA := ha.trans h.ringA
  ringB := hb.trans h.ringB
  ring := by
    rw [hu]
    exact h.ring

theorem exceptionHandler (h : Debugging T s) (hv : Apart T.vecBase 0x400 T.uartB 1030) (v : Nat)
    {n : Nat} (hn : n < 256) : Debugging T (s.exceptionHandler T v n) where
  low := h.low
  top := h.top
  ringA := h.ringA
  ringB := h.ringB
  ring := by
    refine h.ring.writeL v ?_
    obtain hv | hv := hv
    · exact .inl (by omega)
    · exact .inr (by omega)

theorem setDebugTraps (h : Debugging T s) (hv : Apart T.vecBase 0x400 T.uartB 1030) :
    Debugging T (s.setDebugTraps T) := by
  have hall {s : Debugger} (h : Debugging T s) (v : Nat) (ns : List Nat) (hns : ∀ n ∈ ns, n < 256) :
      Debugging T (ns.foldl (Debugger.exceptionHandler T v) s) := by
    induction ns generalizing s with
    | nil => exact h
    | cons n ns ih =>
      exact ih (h.exceptionHandler hv v (hns n List.mem_cons_self))
        fun k hk => hns k (List.mem_cons_of_mem n hk)
  refine hall ?_ T.catchException _ (by decide)
  refine exceptionHandler ?_ hv _ (by decide)
  refine exceptionHandler ?_ hv _ (by decide)
  refine exceptionHandler ?_ hv _ (by decide)
  exact hall h T.catchException _ (by decide)

theorem duartInstallInterrupt (h : Booted T s) (base : Nat) :
    Debugging T (s.duartInstallInterrupt T base 0 T.uartB) := by
  have hlow := h.low
  have hmem : (s.duartInstallInterrupt T base 0 T.uartB).uart.mem =
      s.uart.mem.writeL VECADDR T.handler := by
    rw [Debugger.duartInstallInterrupt,if_pos rfl,if_neg (by omega)]
    rfl
  refine ⟨hlow,h.top,?_,?_,?_⟩
  · rw [Debugger.duartInstallInterrupt,if_pos rfl,if_neg (by omega)]
    rfl
  · rw [Debugger.duartInstallInterrupt,if_pos rfl,if_neg (by omega)]
    rfl
  · rw [hmem]
    have hcleared : RingCleared T s.uart.mem := fun x hx hx' => h.bss x hx (by omega)
    exact hcleared.writeL _ (.inl (by rw [VECADDR]; omega))

theorem of_start (h : Booted T s) (hs : s.startDebugger T = some s') : Debugging T s' := by
  rw [Debugger.startDebugger] at hs
  split_ifs at hs
  obtain ⟨base,-,rfl⟩ := Option.map_eq_some_iff.mp hs
  exact (duartInstallInterrupt h base).setDebugTraps h.vectors

theorem errorCheck (h : Debugging T s) (sr : Nat) : Debugging T (s.errorCheck sr) := by
  rw [Debugger.errorCheck]
  split_ifs
  · exact h
  · exact h.congr rfl rfl rfl
  · exact h

theorem receive (h : Debugging T s) (c : UInt8) : Debugging T (s.receive c) := by
  rw [Debugger.receive]
  split_ifs
  · exact h.congr rfl rfl rfl
  · exact h
  · refine ⟨h.low,h.top,h.ringA,h.ringB,?_⟩
    rw [h.ringB]
    exact h.ring.bufferChar h.top c

theorem loopB (h : Debugging T s) (ps : List Poll) : Debugging T (s.loopB ps) := by
  induction ps generalizing s with
  | nil => exact h
  | cons p ps ih =>
    rw [Debugger.loopB]
    split_ifs
    · exact ih ((h.errorCheck DUART_SRB).receive p.rb)
    · exact h

theorem handler (h : Debugging T s) (a b : List Poll) : Debugging T (s.handler a b) := by
  have hcleared : Debugging T { s with intrFlag := 0 } := h.congr rfl rfl rfl
  have hlow := h.low
  have hb := h.ringB
  rw [Debugger.handler]
  dsimp only
  rw [if_pos h.ringA,if_neg (by dsimp only; omega)]
  exact hcleared.loopB b

theorem errorCheck_asking (s : Debugger) (sr : Nat) : (s.errorCheck sr).asking = s.asking := by
  rw [Debugger.errorCheck]
  split_ifs <;> rfl

theorem receive_asking (s : Debugger) (c : UInt8) : (s.receive c).asking = s.asking := by
  rw [Debugger.receive]
  split_ifs <;> rfl

theorem loopB_asking (s : Debugger) (ps : List Poll) : (s.loopB ps).asking = s.asking := by
  induction ps generalizing s with
  | nil => rfl
  | cons p ps ih =>
    rw [Debugger.loopB]
    split_ifs
    · rw [ih,receive_asking,errorCheck_asking]
    · rfl

-- A call never finds a character in the ring.
theorem step (h : Debugging T s) (hs : s.step T e = some (o,s')) :
    o = e.answered ∧ Debugging T s' := by
  cases e with
  | interrupt a b =>
    obtain ⟨rfl,rfl⟩ := Prod.mk.inj (Option.some.inj hs)
    exact ⟨rfl,h.handler a b⟩
  | ask buf =>
    rw [Debugger.step,h.ring.unbufferOne] at hs
    dsimp only at hs
    rw [if_pos (Nat.zero_mod 256)] at hs
    split_ifs at hs with hasking
    obtain ⟨rfl,rfl⟩ := Prod.mk.inj (Option.some.inj hs)
    exact ⟨rfl,h.congr rfl rfl rfl⟩
  | answer c =>
    rw [Debugger.step] at hs
    split_ifs at hs with hasking
    obtain ⟨rfl,rfl⟩ := Prod.mk.inj (Option.some.inj hs)
    exact ⟨rfl,h.congr rfl rfl rfl⟩

-- A call after an interrupt waits for the device.
theorem waits (h : Debugging T s) (hidle : s.asking = false) (b : List Poll) (buf : Nat)
    (c : UInt8) :
    ∃ s', debugRun T s [.interrupt [] b,.ask buf,.answer c] = some ([none,none,some c],s') := by
  obtain ⟨t,ht⟩ : ∃ t, t = s.handler [] b := ⟨_,rfl⟩
  have hring : RingCleared T t.uart.mem := by
    rw [ht]
    exact (h.handler [] b).ring
  have hasking : t.asking = false := by
    have hlow := h.low
    have hb := h.ringB
    rw [ht,Debugger.handler]
    dsimp only
    rw [if_pos h.ringA,if_neg (by dsimp only; omega),loopB_asking]
    exact hidle
  have hask : t.step T (.ask buf) = some (none,{ t with asking := true }) := by
    rw [Debugger.step,hring.unbufferOne]
    dsimp only
    rw [hasking,if_neg Bool.false_ne_true,if_pos (Nat.zero_mod 256)]
  refine ⟨{ t with asking := false },?_⟩
  rw [debugRun,Debugger.step,← ht]
  change (debugRun T t _).bind _ = _
  rw [debugRun,hask]
  rfl

theorem run {es : List DebugEvent} {os : List (Option UInt8)} (h : Debugging T s)
    (hs : debugRun T s es = some (os,s')) : os = es.map (·.answered) ∧ Debugging T s' := by
  induction es generalizing s os with
  | nil =>
    obtain ⟨rfl,rfl⟩ := Prod.mk.inj (Option.some.inj hs)
    exact ⟨rfl,h⟩
  | cons e es ih =>
    obtain ⟨r,hr,hs⟩ := Option.bind_eq_some_iff.mp hs
    obtain ⟨rs,hrs,hs⟩ := Option.bind_eq_some_iff.mp hs
    obtain ⟨rfl,rfl⟩ := Prod.mk.inj (Option.some.inj hs)
    obtain ⟨ho,hnext⟩ := h.step hr
    obtain ⟨hos,hend⟩ := ih hnext hrs
    exact ⟨congrArg₂ List.cons ho hos,hend⟩

end Debugging

-- No step of a call after input.
def CallsFirst (w : List UInt8) (es : List DebugEvent) : Prop :=
  ∀ es₁ e es₂, es = es₁ ++ e :: es₂ → e.IsCall → w ++ es₁.flatMap (·.inputs) = []

section Calls

variable {w : List UInt8} {e : DebugEvent} {es : List DebugEvent}

theorem callsFirst_cons :
    CallsFirst w (e :: es) ↔ (e.IsCall → w = []) ∧ CallsFirst (w ++ e.inputs) es := by
  constructor
  · intro h
    refine ⟨fun he => ?_,fun es₁ e' es₂ hes he' => ?_⟩
    · exact (List.append_eq_nil_iff.mp (h [] e es rfl he)).1
    · rw [List.append_assoc]
      exact h (e :: es₁) e' es₂ (by rw [hes]; rfl) he'
  · rintro ⟨he,hes⟩ es₁ e' es₂ hsplit he'
    cases es₁ with
    | nil =>
      obtain ⟨rfl,-⟩ := List.cons.inj hsplit
      exact (List.append_nil w).trans (he he')
    | cons e₁ es₁ =>
      obtain ⟨rfl,hrest⟩ := List.cons.inj hsplit
      rw [List.flatMap_cons,← List.append_assoc]
      exact hes es₁ e' es₂ hrest he'

-- Calls that come back with what the device has read keep the input only while none waits.
theorem keepsInput_answered : keepsInput w es (es.map (·.answered)) ↔ CallsFirst w es := by
  induction es generalizing w with
  | nil =>
    refine ⟨fun _ es₁ e es₂ hes => ?_,fun _ => trivial⟩
    exact absurd hes.symm (List.append_ne_nil_of_right_ne_nil es₁ (List.cons_ne_nil e es₂))
  | cons e es ih =>
    rw [callsFirst_cons]
    cases e with
    | interrupt a b =>
      refine and_congr ?_ ih
      exact ⟨fun _ he => he.elim,fun _ => rfl⟩
    | ask buf =>
      constructor
      · rintro ⟨hhead,hkeeps⟩
        obtain rfl := List.head?_eq_none_iff.mp hhead.symm
        exact ⟨fun _ => rfl,ih.mp hkeeps⟩
      · rintro ⟨hcall,hes⟩
        obtain rfl := hcall trivial
        exact ⟨rfl,ih.mpr hes⟩
    | answer c =>
      constructor
      · rintro ⟨rfl,-,hkeeps⟩
        exact ⟨fun _ => rfl,ih.mp hkeeps⟩
      · rintro ⟨hcall,hes⟩
        obtain rfl := hcall trivial
        exact ⟨rfl,rfl,ih.mpr hes⟩

end Calls

-- After a start that has succeeded, input is kept in the runs in which no call takes a step after
-- an interrupt that took a character other than ctrl-C.
theorem debugger_input_kept_iff {T : DebugTarget} {s₀ s s' : Debugger} {es : List DebugEvent}
    {os : List (Option UInt8)} (hboot : Booted T s₀) (hstart : s₀.startDebugger T = some s)
    (hrun : debugRun T s es = some (os,s')) :
    keepsInput [] es os ↔
      ∀ es₁ e es₂, es = es₁ ++ e :: es₂ → e.IsCall → es₁.flatMap (·.inputs) = [] := by
  obtain ⟨rfl,-⟩ := (Debugging.of_start hboot hstart).run hrun
  exact keepsInput_answered

def demoTarget : DebugTarget where
  handler := 0x42000
  catchException := 0x42100
  debugLevel7 := 0x42200
  uartB := 0x50000
  vecBase := 0
  deviceSupport := true
  deviceCount := 2
  device := fun _ => some 0xf00001

def bootedDebugger : Debugger := ⟨⟨fun _ => 0,[]⟩,0,0,0,0,0,0,[],false⟩

theorem booted_demo : Booted demoTarget bootedDebugger :=
  ⟨by decide,by decide,.inl (by decide),fun _ _ _ => rfl⟩

theorem demo_starts : ∃ s, bootedDebugger.startDebugger demoTarget = some s ∧ s.asking = false :=
  ⟨_,rfl,rfl⟩

def interrupted : List DebugEvent := [.interrupt [] [⟨0x20,3⟩],.ask 0x8000,.answer 98]

theorem debugger_input_kept_demo : ∃ s os s', bootedDebugger.startDebugger demoTarget = some s ∧
    debugRun demoTarget s interrupted = some (os,s') ∧ keepsInput [] interrupted os := by
  obtain ⟨s,hs,hidle⟩ := demo_starts
  obtain ⟨s',hrun⟩ := (Debugging.of_start booted_demo hs).waits hidle [⟨0x20,3⟩] 0x8000 98
  refine ⟨s,_,s',hs,hrun,(debugger_input_kept_iff booted_demo hs hrun).mpr ?_⟩
  intro es₁ e es₂ hsplit _
  have hall : interrupted.flatMap (·.inputs) = [] := by decide
  rw [show interrupted = es₁ ++ e :: es₂ from hsplit,List.flatMap_append] at hall
  exact (List.append_eq_nil_iff.mp hall).1

-- A character comes in while the program runs; the first call then waits for the next one.
def lostInput : List DebugEvent := [.interrupt [] [⟨0x20,97⟩],.ask 0x8000,.answer 98]

theorem debugger_input_lost : Booted demoTarget bootedDebugger ∧
    (lostInput.flatMap (·.inputs)).length ≤ 1023 ∧
      ∃ s os s', bootedDebugger.startDebugger demoTarget = some s ∧
        debugRun demoTarget s lostInput = some (os,s') ∧ ¬ keepsInput [] lostInput os := by
  obtain ⟨s,hs,hidle⟩ := demo_starts
  obtain ⟨s',hrun⟩ := (Debugging.of_start booted_demo hs).waits hidle [⟨0x20,97⟩] 0x8000 98
  refine ⟨booted_demo,by decide,s,_,s',hs,hrun,?_⟩
  rintro ⟨-,hhead,-⟩
  exact absurd hhead (by decide)

end RoscoM68k
