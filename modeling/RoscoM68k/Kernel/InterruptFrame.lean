import RoscoM68k.Kernel.TaskQueue
import RoscoM68k.Kernel.TaskSwitch

namespace RoscoM68k
open Function

-- rte takes off the frame that the exception puts on.
def Cpu.rte (cpu : Cpu) (s : Machine) : Machine :=
  { s with
    sr := BitVec.ofNat 16 (s.mem.readW s.sp)
    pc := s.mem.readL (s.sp + 2)
    sp := s.sp + cpu.frameSize }

-- The wrappers irq_1 to irq_7, which differ in the number only, and tick_handler.
inductive Wrapper where
  | irq (n : Fin 7)
  | tick

-- The labels that the wrappers push and the variables that hold the original handlers.
structure WrapperCode where
  postJump : Wrapper → Nat
  original : Wrapper → Nat
  chainReturn : Fin 7 → Nat
  funcReturn : Nat
  postJump_top : ∀ w, postJump w < addressSpace
  chainReturn_top : ∀ n, chainReturn n < addressSpace
  funcReturn_top : funcReturn < addressSpace

-- A C function with two arguments, from its first instruction to the end of its rts. It keeps the
-- stack of its callers, here up to `top`, and the memory `P` that is not its own.
structure IrqFunction (top : Nat) (P : Set Nat) where
  run : Machine → Machine
  sp : ∀ s, (run s).sp = s.sp + 4
  pc : ∀ s, (run s).pc = s.mem.readL s.sp
  keeps : ∀ s, Mem.Agree (Set.Ico (s.sp + 12) top ∪ P) s.mem (run s).mem

-- A handler that was installed before the kernel came, up to its rte.
structure OriginalHandler (top : Nat) (P : Set Nat) where
  run : Machine → Machine
  sp : ∀ s, (run s).sp = s.sp
  keeps : ∀ s, Mem.Agree (Set.Ico s.sp top ∪ P) s.mem (run s).mem
  current : ∀ s, (run s).currentTaskVar = s.currentTaskVar
  quantum : ∀ s, (run s).tickCounter = s.tickCounter

namespace Machine

-- movem.l of some of the registers, with the first of them at the lowest address.
def pushSome (s : Machine) (is : List (Fin 15)) : Machine :=
  is.foldr (fun i s => s.pushL (s.reg i).toNat) s

def popSome (s : Machine) (is : List (Fin 15)) : Machine :=
  is.foldl (fun s i =>
    { s with reg := update s.reg i (BitVec.ofNat 32 (s.mem.readL s.sp)), sp := s.sp + 4 }) s

end Machine

variable {top : Nat} {P : Set Nat}

-- The head of the loop: d0 gets the number of the interrupt again, a0 the next node.
def fetchHandler (s : Machine) : Machine :=
  let s := { s with reg := update s.reg 0 (BitVec.ofNat 32 (s.mem.readL s.sp)) }
  let a0 := s.mem.readL (s.reg 8).toNat
  { s with reg := update s.reg 8 (BitVec.ofNat 32 a0) }

-- The call of the handler at a0, up to its first instruction.
def callHandler (C : WrapperCode) (s : Machine) : Machine :=
  let s := s.pushSome [1,8,9]
  let s := (s.pushL (s.mem.readL ((s.reg 8).toNat + 8))).pushL (s.reg 0).toNat
  let a2 := s.mem.readL ((s.reg 8).toNat + 12)
  { s with reg := update s.reg 10 (BitVec.ofNat 32 a2) }.pushL C.funcReturn

def runHandlers (C : WrapperCode) (func : Nat → IrqFunction top P) : Nat → Machine → Option Machine
  | 0, _ => none
  | fuel + 1, s =>
    let s := fetchHandler s
    if s.reg 8 = s.reg 9 then some s
    else
      let s := callHandler C s
      let s := (func (s.reg 10).toNat).run s
      if s.pc ≠ C.funcReturn then none
      else
        let s := { s with sp := s.sp + 8 }.popSome [1,8,9]
        if (s.reg 0).setWidth 8 ≠ 0#8 then some s else runHandlers C func fuel s

-- The list of the interrupt in d0: a0 points to its head, a1 to its tail.
def enterChain (K : Image) (s : Machine) : Machine :=
  let d0 := irqListOffset (s.reg 0).toNat
  let a0 := K.irq1List + d0
  let r := update (update s.reg 0 (BitVec.ofNat 32 d0)) 8 (BitVec.ofNat 32 a0)
  { s with reg := update r 9 (BitVec.ofNat 32 (a0 + 4)) }

-- On entry the stack holds the return address.
def runHandlerChain (K : Image) (C : WrapperCode) (func : Nat → IrqFunction top P) (s : Machine) :
    Option Machine :=
  if s.reg 0 = 0#32 ∨ 7 < (s.reg 0).toNat then some s.rts
  else
    let s := enterChain K (s.pushSome [0,1,8,9,10])
    (runHandlers C func addressSpace s).map (fun s => (s.popSome [0,1,8,9,10]).rts)

-- The frame made up for the original handler, the handler, and its rte: it has to lead to the
-- label post_jump of the wrapper. The frame has a format word whatever the processor.
def chainJump (cpu : Cpu) (C : WrapperCode) (h : OriginalHandler top P) (w : Wrapper)
    (s : Machine) : Option Machine :=
  let s := (s.pushW 0x45).pushL (C.postJump w)
  let s := s.pushW s.sr.toNat
  let a0 := s.mem.readL (C.original w)
  let s := cpu.rte (h.run { s with reg := update s.reg 8 (BitVec.ofNat 32 a0), pc := a0 })
  if s.pc = C.postJump w then some s else none

def irqWrapper (cpu : Cpu) (K : Image) (C : WrapperCode) (func : Nat → IrqFunction top P)
    (h : OriginalHandler top P) (n : Fin 7) (s : Machine) : Option Machine :=
  let s := s.pushRegs
  let s := { s with reg := update s.reg 0 (BitVec.ofNat 32 (n.val + 1)) }
  (runHandlerChain K C func (s.pushL (C.chainReturn n))).bind (fun s =>
    if s.pc ≠ C.chainReturn n then none
    else (chainJump cpu C h (.irq n) s).map (fun s => cpu.rte s.popRegs))

-- The tick counts down, and the task yields at the end of its quantum.
def tickWrapper (cpu : Cpu) (K : Image) (C : WrapperCode) (h : OriginalHandler top P)
    (s : Machine) : Option Machine :=
  (chainJump cpu C h .tick s.pushRegs).map (fun s =>
    let s := postJump K s
    if s.pc = K.tickRte then cpu.rte s else s)

def wrapper (cpu : Cpu) (K : Image) (C : WrapperCode) (func : Nat → IrqFunction top P)
    (h : OriginalHandler top P) : Wrapper → Machine → Option Machine
  | .irq n => irqWrapper cpu K C func h n
  | .tick => tickWrapper cpu K C h

-- The offsets of the vectors.
def Wrapper.vector : Wrapper → Nat
  | .irq n => 0x64 + 4 * n.val
  | .tick => 0x114

-- The interrupt at its level, and what the kernel does about it.
def interruptRun (cpu : Cpu) (K : Image) (C : WrapperCode) (func : Nat → IrqFunction top P)
    (h : OriginalHandler top P) (w : Wrapper) (level : BitVec 3) (s : Machine) : Option Machine :=
  wrapper cpu K C func h w (s.exception cpu w.vector level)

structure Resumed (s s' : Machine) : Prop where
  reg : s'.reg = s.reg
  sp : s'.sp = s.sp
  pc : s'.pc = s.pc
  sr : s'.sr = s.sr

-- The most that the wrappers themselves put on the stack, with the frame of the exception.
def wrapperRoom : Nat := 134

section Stack

variable {s : Machine} {a b : Nat}

-- Nothing protected lies where the wrappers push.
def Roomy (top : Nat) (P : Set Nat) : Prop := ∀ x ∈ P, x < top - wrapperRoom ∨ top ≤ x

theorem kept_off (lo : Nat) (hP : Roomy top P) (ha : top - wrapperRoom ≤ a) (hb : b ≤ lo)
    (ht : b ≤ top) : Set.Ico lo top ∪ P ⊆ (Set.Ico a b)ᶜ := by
  rintro x (hx | hx) hx'
  · have h1 := hx.1
    have h2 := hx'.2
    omega
  · have := hP x hx
    have h1 := hx'.1
    have h2 := hx'.2
    omega

def Machine.pushes (s : Machine) (vs : List Nat) : Machine := vs.foldl Machine.pushL s

-- What a number of pushes puts on the stack, the first value at the highest address.
structure Pushed (s : Machine) (vs : List Nat) (s' : Machine) : Prop where
  sp : s'.sp + 4 * vs.length = s.sp
  agree : Mem.Agree (Set.Ico s'.sp s.sp)ᶜ s.mem s'.mem
  value : ∀ k v, vs[k]? = some v → s'.mem.readL (s.sp - 4 * (k + 1)) = v

theorem pushes_spec (vs : List Nat) (h : 4 * vs.length ≤ s.sp) (hv : ∀ v ∈ vs, v < addressSpace) :
    Pushed s vs (s.pushes vs) := by
  induction vs generalizing s with
  | nil => exact ⟨rfl,Mem.Agree.refl _ _,by simp⟩
  | cons v vs ih =>
    simp only [List.length_cons] at h
    obtain ⟨s1,hs1⟩ : ∃ s1, s1 = s.pushL v := ⟨_,rfl⟩
    have he : s.pushes (v :: vs) = s1.pushes vs := by
      rw [hs1]
      rfl
    have hsp : s1.sp + 4 = s.sp := by
      rw [hs1]
      exact Nat.sub_add_cancel (by omega)
    have hag : Mem.Agree (Set.Ico s1.sp s.sp)ᶜ s.mem s1.mem := by
      rw [hs1]
      exact s.agree_pushL v (by omega)
    have htop : s1.mem.readL (s.sp - 4) = v := by
      rw [hs1]
      exact Mem.readL_writeL_self_of_lt _ (hv v List.mem_cons_self)
    obtain ⟨hsp',hag',hval⟩ := ih (s := s1) (by omega)
      (fun w hw => hv w (List.mem_cons_of_mem _ hw))
    rw [he]
    have hin : ∀ a b : Nat, (s1.pushes vs).sp ≤ a → b ≤ s.sp →
        (Set.Ico (s1.pushes vs).sp s.sp)ᶜ ⊆ (Set.Ico a b)ᶜ :=
      fun a b ha hb => Set.compl_subset_compl.mpr (Set.Ico_subset_Ico ha hb)
    refine ⟨by simp only [List.length_cons]; omega,
      (hag.mono (hin _ _ (by omega) le_rfl)).trans (hag'.mono (hin _ _ le_rfl (by omega))),?_⟩
    intro k w hk
    cases k with
    | zero =>
      obtain rfl := Option.some.inj hk
      refine (hag'.readL (fun x hx hx' => ?_)).trans htop
      have h1 := hx.1
      have h2 := hx'.2
      omega
    | succ k =>
      have hk' : s.sp - 4 * (k + 1 + 1) = s1.sp - 4 * (k + 1) := by omega
      rw [hk']
      exact hval k w hk

end Stack

section Chain

variable {K : Image} {C : WrapperCode} {func : Nat → IrqFunction top P} {s : Machine} {l : Nat}
  {xs ys : List Nat}

theorem toNat_ofNat_lt {a : Nat} (h : a < addressSpace) : (BitVec.ofNat 32 a).toNat = a := by
  rw [BitVec.toNat_ofNat]
  exact Nat.mod_eq_of_lt h

-- The stack at the first instruction of a handler of the chain.
theorem callHandler_frame (C : WrapperCode) (h : 24 ≤ s.sp) :
    Pushed s [(s.reg 9).toNat,(s.reg 8).toNat,(s.reg 1).toNat,
      (s.pushSome [1,8,9]).mem.readL ((s.reg 8).toNat + 8),(s.reg 0).toNat,C.funcReturn]
      (callHandler C s) := by
  obtain ⟨p,hp⟩ : ∃ p, p = s.pushSome [1,8,9] := ⟨_,rfl⟩
  have hlt := p.mem.readL_lt ((s.reg 8).toNat + 8)
  rw [← hp]
  have hpush := pushes_spec (s := s) [(s.reg 9).toNat,(s.reg 8).toNat,(s.reg 1).toNat,
    p.mem.readL ((s.reg 8).toNat + 8),(s.reg 0).toNat,C.funcReturn] h (by
      simp only [List.forall_mem_cons]
      exact ⟨(s.reg 9).isLt,(s.reg 8).isLt,(s.reg 1).isLt,hlt,(s.reg 0).isLt,C.funcReturn_top,
        by simp⟩)
  subst hp
  exact ⟨hpush.sp,hpush.agree,hpush.value⟩

theorem fetchHandler_next (s : Machine) : ((fetchHandler s).reg 8).toNat =
    s.mem.readL (s.reg 8).toNat := toNat_ofNat_lt (s.mem.readL_lt _)

-- One turn of the loop, from the call to the place where the function's result is tested.
structure Turned (top : Nat) (P : Set Nat) (s s' : Machine) : Prop where
  sp : s'.sp = s.sp
  a0 : s'.reg 8 = s.reg 8
  a1 : s'.reg 9 = s.reg 9
  keeps : Mem.Agree (Set.Ico s.sp top ∪ P) s.mem s'.mem

theorem callHandler_turn (func : Nat → IrqFunction top P) (hP : Roomy top P)
    (hlow : top - wrapperRoom + 24 ≤ s.sp) (htop : s.sp ≤ top) {s1 s2 : Machine}
    (h1 : s1 = callHandler C s) (h2 : s2 = (func (s1.reg 10).toNat).run s1) :
    s2.pc = C.funcReturn ∧ Turned top P s ({ s2 with sp := s2.sp + 8 }.popSome [1,8,9]) := by
  obtain ⟨data,hdata⟩ : ∃ d, d = (s.pushSome [1,8,9]).mem.readL ((s.reg 8).toNat + 8) := ⟨_,rfl⟩
  have hf := callHandler_frame (s := s) C (by omega)
  rw [← h1,← hdata] at hf
  have hsp1 : s1.sp + 24 = s.sp := hf.sp
  have hsp2 : s2.sp = s1.sp + 4 := by
    rw [h2]
    exact (func _).sp s1
  have hkeep : Mem.Agree (Set.Ico (s1.sp + 12) top ∪ P) s1.mem s2.mem := by
    rw [h2]
    exact (func _).keeps s1
  have hread : ∀ k v, k < 3 → [(s.reg 9).toNat,(s.reg 8).toNat,(s.reg 1).toNat,data,
      (s.reg 0).toNat,C.funcReturn][k]? = some v → s2.mem.readL (s.sp - 4 * (k + 1)) = v := by
    intro k v hk hv
    rw [hkeep.readL (fun x hx => .inl ⟨?_,?_⟩)]
    · exact hf.value k v hv
    · have := hx.1
      omega
    · have := hx.2
      omega
  refine ⟨?_,?_,?_,?_,?_⟩
  · have hret := hf.value 5 C.funcReturn rfl
    have he : s.sp - 4 * (5 + 1) = s1.sp := by omega
    rw [he] at hret
    rw [h2,(func _).pc s1,hret]
  · change s2.sp + 8 + 4 + 4 + 4 = s.sp
    omega
  · change BitVec.ofNat 32 (s2.mem.readL (s2.sp + 8 + 4)) = s.reg 8
    have he : s2.sp + 8 + 4 = s.sp - 4 * (1 + 1) := by omega
    rw [he,hread 1 _ (by omega) rfl,BitVec.ofNat_toNat,BitVec.setWidth_eq]
  · change BitVec.ofNat 32 (s2.mem.readL (s2.sp + 8 + 4 + 4)) = s.reg 9
    have he : s2.sp + 8 + 4 + 4 = s.sp - 4 * (0 + 1) := by omega
    rw [he,hread 0 _ (by omega) rfl,BitVec.ofNat_toNat,BitVec.setWidth_eq]
  · refine (hf.agree.mono (kept_off _ hP (by omega) le_rfl htop)).trans (hkeep.mono ?_)
    exact Set.union_subset_union_left _ (Set.Ico_subset_Ico_left (by omega))

theorem runHandlers_spec (func : Nat → IrqFunction top P) {fuel : Nat} (hP : Roomy top P)
    (hl : IsList s.mem l (xs ++ ys)) (hcells : cells l (xs ++ ys) ⊆ P)
    (hnext : s.mem.readL (s.reg 8).toNat = (ys ++ [l + 4]).head (by simp))
    (h9 : (s.reg 9).toNat = l + 4) (hlow : top - wrapperRoom + 24 ≤ s.sp) (htop : s.sp ≤ top)
    (hf : ys.length < fuel) :
    ∃ s', runHandlers C func fuel s = some s' ∧ s'.sp = s.sp ∧
      Mem.Agree (Set.Ico s.sp top ∪ P) s.mem s'.mem := by
  induction ys generalizing xs fuel s with
  | nil =>
    obtain ⟨fuel,rfl⟩ : ∃ k, fuel = k + 1 := ⟨fuel - 1,by simp at hf; omega⟩
    have hend : (fetchHandler s).reg 8 = (fetchHandler s).reg 9 := by
      refine BitVec.eq_of_toNat_eq ?_
      rw [fetchHandler_next,hnext]
      exact h9.symm
    refine ⟨fetchHandler s,?_,rfl,Mem.Agree.refl _ _⟩
    rw [runHandlers,if_pos hend]
  | cons y ys ih =>
    obtain ⟨fuel,rfl⟩ : ∃ k, fuel = k + 1 := ⟨fuel - 1,by simp at hf; omega⟩
    have hy : ((fetchHandler s).reg 8).toNat = y := by
      rw [fetchHandler_next,hnext]
      rfl
    have hmore : (fetchHandler s).reg 8 ≠ (fetchHandler s).reg 9 := by
      intro he
      have hoff := hl.off_header y (by simp)
      rw [he] at hy
      have : y = l + 4 := hy.symm.trans h9
      omega
    obtain ⟨s1,h1⟩ : ∃ s1, s1 = callHandler C (fetchHandler s) := ⟨_,rfl⟩
    obtain ⟨s2,h2⟩ : ∃ s2, s2 = (func (s1.reg 10).toNat).run s1 := ⟨_,rfl⟩
    obtain ⟨s3,h3⟩ : ∃ s3, s3 = { s2 with sp := s2.sp + 8 }.popSome [1,8,9] := ⟨_,rfl⟩
    obtain ⟨hpc,ht⟩ := callHandler_turn func hP (s := fetchHandler s) hlow htop h1 h2
    rw [← h3] at ht
    have hsp3 : s3.sp = s.sp := ht.sp
    have hkeep : Mem.Agree (Set.Ico s.sp top ∪ P) s.mem s3.mem := ht.keeps
    have hrun : runHandlers C func (fuel + 1) s =
        if (s3.reg 0).setWidth 8 ≠ 0#8 then some s3 else runHandlers C func fuel s3 := by
      rw [runHandlers,if_neg hmore,← h1]
      dsimp only
      rw [← h2,← h3,if_neg (not_not.mpr hpc)]
    rw [hrun]
    split
    · exact ⟨s3,rfl,hsp3,hkeep⟩
    · have hsplit : xs ++ y :: ys = (xs ++ [y]) ++ ys := by simp
      have hl3 : IsList s3.mem l (xs ++ y :: ys) :=
        hl.agree (hkeep.mono (hcells.trans Set.subset_union_right))
      have hy3 : (s3.reg 8).toNat = y := by
        rw [ht.a0]
        exact hy
      have h93 : (s3.reg 9).toNat = l + 4 := by
        rw [ht.a1]
        exact h9
      have hnext3 : s3.mem.readL (s3.reg 8).toNat = (ys ++ [l + 4]).head (by simp) := by
        rw [hy3]
        exact hl3.next_eq
      rw [hsplit] at hl3 hcells
      simp only [List.length_cons] at hf
      obtain ⟨s',he,hsp,hk⟩ := ih hl3 hcells hnext3 h93 (by omega) (by omega)
        (show ys.length < fuel by omega)
      rw [hsp3] at hsp hk
      exact ⟨s',he,hsp,hkeep.trans hk⟩

def Image.irqList (K : Image) (n : Fin 7) : Nat := K.irq1List + 12 * n.val

theorem irqListOffset_eq (n : Fin 7) : irqListOffset (n.val + 1) = 12 * n.val := by
  have := n.isLt
  unfold irqListOffset
  omega

theorem runHandlerChain_spec (func : Nat → IrqFunction top P) {n : Fin 7} {hs : List Nat}
    (hP : Roomy top P) (hl : IsList s.mem (K.irqList n) hs) (hcells : cells (K.irqList n) hs ⊆ P)
    (h0 : s.reg 0 = BitVec.ofNat 32 (n.val + 1)) (hlow : top - wrapperRoom + 44 ≤ s.sp)
    (htop : s.sp + 4 ≤ top) :
    ∃ s', runHandlerChain K C func s = some s' ∧ s'.sp = s.sp + 4 ∧ s'.pc = s.mem.readL s.sp ∧
      Mem.Agree (Set.Ico s.sp top ∪ P) s.mem s'.mem := by
  have hn := n.isLt
  have hv : (s.reg 0).toNat = n.val + 1 := by
    rw [h0]
    exact toNat_ofNat_lt (by simp only [addressSpace]; omega)
  have hgo : ¬ (s.reg 0 = 0#32 ∨ 7 < (s.reg 0).toNat) := by
    rintro (hz | hz)
    · rw [hz] at hv
      exact absurd hv.symm (Nat.succ_ne_zero _)
    · omega
  obtain ⟨s1,h1⟩ : ∃ s1, s1 = s.pushSome [0,1,8,9,10] := ⟨_,rfl⟩
  have hpush : Pushed s [(s.reg 10).toNat,(s.reg 9).toNat,(s.reg 8).toNat,(s.reg 1).toNat,
      (s.reg 0).toNat] s1 := by
    rw [h1]
    refine pushes_spec (s := s) _ (show 20 ≤ s.sp by omega) ?_
    simp only [List.forall_mem_cons]
    exact ⟨(s.reg 10).isLt,(s.reg 9).isLt,(s.reg 8).isLt,(s.reg 1).isLt,(s.reg 0).isLt,by simp⟩
  have hsp1 : s1.sp + 20 = s.sp := hpush.sp
  have hreg : s1.reg = s.reg := by
    rw [h1]
    rfl
  have hag1 : Mem.Agree (Set.Ico s.sp top ∪ P) s.mem s1.mem :=
    hpush.agree.mono (kept_off _ hP (by omega) le_rfl (by omega))
  obtain ⟨s2,h2⟩ : ∃ s2, s2 = enterChain K s1 := ⟨_,rfl⟩
  have hmem2 : s2.mem = s1.mem := by
    rw [h2]
    rfl
  have hsp2 : s2.sp = s1.sp := by
    rw [h2]
    rfl
  have hhead : K.irq1List + irqListOffset (s1.reg 0).toNat = K.irqList n := by
    rw [hreg,hv,irqListOffset_eq]
    rfl
  have hlt : K.irqList n + 12 ≤ addressSpace := hl.top
  have h8 : (s2.reg 8).toNat = K.irqList n := by
    rw [h2,← hhead]
    exact toNat_ofNat_lt (by omega)
  have h9 : (s2.reg 9).toNat = K.irqList n + 4 := by
    rw [h2,← hhead]
    exact toNat_ofNat_lt (by omega)
  have hl2 : IsList s2.mem (K.irqList n) ([] ++ hs) := by
    rw [hmem2]
    exact hl.agree (hag1.mono (hcells.trans Set.subset_union_right))
  obtain ⟨s3,he,hsp3,hag3⟩ := runHandlers_spec (C := C) func hP hl2 hcells
    (by rw [h8]; exact hl2.header_next) h9 (by omega) (by omega) hl.length_lt
  rw [hsp2,hmem2] at hag3
  have hkeep : Mem.Agree (Set.Ico s.sp top ∪ P) s.mem s3.mem := by
    refine hag1.trans (hag3.mono (Set.union_subset_union_left _ ?_))
    exact Set.Ico_subset_Ico_left (by omega)
  have hsp : s3.sp + 4 + 4 + 4 + 4 + 4 = s.sp := by omega
  refine ⟨(s3.popSome [0,1,8,9,10]).rts,?_,?_,?_,hkeep⟩
  · rw [runHandlerChain,if_neg hgo,← h1]
    dsimp only
    rw [← h2,he]
    rfl
  · change s3.sp + 4 + 4 + 4 + 4 + 4 + 4 = s.sp + 4
    omega
  · change s3.mem.readL (s3.sp + 4 + 4 + 4 + 4 + 4) = _
    rw [hsp,hkeep.readL]
    exact (Set.Ico_subset_Ico_right htop).trans Set.subset_union_left

theorem chainJump_spec (cpu : Cpu) (w : Wrapper) (h : OriginalHandler top P) (hP : Roomy top P)
    (hlow : top - wrapperRoom + 8 ≤ s.sp) (htop : s.sp ≤ top) :
    ∃ s', chainJump cpu C h w s = some s' ∧ s'.sp + 8 = s.sp + cpu.frameSize ∧
      Mem.Agree (Set.Ico s.sp top ∪ P) s.mem s'.mem ∧ s'.currentTaskVar = s.currentTaskVar ∧
      s'.tickCounter = s.tickCounter := by
  obtain ⟨s1,h1⟩ : ∃ s1, s1 = (s.pushW 0x45).pushL (C.postJump w) := ⟨_,rfl⟩
  obtain ⟨s2,h2⟩ : ∃ s2, s2 = s1.pushW s1.sr.toNat := ⟨_,rfl⟩
  obtain ⟨a0,ha0⟩ : ∃ a0, a0 = s2.mem.readL (C.original w) := ⟨_,rfl⟩
  obtain ⟨s3,h3⟩ : ∃ s3 : Machine, s3 =
    { s2 with reg := update s2.reg 8 (BitVec.ofNat 32 a0), pc := a0 } := ⟨_,rfl⟩
  obtain ⟨s0,h0⟩ : ∃ s0, s0 = s.pushW 0x45 := ⟨_,rfl⟩
  have hsp0 : s0.sp + 2 = s.sp := by rw [h0]; exact Nat.sub_add_cancel (by omega)
  have hsp1 : s1.sp + 4 = s0.sp := by rw [h1,← h0]; exact Nat.sub_add_cancel (by omega)
  have hsp2 : s2.sp + 2 = s1.sp := by rw [h2]; exact Nat.sub_add_cancel (by omega)
  have hag0 : Mem.Agree (Set.Ico s0.sp s.sp)ᶜ s.mem s0.mem := by
    rw [h0]
    exact s.agree_pushW _ (by omega)
  have hag1 : Mem.Agree (Set.Ico s1.sp s0.sp)ᶜ s0.mem s1.mem := by
    rw [h1,← h0]
    exact s0.agree_pushL _ (by omega)
  have hag2 : Mem.Agree (Set.Ico s2.sp s1.sp)ᶜ s1.mem s2.mem := by
    rw [h2]
    exact s1.agree_pushW _ (by omega)
  have hret : s2.mem.readL s1.sp = C.postJump w := by
    have hw : s1.mem.readL (s0.sp - 4) = C.postJump w := by
      rw [h1,← h0]
      exact Mem.readL_writeL_self_of_lt _ (C.postJump_top w)
    have he : s0.sp - 4 = s1.sp := by omega
    rw [he] at hw
    rw [← hw]
    refine hag2.readL (fun x hx hx' => ?_)
    have h1 := hx.1
    have h2 := hx'.2
    omega
  have hsp3 : (h.run s3).sp = s2.sp := by
    rw [h.sp s3,h3]
  have hag3 : Mem.Agree (Set.Ico s2.sp top ∪ P) s2.mem (h.run s3).mem := by
    have := h.keeps s3
    rw [h3] at this ⊢
    exact this
  have hpc : (cpu.rte (h.run s3)).pc = C.postJump w := by
    change (h.run s3).mem.readL ((h.run s3).sp + 2) = _
    rw [hsp3,hsp2,hag3.readL,hret]
    exact (Set.Ico_subset_Ico (by omega) (by omega)).trans Set.subset_union_left
  refine ⟨cpu.rte (h.run s3),?_,?_,?_,?_,?_⟩
  · rw [chainJump,← h1,← h2,← ha0,← h3,if_pos hpc]
  · change (h.run s3).sp + cpu.frameSize + 8 = _
    omega
  · have hk0 := kept_off s.sp hP (show top - wrapperRoom ≤ s0.sp by omega) le_rfl htop
    have hk1 := kept_off s.sp hP (show top - wrapperRoom ≤ s1.sp by omega)
      (show s0.sp ≤ s.sp by omega) (by omega)
    have hk2 := kept_off s.sp hP (show top - wrapperRoom ≤ s2.sp by omega)
      (show s1.sp ≤ s.sp by omega) (by omega)
    refine (hag0.mono hk0).trans ((hag1.mono hk1).trans ((hag2.mono hk2).trans (hag3.mono ?_)))
    exact Set.union_subset_union_left _ (Set.Ico_subset_Ico_left (by omega))
  · change (h.run s3).currentTaskVar = _
    rw [h.current s3,h3,h2,h1]
    rfl
  · change (h.run s3).tickCounter = _
    rw [h.quantum s3,h3,h2,h1]
    rfl

end Chain

section Tick

variable {K : Image} {s : Machine} {t : Nat} {Q : Queue → List Nat}

-- The registers are taken off the stack and the rest of it is as it was.
structure Popped (top : Nat) (s s' : Machine) : Prop where
  reg : s'.reg = loadRegs s.mem s.sp
  sp : s'.sp = s.sp + 60
  keeps : Mem.Agree (Set.Ico s.sp top) s.mem s'.mem

theorem Popped.popRegs (top : Nat) (s : Machine) : Popped top s s.popRegs := by
  unfold Machine.popRegs
  exact ⟨rfl,rfl,Mem.Agree.refl _ s.mem⟩

-- The scheduler's data, as a tick finds it while task `t` runs: none of it lies in the stack.
structure Preempted (K : Image) (P : Set Nat) (m : Mem) (t : Nat) (Q : Queue → List Nat) :
    Prop where
  queues : QueueRep K m Q
  pos : 0 < t
  node : t ≠ K.tidle → Node K t ∧ ∀ c, ∀ y ∈ Q c, NodesApart t y
  links : taskLinks K (insert t (queued Q)) ⊆ P
  field : Set.Ico (taskStack t) (taskStack t + 4) ⊆ P
  field_off : Set.Ico (taskStack t) (taskStack t + 4) ⊆ (taskLinks K (insert t (queued Q)))ᶜ

theorem Preempted.agree {m m' : Mem} (h : Preempted K P m t Q) (ha : Mem.Agree P m m') :
    Preempted K P m' t Q :=
  { h with queues := h.queues.agree (ha.mono
      ((taskLinks_mono (Set.subset_insert _ _)).trans h.links)) }

theorem resume_current (K : Image) (s : Machine) :
    (resume K s).currentTaskVar = s.currentTaskVar := by
  have hen : ∀ s : Machine, s.enableInterrupts.currentTaskVar = s.currentTaskVar := by
    intro s
    rw [Machine.enable_fields]
  unfold resume
  split
  · refine (hen _).trans ?_
    unfold Machine.popRegs
    rfl
  · split
    · exact hen _
    · split
      · exact hen _
      · split
        · exact hen _
        · split
          · unfold Machine.pushL Machine.rts
            rfl
          · rfl

theorem Machine.switchA1_current (s : Machine) (t : Nat) : (s.switchA1 t).currentTaskVar = t := by
  unfold Machine.switchA1 Machine.popRegs Machine.popSr Machine.rts
  rfl

-- The search for the next task writes to nothing but the queues.
theorem taskNext_agree {m : Mem} (h : QueueRep K m Q) :
    Mem.Agree (taskLinks K (queued Q))ᶜ m (taskNext K m).1 := by
  rcases (readies Q).empty_or_top with he | ⟨p,htop⟩
  · rw [taskNext_empty h he]
    exact Mem.Agree.refl _ _
  · obtain ⟨u,us,hq⟩ := List.exists_cons_of_ne_nil htop.busy
    obtain ⟨-,ha⟩ := h.delete (show Q (.ready p) = [] ++ u :: us from hq)
    rw [taskNext_top h htop hq]
    exact ha.mono (Set.compl_subset_compl.mpr (cells_taskLinks (fun z hz => ⟨_,hz⟩)))

-- What task_yield does to the memory between suspending a task and switching to the next.
theorem requeue_agree {m : Mem} (h : Preempted K P m t Q) (d0 : Nat) :
    let m' := if t = 0 ∨ t = K.tidle then m
      else listAddTail m d0 (runnablePriorityQueuePtr K m t) t
    Mem.Agree (taskLinks K (insert t (queued Q)))ᶜ m (taskNext K m').1 := by
  intro m'
  have hpos := h.pos
  by_cases ht : t = K.tidle
  · have hm' : m' = m := if_pos (.inr ht)
    rw [hm']
    refine (taskNext_agree h.queues).mono (Set.compl_subset_compl.mpr ?_)
    exact taskLinks_mono (Set.subset_insert _ _)
  · have hm' : m' = listAddTail m d0 (runnablePriorityQueuePtr K m t) t :=
      if_neg (by omega)
    obtain ⟨hn,hap⟩ := h.node ht
    have hlt : m.readB (taskPrio t) &&& 3 < 4 := Nat.lt_succ_of_le Nat.and_le_right
    obtain ⟨c,hc⟩ : ∃ c : Queue, K.header c = runnablePriorityQueuePtr K m t :=
      ⟨.ready ⟨_,hlt⟩,(runnablePriorityQueuePtr_eq K m t).symm⟩
    obtain ⟨hq,ha⟩ := h.queues.add_tail (c := c) hn hap d0
    rw [hm',← hc]
    have hsub : queued (update Q c (Q c ++ [t])) ⊆ insert t (queued Q) := by
      rintro u ⟨d,hu⟩
      by_cases hd : d = c
      · subst hd
        rw [update_self] at hu
        rcases List.mem_append.mp hu with hu | hu
        · exact .inr ⟨_,hu⟩
        · exact .inl (List.mem_singleton.mp hu)
      · rw [update_of_ne hd] at hu
        exact .inr ⟨_,hu⟩
    refine (ha.mono (Set.compl_subset_compl.mpr (cells_taskLinks (fun z hz => ?_)))).trans
      ((taskNext_agree hq).mono (Set.compl_subset_compl.mpr (taskLinks_mono hsub)))
    rcases List.mem_append.mp hz with hz | hz
    · exact .inr ⟨c,hz⟩
    · exact .inl (List.mem_singleton.mp hz)

theorem resume_popped (top : Nat) (h : s.pc = K.tickHandlerDone) :
    (resume K s).pc = K.tickRte ∧ Popped top s (resume K s) := by
  rw [resume_tick h,Machine.enable_fields]
  unfold Machine.popRegs
  exact ⟨rfl,rfl,rfl,Mem.Agree.refl _ s.mem⟩

-- A yield that finds the same task again goes on where tick_handler called it.
theorem taskYield_popped (hP : Roomy top P) (hq : Preempted K P s.mem s.currentTaskVar Q)
    (hret : s.mem.readL s.sp = K.tickHandlerDone) (hlow : top - wrapperRoom + 62 ≤ s.sp)
    (htop : s.sp + 64 ≤ top) (hadd : top ≤ addressSpace)
    (hstay : (taskYield K s).currentTaskVar = s.currentTaskVar) :
    (taskYield K s).pc = K.tickRte ∧ Popped top { s with sp := s.sp + 4 } (taskYield K s) := by
  obtain ⟨t,ht⟩ : ∃ t, t = s.currentTaskVar := ⟨_,rfl⟩
  rw [← ht] at hq hstay
  have hf : Machine.SuspendFrame s s.suspend := by
    refine Machine.suspend_frame (by omega) (by omega) (fun x h1 h2 => ?_)
    have := hP x (hq.field (ht ▸ ⟨h1,h2⟩))
    omega
  obtain ⟨s1,h1⟩ : ∃ s1, s1 = s.suspend := ⟨_,rfl⟩
  rw [← h1] at hf
  have hcur : s1.currentTaskVar = t := by rw [hf.eq,ht]
  have hsp1 := hf.sp
  have hlinks : taskLinks K (insert t (queued Q)) ⊆ (Set.Ico s1.sp s.sp ∪
      Set.Ico (taskStack s.currentTaskVar) (taskStack s.currentTaskVar + 4))ᶜ := by
    rintro x hx (hx' | hx')
    · have := hP x (hq.links hx)
      have := hx'.1
      have := hx'.2
      omega
    · rw [← ht] at hx'
      exact hq.field_off hx' hx
  have hq1 : Preempted K P s1.mem t Q :=
    { hq with queues := hq.queues.agree (hf.agree.mono
        ((taskLinks_mono (Set.subset_insert _ _)).trans hlinks)) }
  obtain ⟨m2,h2⟩ : ∃ m2, m2 = if t = 0 ∨ t = K.tidle then s1.mem else
    listAddTail s1.mem (s1.reg 0).toNat (runnablePriorityQueuePtr K s1.mem t) t := ⟨_,rfl⟩
  have hag2 := requeue_agree hq1 (s1.reg 0).toNat
  simp only [← h2] at hag2
  have hyield :
      taskYield K s = switchTo K { s1 with mem := (taskNext K m2).1 } (taskNext K m2).2 := by
    rw [taskYield,← h1]
    simp only [hcur]
    split
    · rename_i hc
      rw [if_pos hc] at h2
      rw [h2]
      rfl
    · rename_i hc
      rw [if_neg hc] at h2
      rw [h2]
      rfl
  have hnext : (taskNext K m2).2 = t := by
    rw [← hstay,hyield,switchTo,resume_current,Machine.switchA1_current]
  rw [hnext] at hyield
  obtain ⟨m3,h3⟩ : ∃ m3, m3 = (taskNext K m2).1 := ⟨_,rfl⟩
  rw [← h3] at hag2 hyield
  have hstack : Mem.Agree (Set.Ico s.sp top) s.mem m3 := by
    refine (hf.agree.mono ?_).trans (hag2.mono ?_)
    · rintro x hx (hx' | hx')
      · have := hx.1
        have := hx'.2
        omega
      · have := hP x (hq.field (ht ▸ hx'))
        have := hx.1
        have := hx.2
        omega
    · intro x hx hx'
      have := hP x (hq.links hx')
      have := hx.1
      have := hx.2
      omega
  have hsaved : m3.readL (taskStack t) = s1.sp := by
    rw [hag2.readL (hq.field_off),ht]
    exact hf.saved
  obtain ⟨s3,hs3⟩ : ∃ s3, s3 = Machine.switchA1 { s1 with mem := m3 } t := ⟨_,rfl⟩
  have hmem3 : s3.mem = m3 := by
    rw [hs3]
    rfl
  have hsp3 : s3.sp = s.sp + 4 := by
    rw [hs3]
    change m3.readL (taskStack t) + 60 + 2 + 4 = s.sp + 4
    omega
  have hpc3 : s3.pc = K.tickHandlerDone := by
    rw [hs3]
    change m3.readL (m3.readL (taskStack t) + 60 + 2) = _
    have he : m3.readL (taskStack t) + 60 + 2 = s.sp := by omega
    rw [he,hstack.readL (Set.Ico_subset_Ico_right (by omega)),hret]
  obtain ⟨hpc,hreg,hsp,hkeep⟩ := resume_popped (K := K) top hpc3
  rw [hyield,switchTo,← hs3]
  refine ⟨hpc,?_,?_,?_⟩
  · rw [hreg,hmem3,hsp3]
    change loadRegs m3 (s.sp + 4) = loadRegs s.mem (s.sp + 4)
    exact loadRegs_congr hstack (Set.Ico_subset_Ico (by omega) (by omega))
  · rw [hsp,hsp3]
  · rw [hsp3,hmem3] at hkeep
    exact (hstack.mono (Set.Ico_subset_Ico_left (show s.sp ≤ s.sp + 4 by omega))).trans hkeep

-- A tick that leaves the running task running: its quantum is not over, or it yields and is the
-- next task itself.
theorem postJump_popped (hP : Roomy top P)
    (hq : s.tickCounter = 1#16 → ∃ Q, Preempted K P s.mem s.currentTaskVar Q)
    (hlow : top - wrapperRoom + 66 ≤ s.sp) (htop : s.sp + 60 ≤ top) (hadd : top ≤ addressSpace)
    (hstay : (postJump K s).currentTaskVar = s.currentTaskVar) :
    (postJump K s).pc = K.tickRte ∧ Popped top s (postJump K s) := by
  by_cases hc : s.tickCounter = 1#16
  · obtain ⟨Q,hq⟩ := hq hc
    obtain ⟨s1,h1⟩ : ∃ s1 : Machine, s1 =
      { s.disableInterrupts with tickCounter := QUANTUM_TICKS } := ⟨_,rfl⟩
    obtain ⟨s2,h2⟩ : ∃ s2, s2 = s1.pushL K.tickHandlerDone := ⟨_,rfl⟩
    have hrun : postJump K s = taskYield K s2 := by
      have hz : s.disableInterrupts.tickCounter - 1#16 = 0#16 := by
        change s.tickCounter - 1#16 = 0#16
        rw [hc]
        rfl
      rw [postJump]
      dsimp only
      rw [if_neg (not_not.mpr hz),h2,h1]
    have hmem1 : s1.mem = s.mem := by
      rw [h1]
      rfl
    have hsp1 : s1.sp = s.sp := by
      rw [h1]
      rfl
    have hsp2 : s2.sp + 4 = s.sp := by
      rw [h2,← hsp1]
      exact Nat.sub_add_cancel (by omega)
    have hcur : s2.currentTaskVar = s.currentTaskVar := by
      rw [h2,h1]
      rfl
    have hag : Mem.Agree (Set.Ico s2.sp s.sp)ᶜ s.mem s2.mem := by
      have := s1.agree_pushL K.tickHandlerDone (by omega)
      rw [← h2,hmem1,hsp1] at this
      have he : s.sp - 4 = s2.sp := by omega
      rw [he] at this
      exact this
    have hret : s2.mem.readL s2.sp = K.tickHandlerDone := by
      have he : s2.sp = s1.sp - 4 := by omega
      rw [he,h2]
      exact Mem.readL_writeL_self_of_lt _ (K.code_top _ (by simp [Symbols.resumePoints]))
    have hkept := kept_off s.sp hP (show top - wrapperRoom ≤ s2.sp by omega)
      le_rfl (by omega)
    have hq2 : Preempted K P s2.mem s2.currentTaskVar Q := by
      rw [hcur]
      exact hq.agree (hag.mono (Set.subset_union_right.trans hkept))
    rw [hrun] at hstay ⊢
    obtain ⟨hpc,hreg,hsp,hkeep⟩ := taskYield_popped hP hq2 hret (by omega) (by omega) hadd
      (hstay.trans hcur.symm)
    have hstack : Mem.Agree (Set.Ico s.sp top) s.mem s2.mem :=
      hag.mono (Set.subset_union_left.trans hkept)
    simp only [hsp2] at hreg hsp hkeep
    refine ⟨hpc,?_,hsp,hstack.trans hkeep⟩
    rw [hreg]
    exact loadRegs_congr hstack (Set.Ico_subset_Ico_right htop)
  · have hne : s.disableInterrupts.tickCounter - 1#16 ≠ 0#16 := by
      intro hz
      refine hc ?_
      have hs : s.tickCounter - 1#16 + 1#16 = 0#16 + 1#16 := congrArg (· + 1#16) hz
      rw [BitVec.sub_add_cancel] at hs
      exact hs
    have hrun : postJump K s = resume K { s.disableInterrupts with
        tickCounter := s.disableInterrupts.tickCounter - 1#16, pc := K.tickHandlerDone } := by
      rw [postJump]
      dsimp only
      rw [if_pos hne]
    rw [hrun]
    obtain ⟨hpc,hreg,hsp,hkeep⟩ := resume_popped (K := K) top
      (s := { s.disableInterrupts with
        tickCounter := s.disableInterrupts.tickCounter - 1#16, pc := K.tickHandlerDone }) rfl
    exact ⟨hpc,hreg,hsp,hkeep⟩

end Tick

section Resume

variable {K : Image} {C : WrapperCode} {func : Nat → IrqFunction top P} {cpu : Cpu}
  {s s' s0 : Machine}

-- The registers and the frame of the exception are on top of the stack.
theorem Popped.resumed (h : Popped s0.sp s s') (hf : Machine.EntryFrame 8 s0 s.mem s.sp) :
    Resumed s0 (Cpu.rte .m68010 s') := by
  have hd := hf.depth
  have hsp := h.sp
  refine ⟨?_,?_,?_,?_⟩
  · rw [← hf.regs]
    exact h.reg
  · change s'.sp + 8 = s0.sp
    omega
  · change s'.mem.readL (s'.sp + 2) = s0.pc
    rw [← hf.pc,hsp,h.keeps.readL (Set.Ico_subset_Ico (by omega) (by omega))]
  · change BitVec.ofNat 16 (s'.mem.readW s'.sp) = s0.sr
    rw [hsp,h.keeps.readW (Set.Ico_subset_Ico (by omega) (by omega)),hf.sr,BitVec.ofNat_toNat,
      BitVec.setWidth_eq]

-- Back from the original handler: on a 68000 its rte has left a word of the frame on the stack.
theorem Popped.resumed_iff (h : Popped s0.sp s s') {m : Mem} {sp : Nat}
    (hf : Machine.EntryFrame cpu.frameSize s0 m sp) (hsp : s.sp + 8 = sp + cpu.frameSize)
    (hm : Mem.Agree (Set.Ico sp s0.sp) m s.mem) : Resumed s0 (cpu.rte s') ↔ cpu = .m68010 := by
  have hd := hf.depth
  have hsp' := h.sp
  constructor
  · intro hr
    have hsp0 : s'.sp + cpu.frameSize = s0.sp := hr.sp
    cases cpu with
    | m68000 =>
      simp only [Cpu.frameSize] at *
      omega
    | m68010 => rfl
  · rintro rfl
    have he : s.sp = sp := by
      simp only [Cpu.frameSize] at hsp
      omega
    refine h.resumed ?_
    rw [he]
    exact hf.agree (by decide) hm

-- The interrupted code has a stack that a wrapper fits on, apart from the data `P` that the kernel
-- works on in the wrapper and that none of the handlers touches.
structure Interruptible (K : Image) (P : Set Nat) (w : Wrapper) (s : Machine) : Prop where
  roomy : Roomy s.sp P
  room : wrapperRoom ≤ s.sp
  top : s.sp ≤ addressSpace
  pc : s.pc < addressSpace
  chain : ∀ n, w = .irq n → ∃ hs, IsList s.mem (K.irqList n) hs ∧ cells (K.irqList n) hs ⊆ P
  queues : w = .tick → s.tickCounter = 1#16 → ∃ Q, Preempted K P s.mem s.currentTaskVar Q

theorem irq_resumed_iff {func : Nat → IrqFunction s.sp P} {h : OriginalHandler s.sp P} {n : Fin 7}
    {level : BitVec 3} (hi : Interruptible K P (.irq n) s) :
    ∃ s', interruptRun cpu K C func h (.irq n) level s = some s' ∧
      (Resumed s s' ↔ cpu = .m68010) := by
  obtain ⟨hP,hroom,htop,hpc,hch,-⟩ := hi
  obtain ⟨hs,hl,hcells⟩ := hch n rfl
  have hle := cpu.frameSize_le
  have hge := cpu.le_frameSize
  simp only [wrapperRoom] at hroom
  obtain ⟨hsp1,hf,hag⟩ := Machine.exception_frame cpu (Wrapper.irq n).vector level
    (show 68 ≤ s.sp by omega) hpc
  obtain ⟨s1,h1⟩ : ∃ s1, s1 = (s.exception cpu (Wrapper.irq n).vector level).pushRegs := ⟨_,rfl⟩
  rw [← h1] at hsp1 hf hag
  obtain ⟨s2,h2⟩ : ∃ s2 : Machine, s2 =
    { s1 with reg := update s1.reg 0 (BitVec.ofNat 32 (n.val + 1)) } := ⟨_,rfl⟩
  obtain ⟨s3,h3⟩ : ∃ s3, s3 = s2.pushL (C.chainReturn n) := ⟨_,rfl⟩
  have hmem2 : s2.mem = s1.mem := by rw [h2]
  have hsp2 : s2.sp = s1.sp := by rw [h2]
  have hsp3 : s3.sp + 4 = s1.sp := by
    rw [h3,← hsp2]
    exact Nat.sub_add_cancel (by omega)
  have hag3 : Mem.Agree (Set.Ico s3.sp s1.sp)ᶜ s1.mem s3.mem := by
    have := s2.agree_pushL (C.chainReturn n) (by omega)
    rw [← h3,hmem2,hsp2] at this
    have he : s1.sp - 4 = s3.sp := by omega
    rw [he] at this
    exact this
  have hret : s3.mem.readL s3.sp = C.chainReturn n := by
    have he : s3.sp = s2.sp - 4 := by omega
    rw [he,h3]
    exact Mem.readL_writeL_self_of_lt _ (C.chainReturn_top n)
  have hkept1 := kept_off s.sp hP
    (show s.sp - wrapperRoom ≤ s.sp - 60 - cpu.frameSize by simp only [wrapperRoom]; omega) le_rfl
    le_rfl
  have hkept3 := kept_off s1.sp hP
    (show s.sp - wrapperRoom ≤ s3.sp by simp only [wrapperRoom]; omega) le_rfl (by omega)
  have hl3 : IsList s3.mem (K.irqList n) hs := by
    refine (hl.agree (hag.mono ?_)).agree (hag3.mono ?_)
    · exact hcells.trans (Set.subset_union_right.trans hkept1)
    · exact hcells.trans (Set.subset_union_right.trans hkept3)
  have h0 : s3.reg 0 = BitVec.ofNat 32 (n.val + 1) := by
    rw [h3,h2]
    exact update_self 0 _ s1.reg
  obtain ⟨s4,he4,hsp4,hpc4,hag4⟩ := runHandlerChain_spec (C := C) func hP hl3 hcells h0
    (by simp only [wrapperRoom]; omega) (by omega)
  obtain ⟨s5,he5,hsp5,hag5,-⟩ := chainJump_spec (C := C) (s := s4) cpu (.irq n) h hP
    (by simp only [wrapperRoom]; omega) (by omega)
  refine ⟨cpu.rte s5.popRegs,?_,?_⟩
  · rw [interruptRun,wrapper,irqWrapper,← h1,← h2,← h3,he4,Option.bind_some,
      if_neg (not_not.mpr (hpc4.trans hret)),he5]
    rfl
  · refine Popped.resumed_iff (Popped.popRegs s.sp s5) hf (by omega) ?_
    have hsub : Set.Ico s1.sp s.sp ⊆ Set.Ico s3.sp s.sp := Set.Ico_subset_Ico_left (by omega)
    have he : s4.sp = s1.sp := by omega
    rw [he] at hag5
    exact (hag3.mono (Set.subset_union_left.trans hkept3)).trans
      ((hag4.mono (hsub.trans Set.subset_union_left)).trans (hag5.mono Set.subset_union_left))

theorem tick_resumed_iff {func : Nat → IrqFunction s.sp P} {h : OriginalHandler s.sp P}
    {level : BitVec 3} (hi : Interruptible K P .tick s)
    (hstay : ∀ s', interruptRun cpu K C func h .tick level s = some s' →
      s'.currentTaskVar = s.currentTaskVar) :
    ∃ s', interruptRun cpu K C func h .tick level s = some s' ∧
      (Resumed s s' ↔ cpu = .m68010) := by
  obtain ⟨hP,hroom,htop,hpc,-,hq⟩ := hi
  have hle := cpu.frameSize_le
  have hge := cpu.le_frameSize
  simp only [wrapperRoom] at hroom
  obtain ⟨hsp1,hf,hag⟩ := Machine.exception_frame cpu Wrapper.tick.vector level
    (show 68 ≤ s.sp by omega) hpc
  obtain ⟨s1,h1⟩ : ∃ s1, s1 = (s.exception cpu Wrapper.tick.vector level).pushRegs := ⟨_,rfl⟩
  rw [← h1] at hsp1 hf hag
  have hcur1 : s1.currentTaskVar = s.currentTaskVar ∧ s1.tickCounter = s.tickCounter := by
    rw [h1]
    cases cpu <;> exact ⟨rfl,rfl⟩
  obtain ⟨s5,he5,hsp5,hag5,hcur5,hcount5⟩ := chainJump_spec (C := C) (s := s1) cpu .tick
    h hP (by simp only [wrapperRoom]; omega) (by omega)
  have hrun : interruptRun cpu K C func h .tick level s = some (if (postJump K s5).pc = K.tickRte
      then cpu.rte (postJump K s5) else postJump K s5) := by
    rw [interruptRun,wrapper,tickWrapper,← h1,he5]
    rfl
  have hkept := kept_off s.sp hP
    (show s.sp - wrapperRoom ≤ s.sp - 60 - cpu.frameSize by simp only [wrapperRoom]; omega) le_rfl
    le_rfl
  have hstay5 : (postJump K s5).currentTaskVar = s5.currentTaskVar := by
    have := hstay _ hrun
    rw [hcur5,hcur1.1,← this]
    split <;> rfl
  obtain ⟨hpc5,hpop⟩ := postJump_popped (K := K) (s := s5) hP (fun hc => by
    obtain ⟨Q,hQ⟩ := hq rfl (by rw [← hcur1.2,← hcount5]; exact hc)
    rw [hcur5,hcur1.1]
    exact ⟨Q,(hQ.agree (hag.mono (Set.subset_union_right.trans hkept))).agree
      (hag5.mono Set.subset_union_right)⟩) (by simp only [wrapperRoom]; omega) (by omega) htop
    hstay5
  refine ⟨_,hrun,?_⟩
  rw [if_pos hpc5]
  exact hpop.resumed_iff hf hsp5 (hag5.mono Set.subset_union_left)

end Resume

-- Every way through a wrapper comes back to the interrupted code, and to all of its registers
-- just when rte takes off the format word too.
theorem interrupt_transparent {cpu : Cpu} {K : Image} {P : Set Nat} {C : WrapperCode}
    {w : Wrapper} {s : Machine} {func : Nat → IrqFunction s.sp P} {h : OriginalHandler s.sp P}
    {level : BitVec 3} (hi : Interruptible K P w s)
    (hstay : w = .tick → ∀ s', interruptRun cpu K C func h w level s = some s' →
      s'.currentTaskVar = s.currentTaskVar) :
    ∃ s', interruptRun cpu K C func h w level s = some s' ∧ (Resumed s s' ↔ cpu = .m68010) := by
  cases w with
  | irq n => exact irq_resumed_iff hi
  | tick => exact tick_resumed_iff hi (hstay rfl)

-- Handlers that do nothing, in a kernel whose chains are empty.
def IrqFunction.idle (top : Nat) (P : Set Nat) : IrqFunction top P where
  run := Machine.rts
  sp := fun _ => rfl
  pc := fun _ => rfl
  keeps := fun _ => Mem.Agree.refl _ _

def OriginalHandler.idle (top : Nat) (P : Set Nat) : OriginalHandler top P where
  run := id
  sp := fun _ => rfl
  keeps := fun _ => Mem.Agree.refl _ _
  current := fun _ => rfl
  quantum := fun _ => rfl

def WrapperCode.compact : WrapperCode where
  postJump := fun _ => 0x3000
  original := fun _ => 0x1200
  chainReturn := fun _ => 0x3010
  funcReturn := 0x3020
  postJump_top := by simp [addressSpace]
  chainReturn_top := by simp [addressSpace]
  funcReturn_top := by simp [addressSpace]

def quietMachine : Machine :=
  { Machine.blank with mem := listInit Machine.blank.mem (Image.compact.irqList 0) }

theorem quietMachine_interruptible : Interruptible .compact (cells (Image.compact.irqList 0) [])
    (.irq 0) quietMachine where
  roomy := by
    rintro x (hx | ⟨y,hy,-⟩)
    · simp only [Image.irqList,Image.compact,Symbols.compact] at hx
      simp only [quietMachine,Machine.blank,wrapperRoom]
      omega
    · simp at hy
  room := by decide
  top := by decide
  pc := by decide
  chain := by
    intro n hn
    obtain rfl := Wrapper.irq.inj hn
    exact ⟨[],(list_init (Image.compact.spaced_nil (by decide))).1,subset_rfl⟩
  queues := nofun

-- A level 1 interrupt of a 68000, with nothing but the wrapper to handle it.
theorem interrupt_skewed : ∃ s', interruptRun .m68000 .compact .compact
      (fun _ => .idle quietMachine.sp (cells (Image.compact.irqList 0) [])) (.idle _ _) (.irq 0) 1#3
      quietMachine = some s' ∧
    ¬ Resumed quietMachine s' := by
  have hrun : ∃ s', interruptRun .m68000 .compact .compact
      (fun _ => .idle quietMachine.sp (cells (Image.compact.irqList 0) [])) (.idle _ _) (.irq 0) 1#3
      quietMachine = some s' ∧ (Resumed quietMachine s' ↔ Cpu.m68000 = .m68010) :=
    irq_resumed_iff quietMachine_interruptible
  obtain ⟨s',he,hiff⟩ := hrun
  exact ⟨s',he,fun hr => absurd (hiff.mp hr) (by decide)⟩

theorem interrupt_transparent_one : ∃ s', interruptRun .m68010 .compact .compact
      (fun _ => .idle quietMachine.sp (cells (Image.compact.irqList 0) [])) (.idle _ _) (.irq 0) 1#3
      quietMachine = some s' ∧
    (Resumed quietMachine s' ↔ Cpu.m68010 = .m68010) :=
  interrupt_transparent quietMachine_interruptible nofun

end RoscoM68k
