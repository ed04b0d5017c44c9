import RoscoM68k.Kernel.InterruptFrame

namespace RoscoM68k
open Function

-- SDB_CPUINFO $41C, of which the upper three bits are the CPU's model. A 68000 has no VBR.
def irqBase (m : Mem) (vbr : Nat) : Nat := if (m.readL 0x41C >>> 29) % 256 = 0 then 0 else vbr

-- VEC_IRQ1 $64 to VEC_IRQ7 $7C in the table at `base`.
def vecIrq (base : Nat) (n : Fin 7) : Nat := wrap (base + (0x64 + 4 * n.val))

-- The original handler is taken from the table at zero, whatever `a0` is.
def installVector (C : WrapperCode) (irq : Fin 7 → Nat) (a0 : Nat) (m : Mem) (n : Fin 7) : Mem :=
  (m.writeL (C.original (.irq n)) (m.readL (vecIrq 0 n))).writeL (vecIrq a0 n) (irq n)

def irqInit (K : Image) (C : WrapperCode) (irq : Fin 7 → Nat) (vbr : Nat) (s : Machine) : Machine :=
  let m := (List.finRange 7).foldl (fun m n => listInit m (K.irqList n)) s.mem
  let a0 := irqBase m vbr
  let s := { s with mem := m }.disableInterrupts
  { s with mem := (List.finRange 7).foldl (installVector C irq a0) s.mem }.enableInterrupts

-- The chained jump of a wrapper goes to the handler at `a`.
def JumpsTo (C : WrapperCode) (w : Wrapper) (t : Machine) (a : Nat) : Prop :=
  ∀ (cpu : Cpu) (top : Nat) (P : Set Nat) (h : OriginalHandler top P), ∃ u : Machine, u.pc = a ∧
    chainJump cpu C h w t =
      if (cpu.rte (h.run u)).pc = C.postJump w then some (cpu.rte (h.run u)) else none

-- The kernel's handlers are in the table at `base`, and each leads on to the one before it, as
-- long as the variable that holds it and the stack above stay what they are.
structure Chained (C : WrapperCode) (irq : Fin 7 → Nat) (base : Nat) (m m' : Mem) : Prop where
  installed : ∀ n, m'.readL (vecIrq base n) = irq n
  saved : ∀ n, m'.readL (C.original (.irq n)) = m.readL (vecIrq base n)
  reached : ∀ n (t : Machine), 8 ≤ t.sp →
    t.sp ≤ C.original (.irq n) ∨ C.original (.irq n) + 12 ≤ t.sp →
      t.mem.readL (C.original (.irq n)) = m'.readL (C.original (.irq n)) →
        JumpsTo C (.irq n) t (m.readL (vecIrq base n))

-- The variables of the interrupt code lie above the vectors and the SDB.
structure IrqVars (K : Image) (C : WrapperCode) : Prop where
  list_low : 0x420 ≤ K.irq1List
  original_low : ∀ n, 0x420 ≤ C.original (.irq n)
  original_off : ∀ n k,
    C.original (.irq n) + 4 ≤ K.irqList k ∨ K.irqList k + 12 ≤ C.original (.irq n)
  original_apart : ∀ n k, n ≠ k →
    C.original (.irq n) + 4 ≤ C.original (.irq k) ∨ C.original (.irq k) + 4 ≤ C.original (.irq n)

-- A table that does not lie in these variables.
structure TableAt (K : Image) (C : WrapperCode) (base : Nat) : Prop where
  list_off : ∀ n k, vecIrq base n + 4 ≤ K.irqList k ∨ K.irqList k + 12 ≤ vecIrq base n
  original_off : ∀ n k,
    vecIrq base n + 4 ≤ C.original (.irq k) ∨ C.original (.irq k) + 4 ≤ vecIrq base n

-- The memory once the first `k` vectors of the table at `base` hold the kernel's handlers.
def vectored (irq : Fin 7 → Nat) (base : Nat) (m : Mem) (k : Nat) : Mem :=
  ((List.finRange 7).take k).foldl (fun m n => m.writeL (vecIrq base n) (irq n)) m

-- Each vector at zero, by the time it is saved, is the one that the table at `base` held.
def SavesTable (irq : Fin 7 → Nat) (base : Nat) (m : Mem) : Prop :=
  ∀ n : Fin 7, (vectored irq base m n.val).readL (vecIrq 0 n) = m.readL (vecIrq base n)

section Vectors

variable {K : Image} {C : WrapperCode} {irq : Fin 7 → Nat} {base k : Nat} {m m' : Mem} {n : Fin 7}

theorem vecIrq_zero (n : Fin 7) : vecIrq 0 n = 0x64 + 4 * n.val := by
  have := n.isLt
  unfold vecIrq wrap addressSpace
  omega

theorem vecIrq_apart {n k : Fin 7} (h : n ≠ k) :
    vecIrq base n + 4 ≤ vecIrq base k ∨ vecIrq base k + 4 ≤ vecIrq base n := by
  have := n.isLt
  have := k.isLt
  have := Fin.val_ne_of_ne h
  unfold vecIrq wrap addressSpace
  omega

theorem take_finRange_succ (n : Fin 7) :
    (List.finRange 7).take (n.val + 1) = (List.finRange 7).take n.val ++ [n] := by
  revert n
  decide

theorem vectored_succ (irq : Fin 7 → Nat) (base : Nat) (m : Mem) (n : Fin 7) :
    vectored irq base m (n.val + 1) =
      (vectored irq base m n.val).writeL (vecIrq base n) (irq n) := by
  rw [vectored,take_finRange_succ,List.foldl_append]
  rfl

theorem Mem.Agree.writeL {S : Set Nat} (h : Mem.Agree S m m') (a v : Nat) :
    Mem.Agree S (m.writeL a v) (m'.writeL a v) := by
  intro x hx
  have := h x hx
  simp only [Mem.writeL,Mem.writeW,Mem.writeB,this]

theorem vectored_agree {S : Set Nat} (hS : ∀ j : Fin 7, j.val < k → ∀ x ∈ S, x < vecIrq base j ∨
    vecIrq base j + 4 ≤ x) (hk : k ≤ 7) : Mem.Agree S m (vectored irq base m k) := by
  induction k with
  | zero => exact Mem.Agree.refl S m
  | succ k ih =>
    have hstep := vectored_succ irq base m ⟨k,hk⟩
    rw [hstep]
    exact (ih (fun j hj => hS j (Nat.lt_succ_of_lt hj)) (by omega)).trans
      (Mem.agree_writeL _ _ (hS ⟨k,hk⟩ (Nat.lt_succ_self k)))

theorem vectored_installed (hirq : ∀ n, irq n < addressSpace) (hk : k ≤ 7) (hn : n.val < k) :
    (vectored irq base m k).readL (vecIrq base n) = irq n := by
  induction k with
  | zero => exact absurd hn (Nat.not_lt_zero _)
  | succ k ih =>
    have hstep := vectored_succ irq base m ⟨k,hk⟩
    rw [hstep]
    by_cases he : n = ⟨k,hk⟩
    · rw [he]
      exact Mem.readL_writeL_self_of_lt _ (hirq _)
    · have hlt : n.val < k := by
        have := Fin.val_ne_of_ne he
        simp only at this
        omega
      rw [Mem.readL_writeL_apart _ _ (vecIrq_apart (Ne.symm he)),ih (by omega) hlt]

-- What the code has done once it has replaced the first `k` vectors.
structure Replaced (C : WrapperCode) (irq : Fin 7 → Nat) (base : Nat) (m : Mem) (k : Nat)
    (m' : Mem) : Prop where
  agree : Mem.Agree {x | ∀ n, x < C.original (.irq n) ∨ C.original (.irq n) + 4 ≤ x}
    (vectored irq base m k) m'
  saved : ∀ n : Fin 7, n.val < k →
    m'.readL (C.original (.irq n)) = (vectored irq base m n.val).readL (vecIrq 0 n)

theorem Replaced.read (h : Replaced C irq base m k m') {a : Nat}
    (ha : ∀ n, a + 4 ≤ C.original (.irq n) ∨ C.original (.irq n) + 4 ≤ a) :
    m'.readL a = (vectored irq base m k).readL a := by
  refine h.agree.readL (fun x hx n => ?_)
  have h1 := hx.1
  have h2 := hx.2
  have := ha n
  omega

theorem Replaced.step (hv : IrqVars K C) (ht : TableAt K C base)
    (h : Replaced C irq base m n.val m') :
    Replaced C irq base m (n.val + 1) (installVector C irq base m' n) := by
  have hlow : ∀ j, vecIrq 0 n + 4 ≤ C.original (.irq j) ∨
      C.original (.irq j) + 4 ≤ vecIrq 0 n := by
    intro j
    have := hv.original_low j
    have := n.isLt
    rw [vecIrq_zero]
    omega
  constructor
  · rw [vectored_succ]
    refine Mem.Agree.writeL (h.agree.trans (Mem.agree_writeL _ _ (fun x hx => hx n))) _ _
  · intro j hj
    have hoff := ht.original_off n j
    rw [installVector,Mem.readL_writeL_apart _ _ hoff]
    by_cases he : j = n
    · rw [he,Mem.readL_writeL_self_of_lt _ (Mem.readL_lt _ _),h.read hlow]
    · rw [Mem.readL_writeL_apart _ _ (hv.original_apart n j (Ne.symm he))]
      refine h.saved j ?_
      have := Fin.val_ne_of_ne he
      omega

theorem installVectors_spec (irq : Fin 7 → Nat) (m : Mem) (hv : IrqVars K C)
    (ht : TableAt K C base) (hk : k ≤ 7) :
    Replaced C irq base m k
      (((List.finRange 7).take k).foldl (installVector C irq base) m) := by
  induction k with
  | zero => exact ⟨Mem.Agree.refl _ m,fun n hn => absurd hn (Nat.not_lt_zero _)⟩
  | succ k ih =>
    have hsplit := take_finRange_succ ⟨k,hk⟩
    simp only at hsplit
    rw [hsplit,List.foldl_append]
    exact Replaced.step (n := ⟨k,hk⟩) hv ht (ih (by omega))

-- The lists are outside of the vectors and of the SDB.
theorem initLists_agree (ns : List (Fin 7)) {S : Set Nat}
    (hS : ∀ x ∈ S, ∀ n, x < K.irqList n ∨ K.irqList n + 12 ≤ x) :
    Mem.Agree S m (ns.foldl (fun m n => listInit m (K.irqList n)) m) := by
  induction ns generalizing m with
  | nil => exact Mem.Agree.refl S m
  | cons n ns ih =>
    refine Mem.Agree.trans ?_ ih
    have hout : ∀ i, i ≤ 8 → ∀ x ∈ S, x < K.irqList n + i ∨ K.irqList n + i + 4 ≤ x := by
      intro i hi x hx
      have := hS x hx n
      omega
    exact ((Mem.agree_writeL _ _ (hout 0 (by omega))).trans
      (Mem.agree_writeL _ _ (hout 4 (by omega)))).trans (Mem.agree_writeL _ _ (hout 8 le_rfl))

theorem vectored_congr {S : Set Nat} (h : Mem.Agree S m m') (k : Nat) :
    Mem.Agree S (vectored irq base m k) (vectored irq base m' k) := by
  unfold vectored
  induction (List.finRange 7).take k generalizing m m' with
  | nil => exact h
  | cons n ns ih => exact ih (h.writeL _ _)

theorem savesTable_congr (hv : IrqVars K C) (ht : TableAt K C base)
    (h : Mem.Agree {x | ∀ n, x < K.irqList n ∨ K.irqList n + 12 ≤ x} m m') :
    SavesTable irq base m' ↔ SavesTable irq base m := by
  refine forall_congr' (fun n => ?_)
  have hread : ∀ {a : Nat}, (∀ k, a + 4 ≤ K.irqList k ∨ K.irqList k + 12 ≤ a) →
      Set.Ico a (a + 4) ⊆ {x | ∀ n, x < K.irqList n ∨ K.irqList n + 12 ≤ x} := by
    intro a ha x hx k
    have h1 := hx.1
    have h2 := hx.2
    have := ha k
    omega
  have hlow : ∀ k, vecIrq 0 n + 4 ≤ K.irqList k ∨ K.irqList k + 12 ≤ vecIrq 0 n := by
    intro k
    have := hv.list_low
    have := n.isLt
    rw [vecIrq_zero,Image.irqList]
    omega
  rw [(vectored_congr h n.val).readL (hread hlow),h.readL (hread (ht.list_off n))]

-- What the chained jump reads is the variable, as its own pushes do not reach it.
theorem jumpsTo_original (C : WrapperCode) (w : Wrapper) {t : Machine} (hsp : 8 ≤ t.sp)
    (hoff : t.sp ≤ C.original w ∨ C.original w + 12 ≤ t.sp) :
    JumpsTo C w t (t.mem.readL (C.original w)) := by
  intro cpu top P h
  obtain ⟨t1,h1⟩ : ∃ t1, t1 = (t.pushW 0x45).pushL (C.postJump w) := ⟨_,rfl⟩
  obtain ⟨t2,h2⟩ : ∃ t2, t2 = t1.pushW t1.sr.toNat := ⟨_,rfl⟩
  have hread : t2.mem.readL (C.original w) = t.mem.readL (C.original w) := by
    subst h1
    subst h2
    simp only [Machine.pushW,Machine.pushL]
    rw [Mem.readL_writeW_apart _ _ (by omega),Mem.readL_writeL_apart _ _ (by omega),
      Mem.readL_writeW_apart _ _ (by omega)]
  refine ⟨{ t2 with
    reg := update t2.reg 8 (BitVec.ofNat 32 (t2.mem.readL (C.original w)))
    pc := t2.mem.readL (C.original w) },hread,?_⟩
  rw [chainJump,← h1,← h2]

theorem Replaced.chained_iff (hirq : ∀ n, irq n < addressSpace) (ht : TableAt K C base)
    (h : Replaced C irq base m 7 m') : Chained C irq base m m' ↔ SavesTable irq base m := by
  constructor
  · intro hc n
    rw [← h.saved n n.isLt]
    exact hc.saved n
  · intro hs
    have hsaved : ∀ n, m'.readL (C.original (.irq n)) = m.readL (vecIrq base n) :=
      fun n => (h.saved n n.isLt).trans (hs n)
    refine ⟨fun n => ?_,hsaved,fun n t hsp hoff hsame => ?_⟩
    · rw [h.read (ht.original_off n)]
      exact vectored_installed hirq le_rfl n.isLt
    · rw [← hsaved n,← hsame]
      exact jumpsTo_original C _ hsp hoff

theorem savesTable_zero : SavesTable irq 0 m := by
  intro n
  refine (vectored_agree (fun j hj x hx => ?_) n.isLt.le).readL subset_rfl
  have h1 := hx.1
  have h2 := hx.2
  rw [vecIrq_zero] at *
  omega

theorem savesTable_apart
    (h : ∀ n k, vecIrq base n + 4 ≤ vecIrq 0 k ∨ vecIrq 0 k + 4 ≤ vecIrq base n) :
    SavesTable irq base m ↔ ∀ n, m.readL (vecIrq 0 n) = m.readL (vecIrq base n) := by
  refine forall_congr' (fun n => ?_)
  have hread : (vectored irq base m n.val).readL (vecIrq 0 n) = m.readL (vecIrq 0 n) := by
    refine (vectored_agree (fun j _ x hx => ?_) n.isLt.le).readL subset_rfl
    have h1 := hx.1
    have h2 := hx.2
    have := h j n
    omega
  rw [hread]

theorem Chained.congr {m1 : Mem} (hc : Chained C irq base m m')
    (h : ∀ n, m1.readL (vecIrq base n) = m.readL (vecIrq base n)) : Chained C irq base m1 m' where
  installed := hc.installed
  saved := fun n => (hc.saved n).trans (h n).symm
  reached := by
    intro n t hsp hoff hsame
    rw [h n]
    exact hc.reached n t hsp hoff hsame

end Vectors

-- The seven handlers that are found are those of the table at zero; a later processor with a
-- table elsewhere loses its own unless the two tables hold the same.
theorem irq_init_chains {K : Image} {C : WrapperCode} {irq : Fin 7 → Nat} {vbr : Nat} {s : Machine}
    (hv : IrqVars K C) (hirq : ∀ n, irq n < addressSpace)
    (ht : TableAt K C (irqBase s.mem vbr)) :
    (Chained C irq (irqBase s.mem vbr) s.mem (irqInit K C irq vbr s).mem ↔
      SavesTable irq (irqBase s.mem vbr) s.mem) ∧
    ((∀ n k, vecIrq (irqBase s.mem vbr) n + 4 ≤ vecIrq 0 k ∨
        vecIrq 0 k + 4 ≤ vecIrq (irqBase s.mem vbr) n) →
      (SavesTable irq (irqBase s.mem vbr) s.mem ↔
        ∀ n, s.mem.readL (vecIrq 0 n) = s.mem.readL (vecIrq (irqBase s.mem vbr) n))) ∧
    (irqBase s.mem vbr = 0 → SavesTable irq (irqBase s.mem vbr) s.mem) := by
  obtain ⟨base,hbase⟩ : ∃ base, base = irqBase s.mem vbr := ⟨_,rfl⟩
  obtain ⟨m,hm⟩ : ∃ m, m = (List.finRange 7).foldl (fun m n => listInit m (K.irqList n)) s.mem :=
    ⟨_,rfl⟩
  have hag : Mem.Agree {x | ∀ n, x < K.irqList n ∨ K.irqList n + 12 ≤ x} s.mem m := by
    rw [hm]
    exact initLists_agree _ (fun x hx => hx)
  have hinfo : irqBase m vbr = base := by
    rw [hbase,irqBase,irqBase,hag.readL (fun x hx n => ?_)]
    have := hv.list_low
    have := hx.2
    rw [Image.irqList]
    omega
  have hend : (irqInit K C irq vbr s).mem =
      ((List.finRange 7).take 7).foldl (installVector C irq base) m := by
    rw [irqInit,← hm,hinfo,Machine.enable_mem]
    rfl
  rw [← hbase] at ht ⊢
  have hrep := installVectors_spec irq m hv ht le_rfl
  have hsame : ∀ n, m.readL (vecIrq base n) = s.mem.readL (vecIrq base n) := by
    intro n
    refine hag.readL (fun x hx k => ?_)
    have h1 := hx.1
    have h2 := hx.2
    have := ht.list_off n k
    omega
  refine ⟨?_,savesTable_apart,fun hz => ?_⟩
  · rw [hend,← savesTable_congr hv ht hag,← hrep.chained_iff hirq ht]
    exact ⟨fun hc => hc.congr hsame,fun hc => hc.congr (fun n => (hsame n).symm)⟩
  · rw [hz]
    exact savesTable_zero

def WrapperCode.spread : WrapperCode :=
  { WrapperCode.compact with
    original := fun w =>
      match w with
      | .irq n => 0x1200 + 4 * n.val
      | .tick => 0x1240 }

theorem irqVars_spread : IrqVars .compact .spread := ⟨by decide,by decide,by decide,by decide⟩

-- A 68010 whose table at $8000 has a handler for level 1 that the table at zero has not.
def relocatedMachine : Machine :=
  { Machine.blank with
    mem := (Machine.blank.mem.writeL 0x41C 0x20000000).writeL 0x8064 0x1234 }

theorem irq_init_chains_zero : Chained .spread (fun n => 0x3100 + n.val) 0 Machine.blank.mem
    (irqInit .compact .spread (fun n => 0x3100 + n.val) 0 .blank).mem := by
  have hbase : irqBase Machine.blank.mem 0 = 0 := by decide
  have hirq : ∀ n : Fin 7, 0x3100 + n.val < addressSpace := by decide
  have ht : TableAt .compact .spread (irqBase Machine.blank.mem 0) := by
    rw [hbase]
    exact ⟨by decide,by decide⟩
  obtain ⟨hiff,-,hzero⟩ := irq_init_chains irqVars_spread hirq ht
  rw [hbase] at hiff hzero
  exact hiff.mpr (hzero rfl)

theorem irq_init_unchained : irqBase relocatedMachine.mem 0x8000 = 0x8000 ∧
    relocatedMachine.mem.readL (vecIrq 0x8000 0) = 0x1234 ∧
      (irqInit .compact .spread (fun n => 0x3100 + n.val) 0x8000 relocatedMachine).mem.readL
        (WrapperCode.spread.original (.irq 0)) = 0 ∧
      ¬ Chained .spread (fun n => 0x3100 + n.val) 0x8000 relocatedMachine.mem
        (irqInit .compact .spread (fun n => 0x3100 + n.val) 0x8000 relocatedMachine).mem := by
  have hread : relocatedMachine.mem.readL (vecIrq 0x8000 0) = 0x1234 := by decide +kernel
  have hsaved : (irqInit .compact .spread (fun n => 0x3100 + n.val) 0x8000
      relocatedMachine).mem.readL (WrapperCode.spread.original (.irq 0)) = 0 := by decide +kernel
  refine ⟨by decide +kernel,hread,hsaved,fun hc => ?_⟩
  have := hsaved.symm.trans (hc.saved 0)
  rw [hread] at this
  omega

end RoscoM68k
