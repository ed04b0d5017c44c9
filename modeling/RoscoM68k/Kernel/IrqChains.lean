import RoscoM68k.Kernel.InterruptFrame
import RoscoM68k.Kernel.ListRuns

namespace RoscoM68k
open Function

-- IRQ_NEXT $00, IRQ_PREV $04, IRQ_DATA $08, IRQ_FUNC $0C.
def irqData (m : Mem) (y : Nat) : Nat := m.readL (y + 8)
def irqFunc (m : Mem) (y : Nat) : Nat := m.readL (y + 12)

-- Where the IrqHandler structs are: none on top of another or of a list header.
structure HandlerNodes (K : Image) where
  nodes : Set Nat
  pos : ∀ y ∈ nodes, 0 < y
  top : ∀ y ∈ nodes, y + 16 ≤ addressSpace
  apart : ∀ y ∈ nodes, ∀ z ∈ nodes, y ≠ z → y + 16 ≤ z ∨ z + 16 ≤ y
  off : ∀ y ∈ nodes, ∀ n, y + 16 ≤ K.irqList n ∨ K.irqList n + 12 ≤ y

theorem Image.irqList_mem (K : Image) (n : Fin 7) : K.irqList n ∈ K.headers :=
  List.mem_append_right _ (List.mem_map.mpr ⟨n.val,List.mem_range.mpr n.isLt,rfl⟩)

def HandlerNodes.layout {K : Image} (H : HandlerNodes K) : ListLayout where
  heads := {l | ∃ n, l = K.irqList n}
  nodes := H.nodes
  head_pos := by
    rintro l ⟨n,rfl⟩
    have := K.headers_low _ (K.irqList_mem n)
    omega
  head_top := by
    rintro l ⟨n,rfl⟩
    exact K.headers_top _ (K.irqList_mem n)
  heads_apart := by
    rintro l ⟨n,rfl⟩ k ⟨j,rfl⟩ hne
    exact K.header_apart (K.irqList_mem n) (K.irqList_mem j) hne
  node_pos := H.pos
  node_top := by
    intro y hy
    have := H.top y hy
    omega
  nodes_apart := by
    intro y hy z hz hne
    have := H.apart y hy z hz hne
    unfold NodesApart
    omega
  off_heads := by
    rintro y hy l ⟨n,rfl⟩
    have := H.off y hy n
    omega

inductive IrqCall where
  | register (n : Fin 7) (node : Nat)
  | remove (node : Nat)

-- irq_register_c gets the number of the interrupt, from 1 on.
def irqCall (K : Image) (s : Machine) : IrqCall → Machine
  | .register n node => irqRegister K s (n.val + 1) node
  | .remove node => irqRemove s node

-- What the call does to the handlers that are registered.
def IrqCall.op (K : Image) : IrqCall → SeqOp Nat
  | .register n node => .addTail (K.irqList n) node
  | .remove node => .delete node

def clearChains (K : Image) (m : Mem) : Mem :=
  (List.finRange 7).foldl (fun m n => listInit m (K.irqList n)) m

def emptyChains (K : Image) : Sequences Nat :=
  (List.finRange 7).foldl (fun A n => update A (K.irqList n) (some [])) (fun _ => none)

-- Any number of calls, and in between whatever leaves the chains alone. A struct is registered
-- while it is in no chain, and removed while it is in one.
inductive Registered {K : Image} (H : HandlerNodes K) : Machine → Sequences Nat → Prop where
  | init (s : Machine) : Registered H { s with mem := clearChains K s.mem } (emptyChains K)
  | call {s A} (c : IrqCall) (hv : ValidOp H.layout A (c.op K)) (h : Registered H s A) :
      Registered H (irqCall K s c) (A.apply (c.op K)).1
  | between {s s' A} (ha : ∀ l xs, A l = some xs → Mem.Agree (cells l xs) s.mem s'.mem)
      (h : Registered H s A) : Registered H s' A

section Registration

variable {K : Image} {H : HandlerNodes K} {s : Machine} {A : Sequences Nat} {m m' : Mem}

theorem Refines.congr {W : ListLayout} (h : Refines W m A)
    (ha : ∀ l xs, A l = some xs → Mem.Agree (cells l xs) m m') : Refines W m' A where
  toParted := h.toParted
  head := h.head
  node := h.node
  lists := fun l xs hl => (h.lists l xs hl).agree (ha l xs hl)

theorem clearChains_refines (m : Mem) : Refines H.layout (clearChains K m) (emptyChains K) := by
  have hstart : Refines H.layout m (fun _ => none) :=
    ⟨⟨by simp,by simp⟩,by simp,by simp,by simp⟩
  have hfold : ∀ (ns : List (Fin 7)) (m : Mem) (A : Sequences Nat), Refines H.layout m A →
      Refines H.layout (ns.foldl (fun m n => listInit m (K.irqList n)) m)
        (ns.foldl (fun A n => update A (K.irqList n) (some [])) A) := by
    intro ns
    induction ns with
    | nil => exact fun m A h => h
    | cons n ns ih => exact fun m A h => ih _ _ (h.init ⟨n,rfl⟩).refines
  exact hfold _ m _ hstart

theorem emptyChains_eq (K : Image) (l : Nat) :
    emptyChains K l = if ∃ n, l = K.irqList n then some [] else none := by
  have hfold : ∀ (ns : List (Fin 7)) (A : Sequences Nat),
      ns.foldl (fun A n => update A (K.irqList n) (some [])) A l =
        if ∃ n ∈ ns, l = K.irqList n then some [] else A l := by
    intro ns
    induction ns with
    | nil => simp
    | cons n ns ih =>
      intro A
      rw [List.foldl_cons,ih,update_apply]
      simp only [List.exists_mem_cons_iff]
      by_cases he : ∃ k ∈ ns, l = K.irqList k
      · rw [if_pos he,if_pos (.inr he)]
      · rw [if_neg he]
        by_cases hn : l = K.irqList n
        · rw [if_pos hn,if_pos (.inl hn)]
        · rw [if_neg hn,if_neg (not_or.mpr ⟨hn,he⟩)]
  rw [emptyChains,hfold]
  simp

theorem irqCall_mem (s : Machine) (c : IrqCall) :
    ∃ d0, (irqCall K s c).mem = (listCall s.mem d0 (c.op K)).1 := by
  cases c with
  | register n node =>
    refine ⟨irqListOffset (n.val + 1),?_⟩
    rw [irqCall,irqRegister,Machine.enable_mem,irqListOffset_eq]
    rfl
  | remove node => exact ⟨0,rfl⟩

theorem IrqCall.op_some (c : IrqCall) {l : Nat} (h : ∃ xs, A l = some xs) :
    ∃ xs, (A.apply (c.op K)).1 l = some xs := by
  obtain ⟨xs,hxs⟩ := h
  cases c with
  | register n node =>
    by_cases hl : l = K.irqList n
    · exact ⟨xs ++ [node],by simp [IrqCall.op,Sequences.apply,← hl,hxs]⟩
    · exact ⟨xs,by simp [IrqCall.op,Sequences.apply,update_of_ne hl,hxs]⟩
  | remove node => exact ⟨xs.erase node,by simp [IrqCall.op,Sequences.apply,hxs]⟩

theorem Registered.refines (h : Registered H s A) :
    Refines H.layout s.mem A ∧ ∀ n, ∃ xs, A (K.irqList n) = some xs := by
  induction h with
  | init s => exact ⟨clearChains_refines s.mem,fun n => ⟨[],by simp [emptyChains_eq]⟩⟩
  | @call s A c hv _ ih =>
    obtain ⟨d0,hm⟩ := irqCall_mem (K := K) s c
    rw [hm]
    exact ⟨(ih.1.call hv d0).refines,fun n => c.op_some (ih.2 n)⟩
  | between ha _ ih => exact ⟨ih.1.congr ha,ih.2⟩

end Registration

structure HandlerCall where
  func : Nat
  irq : Nat
  data : Nat
  result : Bool

section Log

variable {top : Nat}

-- The loop of run_handler_chain once more, with the calls it makes: the function, its two
-- arguments as they are on the stack, and whether d0 is true on its return.
def runHandlersLog (C : WrapperCode) (func : Nat → IrqFunction top ∅) :
    Nat → Machine → Option (Machine × List HandlerCall)
  | 0, _ => none
  | fuel + 1, s =>
    let s := fetchHandler s
    if s.reg 8 = s.reg 9 then some (s,[])
    else
      let t := callHandler C s
      let s := (func (t.reg 10).toNat).run t
      if s.pc ≠ C.funcReturn then none
      else
        let s := { s with sp := s.sp + 8 }.popSome [1,8,9]
        let c : HandlerCall := ⟨(t.reg 10).toNat,t.mem.readL (t.sp + 4),t.mem.readL (t.sp + 8),
          (s.reg 0).setWidth 8 ≠ 0#8⟩
        if c.result then some (s,[c])
        else (runHandlersLog C func fuel s).map (fun r => (r.1,c :: r.2))

def runHandlerChainLog (K : Image) (C : WrapperCode) (func : Nat → IrqFunction top ∅)
    (s : Machine) : Option (Machine × List HandlerCall) :=
  if s.reg 0 = 0#32 ∨ 7 < (s.reg 0).toNat then some (s.rts,[])
  else
    let s := enterChain K (s.pushSome [0,1,8,9,10])
    (runHandlersLog C func addressSpace s).map
      (fun r => ((r.1.popSome [0,1,8,9,10]).rts,r.2))

theorem runHandlersLog_fst (C : WrapperCode) (func : Nat → IrqFunction top ∅) (fuel : Nat)
    (s : Machine) : (runHandlersLog C func fuel s).map Prod.fst = runHandlers C func fuel s := by
  induction fuel generalizing s with
  | zero => rfl
  | succ fuel ih =>
    rw [runHandlersLog,runHandlers]
    dsimp only
    split
    · rfl
    · split
      · rfl
      · rw [← ih]
        simp only [decide_eq_true_eq]
        split
        · rfl
        · rw [Option.map_map]
          rfl

theorem runHandlerChainLog_fst (K : Image) (C : WrapperCode) (func : Nat → IrqFunction top ∅)
    (s : Machine) :
    (runHandlerChainLog K C func s).map Prod.fst = runHandlerChain K C func s := by
  rw [runHandlerChainLog,runHandlerChain]
  split
  · rfl
  · dsimp only
    rw [← runHandlersLog_fst,Option.map_map,Option.map_map]
    rfl

end Log

-- The chains, and the data pointers and functions of the other structs in them.
def chainArea (A : Sequences Nat) (y : Nat) : Set Nat :=
  {x | (∃ l xs, A l = some xs ∧ x ∈ cells l xs) ∨ ∃ z, A.Holds z ∧ z ≠ y ∧ z + 8 ≤ x ∧ x < z + 16}

-- A handler of the chains, called for the struct in a0 and 48 bytes into the stack: it keeps d2-d7
-- and a2-a6, and of the chains it changes nothing, or it removes this struct.
structure ChainHandlers {K : Image} {top : Nat} (H : HandlerNodes K)
    (func : Nat → IrqFunction top ∅) : Prop where
  reg : ∀ a t i, i ∉ [0,1,8,9] → ((func a).run t).reg i = t.reg i
  chains : ∀ t A y, t.sp + 48 = top → Refines H.layout t.mem A → A.Holds y →
    (t.reg 8).toNat = y → (t.reg 10).toNat = irqFunc t.mem y →
      Mem.Agree (chainArea A y) t.mem ((func (t.reg 10).toNat).run t).mem ∨
      Mem.Agree (chainArea A y) (listNodeDelete t.mem y) ((func (t.reg 10).toNat).run t).mem

-- The stack between these two addresses is apart from the headers and the structs.
structure HandlerNodes.Off {K : Image} (H : HandlerNodes K) (lo hi : Nat) : Prop where
  header : ∀ n, hi ≤ K.irqList n ∨ K.irqList n + 12 ≤ lo
  node : ∀ y ∈ H.nodes, hi ≤ y ∨ y + 16 ≤ lo

-- The loop of run_handler_chain with the structs `ys` still to come, in a chain that began as the
-- one in `m`.
structure AtHandler {K : Image} (H : HandlerNodes K) (n : Fin 7) (m : Mem) (s : Machine)
    (A : Sequences Nat) (zs ys : List Nat) : Prop where
  refines : Refines H.layout s.mem A
  list : A (K.irqList n) = some (zs ++ ys)
  next : s.mem.readL (s.reg 8).toNat = (ys ++ [K.irqList n + 4]).head (by simp)
  tail : (s.reg 9).toNat = K.irqList n + 4
  data : ∀ y ∈ ys, irqData s.mem y = irqData m y
  func : ∀ y ∈ ys, irqFunc s.mem y = irqFunc m y

section Turn

variable {K : Image} {H : HandlerNodes K} {C : WrapperCode} {top : Nat} {n : Fin 7}
  {func : Nat → IrqFunction top ∅} {m m' : Mem} {s s1 s2 s3 : Machine} {A : Sequences Nat}
  {zs ys : List Nat} {y : Nat}

theorem Refines.chainArea_off (h : Refines H.layout m A) {lo hi : Nat} (ho : H.Off lo hi) :
    chainArea A y ⊆ (Set.Ico lo hi)ᶜ := by
  rintro x hx ⟨hlo,hhi⟩
  have hnode : ∀ z, A.Holds z → hi ≤ z ∨ z + 16 ≤ lo := by
    rintro z ⟨l,xs,hl,hz⟩
    exact ho.node z (h.node l xs hl z hz)
  rcases hx with ⟨l,xs,hl,hx⟩ | ⟨z,hz,-,h1,h2⟩
  · obtain ⟨n,rfl⟩ := h.head l xs hl
    have hn := ho.header n
    rcases hx with hx | ⟨z,hz,hx⟩
    · omega
    · have := hnode z ⟨_,xs,hl,hz⟩
      omega
  · have := hnode z hz
    omega

-- Taking a struct out of its chain leaves its own fields alone, and those of the others but the
-- links.
theorem Refines.removed (h : Refines H.layout m A) (hl : A (K.irqList n) = some (zs ++ y :: ys)) :
    Refines H.layout (listNodeDelete m y) (A.apply (.delete y)).1 ∧
      (A.apply (.delete y)).1 (K.irqList n) = some (zs ++ ys) ∧
      ∀ z ∈ H.nodes, Mem.Agree (Set.Ico (z + 8) (z + 16)) m (listNodeDelete m y) ∧
        (z = y → Mem.Agree (Set.Ico z (z + 16)) m (listNodeDelete m y)) := by
  have hy : y ∈ zs ++ y :: ys := by simp
  have hlist := h.lists _ _ hl
  have hyx : y ∉ zs := by
    have hnd := h.nodup _ _ hl
    exact fun hx => (List.nodup_append.mp hnd).2.2 y hx y (by simp) rfl
  have hnd := h.nodup _ _ hl
  have hyn : y ∉ zs ++ ys := (List.nodup_middle.mp hnd).notMem
  obtain ⟨-,hag⟩ := hlist.delete
  have hnodes := h.node _ _ hl
  refine ⟨(h.delete ⟨_,_,hl,hy⟩).refines,?_,fun z hz => ⟨hag.mono ?_,fun he => hag.mono ?_⟩⟩
  · simp only [Sequences.apply,hl,Option.map_some]
    rw [List.erase_append_right _ hyx,List.erase_cons_head]
  · rintro x ⟨h1,h2⟩ (hx | ⟨w,hw,hx⟩)
    · have := H.off z hz n
      omega
    · have hwn : w ∈ H.nodes := by
        refine hnodes w ?_
        simp only [List.mem_append,List.mem_cons] at hw ⊢
        tauto
      by_cases he : w = z
      · omega
      · have := H.apart w hwn z hz he
        omega
  · rintro x ⟨h1,h2⟩ (hx | ⟨w,hw,hx⟩)
    · have := H.off z hz n
      omega
    · have hwn : w ∈ H.nodes := by
        refine hnodes w ?_
        simp only [List.mem_append,List.mem_cons] at hw ⊢
        tauto
      have hne : w ≠ z := by
        rintro rfl
        exact hyn (he ▸ hw)
      have := H.apart w hwn z hz hne
      omega

theorem cells_chainArea {l : Nat} {xs : List Nat} (hl : A l = some xs) :
    cells l xs ⊆ chainArea A y := fun _ hx => .inl ⟨l,xs,hl,hx⟩

theorem links_chainArea {z : Nat} (hz : A.Holds z) : Set.Ico z (z + 8) ⊆ chainArea A y := by
  obtain ⟨l,xs,hl,hz⟩ := hz
  exact fun x hx => .inl ⟨l,xs,hl,.inr ⟨z,hz,hx⟩⟩

theorem fields_chainArea {z : Nat} (hz : A.Holds z) (hne : z ≠ y) :
    Set.Ico (z + 8) (z + 16) ⊆ chainArea A y := fun _ hx => .inr ⟨z,hz,hne,hx.1,hx.2⟩

-- The chain as a handler leaves it: the struct it was called for, if it is still there, is behind.
structure Passed (H : HandlerNodes K) (n : Fin 7) (y : Nat) (ys : List Nat) (m m' : Mem)
    (A' : Sequences Nat) (zs' : List Nat) : Prop where
  refines : Refines H.layout m' A'
  list : A' (K.irqList n) = some (zs' ++ ys)
  next : nodeNext m' y = nodeNext m y
  fields : ∀ z ∈ ys, irqData m' z = irqData m z ∧ irqFunc m' z = irqFunc m z

theorem irqFields_agree {z : Nat} {S : Set Nat} (ha : Mem.Agree S m m')
    (hS : Set.Ico (z + 8) (z + 16) ⊆ S) : irqData m' z = irqData m z ∧ irqFunc m' z = irqFunc m z :=
  ⟨ha.readL ((Set.Ico_subset_Ico le_rfl (by omega)).trans hS),
    ha.readL ((Set.Ico_subset_Ico (by omega) (by omega)).trans hS)⟩

theorem Passed.keep (h : Refines H.layout m A) (hl : A (K.irqList n) = some (zs ++ y :: ys))
    (ha : Mem.Agree (chainArea A y) m m') : Passed H n y ys m m' A (zs ++ [y]) := by
  have hholds : ∀ z ∈ zs ++ y :: ys, A.Holds z := fun z hz => ⟨_,_,hl,hz⟩
  have hys : ∀ z ∈ ys, z ≠ y := by
    rintro z hz rfl
    have hnd := (List.nodup_append.mp (h.nodup _ _ hl)).2.1
    exact (List.nodup_cons.mp hnd).1 hz
  refine ⟨h.congr (fun l xs hx => ha.mono (cells_chainArea hx)),?_,?_,fun z hz => ?_⟩
  · rw [hl]
    simp
  · exact ha.readL ((Set.Ico_subset_Ico_right (by omega)).trans
      (links_chainArea (hholds y (by simp))))
  · exact irqFields_agree ha (fields_chainArea (hholds z (by simp [hz])) (hys z hz))

theorem Passed.removed (h : Refines H.layout m A) (hl : A (K.irqList n) = some (zs ++ y :: ys))
    (ha : Mem.Agree (chainArea A y) (listNodeDelete m y) m') :
    Passed H n y ys m m' (A.apply (.delete y)).1 zs := by
  obtain ⟨hr,hl',hkeep⟩ := h.removed hl
  have hholds : ∀ z ∈ zs ++ y :: ys, A.Holds z := fun z hz => ⟨_,_,hl,hz⟩
  have hnode : ∀ z ∈ zs ++ y :: ys, z ∈ H.nodes := h.node _ _ hl
  have hys : ∀ z ∈ ys, z ≠ y := by
    rintro z hz rfl
    have hnd := (List.nodup_append.mp (h.nodup _ _ hl)).2.1
    exact (List.nodup_cons.mp hnd).1 hz
  refine ⟨hr.congr (fun l xs hx => ha.mono ?_),hl',?_,fun z hz => ?_⟩
  · obtain ⟨xs',hx',rfl⟩ := Option.map_eq_some_iff.mp hx
    exact (cells_mono List.erase_subset).trans (cells_chainArea hx')
  · have hown := (hkeep y (hnode y (by simp))).2 rfl
    exact (ha.readL ((Set.Ico_subset_Ico_right (by omega)).trans
      (links_chainArea (hholds y (by simp))))).trans
      (hown.readL (Set.Ico_subset_Ico_right (by omega)))
  · have hz' : z ∈ zs ++ y :: ys := by simp [hz]
    have h1 := irqFields_agree ha (fields_chainArea (hholds z hz') (hys z hz))
    have h2 := irqFields_agree (hkeep z (hnode z hz')).1 subset_rfl
    exact ⟨h1.1.trans h2.1,h1.2.trans h2.2⟩

-- The first instruction of the handler of `y`.
structure CalledFor (m : Mem) (y irq : Nat) (s s1 : Machine) : Prop where
  a0 : (s1.reg 8).toNat = y
  func : (s1.reg 10).toNat = irqFunc m y
  irq : s1.mem.readL (s1.sp + 4) = irq
  data : s1.mem.readL (s1.sp + 8) = irqData m y
  regs : ∀ i, i ≠ 10 → s1.reg i = s.reg i
  agree : Mem.Agree (Set.Ico (s.sp - 24) s.sp)ᶜ s.mem s1.mem

-- What the call puts on the stack does not reach the chains.
theorem callHandler_called (hy : (s.reg 8).toNat = y) (hyn : y ∈ H.nodes) (hsp : 24 ≤ s.sp)
    (ho : H.Off (s.sp - 24) s.sp) (h1 : s1 = callHandler C s) :
    CalledFor s.mem y (s.reg 0).toNat s s1 := by
  have hf := callHandler_frame (s := s) C hsp
  rw [← h1] at hf
  have hsp1 : s1.sp + 24 = s.sp := hf.sp
  have hoff := ho.node y hyn
  have hfields : ∀ {t : Machine}, s.sp ≤ t.sp + 24 →
      Mem.Agree (Set.Ico t.sp s.sp)ᶜ s.mem t.mem →
        irqData t.mem y = irqData s.mem y ∧ irqFunc t.mem y = irqFunc s.mem y := by
    refine fun hle ha => irqFields_agree ha (fun x hx hx' => ?_)
    have h1 := hx.1
    have h2 := hx.2
    have h3 := hx'.1
    have h4 := hx'.2
    omega
  obtain ⟨p,hp⟩ : ∃ p, p = s.pushSome [1,8,9] := ⟨_,rfl⟩
  obtain ⟨q,hq⟩ : ∃ q, q = (p.pushL (p.mem.readL ((s.reg 8).toNat + 8))).pushL (s.reg 0).toNat :=
    ⟨_,rfl⟩
  have hpush : Pushed s [(s.reg 9).toNat,(s.reg 8).toNat,(s.reg 1).toNat] p := by
    rw [hp]
    refine pushes_spec (s := s) _ (show 4 * 3 ≤ s.sp by omega) ?_
    simp only [List.forall_mem_cons]
    exact ⟨(s.reg 9).isLt,(s.reg 8).isLt,(s.reg 1).isLt,by simp⟩
  have hqpush : Pushed s [(s.reg 9).toNat,(s.reg 8).toNat,(s.reg 1).toNat,
      p.mem.readL ((s.reg 8).toNat + 8),(s.reg 0).toNat] q := by
    have hlt := p.mem.readL_lt ((s.reg 8).toNat + 8)
    rw [hq,hp]
    refine pushes_spec (s := s) _ (show 4 * 5 ≤ s.sp by omega) ?_
    rw [← hp]
    simp only [List.forall_mem_cons]
    exact ⟨(s.reg 9).isLt,(s.reg 8).isLt,(s.reg 1).isLt,hlt,(s.reg 0).isLt,by simp⟩
  have hpsp : p.sp + 12 = s.sp := hpush.sp
  have hqsp : q.sp + 20 = s.sp := hqpush.sp
  have hreg : s1.reg = update s.reg 10 (BitVec.ofNat 32 (irqFunc q.mem (s.reg 8).toNat)) := by
    rw [h1,hq,hp]
    rfl
  refine ⟨?_,?_,?_,?_,fun i hi => ?_,hf.agree.mono ?_⟩
  · rw [hreg,update_of_ne (by decide)]
    exact hy
  · have hlt : irqFunc q.mem (s.reg 8).toNat < addressSpace := q.mem.readL_lt _
    rw [hreg,update_self,toNat_ofNat_lt hlt,hy]
    exact (hfields (by omega) hqpush.agree).2
  · have he : s1.sp + 4 = s.sp - 4 * (4 + 1) := by omega
    rw [he]
    exact hf.value 4 _ rfl
  · have he : s1.sp + 8 = s.sp - 4 * (3 + 1) := by omega
    rw [he,hf.value 3 _ rfl,← hp,hy]
    exact (hfields (by omega) hpush.agree).1
  · rw [hreg,update_of_ne hi]
  · exact Set.compl_subset_compl.mpr (Set.Ico_subset_Ico_left (by omega))

theorem fetchHandler_reg (s : Machine) {i : Fin 15} (h0 : i ≠ 0) (h8 : i ≠ 8) :
    (fetchHandler s).reg i = s.reg i := by
  simp only [fetchHandler,update_of_ne h0,update_of_ne h8]

-- One turn of the loop, in which the handler of `y` is called.
theorem AtHandler.turn (hc : ChainHandlers H func) (h : AtHandler H n m s A zs (y :: ys))
    (hsp : 24 ≤ s.sp) (htop : s.sp + 24 = top) (ho : H.Off (s.sp - 24) s.sp)
    (h1 : s1 = callHandler C (fetchHandler s)) (h2 : s2 = (func (s1.reg 10).toNat).run s1)
    (h3 : s3 = { s2 with sp := s2.sp + 8 }.popSome [1,8,9]) :
    CalledFor s.mem y (s.mem.readL s.sp) (fetchHandler s) s1 ∧
      (∃ A' zs', AtHandler H n m s3 A' zs' ys) ∧
      ∀ i, i ∉ [0,1,8,9,10] → s3.reg i = s.reg i := by
  have hholds : A.Holds y := ⟨_,_,h.list,by simp⟩
  have hyn : y ∈ H.nodes := h.refines.node _ _ h.list y (by simp)
  have hy : ((fetchHandler s).reg 8).toNat = y := by
    rw [fetchHandler_next,h.next]
    rfl
  have hnum : ((fetchHandler s).reg 0).toNat = s.mem.readL s.sp :=
    toNat_ofNat_lt (s.mem.readL_lt s.sp)
  have hcall := callHandler_called (s := fetchHandler s) hy hyn hsp ho h1
  rw [hnum] at hcall
  have hsp1 : s1.sp + 24 = s.sp := by
    rw [h1]
    exact (callHandler_frame (s := fetchHandler s) C hsp).sp
  have hag : Mem.Agree (Set.Ico (s.sp - 24) s.sp)ᶜ s.mem s1.mem := hcall.agree
  have harea : Mem.Agree (chainArea A y) s.mem s1.mem := hag.mono (h.refines.chainArea_off ho)
  have hr1 : Refines H.layout s1.mem A :=
    h.refines.congr (fun l xs hl => harea.mono (cells_chainArea hl))
  have hf1 : ∀ z ∈ y :: ys, irqData s1.mem z = irqData s.mem z ∧
      irqFunc s1.mem z = irqFunc s.mem z := by
    intro z hz
    have hzn := ho.node z (h.refines.node _ _ h.list z (List.mem_append_right _ hz))
    refine irqFields_agree hag (fun x hx hx' => ?_)
    have h1 := hx.1
    have h2 := hx.2
    have h3 := hx'.1
    have h4 := hx'.2
    omega
  have hpass : ∃ A' zs', Passed H n y ys s1.mem s2.mem A' zs' := by
    have hfunc : (s1.reg 10).toNat = irqFunc s1.mem y :=
      hcall.func.trans (hf1 y List.mem_cons_self).2.symm
    rw [h2]
    rcases hc.chains s1 A y (by omega) hr1 hholds hcall.a0 hfunc with ha | ha
    · exact ⟨_,_,.keep hr1 h.list ha⟩
    · exact ⟨_,_,.removed hr1 h.list ha⟩
  obtain ⟨A',zs',hp⟩ := hpass
  obtain ⟨-,ht⟩ := callHandler_turn func (P := ∅) (fun x hx => absurd hx (Set.notMem_empty x))
    (s := fetchHandler s) (show top - wrapperRoom + 24 ≤ s.sp by simp only [wrapperRoom]; omega)
    (show s.sp ≤ top by omega) h1 h2
  rw [← h3] at ht
  have hmem3 : s3.mem = s2.mem := by
    rw [h3]
    rfl
  refine ⟨hcall,⟨A',zs',?_⟩,fun i hi => ?_⟩
  · refine ⟨hmem3 ▸ hp.refines,hp.list,?_,?_,fun z hz => ?_,fun z hz => ?_⟩
    · rw [ht.a0,hy,hmem3]
      exact hp.next.trans (hr1.lists _ _ h.list).next_eq
    · rw [ht.a1,fetchHandler_reg s (by decide) (by decide)]
      exact h.tail
    · rw [hmem3,(hp.fields z hz).1,(hf1 z (List.mem_cons_of_mem _ hz)).1]
      exact h.data z (List.mem_cons_of_mem _ hz)
    · rw [hmem3,(hp.fields z hz).2,(hf1 z (List.mem_cons_of_mem _ hz)).2]
      exact h.func z (List.mem_cons_of_mem _ hz)
  · simp only [List.mem_cons,List.not_mem_nil,or_false,not_or] at hi
    obtain ⟨hi0,hi1,hi8,hi9,hi10⟩ := hi
    have hs2 : s2.reg i = s1.reg i := by
      rw [h2]
      exact hc.reg _ _ i (by simp [hi0,hi1,hi8,hi9])
    have hs3 : s3.reg i = s2.reg i := by
      rw [h3]
      simp only [Machine.popSome,List.foldl_cons,List.foldl_nil,update_of_ne hi1,update_of_ne hi8,
        update_of_ne hi9]
    rw [hs3,hs2,hcall.regs i hi10,fetchHandler_reg s hi0 hi8]

-- The calls that a chain leads to: its handlers in order, each with its own data, up to the first
-- that returns true.
structure InOrder (m : Mem) (irq : Nat) (ys : List Nat) (cs : List HandlerCall) : Prop where
  called : cs.map (fun c => (c.func,c.irq,c.data)) =
    (ys.take cs.length).map (fun y => (irqFunc m y,irq,irqData m y))
  refused : ∀ c ∈ cs.dropLast, c.result = false
  ended : cs.length = ys.length ∨ ∃ c, cs.getLast? = some c ∧ c.result = true

theorem InOrder.stop {irq : Nat} {c : HandlerCall}
    (hcall : (c.func,c.irq,c.data) = (irqFunc m y,irq,irqData m y)) (hr : c.result = true) :
    InOrder m irq (y :: ys) [c] where
  called := by simpa using hcall
  refused := by simp
  ended := .inr ⟨c,rfl,hr⟩

theorem InOrder.cons {irq : Nat} {c : HandlerCall} {cs : List HandlerCall}
    (hcall : (c.func,c.irq,c.data) = (irqFunc m y,irq,irqData m y)) (hr : c.result = false)
    (h : InOrder m irq ys cs) : InOrder m irq (y :: ys) (c :: cs) where
  called := by
    rw [List.map_cons,h.called,List.length_cons,List.take_succ_cons,List.map_cons,hcall]
  refused := by
    intro d hd
    cases cs with
    | nil => simp at hd
    | cons e cs =>
      rcases List.mem_cons.mp hd with rfl | hd
      · exact hr
      · exact h.refused d hd
  ended := by
    rcases h.ended with he | ⟨d,hd,he⟩
    · exact .inl (congrArg (· + 1) he)
    · refine .inr ⟨d,?_,he⟩
      rw [List.getLast?_cons,hd]
      rfl

theorem runHandlersLog_spec {fuel : Nat} (hc : ChainHandlers H func)
    (h : AtHandler H n m s A zs ys) (hsp : 24 ≤ s.sp) (htop : s.sp + 24 = top)
    (ho : H.Off (s.sp - 24) s.sp) (hf : ys.length < fuel) :
    ∃ s' cs, runHandlersLog C func fuel s = some (s',cs) ∧ s'.sp = s.sp ∧
      Mem.Agree (Set.Ico s.sp top) s.mem s'.mem ∧
      (∀ i, i ∉ [0,1,8,9,10] → s'.reg i = s.reg i) ∧
      InOrder m (s.mem.readL s.sp) ys cs := by
  induction ys generalizing zs A fuel s with
  | nil =>
    obtain ⟨fuel,rfl⟩ : ∃ k, fuel = k + 1 := ⟨fuel - 1,by simp at hf; omega⟩
    have hend : (fetchHandler s).reg 8 = (fetchHandler s).reg 9 := by
      refine BitVec.eq_of_toNat_eq ?_
      rw [fetchHandler_next,h.next]
      exact h.tail.symm
    refine ⟨fetchHandler s,[],?_,rfl,Mem.Agree.refl _ _,fun i hi => ?_,⟨rfl,by simp,.inl rfl⟩⟩
    · rw [runHandlersLog]
      exact if_pos hend
    · simp only [List.mem_cons,List.not_mem_nil,or_false,not_or] at hi
      exact fetchHandler_reg s hi.1 hi.2.2.1
  | cons y ys ih =>
    simp only [List.length_cons] at hf
    obtain ⟨fuel,rfl⟩ : ∃ k, fuel = k + 1 := ⟨fuel - 1,by omega⟩
    have hy : ((fetchHandler s).reg 8).toNat = y := by
      rw [fetchHandler_next,h.next]
      rfl
    have hmore : (fetchHandler s).reg 8 ≠ (fetchHandler s).reg 9 := by
      intro he
      have hyn := h.refines.node _ _ h.list y (by simp)
      have hoff := H.off y hyn n
      have h9 : ((fetchHandler s).reg 9).toNat = K.irqList n + 4 := h.tail
      rw [← he,hy] at h9
      omega
    obtain ⟨s1,h1⟩ : ∃ s1, s1 = callHandler C (fetchHandler s) := ⟨_,rfl⟩
    obtain ⟨s2,h2⟩ : ∃ s2, s2 = (func (s1.reg 10).toNat).run s1 := ⟨_,rfl⟩
    obtain ⟨s3,h3⟩ : ∃ s3, s3 = { s2 with sp := s2.sp + 8 }.popSome [1,8,9] := ⟨_,rfl⟩
    obtain ⟨hcall,⟨A',zs',hat⟩,hreg⟩ := h.turn hc hsp htop ho h1 h2 h3
    obtain ⟨hpc,ht⟩ := callHandler_turn func (P := ∅)
      (fun x hx => absurd hx (Set.notMem_empty x)) (s := fetchHandler s)
      (show top - wrapperRoom + 24 ≤ s.sp by simp only [wrapperRoom]; omega)
      (show s.sp ≤ top by omega) h1 h2
    rw [← h3] at ht
    have hsp3 : s3.sp = s.sp := ht.sp
    have hkeep : Mem.Agree (Set.Ico s.sp top) s.mem s3.mem :=
      ht.keeps.mono Set.subset_union_left
    have hargs : (irqFunc s.mem y,s.mem.readL s.sp,irqData s.mem y) =
        (irqFunc m y,s.mem.readL s.sp,irqData m y) := by
      rw [h.func y List.mem_cons_self,h.data y List.mem_cons_self]
    obtain ⟨c,hcd⟩ : ∃ c : HandlerCall, c = ⟨(s1.reg 10).toNat,s1.mem.readL (s1.sp + 4),
      s1.mem.readL (s1.sp + 8),(s3.reg 0).setWidth 8 ≠ 0#8⟩ := ⟨_,rfl⟩
    have hcargs : (c.func,c.irq,c.data) = (irqFunc m y,s.mem.readL s.sp,irqData m y) := by
      rw [← hargs,hcd,hcall.func,hcall.irq,hcall.data]
    have hrun : runHandlersLog C func (fuel + 1) s =
        if c.result then some (s3,[c])
        else (runHandlersLog C func fuel s3).map (fun r => (r.1,c :: r.2)) := by
      rw [runHandlersLog]
      dsimp only
      rw [if_neg hmore,← h1,← h2,← h3,if_neg (not_not.mpr hpc),hcd]
    rw [hrun]
    cases hres : c.result with
    | true => exact ⟨s3,[c],if_pos rfl,hsp3,hkeep,hreg,.stop hcargs hres⟩
    | false =>
      have hirq : s3.mem.readL s3.sp = s.mem.readL s.sp := by
        rw [hsp3]
        exact hkeep.readL (Set.Ico_subset_Ico_right (by omega))
      obtain ⟨s',cs,he,hsp',hk',hreg',hord⟩ := ih hat (by omega) (by omega)
        (by rw [hsp3]; exact ho) (show ys.length < fuel by omega)
      rw [hirq] at hord
      rw [hsp3] at hsp' hk'
      refine ⟨s',c :: cs,?_,hsp',hkeep.trans hk',fun i hi => (hreg' i hi).trans (hreg i hi),
        .cons hcargs hres hord⟩
      rw [he]
      rfl

theorem HandlerNodes.Off.mono {lo hi lo' hi' : Nat} (h : H.Off lo hi) (h1 : lo ≤ lo')
    (h2 : hi' ≤ hi) : H.Off lo' hi' where
  header := by
    intro n
    have := h.header n
    omega
  node := by
    intro y hy
    have := h.node y hy
    omega

-- movem.l d0-d1/a0-a2,-(a7), the head of the chain in a0 and its tail in a1.
theorem enterChain_spec (h0 : s.reg 0 = BitVec.ofNat 32 (n.val + 1)) (hsp : 20 ≤ s.sp)
    (h1 : s1 = enterChain K (s.pushSome [0,1,8,9,10])) :
    Pushed s [(s.reg 10).toNat,(s.reg 9).toNat,(s.reg 8).toNat,(s.reg 1).toNat,(s.reg 0).toNat]
      s1 ∧ (s1.reg 8).toNat = K.irqList n ∧ (s1.reg 9).toNat = K.irqList n + 4 ∧
      ∀ i, i ∉ [0,1,8,9,10] → s1.reg i = s.reg i := by
  have hn := n.isLt
  have htop := K.headers_top _ (K.irqList_mem n)
  have hpush : Pushed s [(s.reg 10).toNat,(s.reg 9).toNat,(s.reg 8).toNat,(s.reg 1).toNat,
      (s.reg 0).toNat] (s.pushSome [0,1,8,9,10]) := by
    refine pushes_spec (s := s) _ hsp ?_
    simp only [List.forall_mem_cons]
    exact ⟨(s.reg 10).isLt,(s.reg 9).isLt,(s.reg 8).isLt,(s.reg 1).isLt,(s.reg 0).isLt,by simp⟩
  have hhead : K.irq1List + irqListOffset (s.reg 0).toNat = K.irqList n := by
    rw [h0,toNat_ofNat_lt (by simp only [addressSpace]; omega),irqListOffset_eq]
    rfl
  have hreg : s1.reg = update (update (update s.reg 0
      (BitVec.ofNat 32 (irqListOffset (s.reg 0).toNat))) 8 (BitVec.ofNat 32 (K.irqList n))) 9
      (BitVec.ofNat 32 (K.irqList n + 4)) := by
    rw [h1,← hhead]
    rfl
  refine ⟨?_,?_,?_,fun i hi => ?_⟩
  · rw [h1]
    exact ⟨hpush.sp,hpush.agree,hpush.value⟩
  · rw [hreg,update_of_ne (by decide),update_self]
    exact toNat_ofNat_lt (by omega)
  · rw [hreg,update_self]
    exact toNat_ofNat_lt (by omega)
  · simp only [List.mem_cons,List.not_mem_nil,or_false,not_or] at hi
    rw [hreg,update_of_ne hi.2.2.2.1,update_of_ne hi.2.2.1,update_of_ne hi.1]

-- The registers that the end of run_handler_chain takes off the stack again.
theorem popSome_restored {s' : Machine} (hsp : s'.sp + 20 = s.sp)
    (hval : ∀ j v, [(s.reg 10).toNat,(s.reg 9).toNat,(s.reg 8).toNat,(s.reg 1).toNat,
      (s.reg 0).toNat][j]? = some v → s'.mem.readL (s.sp - 4 * (j + 1)) = v)
    (hreg : ∀ i, i ∉ [0,1,8,9,10] → s'.reg i = s.reg i) :
    (s'.popSome [0,1,8,9,10]).reg = s.reg := by
  have hback : ∀ (i : Fin 15) (j : Nat) (a : Nat), a = s.sp - 4 * (j + 1) →
      [(s.reg 10).toNat,(s.reg 9).toNat,(s.reg 8).toNat,(s.reg 1).toNat,(s.reg 0).toNat][j]? =
        some (s.reg i).toNat → BitVec.ofNat 32 (s'.mem.readL a) = s.reg i := by
    rintro i j a rfl hj
    rw [hval j _ hj,BitVec.ofNat_toNat,BitVec.setWidth_eq]
  funext i
  change update (update (update (update (update s'.reg 0 (BitVec.ofNat 32 (s'.mem.readL s'.sp))) 1
    (BitVec.ofNat 32 (s'.mem.readL (s'.sp + 4)))) 8
    (BitVec.ofNat 32 (s'.mem.readL (s'.sp + 4 + 4)))) 9
    (BitVec.ofNat 32 (s'.mem.readL (s'.sp + 4 + 4 + 4)))) 10
    (BitVec.ofNat 32 (s'.mem.readL (s'.sp + 4 + 4 + 4 + 4))) i = s.reg i
  rw [hback 0 4 s'.sp (by omega) rfl,hback 1 3 (s'.sp + 4) (by omega) rfl,
    hback 8 2 (s'.sp + 4 + 4) (by omega) rfl,hback 9 1 (s'.sp + 4 + 4 + 4) (by omega) rfl,
    hback 10 0 (s'.sp + 4 + 4 + 4 + 4) (by omega) rfl]
  simp only [update_apply]
  split_ifs with h10 h9 h8 h1 h0
  · rw [h10]
  · rw [h9]
  · rw [h8]
  · rw [h1]
  · rw [h0]
  · exact hreg i (by simp [h10,h9,h8,h1,h0])

end Turn

theorem run_handler_chain_calls {K : Image} {H : HandlerNodes K} {C : WrapperCode} {s : Machine}
    {A : Sequences Nat} {func : Nat → IrqFunction (s.sp + 4) ∅} (hr : Registered H s A)
    (hc : ChainHandlers H func) (hsp : 44 ≤ s.sp) (ho : H.Off (s.sp - 44) (s.sp + 4)) :
    (∀ n : Fin 7, s.reg 0 = BitVec.ofNat 32 (n.val + 1) →
      ∃ hs s' cs, A (K.irqList n) = some hs ∧ hs.Nodup ∧
        runHandlerChainLog K C func s = some (s',cs) ∧ runHandlerChain K C func s = some s' ∧
        InOrder s.mem (n.val + 1) hs cs ∧ s'.reg = s.reg ∧ s'.sp = s.sp + 4 ∧
        s'.pc = s.mem.readL s.sp) ∧
    (s.reg 0 = 0#32 ∨ 7 < (s.reg 0).toNat →
      runHandlerChainLog K C func s = some (s.rts,[]) ∧
      runHandlerChain K C func s = some s.rts) := by
  have hlog := runHandlerChainLog_fst K C func s
  refine ⟨fun n h0 => ?_,fun hno => ?_⟩
  · obtain ⟨href,hsome⟩ := hr.refines
    obtain ⟨hs,hhs⟩ := hsome n
    obtain ⟨s1,h1⟩ : ∃ s1, s1 = enterChain K (s.pushSome [0,1,8,9,10]) := ⟨_,rfl⟩
    obtain ⟨hpush,h8,h9,hreg1⟩ := enterChain_spec h0 (by omega) h1
    have hsp1 : s1.sp + 20 = s.sp := hpush.sp
    have hd0 : (s.reg 0).toNat = n.val + 1 := by
      have := n.isLt
      rw [h0]
      exact toNat_ofNat_lt (by simp only [addressSpace]; omega)
    have hgo : ¬ (s.reg 0 = 0#32 ∨ 7 < (s.reg 0).toNat) := by
      rintro (hz | hz)
      · rw [hz] at hd0
        exact absurd hd0.symm (Nat.succ_ne_zero _)
      · have := n.isLt
        omega
    have hirq : s1.mem.readL s1.sp = n.val + 1 := by
      have he : s1.sp = s.sp - 4 * (4 + 1) := by omega
      rw [he,hpush.value 4 _ rfl,hd0]
    have hag : Mem.Agree (Set.Ico (s.sp - 44) (s.sp + 4))ᶜ s.mem s1.mem :=
      hpush.agree.mono (Set.compl_subset_compl.mpr (Set.Ico_subset_Ico (by omega) (by omega)))
    have href1 : Refines H.layout s1.mem A := href.congr (fun l xs hl =>
      hag.mono ((cells_chainArea (y := 0) hl).trans (href.chainArea_off ho)))
    have hfields : ∀ y ∈ hs, irqData s1.mem y = irqData s.mem y ∧
        irqFunc s1.mem y = irqFunc s.mem y := by
      intro y hy
      have hoff := ho.node y (href.node _ _ hhs y hy)
      refine irqFields_agree hag (fun x hx hx' => ?_)
      have h1 := hx.1
      have h2 := hx.2
      have h3 := hx'.1
      have h4 := hx'.2
      omega
    have hat : AtHandler H n s.mem s1 A [] hs := by
      refine ⟨href1,hhs,?_,h9,fun y hy => (hfields y hy).1,fun y hy => (hfields y hy).2⟩
      rw [h8]
      exact (href1.lists _ _ hhs).header_next
    obtain ⟨s2,cs,he,hsp2,hag2,hreg2,hord⟩ := runHandlersLog_spec (C := C) hc hat
      (by omega) (by omega) (ho.mono (by omega) (by omega))
      (href1.lists _ _ hhs).length_lt
    rw [hirq] at hord
    have hval : ∀ j v, [(s.reg 10).toNat,(s.reg 9).toNat,(s.reg 8).toNat,(s.reg 1).toNat,
        (s.reg 0).toNat][j]? = some v → s2.mem.readL (s.sp - 4 * (j + 1)) = v := by
      intro j v hj
      have hlt : j < 5 := (List.getElem?_eq_some_iff.mp hj).1
      rw [hag2.readL (Set.Ico_subset_Ico (by omega) (by omega))]
      exact hpush.value j v hj
    have hreg : (s2.popSome [0,1,8,9,10]).reg = s.reg :=
      popSome_restored (by omega) hval (fun i hi => (hreg2 i hi).trans (hreg1 i hi))
    have hrun : runHandlerChainLog K C func s = some ((s2.popSome [0,1,8,9,10]).rts,cs) := by
      rw [runHandlerChainLog,if_neg hgo,← h1]
      dsimp only
      rw [he]
      rfl
    refine ⟨hs,(s2.popSome [0,1,8,9,10]).rts,cs,hhs,href.nodup _ _ hhs,hrun,?_,hord,?_,?_,?_⟩
    · rw [← hlog,hrun]
      rfl
    · exact hreg
    · change s2.sp + 4 + 4 + 4 + 4 + 4 + 4 = s.sp + 4
      omega
    · change s2.mem.readL (s2.sp + 4 + 4 + 4 + 4 + 4) = _
      have he : s2.sp + 4 + 4 + 4 + 4 + 4 = s.sp := by omega
      rw [he,hag2.readL (Set.Ico_subset_Ico_left (by omega))]
      refine hpush.agree.readL (fun x hx hx' => ?_)
      have h1 := hx.1
      have h2 := hx'.2
      omega
  · have hrun : runHandlerChainLog K C func s = some (s.rts,[]) := by
      rw [runHandlerChainLog,if_pos hno]
    refine ⟨hrun,?_⟩
    rw [← hlog,hrun]
    rfl

def HandlerNodes.single : HandlerNodes .compact where
  nodes := {0x40000}
  pos := by simp
  top := by simp [addressSpace]
  apart := by simp
  off := by
    rintro y rfl n
    revert n
    decide

-- Returns false and removes its own struct.
def IrqFunction.once (top : Nat) : IrqFunction top ∅ where
  run := fun t => { t.rts with
    reg := update t.reg 0 0#32
    mem := fun x => if t.sp + 12 ≤ x ∧ x < top then t.mem x
      else listNodeDelete t.mem (t.reg 8).toNat x }
  sp := fun _ => rfl
  pc := fun _ => rfl
  keeps := by
    rintro t x (hx | hx)
    · exact if_pos hx
    · exact absurd hx (Set.notMem_empty x)

theorem chainHandlers_once {K : Image} {H : HandlerNodes K} {top : Nat}
    (ho : H.Off (top - 48) top) :
    ChainHandlers H (fun _ => IrqFunction.once top) where
  reg := by
    intro a t i hi
    have hi0 : i ≠ 0 := by
      rintro rfl
      simp at hi
    exact update_of_ne hi0 _ _
  chains := by
    rintro t A y hsp hr hy rfl -
    refine .inr (fun x hx => if_neg (fun hx' => ?_))
    have hoff := hr.chainArea_off ho hx
    rw [Set.mem_compl_iff,Set.mem_Ico] at hoff
    omega

-- One handler for level 3, whose data is at $CAFE.
def chainMachine : Machine :=
  { Machine.blank with
    mem := (Machine.blank.mem.writeL 0x40008 0xCAFE).writeL 0x4000C 0x5000
    reg := update (fun _ => 0#32) 0 3#32 }

def chainStart : Machine := { chainMachine with mem := clearChains .compact chainMachine.mem }

theorem run_handler_chain_calls_one : ∃ s' cs,
    runHandlerChain .compact .compact (fun _ => IrqFunction.once 0x10004)
      (irqCall .compact chainStart (.register 2 0x40000)) = some s' ∧
    InOrder (irqCall .compact chainStart (.register 2 0x40000)).mem 3 [0x40000] cs ∧
    s'.reg = chainMachine.reg := by
  have hno : ¬ (emptyChains .compact).Holds 0x40000 := by
    rintro ⟨l,xs,hl,hx⟩
    rw [emptyChains_eq] at hl
    split at hl
    · rw [← Option.some.inj hl] at hx
      exact absurd hx List.not_mem_nil
    · exact absurd hl nofun
  have hv : ValidOp HandlerNodes.single.layout (emptyChains .compact)
      (IrqCall.op .compact (.register 2 0x40000)) := by
    refine ⟨?_,rfl,hno⟩
    rw [emptyChains_eq,if_pos ⟨2,rfl⟩]
    exact Option.some_ne_none []
  have hr := Registered.call (.register 2 0x40000) hv (.init chainMachine)
  have ho : HandlerNodes.single.Off (0x10000 - 44) (0x10000 + 4) := by
    refine ⟨by decide,?_⟩
    rintro y rfl
    decide
  obtain ⟨hcalls,-⟩ := run_handler_chain_calls (C := .compact) hr (chainHandlers_once ho)
    (by decide) ho
  obtain ⟨hs,s',cs,hhs,-,-,hrun,hord,hreg,-,-⟩ := hcalls 2 rfl
  have hlist : ((emptyChains .compact).apply (IrqCall.op .compact (.register 2 0x40000))).1
      (Image.compact.irqList 2) = some [0x40000] := by
    decide
  obtain rfl := Option.some.inj (hlist.symm.trans hhs)
  exact ⟨s',cs,hrun,hord,hreg⟩

end RoscoM68k
