import Mathlib.Logic.Relation
import RoscoM68k.Kernel.PmmSpec

namespace RoscoM68k

section Lists

-- The two lists as the memory holds them, whatever their nodes overlap with.
structure PmmLists (K : Image) (m : Mem) (F : FreeList) : Prop extends F.Ok where
  addrs : Linked (nodeNext m) (nodePrev m)
    (K.pmmAddrList :: F.byAddr.map Block.addr ++ [K.pmmAddrList + 4])
  sizes : Linked (nodeNext m) (nodePrev m)
    (K.pmmSizeList :: F.bySize.map (fun b => b.addr + 16) ++ [K.pmmSizeList + 4])
  size_null : m.readL (K.pmmSizeList + 4) = 0
  addr_size : ∀ b ∈ F.byAddr, nodeSize m b.addr = b.size
  size_size : ∀ b ∈ F.byAddr, nodeSize m (b.addr + 16) = b.size

variable {K : Image} {m : Mem} {F F' : FreeList} {b c : Block}

theorem PmmInv.lists (h : PmmInv K m F) : PmmLists K m F where
  toOk := h.toOk
  addrs := h.addrs.linked
  sizes := h.sizes.linked
  size_null := h.sizes.null
  addr_size := h.addr_size
  size_size := h.size_size

theorem PmmLists.bySize_unique (h : PmmLists K m F) (h' : PmmLists K m F') :
    F.bySize = F'.bySize := by
  have he : nodeNext m (K.pmmSizeList + 4) = 0 := h.size_null
  have hoff : ∀ bs : List Block,
      nodeNext m (K.pmmSizeList + 4) ∉ bs.map (fun b => b.addr + 16) := by
    intro bs hb
    obtain ⟨b,-,hb⟩ := List.mem_map.mp hb
    omega
  have hmap := h.sizes.unique (by omega) (hoff _) (hoff _) h'.sizes
  have hread : ∀ {G : FreeList}, PmmLists K m G →
      (G.bySize.map (fun b => b.addr + 16)).map (fun x => (⟨x - 16,nodeSize m x⟩ : Block)) =
        G.bySize := by
    intro G hG
    rw [List.map_map]
    refine (List.map_congr_left (fun b hb => ?_)).trans (List.map_id _)
    simp only [Function.comp,hG.size_size b (hG.toOk.mem_bySize.mp hb),Nat.add_sub_cancel,id]
  rw [← hread h,hmap,hread h']

theorem PmmLists.byAddr_unique (h : PmmLists K m F) (h' : PmmLists K m F') :
    F.byAddr = F'.byAddr := by
  refine h.toOk.byAddr_of_perm h'.toOk (h.toOk.perm.symm.trans ?_)
  rw [h.bySize_unique h']
  exact h'.toOk.perm

theorem PmmLists.bytes_unique (h : PmmLists K m F) (h' : PmmLists K m F') :
    F.bytes = F'.bytes := by
  unfold FreeList.bytes
  rw [h.byAddr_unique h']

end Lists

inductive PmmCall where
  | free (addr size : Nat)
  | alloc (size : Nat)

-- The machine with what its callers have handed over so far and what they hold at the moment.
structure PmmState where
  machine : Machine
  freed : Set Nat
  live : Set Nat

namespace PmmState

def start (K : Image) (s : Machine) : PmmState := ⟨pmmInit K s,∅,∅⟩

def avail (st : PmmState) : Set Nat := st.freed \ st.live

def doFree (K : Image) (st : PmmState) (addr size : Nat) : Option PmmState :=
  let b : Block := ⟨addr,pmmRound size⟩
  (pmmFree K st.machine addr size).map (fun s => ⟨s,st.freed ∪ b.bytes,st.live \ b.bytes⟩)

def doAlloc (K : Image) (st : PmmState) (size : Nat) : Option (PmmState × Nat) :=
  (pmmAlloc K st.machine size).map (fun r =>
    let b : Block := ⟨r.2,pmmRound size⟩
    (⟨r.1,st.freed,if r.2 = 0 then st.live else st.live ∪ b.bytes⟩,r.2))

def call (K : Image) (st : PmmState) : PmmCall → Option PmmState
  | .free addr size => st.doFree K addr size
  | .alloc size => (st.doAlloc K size).map Prod.fst

def calls (K : Image) (st : PmmState) : List PmmCall → Option PmmState
  | [] => some st
  | c :: cs => (st.call K c).bind (fun st => st.calls K cs)

theorem calls_cons {K : Image} {st st' : PmmState} {c : PmmCall} (h : st.call K c = some st')
    (cs : List PmmCall) : st.calls K (c :: cs) = st'.calls K cs := by
  rw [calls,h,Option.bind_some]

def Valid (st : PmmState) : PmmCall → Prop
  | .free addr size => 1024 ∣ addr ∧ 0 < size ∧ addr + size ≤ addressSpace ∧
      Disjoint (Set.Ico addr (addr + size)) st.avail
  | .alloc size => size < addressSpace

def Step (K : Image) (ok : PmmState → PmmCall → Prop) (st st' : PmmState) : Prop :=
  ∃ c, st.Valid c ∧ ok st c ∧ st.call K c = some st'

def Reached (K : Image) (ok : PmmState → PmmCall → Prop) (s : Machine) : PmmState → Prop :=
  Relation.ReflTransGen (Step K ok) (start K s)

-- Both lists hold the free blocks, and these are what was freed and is not allocated.
def Sound (K : Image) (st : PmmState) : Prop :=
  ∃ F, PmmLists K st.machine.mem F ∧ F.bytes = st.avail

structure Inv (K : Image) (st : PmmState) (F : FreeList) : Prop where
  inv : PmmInv K st.machine.mem F
  bytes : F.bytes = st.avail

end PmmState

-- Every size but the ones that round up to 2^32.
def PmmCall.Sized : PmmCall → Prop
  | .free _ _ => True
  | .alloc size => 0 < size ∧ size ≤ 0xFFFFFC00

-- The block is not the one at the null address and does not hold the headers of the two lists.
def PmmCall.Guarded (K : Image) : PmmCall → Prop
  | .free addr size => 0 < addr ∧
      ∀ h ∈ pmmHeaders K, addr + pmmRound size ≤ h ∨ h + 12 ≤ addr
  | .alloc _ => True

section Steps

variable {K : Image} {st : PmmState} {F : FreeList}

open PmmState

theorem PmmState.start_inv (K : Image) (s : Machine) : (start K s).Inv K ⟨[],[]⟩ := by
  obtain ⟨m',he,hi,-⟩ := pmmInit_spec K s
  refine ⟨?_,?_⟩
  · rw [start,he]
    exact hi
  · ext a
    simp [FreeList.bytes,avail,start]

-- What a valid free hands over is a block of whole pages apart from the free ones.
theorem PmmState.Inv.valid_free (h : st.Inv K F) {addr size : Nat}
    (hv : st.Valid (.free addr size)) (hg : (PmmCall.free addr size).Guarded K) :
    (⟨addr,pmmRound size⟩ : Block).Good K ∧ F.Fresh ⟨addr,pmmRound size⟩ := by
  obtain ⟨hd,hpos,htop,hdis⟩ := hv
  obtain ⟨hnull,hoff⟩ := hg
  simp only [addressSpace] at htop
  have hr : pmmRound size = (size + 1023) / 1024 * 1024 := pmmRound_eq (by omega)
  refine ⟨⟨hd,pmmRound_dvd (by simp only [addressSpace]; omega),hnull,?_,?_,hoff⟩,
    ⟨h.inv.toOk,?_,?_⟩⟩
  · simp only [hr]
    omega
  · simp only [hr,Block.stop,addressSpace]
    omega
  · simp only [hr]
    omega
  · intro c hc
    have hgc := h.inv.good c hc
    have h1 := hgc.addr_dvd
    have h2 := hgc.size_pos
    rw [← h.bytes,Set.disjoint_left] at hdis
    have h3 : ¬ (addr ≤ c.addr ∧ c.addr < addr + size) := fun hh =>
      hdis (Set.mem_Ico.mpr hh) ⟨c,hc,le_rfl,by simp only [Block.stop]; omega⟩
    have h4 : ¬ (c.addr ≤ addr ∧ addr < c.stop) := fun hh =>
      hdis (Set.mem_Ico.mpr ⟨le_rfl,by omega⟩) ⟨c,hc,hh⟩
    simp only [Block.stop,hr] at *
    omega

theorem PmmState.Inv.free (h : st.Inv K F) {addr size : Nat}
    (hv : st.Valid (.free addr size)) (hg : (PmmCall.free addr size).Guarded K) :
    ∃ st', st.doFree K addr size = some st' ∧ st'.Inv K (F.free ⟨addr,pmmRound size⟩) := by
  obtain ⟨hgood,hfr⟩ := h.valid_free hv hg
  obtain ⟨m',he,hi,-⟩ := pmmFree_spec h.inv hgood hfr rfl
  simp only at he
  refine ⟨_,by rw [doFree,he,Option.map_some],⟨hi,?_⟩⟩
  rw [FreeList.bytes_free hfr,h.bytes]
  ext a
  simp only [avail,Set.mem_union,Set.mem_sdiff]
  tauto

theorem PmmState.Inv.alloc (h : st.Inv K F) {size : Nat} (hv : st.Valid (.alloc size)) :
    (F.alloc (pmmRound size) = none ∧
        ∃ st', st.doAlloc K size = some (st',0) ∧ st'.Inv K F ∧ st'.live = st.live) ∨
      ∃ c ∈ F.byAddr, F.bySize.find? (fun c => pmmRound size ≤ c.size) = some c ∧
        ∃ st', st.doAlloc K size = some (st',c.addr) ∧ st'.Inv K (F.take (pmmRound size) c) ∧
          st'.live = st.live ∪ Block.bytes ⟨c.addr,pmmRound size⟩ := by
  cases ha : F.alloc (pmmRound size) with
  | none =>
    have he := pmmAlloc_none (s := st.machine) h.inv ha
    refine .inl ⟨rfl,⟨Machine.nested 1 st.machine,st.freed,st.live⟩,?_,⟨?_,h.bytes⟩,rfl⟩
    · rw [doAlloc,he]
      rfl
    · rw [Machine.mem_nested]
      exact h.inv
  | some r =>
    obtain ⟨c,F'⟩ := r
    obtain ⟨hf,rfl⟩ := FreeList.alloc_some ha
    obtain ⟨m',he,hi,-⟩ := pmmAlloc_some h.inv hv ha
    have hcF : c ∈ F.byAddr := h.inv.toOk.mem_bySize.mp (List.mem_of_find?_eq_some hf)
    have hle : pmmRound size ≤ c.size := by simpa using List.find?_some hf
    have hpos := (h.inv.good c hcF).addr_pos
    refine .inr ⟨c,hcF,hf,_,by rw [doAlloc,he,Option.map_some],⟨hi,?_⟩,?_⟩
    · rw [FreeList.bytes_take h.inv.toOk hcF hle,h.bytes]
      simp only [avail,if_neg hpos.ne']
      exact sdiff_sdiff_left
    · exact if_neg hpos.ne'

theorem PmmState.Inv.step (h : st.Inv K F) {c : PmmCall} (hv : st.Valid c) (hg : c.Guarded K) :
    ∃ st' F', st.call K c = some st' ∧ st'.Inv K F' := by
  cases c with
  | free addr size =>
    obtain ⟨st',he,hi⟩ := h.free hv hg
    exact ⟨st',_,he,hi⟩
  | alloc size =>
    rcases h.alloc hv with ⟨-,st',he,hi,-⟩ | ⟨c,-,-,st',he,hi,-⟩
    · exact ⟨st',_,by rw [call,he,Option.map_some],hi⟩
    · exact ⟨st',_,by rw [call,he,Option.map_some],hi⟩

theorem PmmState.Reached.inv {ok : PmmState → PmmCall → Prop} {s : Machine}
    (hok : ∀ st c, ok st c → c.Guarded K) (h : Reached K ok s st) : ∃ F, st.Inv K F := by
  induction h with
  | refl => exact ⟨_,start_inv K s⟩
  | tail _ hstep ih =>
    obtain ⟨F,hF⟩ := ih
    obtain ⟨c,hv,hc,he⟩ := hstep
    obtain ⟨st',F',he',hi⟩ := hF.step hv (hok _ _ hc)
    obtain rfl : st' = _ := Option.some.inj (he'.symm.trans he)
    exact ⟨F',hi⟩

end Steps

-- An allocation that succeeded: `b` is what the caller got.
structure Granted (K : Image) (st st' : PmmState) (b : Block) : Prop where
  was_free : ∀ F, PmmLists K st.machine.mem F → b.bytes ⊆ F.bytes
  off_free : ∀ F, PmmLists K st'.machine.mem F → Disjoint b.bytes F.bytes
  off_live : Disjoint b.bytes st.live
  live : st'.live = st.live ∪ b.bytes

open PmmState

theorem PmmState.Inv.granted {K : Image} {st st' : PmmState} {F : FreeList} {c : Block} {size : Nat}
    (h : st.Inv K F) (hc : c ∈ F.byAddr) (hle : pmmRound size ≤ c.size)
    (hi : st'.Inv K (F.take (pmmRound size) c))
    (hl : st'.live = st.live ∪ Block.bytes ⟨c.addr,pmmRound size⟩) :
    Granted K st st' ⟨c.addr,pmmRound size⟩ := by
  have hsub : Block.bytes ⟨c.addr,pmmRound size⟩ ⊆ F.bytes := by
    refine fun x hx => ⟨c,hc,?_⟩
    simp only [Block.bytes,Block.stop,Set.mem_Ico] at *
    omega
  refine ⟨fun G hG => ?_,fun G hG => ?_,?_,hl⟩
  · rw [hG.bytes_unique h.inv.lists]
    exact hsub
  · rw [hG.bytes_unique hi.inv.lists,FreeList.bytes_take h.inv.toOk hc hle]
    exact Set.disjoint_sdiff_right
  · rw [h.bytes] at hsub
    exact Set.disjoint_left.mpr (fun x hx => (hsub hx).2)

theorem FreeList.Clear.valid {K : Image} {st : PmmState} {F : FreeList} {b : Block}
    (h : st.Inv K F) (hd : 1024 ∣ b.addr) (hpos : 0 < b.size) (htop : b.stop ≤ addressSpace)
    (hc : F.Clear b) : st.Valid (.free b.addr b.size) := by
  refine ⟨hd,hpos,htop,?_⟩
  rw [← h.bytes]
  exact (FreeList.clear_iff h.inv.toOk hpos).mp hc

theorem pmm_run_sound {K : Image} {s : Machine} {st : PmmState}
    (h : Reached K (fun _ c => c.Sized ∧ c.Guarded K) s st) :
    st.Sound K ∧
      (∀ c, st.Valid c → c.Sized → c.Guarded K → ∃ st', st.call K c = some st') ∧
      ∀ size st' a, st.Valid (.alloc size) → (PmmCall.alloc size).Sized →
        st.doAlloc K size = some (st',a) → a ≠ 0 → Granted K st st' ⟨a,pmmRound size⟩ := by
  obtain ⟨F,hF⟩ := Reached.inv (fun _ _ hc => hc.2) h
  refine ⟨⟨F,hF.inv.lists,hF.bytes⟩,fun c hv _ hg => ?_,fun size st' a hv _ he ha => ?_⟩
  · obtain ⟨st',-,he,-⟩ := hF.step hv hg
    exact ⟨st',he⟩
  · rcases hF.alloc hv with ⟨-,st'',he',-⟩ | ⟨c,hc,hf,st'',he',hi,hl⟩
    · exact absurd (congrArg Prod.snd (Option.some.inj (he.symm.trans he'))) ha
    · obtain ⟨rfl,rfl⟩ := Prod.mk.inj (Option.some.inj (he.symm.trans he'))
      exact hF.granted hc (by simpa using List.find?_some hf) hi hl

theorem pmm_run_sound_three : ∃ st, Reached Image.compact (fun _ c => c.Sized ∧ c.Guarded .compact)
    .blank st ∧ st.Sound Image.compact ∧
      ∃ st', st.doAlloc .compact 0x400 = some (st',0x40000) ∧
        Granted .compact st st' ⟨0x40000,0x400⟩ := by
  have h0 := start_inv .compact .blank
  have hg1 : (PmmCall.free 0x40000 0x800).Guarded .compact := ⟨by decide,by decide⟩
  have hv1 : (start .compact .blank).Valid (.free 0x40000 0x800) :=
    FreeList.Clear.valid (b := ⟨0x40000,0x800⟩) h0 (by decide) (by decide) (by decide)
      (by simp [FreeList.Clear])
  obtain ⟨st,he,hi⟩ := h0.free hv1 hg1
  have hr : Reached .compact (fun _ c => c.Sized ∧ c.Guarded .compact) .blank st :=
    .single ⟨_,hv1,⟨trivial,hg1⟩,he⟩
  have hv2 : st.Valid (.alloc 0x400) := by simp [Valid,addressSpace]
  have hF : FreeList.free ⟨[],[]⟩ ⟨0x40000,pmmRound 0x800⟩ =
      ⟨[⟨0x40000,0x800⟩],[⟨0x40000,0x800⟩]⟩ := by decide
  rw [hF] at hi
  obtain ⟨hs,-,hgr⟩ := pmm_run_sound hr
  refine ⟨st,hr,hs,?_⟩
  rcases hi.alloc hv2 with ⟨hn,-⟩ | ⟨c,hc,-,st',he',-⟩
  · exact absurd hn (by decide)
  · obtain rfl : c = ⟨0x40000,0x800⟩ := by simpa using hc
    exact ⟨st',he',hgr _ _ _ hv2 ⟨by decide,by decide⟩ he' (by decide)⟩

theorem PmmState.one_free {K : Image} {s s' : Machine} {addr size : Nat}
    (hv : (start K s).Valid (.free addr size)) (he : pmmFree K (pmmInit K s) addr size = some s') :
    ∃ st, Reached K (fun _ c => c.Sized) s st ∧ (start K s).call K (.free addr size) = some st ∧
      st.machine = s' ∧ st.avail = Block.bytes ⟨addr,pmmRound size⟩ := by
  have hc : (start K s).call K (.free addr size) =
      some ⟨s',∅ ∪ Block.bytes ⟨addr,pmmRound size⟩,∅ \ Block.bytes ⟨addr,pmmRound size⟩⟩ := by
    simp only [call,doFree,start,he,Option.map_some]
  refine ⟨_,.single ⟨_,hv,trivial,hc⟩,hc,rfl,?_⟩
  simp [avail]

theorem unguarded_free_unsound :
    (∃ st, Reached .compact (fun _ c => c.Sized) .blank st ∧
      (start .compact .blank).call .compact (.free 0 0x400) = some st ∧ ¬ st.Sound .compact) ∧
    ∃ st, Reached .compact (fun _ c => c.Sized) .blank st ∧
      (start .compact .blank).call .compact (.free 0x1000 0x400) = some st ∧
      ¬ st.Sound .compact := by
  have hvalid : ∀ addr, 1024 ∣ addr → addr + 0x400 ≤ addressSpace →
      (start Image.compact .blank).Valid (.free addr 0x400) := by
    intro addr hd ht
    refine ⟨hd,by decide,ht,?_⟩
    simp [avail,start]
  have hround : pmmRound 0x400 = 0x400 := by decide
  have hmem : ∀ {F : FreeList} {b : Block}, F.Ok → b ∈ F.byAddr → b.addr ∈ F.bytes := by
    intro F b ho hb
    have := ho.pos b hb
    exact ⟨b,hb,le_rfl,by simp only [Block.stop]; omega⟩
  constructor
  · -- The header is left with a NULL head and with itself as the predecessor of its tail node.
    have hpeek : (pmmFree .compact (pmmInit .compact .blank) 0 0x400).map
        (fun s => (nodeNext s.mem 0x1000,nodePrev s.mem 0x1004)) = some (0,0x1000) := by
      decide +kernel
    obtain ⟨s',he,hp⟩ := Option.map_eq_some_iff.mp hpeek
    obtain ⟨st,hr,hcall,hs,hav⟩ := one_free (hvalid 0 (by decide) (by decide)) he
    refine ⟨st,hr,hcall,?_⟩
    rintro ⟨F,hF,hb⟩
    obtain ⟨hnext,hprev⟩ := Prod.mk.inj hp
    rw [← hs] at hnext hprev
    have hl := hF.addrs
    rcases F.byAddr.eq_nil_or_concat with h0 | ⟨bs,b,h0⟩
    · rw [h0] at hl
      have := hl.head_next.symm.trans hnext
      simp [Image.compact,Symbols.compact] at this
    · rw [h0] at hl
      have hl' : Linked (nodeNext st.machine.mem) (nodePrev st.machine.mem)
          ((0x1000 :: bs.map Block.addr) ++ b.addr :: 0x1004 :: []) := by
        simpa [Image.compact,Symbols.compact] using hl
      have hlast : nodePrev st.machine.mem 0x1004 = b.addr := hl'.neighbours.2
      have hbm := hmem hF.toOk (b := b) (by simp [h0])
      rw [hb,hav,← hlast,hprev,hround] at hbm
      simp [Block.bytes,Block.stop] at hbm
  · -- The size field of the block is the last field of the header.
    have hpeek : (pmmFree .compact (pmmInit .compact .blank) 0x1000 0x400).map
        (fun s => nodeNext s.mem 0x1000) = some 0 := by
      decide +kernel
    obtain ⟨s',he,hp⟩ := Option.map_eq_some_iff.mp hpeek
    obtain ⟨st,hr,hcall,hs,hav⟩ := one_free (hvalid 0x1000 (by decide) (by decide)) he
    refine ⟨st,hr,hcall,?_⟩
    rintro ⟨F,hF,hb⟩
    rw [← hs] at hp
    have hl := hF.addrs.head_next.symm.trans hp
    cases h0 : F.byAddr with
    | nil => simp [h0,Image.compact,Symbols.compact] at hl
    | cons b bs =>
      have hbm := hmem hF.toOk (b := b) (by simp [h0])
      have hb0 : b.addr = 0 := by simpa [h0] using hl
      rw [hb,hav,hb0,hround] at hbm
      simp [Block.bytes,Block.stop] at hbm

def PmmState.Ordered (K : Image) (st : PmmState) : Prop :=
  ∃ F, PmmLists K st.machine.mem F ∧ F.Sorted

-- A request that succeeds is served from a smallest block among those that can hold it.
def PmmState.LeastFit (K : Image) (st : PmmState) (size : Nat) : Prop :=
  ∀ st' a, st.doAlloc K size = some (st',a) → a ≠ 0 → ∀ F, PmmLists K st.machine.mem F →
    ∃ c ∈ F.byAddr, c.addr = a ∧ size ≤ c.size ∧ ∀ d ∈ F.byAddr, size ≤ d.size → c.size ≤ d.size

-- The size list is searched with the size that ends up in the block, up to what lies between
-- them, and the request does not wrap to zero when it is rounded.
def PmmCall.InStep (K : Image) (st : PmmState) : PmmCall → Prop
  | .free addr size => ∀ F, PmmLists K st.machine.mem F → F.NoneBetween ⟨addr,pmmRound size⟩
  | .alloc size => size ≤ 0xFFFFFC00 ∨ st.avail = ∅

section SizeOrder

variable {K : Image} {st : PmmState} {F F' : FreeList}

theorem FreeList.Sorted.congr (h : F.Sorted) (he : F.bySize = F'.bySize) : F'.Sorted := by
  unfold FreeList.Sorted
  rw [← he]
  exact h

theorem FreeList.NoneBetween.congr {b : Block} (h : F.NoneBetween b)
    (he : F.byAddr = F'.byAddr) : F'.NoneBetween b := by
  unfold FreeList.NoneBetween FreeList.below
  rw [← he]
  exact h

theorem PmmState.Inv.ordered_iff (h : st.Inv K F) : st.Ordered K ↔ F.Sorted := by
  constructor
  · rintro ⟨G,hG,hs⟩
    exact hs.congr (hG.bySize_unique h.inv.lists)
  · exact fun hs => ⟨F,h.inv.lists,hs⟩

theorem PmmState.Inv.free_ordered (h : st.Inv K F) (hs : F.Sorted) {addr size : Nat}
    {st' : PmmState} (hv : st.Valid (.free addr size)) (hg : (PmmCall.free addr size).Guarded K)
    (he : st.doFree K addr size = some st') :
    st'.Ordered K ↔ (PmmCall.free addr size).InStep K st := by
  obtain ⟨st'',he',hi⟩ := h.free hv hg
  obtain rfl : st'' = st' := Option.some.inj (he'.symm.trans he)
  rw [hi.ordered_iff,FreeList.sorted_free (h.valid_free hv hg).2 hs]
  constructor
  · exact fun hn G hG => hn.congr (h.inv.lists.byAddr_unique hG)
  · exact fun hn => hn F h.inv.lists

theorem FreeList.Ok.bytes_eq_empty (h : F.Ok) : F.bytes = ∅ ↔ F.byAddr = [] := by
  constructor
  · intro he
    refine List.eq_nil_iff_forall_not_mem.mpr (fun b hb => ?_)
    have hpos := h.pos b hb
    have hmem : b.addr ∈ F.bytes := ⟨b,hb,le_rfl,by simp only [Block.stop]; omega⟩
    rw [he] at hmem
    exact hmem
  · intro he
    ext a
    simp [FreeList.bytes,he]

theorem PmmState.Inv.avail_eq_empty (h : st.Inv K F) : st.avail = ∅ ↔ F.byAddr = [] := by
  rw [← h.bytes,h.inv.toOk.bytes_eq_empty]

theorem PmmState.Inv.least_fit (h : st.Inv K F) (hs : F.Sorted) {size : Nat}
    (hv : st.Valid (.alloc size)) :
    st.LeastFit K size ↔ (PmmCall.alloc size).InStep K st := by
  rcases h.alloc hv with ⟨hnone,st',he,-⟩ | ⟨c,hc,hf,st',he,-⟩
  · have hno : st.LeastFit K size := by
      intro st'' a he' ha
      exact absurd (congrArg Prod.snd (Option.some.inj (he'.symm.trans he))) ha
    refine ⟨fun _ => ?_,fun _ => hno⟩
    by_contra hn
    obtain ⟨hbig,hav⟩ := not_or.mp hn
    have hround : pmmRound size = 0 := pmmRound_overflow (by omega) hv
    refine hav (h.avail_eq_empty.mpr (List.eq_nil_iff_forall_not_mem.mpr (fun d hd => ?_)))
    have hno := FreeList.alloc_none hnone (h.inv.toOk.mem_bySize.mpr hd)
    rw [hround] at hno
    exact hno (Nat.zero_le _)
  · have hpos := (h.inv.good c hc).addr_pos
    have htop := (h.inv.good c hc).top
    have hle : pmmRound size ≤ c.size := by simpa using List.find?_some hf
    have hsmall : size ≤ 0xFFFFFC00 → pmmRound size = (size + 1023) / 1024 * 1024 := pmmRound_eq
    constructor
    · intro hl
      obtain ⟨d,hd,hda,hsz,-⟩ := hl st' c.addr he hpos.ne' F h.inv.lists
      have hdt := (h.inv.good d hd).top
      have hd1 := (h.inv.good d hd).addr_dvd
      have hd2 := (h.inv.good d hd).addr_pos
      refine .inl ?_
      simp only [Block.stop,addressSpace] at hdt
      omega
    · rintro (hsm | hav)
      · intro st'' a he' _ G hG
        obtain ⟨-,rfl⟩ := Prod.mk.inj (Option.some.inj (he'.symm.trans he))
        rw [hG.byAddr_unique h.inv.lists]
        have hr := hsmall hsm
        refine ⟨c,hc,rfl,by omega,fun d hd hdsz => ?_⟩
        have hdvd := (h.inv.good d hd).size_dvd
        obtain ⟨-,l1,l2,hl,hl1⟩ := List.find?_eq_some_iff_append.mp hf
        have hsort : (l1 ++ c :: l2).Pairwise (fun b c => b.size ≤ c.size) := hl ▸ hs
        have hdS : d ∈ l1 ++ c :: l2 := hl ▸ h.inv.toOk.mem_bySize.mpr hd
        rcases List.mem_append.mp hdS with hd1 | hd1
        · have := hl1 d hd1
          simp only [Bool.not_eq_true',decide_eq_false_iff_not] at this
          omega
        · rcases List.mem_cons.mp hd1 with rfl | hd1
          · exact le_rfl
          · exact (List.pairwise_cons.mp (List.pairwise_append.mp hsort).2.1).1 d hd1
      · rw [h.avail_eq_empty.mp hav] at hc
        exact absurd hc List.not_mem_nil

theorem PmmState.Inv.step_ordered (h : st.Inv K F) (hs : F.Sorted) {c : PmmCall}
    (hv : st.Valid c) (hg : c.Guarded K) (hc : c.InStep K st) {st' : PmmState}
    (he : st.call K c = some st') : ∃ F', st'.Inv K F' ∧ F'.Sorted := by
  cases c with
  | free addr size =>
    obtain ⟨st'',he',hi⟩ := h.free hv hg
    obtain rfl : st'' = st' := Option.some.inj (he'.symm.trans he)
    exact ⟨_,hi,hi.ordered_iff.mp ((h.free_ordered hs hv hg he').mpr hc)⟩
  | alloc size =>
    rcases h.alloc hv with ⟨-,st'',he',hi,-⟩ | ⟨c,hcF,-,st'',he',hi,-⟩
    · rw [call,he',Option.map_some] at he
      obtain rfl : st'' = st' := Option.some.inj he
      exact ⟨F,hi,hs⟩
    · rw [call,he',Option.map_some] at he
      obtain rfl : st'' = st' := Option.some.inj he
      exact ⟨_,hi,hs.take h.inv.toOk hcF _⟩

end SizeOrder

theorem pmm_run_ordered {K : Image} {s : Machine} {st : PmmState}
    (h : Reached K (fun st c => c.Guarded K ∧ c.InStep K st) s st) :
    st.Ordered K ∧
      (∀ addr size st', st.Valid (.free addr size) → (PmmCall.free addr size).Guarded K →
        st.doFree K addr size = some st' →
          (st'.Ordered K ↔ (PmmCall.free addr size).InStep K st)) ∧
      ∀ size, st.Valid (.alloc size) →
        (st.LeastFit K size ↔ (PmmCall.alloc size).InStep K st) := by
  have hrun : ∃ F, st.Inv K F ∧ F.Sorted := by
    induction h with
    | refl => exact ⟨_,start_inv K s,.nil⟩
    | tail _ hstep ih =>
      obtain ⟨F,hF,hs⟩ := ih
      obtain ⟨c,hv,⟨hg,hc⟩,he⟩ := hstep
      exact hF.step_ordered hs hv hg hc he
  obtain ⟨F,hF,hs⟩ := hrun
  exact ⟨hF.ordered_iff.mpr hs,fun addr size st' hv hg he => hF.free_ordered hs hv hg he,
    fun size hv => hF.least_fit hs hv⟩

-- 0x800 bytes lie apart, 0x400 bytes are freed below another 0x800: the 0xC00 bytes these make are
-- listed, and found, before the 0x800.
theorem pmm_run_unordered : ∃ st,
    Reached Image.compact (fun _ c => c.Sized ∧ c.Guarded .compact) .blank st ∧
      (start .compact .blank).calls .compact
        [.free 0x50000 0x800,.free 0x40400 0x800,.free 0x40000 0x400] = some st ∧
      ¬ st.Ordered .compact ∧ ¬ st.LeastFit .compact 0x400 := by
  have h0 := start_inv .compact .blank
  have hg1 : (PmmCall.free 0x50000 0x800).Guarded .compact := ⟨by decide,by decide⟩
  have hg2 : (PmmCall.free 0x40400 0x800).Guarded .compact := ⟨by decide,by decide⟩
  have hg3 : (PmmCall.free 0x40000 0x400).Guarded .compact := ⟨by decide,by decide⟩
  have hv1 := FreeList.Clear.valid (b := ⟨0x50000,0x800⟩) h0 (by decide) (by decide) (by decide)
    (by simp [FreeList.Clear])
  obtain ⟨st1,he1,h1⟩ := h0.free hv1 hg1
  have hF1 : FreeList.free ⟨[],[]⟩ ⟨0x50000,pmmRound 0x800⟩ =
      ⟨[⟨0x50000,0x800⟩],[⟨0x50000,0x800⟩]⟩ := by decide
  rw [hF1] at h1
  have hv2 := FreeList.Clear.valid (b := ⟨0x40400,0x800⟩) h1 (by decide) (by decide) (by decide)
    (by simp [FreeList.Clear,Block.stop])
  obtain ⟨st2,he2,h2⟩ := h1.free hv2 hg2
  have hF2 : FreeList.free ⟨[⟨0x50000,0x800⟩],[⟨0x50000,0x800⟩]⟩ ⟨0x40400,pmmRound 0x800⟩ =
      ⟨[⟨0x40400,0x800⟩,⟨0x50000,0x800⟩],[⟨0x50000,0x800⟩,⟨0x40400,0x800⟩]⟩ := by decide
  rw [hF2] at h2
  have hv3 := FreeList.Clear.valid (b := ⟨0x40000,0x400⟩) h2 (by decide) (by decide) (by decide)
    (by simp [FreeList.Clear,Block.stop])
  obtain ⟨st3,he3,h3⟩ := h2.free hv3 hg3
  have hF3 : FreeList.free
      ⟨[⟨0x40400,0x800⟩,⟨0x50000,0x800⟩],[⟨0x50000,0x800⟩,⟨0x40400,0x800⟩]⟩
        ⟨0x40000,pmmRound 0x400⟩ =
      ⟨[⟨0x40000,0xC00⟩,⟨0x50000,0x800⟩],[⟨0x40000,0xC00⟩,⟨0x50000,0x800⟩]⟩ := by decide
  rw [hF3] at h3
  refine ⟨st3,?_,?_,?_,?_⟩
  · exact ((Relation.ReflTransGen.single ⟨_,hv1,⟨trivial,hg1⟩,he1⟩).tail
      ⟨_,hv2,⟨trivial,hg2⟩,he2⟩).tail ⟨_,hv3,⟨trivial,hg3⟩,he3⟩
  · have hc1 : (start .compact .blank).call .compact (.free 0x50000 0x800) = some st1 := he1
    have hc2 : st1.call .compact (.free 0x40400 0x800) = some st2 := he2
    have hc3 : st2.call .compact (.free 0x40000 0x400) = some st3 := he3
    rw [calls_cons hc1,calls_cons hc2,calls_cons hc3,calls]
  · rw [h3.ordered_iff]
    simp [FreeList.Sorted]
  · intro hl
    have hv4 : st3.Valid (.alloc 0x400) := by simp [Valid,addressSpace]
    rcases h3.alloc hv4 with ⟨hn,-⟩ | ⟨c,-,hf,st',he',-⟩
    · exact absurd hn (by decide)
    · obtain rfl : c = ⟨0x40000,0xC00⟩ := Option.some.inj (hf.symm.trans (by decide))
      obtain ⟨d,hd,hda,-,hmin⟩ := hl st' _ he' (by decide) _ h3.inv.lists
      have := hmin ⟨0x50000,0x800⟩ (by simp) (by decide)
      simp only [List.mem_cons,List.not_mem_nil,or_false] at hd
      rcases hd with rfl | rfl <;> simp at hda this

theorem pmm_run_ordered_two : ∃ st, Reached Image.compact
    (fun st c => c.Guarded .compact ∧ c.InStep .compact st) .blank st ∧ st.Ordered .compact ∧
      st.LeastFit .compact 0x400 := by
  have h0 := start_inv .compact .blank
  have hg1 : (PmmCall.free 0x40000 0x800).Guarded .compact := ⟨by decide,by decide⟩
  have hv1 := FreeList.Clear.valid (b := ⟨0x40000,0x800⟩) h0 (by decide) (by decide) (by decide)
    (by simp [FreeList.Clear])
  have hs1 : (PmmCall.free 0x40000 0x800).InStep .compact (start .compact .blank) := by
    intro F hF hi hhi
    rw [hF.byAddr_unique h0.inv.lists] at hhi
    simp at hhi
  obtain ⟨st,he,-⟩ := h0.free hv1 hg1
  have hr : Reached .compact (fun st c => c.Guarded .compact ∧ c.InStep .compact st) .blank st :=
    .single ⟨_,hv1,⟨hg1,hs1⟩,he⟩
  obtain ⟨ho,-,hl⟩ := pmm_run_ordered hr
  exact ⟨st,hr,ho,(hl _ (by simp [Valid,addressSpace])).mpr (.inl (by decide))⟩

end RoscoM68k
