import Mathlib.Tactic
import Mathlib.Data.List.Sort
import Mathlib.Data.List.TakeWhile
import Mathlib.Order.CompletePartialOrder
import Mathlib.Order.Interval.Set.Basic

namespace RoscoM68k

structure Block where
  addr : Nat
  size : Nat
  deriving DecidableEq, Repr

def Block.stop (b : Block) : Nat := b.addr + b.size

def Block.bytes (b : Block) : Set Nat := Set.Ico b.addr b.stop

-- What the physical memory manager keeps: the same free blocks in two orders.
structure FreeList where
  byAddr : List Block
  bySize : List Block
  deriving DecidableEq, Repr

namespace FreeList

def bytes (F : FreeList) : Set Nat := {a | ∃ b ∈ F.byAddr, a ∈ b.bytes}

def remove (F : FreeList) (c : Block) : FreeList := ⟨F.byAddr.erase c,F.bySize.erase c⟩

def mergeBelow (F : FreeList) (b : Block) : FreeList × Block :=
  match F.byAddr.find? (fun c => c.stop == b.addr) with
  | some c => (F.remove c,⟨c.addr,b.size + c.size⟩)
  | none => (F,b)

def mergeAbove (F : FreeList) (b : Block) : FreeList × Block :=
  match F.byAddr.find? (fun c => b.stop == c.addr) with
  | some c => (F.remove c,⟨b.addr,b.size + c.size⟩)
  | none => (F,b)

-- `asked` is the size the code searches the size list with.
def insert (F : FreeList) (b : Block) (asked : Nat) : FreeList :=
  ⟨F.byAddr.orderedInsert (fun b c => b.addr < c.addr) b,
    F.bySize.orderedInsert (fun _ c => asked < c.size) b⟩

def free (F : FreeList) (b : Block) : FreeList :=
  let p := F.mergeBelow b
  let q := p.1.mergeAbove p.2
  q.1.insert q.2 p.2.size

def take (F : FreeList) (n : Nat) (c : Block) : FreeList :=
  if n < c.size then (F.remove c).free ⟨c.addr + n,c.size - n⟩ else F.remove c

def alloc (F : FreeList) (n : Nat) : Option (Block × FreeList) :=
  (F.bySize.find? (fun c => n ≤ c.size)).map (fun c => (c,F.take n c))

-- Strictly ascending, disjoint and not adjacent, as each block ends below the next one.
def Gapped (bs : List Block) : Prop := bs.Pairwise (fun b c => b.stop < c.addr)

structure Ok (F : FreeList) : Prop where
  gapped : Gapped F.byAddr
  pos : ∀ b ∈ F.byAddr, 0 < b.size
  perm : F.bySize.Perm F.byAddr

def Clear (F : FreeList) (b : Block) : Prop := ∀ c ∈ F.byAddr, c.stop ≤ b.addr ∨ b.stop ≤ c.addr

variable {F : FreeList} {b c : Block}

theorem Ok.nodup (h : F.Ok) : F.byAddr.Nodup :=
  h.gapped.imp (fun {b c} hh he => by subst he; simp only [Block.stop] at hh; omega)

theorem Ok.mem_bySize (h : F.Ok) : c ∈ F.bySize ↔ c ∈ F.byAddr := h.perm.mem_iff

theorem Ok.stop_lt_or (h : F.Ok) (hb : b ∈ F.byAddr) (hc : c ∈ F.byAddr) (hne : b ≠ c) :
    b.stop < c.addr ∨ c.stop < b.addr := by
  have hs : F.byAddr.Pairwise (fun b c => b.stop < c.addr ∨ c.stop < b.addr) :=
    h.gapped.imp (fun hh => .inl hh)
  have : Std.Symm (fun b c : Block => b.stop < c.addr ∨ c.stop < b.addr) := ⟨fun _ _ => Or.symm⟩
  exact hs.forall hb hc hne

theorem mem_remove (h : F.Ok) : b ∈ (F.remove c).byAddr ↔ b ≠ c ∧ b ∈ F.byAddr :=
  h.nodup.mem_erase_iff

theorem Ok.remove (h : F.Ok) (c : Block) : (F.remove c).Ok where
  gapped := h.gapped.sublist List.erase_sublist
  pos := fun b hb => h.pos b (List.mem_of_mem_erase hb)
  perm := h.perm.erase c

theorem bytes_remove (h : F.Ok) (hc : c ∈ F.byAddr) : (F.remove c).bytes = F.bytes \ c.bytes := by
  ext a
  constructor
  · rintro ⟨b,hb,hab⟩
    obtain ⟨hne,hbF⟩ := (mem_remove h).mp hb
    refine ⟨⟨b,hbF,hab⟩,fun hac => ?_⟩
    have hs := h.stop_lt_or hbF hc hne
    have h1 := hab.1
    have h2 := hab.2
    have h3 := hac.1
    have h4 := hac.2
    omega
  · rintro ⟨⟨b,hb,hab⟩,hac⟩
    exact ⟨b,(mem_remove h).mpr ⟨fun he => hac (he ▸ hab),hb⟩,hab⟩

theorem bytes_remove_union (h : F.Ok) (hc : c ∈ F.byAddr) :
    (F.remove c).bytes ∪ c.bytes = F.bytes := by
  rw [bytes_remove h hc]
  exact Set.sdiff_union_of_subset (fun a ha => ⟨c,hc,ha⟩)

theorem clear_iff (h : F.Ok) (hb : 0 < b.size) : F.Clear b ↔ Disjoint b.bytes F.bytes := by
  constructor
  · intro hcl
    rw [Set.disjoint_left]
    rintro a hab ⟨c,hc,hac⟩
    have h0 := hcl c hc
    have h1 := hab.1
    have h2 := hab.2
    have h3 := hac.1
    have h4 := hac.2
    omega
  · intro hd c hc
    by_contra hn
    have hp := h.pos c hc
    have hm : max b.addr c.addr ∈ b.bytes := by
      refine ⟨le_max_left _ _,?_⟩
      simp only [Block.stop] at hn ⊢
      omega
    have hm' : max b.addr c.addr ∈ F.bytes := by
      refine ⟨c,hc,le_max_right _ _,?_⟩
      simp only [Block.stop] at hn ⊢
      omega
    exact Set.disjoint_left.mp hd hm hm'

section Merge

theorem mergeBelow_cases (F : FreeList) (b : Block) :
    (∃ c ∈ F.byAddr, c.stop = b.addr ∧ F.mergeBelow b = (F.remove c,⟨c.addr,b.size + c.size⟩)) ∨
      ((∀ c ∈ F.byAddr, c.stop ≠ b.addr) ∧ F.mergeBelow b = (F,b)) := by
  unfold mergeBelow
  cases hf : F.byAddr.find? (fun c => c.stop == b.addr) with
  | some c =>
    refine .inl ⟨c,List.mem_of_find?_eq_some hf,?_,rfl⟩
    simpa using List.find?_some hf
  | none => exact .inr ⟨by simpa using hf,rfl⟩

theorem mergeAbove_cases (F : FreeList) (b : Block) :
    (∃ c ∈ F.byAddr, b.stop = c.addr ∧ F.mergeAbove b = (F.remove c,⟨b.addr,b.size + c.size⟩)) ∨
      ((∀ c ∈ F.byAddr, b.stop ≠ c.addr) ∧ F.mergeAbove b = (F,b)) := by
  unfold mergeAbove
  cases hf : F.byAddr.find? (fun c => b.stop == c.addr) with
  | some c =>
    refine .inl ⟨c,List.mem_of_find?_eq_some hf,?_,rfl⟩
    simpa using List.find?_some hf
  | none => exact .inr ⟨by simpa using hf,rfl⟩

-- A block that may be put back: it overlaps no free block.
structure Fresh (F : FreeList) (b : Block) : Prop extends F.Ok where
  size_pos : 0 < b.size
  clear : F.Clear b

theorem Fresh.mergeBelow (h : F.Fresh b) :
    (F.mergeBelow b).1.Fresh (F.mergeBelow b).2 ∧
      (∀ c ∈ (F.mergeBelow b).1.byAddr, c.stop ≠ (F.mergeBelow b).2.addr) := by
  rcases mergeBelow_cases F b with ⟨c,hc,hcb,he⟩ | ⟨hno,he⟩
  · rw [he]
    have hcl := h.clear
    have hb := h.size_pos
    refine ⟨⟨h.toOk.remove c,by simp only; omega,?_⟩,?_⟩
    · intro d hd
      obtain ⟨hne,hdF⟩ := (mem_remove h.toOk).mp hd
      have h1 := hcl d hdF
      have h2 := h.toOk.stop_lt_or hdF hc hne
      simp only [Block.stop] at *
      omega
    · intro d hd
      obtain ⟨hne,hdF⟩ := (mem_remove h.toOk).mp hd
      have h2 := h.toOk.stop_lt_or hdF hc hne
      have h3 := h.pos d hdF
      simp only [Block.stop] at *
      omega
  · rw [he]
    exact ⟨h,hno⟩

theorem Fresh.mergeAbove (h : F.Fresh b) (hlo : ∀ c ∈ F.byAddr, c.stop ≠ b.addr) :
    (F.mergeAbove b).1.Fresh (F.mergeAbove b).2 ∧
      (∀ c ∈ (F.mergeAbove b).1.byAddr, c.stop ≠ (F.mergeAbove b).2.addr) ∧
      (∀ c ∈ (F.mergeAbove b).1.byAddr, (F.mergeAbove b).2.stop ≠ c.addr) := by
  rcases mergeAbove_cases F b with ⟨c,hc,hbc,he⟩ | ⟨hno,he⟩
  · rw [he]
    have hcl := h.clear
    have hb := h.size_pos
    refine ⟨⟨h.toOk.remove c,by simp only; omega,?_⟩,?_,?_⟩
    · intro d hd
      obtain ⟨hne,hdF⟩ := (mem_remove h.toOk).mp hd
      have h1 := hcl d hdF
      have h2 := h.toOk.stop_lt_or hdF hc hne
      simp only [Block.stop] at *
      omega
    · intro d hd
      exact hlo d ((mem_remove h.toOk).mp hd).2
    · intro d hd
      obtain ⟨hne,hdF⟩ := (mem_remove h.toOk).mp hd
      have h2 := h.toOk.stop_lt_or hdF hc hne
      have h3 := h.pos d hdF
      simp only [Block.stop] at *
      omega
  · rw [he]
    exact ⟨h,hlo,hno⟩

theorem bytes_mergeBelow (h : F.Fresh b) :
    (F.mergeBelow b).1.bytes ∪ (F.mergeBelow b).2.bytes = F.bytes ∪ b.bytes := by
  rcases mergeBelow_cases F b with ⟨c,hc,hcb,he⟩ | ⟨-,he⟩
  · have hu : (⟨c.addr,b.size + c.size⟩ : Block).bytes = c.bytes ∪ b.bytes := by
      ext a
      simp only [Block.bytes,Block.stop,Set.mem_union,Set.mem_Ico] at *
      omega
    rw [he]
    simp only
    rw [hu,← Set.union_assoc,bytes_remove_union h.toOk hc]
  · rw [he]

theorem bytes_mergeAbove (h : F.Fresh b) :
    (F.mergeAbove b).1.bytes ∪ (F.mergeAbove b).2.bytes = F.bytes ∪ b.bytes := by
  rcases mergeAbove_cases F b with ⟨c,hc,hbc,he⟩ | ⟨-,he⟩
  · have hu : (⟨b.addr,b.size + c.size⟩ : Block).bytes = c.bytes ∪ b.bytes := by
      ext a
      simp only [Block.bytes,Block.stop,Set.mem_union,Set.mem_Ico] at *
      omega
    rw [he]
    simp only
    rw [hu,← Set.union_assoc,bytes_remove_union h.toOk hc]
  · rw [he]

end Merge

theorem insert_split {r : Block → Block → Prop} [DecidableRel r] (b : Block) (xs : List Block) :
    ∃ as bs, xs = as ++ bs ∧ xs.orderedInsert r b = as ++ b :: bs ∧
      (∀ c ∈ as, ¬ r b c) ∧ (∀ c ∈ bs.head?, r b c) := by
  refine ⟨xs.takeWhile (fun c => ¬ r b c),xs.dropWhile (fun c => ¬ r b c),?_,?_,?_,?_⟩
  · exact (List.takeWhile_append_dropWhile).symm
  · exact List.orderedInsert_eq_take_drop r b xs
  · intro c hc
    simpa using List.mem_takeWhile_imp hc
  · intro c hc
    have := List.head?_dropWhile_not (fun c => decide (¬ r b c)) xs
    rw [hc] at this
    simpa using this

theorem perm_insert (F : FreeList) (b : Block) (n : Nat) :
    (F.insert b n).byAddr.Perm (b :: F.byAddr) := List.perm_orderedInsert _ b _

theorem bytes_insert (F : FreeList) (b : Block) (n : Nat) :
    (F.insert b n).bytes = F.bytes ∪ b.bytes := by
  ext a
  simp only [bytes,Set.mem_ofPred_eq,Set.mem_union,(perm_insert F b n).mem_iff,List.mem_cons,
    exists_eq_or_imp]
  exact or_comm

theorem Ok.insert (h : F.Fresh b) (hlo : ∀ c ∈ F.byAddr, c.stop ≠ b.addr)
    (hhi : ∀ c ∈ F.byAddr, b.stop ≠ c.addr) (n : Nat) : (F.insert b n).Ok where
  gapped := by
    obtain ⟨as,bs,hx,hi,ha,hb⟩ := insert_split (r := fun b c => b.addr < c.addr) b F.byAddr
    have hg : Gapped (as ++ bs) := hx ▸ h.gapped
    obtain ⟨hga,hgb,hgab⟩ := List.pairwise_append.mp hg
    have hleft : ∀ c ∈ as, c.stop < b.addr := by
      intro c hc
      have hm : c ∈ F.byAddr := by simp [hx,hc]
      have h1 := ha c hc
      have h2 := h.clear c hm
      have h3 := hlo c hm
      have h4 := h.size_pos
      simp only [Block.stop] at *
      omega
    have hright : ∀ c ∈ bs, b.stop < c.addr := by
      intro c hc
      have hm : c ∈ F.byAddr := by simp [hx,hc]
      have h2 := h.clear c hm
      have h3 := hhi c hm
      have h5 := h.pos c hm
      have h1 : b.addr < c.addr := by
        cases bs with
        | nil => simp at hc
        | cons d bs =>
          have hd : b.addr < d.addr := hb d (by simp)
          rcases List.mem_cons.mp hc with rfl | hc
          · exact hd
          · have : d.stop < c.addr := (List.pairwise_cons.mp hgb).1 c hc
            simp only [Block.stop] at this
            omega
      simp only [Block.stop] at *
      omega
    change Gapped (F.byAddr.orderedInsert _ b)
    rw [hi]
    refine List.pairwise_append.mpr ⟨hga,List.pairwise_cons.mpr ⟨hright,hgb⟩,?_⟩
    intro c hc d hd
    rcases List.mem_cons.mp hd with rfl | hd
    · exact hleft c hc
    · exact hgab c hc d hd
  pos := by
    intro c hc
    rcases List.mem_cons.mp ((perm_insert F b n).mem_iff.mp hc) with rfl | hc
    · exact h.size_pos
    · exact h.pos c hc
  perm := ((List.perm_orderedInsert _ b F.bySize).trans (h.perm.cons b)).trans
    (perm_insert F b n).symm

theorem Fresh.free (h : F.Fresh b) : (F.free b).Ok := by
  obtain ⟨h1,hlo⟩ := h.mergeBelow
  obtain ⟨h2,hlo',hhi'⟩ := h1.mergeAbove hlo
  exact Ok.insert h2 hlo' hhi' _

theorem bytes_free (h : F.Fresh b) : (F.free b).bytes = F.bytes ∪ b.bytes := by
  unfold FreeList.free
  simp only
  rw [bytes_insert,bytes_mergeAbove h.mergeBelow.1,bytes_mergeBelow h]

def Sorted (F : FreeList) : Prop := F.bySize.Pairwise (fun b c => b.size ≤ c.size)

def below (F : FreeList) (b : Block) : Nat :=
  ((F.byAddr.find? (fun c => c.stop == b.addr)).map Block.size).getD 0

-- No third block has a size above the one the size list is searched with and below the one that
-- is stored.
def NoneBetween (F : FreeList) (b : Block) : Prop :=
  ∀ hi ∈ F.byAddr, hi.addr = b.stop → ∀ c ∈ F.byAddr, c ≠ hi → c.stop ≠ b.addr →
    b.size + F.below b < c.size → b.size + F.below b + hi.size ≤ c.size

theorem Sorted.remove (h : F.Sorted) (c : Block) : (F.remove c).Sorted :=
  h.sublist List.erase_sublist

theorem Sorted.insert (h : F.Sorted) {n : Nat} (hn : n ≤ b.size) :
    (F.insert b n).Sorted ↔ ∀ c ∈ F.bySize, n < c.size → b.size ≤ c.size := by
  obtain ⟨as,bs,hx,hi,ha,hb⟩ := insert_split (r := fun _ c => n < c.size) b F.bySize
  have hs : (as ++ bs).Pairwise (fun b c => b.size ≤ c.size) := hx ▸ h
  obtain ⟨hsa,hsb,hab⟩ := List.pairwise_append.mp hs
  have hright : ∀ c ∈ bs, n < c.size := by
    intro c hc
    cases bs with
    | nil => simp at hc
    | cons d bs =>
      have hd : n < d.size := hb d (by simp)
      rcases List.mem_cons.mp hc with rfl | hc
      · exact hd
      · exact lt_of_lt_of_le hd ((List.pairwise_cons.mp hsb).1 c hc)
  have hsorted : (F.insert b n).Sorted ↔
      (as ++ b :: bs).Pairwise (fun b c => b.size ≤ c.size) := by
    rw [← hi]
    rfl
  rw [hsorted]
  constructor
  · intro hp c hc hlt
    have hc' : c ∈ bs := by
      rw [hx] at hc
      exact (List.mem_append.mp hc).resolve_left (fun h1 => ha c h1 hlt)
    exact (List.pairwise_cons.mp (List.pairwise_append.mp hp).2.1).1 c hc'
  · intro hall
    refine List.pairwise_append.mpr ⟨hsa,List.pairwise_cons.mpr ⟨?_,hsb⟩,?_⟩
    · exact fun c hc => hall c (by simp [hx,hc]) (hright c hc)
    · intro c hc d hd
      rcases List.mem_cons.mp hd with rfl | hd
      · have := ha c hc
        omega
      · exact hab c hc d hd

theorem Sorted.mergeBelow (h : F.Sorted) (b : Block) : (F.mergeBelow b).1.Sorted := by
  rcases mergeBelow_cases F b with ⟨c,-,-,he⟩ | ⟨-,he⟩
  · rw [he]
    exact h.remove c
  · rw [he]
    exact h

theorem Sorted.mergeAbove (h : F.Sorted) (b : Block) : (F.mergeAbove b).1.Sorted := by
  rcases mergeAbove_cases F b with ⟨c,-,-,he⟩ | ⟨-,he⟩
  · rw [he]
    exact h.remove c
  · rw [he]
    exact h

-- Merging from below leaves the end of the block alone and drops only what ends at its address.
theorem mergeBelow_spec (h : F.Fresh b) :
    (F.mergeBelow b).2.stop = b.stop ∧ (F.mergeBelow b).2.size = b.size + F.below b ∧
      ∀ c, c ∈ (F.mergeBelow b).1.byAddr ↔ c ∈ F.byAddr ∧ c.stop ≠ b.addr := by
  unfold FreeList.mergeBelow below
  cases hf : F.byAddr.find? (fun c => c.stop == b.addr) with
  | some lo =>
    have hlo : lo ∈ F.byAddr := List.mem_of_find?_eq_some hf
    have hst : lo.stop = b.addr := by simpa using List.find?_some hf
    refine ⟨?_,rfl,fun c => ?_⟩
    · simp only [Block.stop] at *
      omega
    · rw [mem_remove h.toOk]
      constructor
      · rintro ⟨hne,hc⟩
        refine ⟨hc,fun he => ?_⟩
        have h1 := h.stop_lt_or hc hlo hne
        have h2 := h.pos c hc
        have h3 := h.pos lo hlo
        simp only [Block.stop] at *
        omega
      · rintro ⟨hc,hne⟩
        exact ⟨fun he => hne (he ▸ hst),hc⟩
  | none =>
    refine ⟨rfl,rfl,fun c => ⟨fun hc => ⟨hc,?_⟩,fun hc => hc.1⟩⟩
    simpa using List.find?_eq_none.mp hf c hc

theorem sorted_free (h : F.Fresh b) (hs : F.Sorted) : (F.free b).Sorted ↔ F.NoneBetween b := by
  obtain ⟨hstop,hsize,hmem⟩ := mergeBelow_spec h
  have hfr := h.mergeBelow.1
  have hsp := hs.mergeBelow b
  unfold FreeList.free NoneBetween
  simp only
  rcases mergeAbove_cases (F.mergeBelow b).1 (F.mergeBelow b).2 with ⟨hi,hhi,hbh,he⟩ | ⟨hno,he⟩
  · have hhi' := (hmem hi).mp hhi
    rw [he,(hsp.remove hi).insert (by simp),hsize]
    simp only [((hfr.toOk).remove hi).mem_bySize,mem_remove hfr.toOk,hmem]
    constructor
    · intro hall hi' hhF hadd c hc hne hcb hlt
      have heq : hi' = hi := by
        by_contra hne'
        have h1 := h.stop_lt_or hhF hhi'.1 hne'
        have h2 := h.pos hi' hhF
        have h3 := h.pos hi hhi'.1
        simp only [Block.stop] at *
        omega
      subst heq
      exact hall c ⟨hne,hc,hcb⟩ hlt
    · intro hall c hc hlt
      exact hall hi hhi'.1 (by rw [← hbh,hstop]) c hc.2.1 hc.1 hc.2.2 hlt
  · rw [he,hsp.insert le_rfl]
    refine ⟨fun _ hi hhF hadd => ?_,fun _ c _ hlt => hlt.le⟩
    have hhb : hi.stop ≠ b.addr := by
      have := h.pos hi hhF
      simp only [Block.stop] at *
      omega
    exact absurd (hstop.trans hadd.symm) (hno hi ((hmem hi).mpr ⟨hhF,hhb⟩))

end FreeList

namespace FreeList.Ok

variable {F G : FreeList} {b c : Block}

theorem byAddr_of_perm (h : F.Ok) (h' : G.Ok) (hp : F.byAddr.Perm G.byAddr) :
    F.byAddr = G.byAddr := by
  have hg : F.byAddr.Pairwise (fun b c => b.stop < c.addr) := h.gapped
  have hg' : G.byAddr.Pairwise (fun b c => b.stop < c.addr) := h'.gapped
  refine hp.eq_of_pairwise (fun b c hb hc h1 h2 => ?_) hg hg'
  have := h.pos b hb
  simp only [Block.stop] at *
  omega

-- A block of the list ends where the free memory around it does.
theorem before_not_mem (h : F.Ok) (hb : b ∈ F.byAddr) {x : Nat} (hx : x + 1 = b.addr) :
    x ∉ F.bytes := by
  rintro ⟨c,hc,h1,h2⟩
  have hp := h.pos b hb
  by_cases hne : b = c
  · subst hne
    omega
  · have := h.stop_lt_or hb hc hne
    simp only [Block.stop] at *
    omega

theorem stop_not_mem (h : F.Ok) (hb : b ∈ F.byAddr) : b.stop ∉ F.bytes := by
  rintro ⟨c,hc,h1,h2⟩
  have hp := h.pos b hb
  by_cases hne : b = c
  · subst hne
    omega
  · have := h.stop_lt_or hb hc hne
    simp only [Block.stop] at *
    omega

theorem mem_of_bytes (h : F.Ok) (h' : G.Ok) (he : F.bytes = G.bytes) (hb : b ∈ F.byAddr) :
    b ∈ G.byAddr := by
  have hp := h.pos b hb
  have hin : ∀ x ∈ b.bytes, x ∈ G.bytes := fun x hx => he ▸ ⟨b,hb,hx⟩
  have hout : ∀ {c : Block}, c ∈ G.byAddr → ∀ x ∈ c.bytes, x ∈ F.bytes :=
    fun {c} hc x hx => he.symm ▸ ⟨c,hc,hx⟩
  obtain ⟨c,hc,h1,h2⟩ := hin b.addr ⟨le_rfl,by simp only [Block.stop]; omega⟩
  have haddr : c.addr = b.addr := by
    by_contra hne
    refine h.before_not_mem (x := b.addr - 1) hb (by omega) (hout hc _ ⟨by omega,by omega⟩)
  have hstop : c.stop = b.stop := by
    rcases Nat.lt_trichotomy c.stop b.stop with hlt | heq | hlt
    · exact absurd (hin c.stop ⟨by omega,hlt⟩) (h'.stop_not_mem hc)
    · exact heq
    · exact absurd (hout hc b.stop ⟨by simp only [Block.stop]; omega,hlt⟩) (h.stop_not_mem hb)
  have hsize : c.size = b.size := by
    simp only [Block.stop] at hstop
    omega
  have hcb : c = b := by
    cases b
    cases c
    simp only [Block.mk.injEq]
    exact ⟨haddr,hsize⟩
  exact hcb ▸ hc

-- The free bytes determine the blocks: what is adjacent has been joined.
theorem byAddr_eq (h : F.Ok) (h' : G.Ok) (he : F.bytes = G.bytes) : F.byAddr = G.byAddr := by
  refine h.byAddr_of_perm h' ((List.perm_ext_iff_of_nodup h.nodup h'.nodup).mpr (fun b => ?_))
  exact ⟨h.mem_of_bytes h' he,h'.mem_of_bytes h he.symm⟩

end FreeList.Ok

end RoscoM68k
