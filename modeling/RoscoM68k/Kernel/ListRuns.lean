import Mathlib.Logic.Relation
import RoscoM68k.Base.Sequences
import RoscoM68k.Kernel.List

namespace RoscoM68k
open Function

-- Where the list headers and the nodes are: any number of them, none on top of another. Of a node
-- the list code uses the first two fields.
structure ListLayout where
  heads : Set Nat
  nodes : Set Nat
  head_pos : ∀ l ∈ heads, 0 < l
  head_top : ∀ l ∈ heads, l + 12 ≤ addressSpace
  heads_apart : ∀ l ∈ heads, ∀ k ∈ heads, l ≠ k → l + 12 ≤ k ∨ k + 12 ≤ l
  node_pos : ∀ n ∈ nodes, 0 < n
  node_top : ∀ n ∈ nodes, n + 8 ≤ addressSpace
  nodes_apart : ∀ n ∈ nodes, ∀ p ∈ nodes, n ≠ p → NodesApart n p
  off_heads : ∀ n ∈ nodes, ∀ l ∈ heads, n + 8 ≤ l ∨ l + 12 ≤ n

-- What the C functions of list.asm do and return; `d0` is what that register holds on entry.
def listCall (m : Mem) (d0 : Nat) : SeqOp Nat → Mem × Nat
  | .init l => (listInit m l,l)
  | .addHead l n => (listAddHead m d0 l n,n)
  | .addTail l n => (listAddTail m d0 l n,n)
  | .insertAfter t n => (listNodeInsertAfter m d0 t n,n)
  | .delete n => (listNodeDelete m n,n)
  | .deleteHead l => listDeleteHead m l
  | .deleteTail l => listDeleteTail m l

-- Follow a link up to the sentinel that has none: the nodes on the way, and the sentinel.
def walk (link : Nat → Nat) : Nat → Nat → Option (List Nat × Nat)
  | 0, _ => none
  | fuel + 1, x =>
    if link x = 0 then some ([],x)
    else (walk link fuel (link x)).map (fun r => (x :: r.1,r.2))

-- The list header at `l` holds `xs`, in this order from the head and in reverse from the tail.
structure WellFormed (m : Mem) (l : Nat) (xs : List Nat) : Prop where
  forward : walk (nodeNext m) addressSpace (nodeNext m l) = some (xs,l + 4)
  backward : walk (nodePrev m) addressSpace (nodePrev m (l + 4)) = some (xs.reverse,l)

theorem walk_linked {next prev : Nat → Nat} {xs : List Nat} {c t fuel : Nat}
    (h : Linked next prev (xs ++ [t])) (hc : (xs ++ [t]).head? = some c)
    (hs : ∀ x ∈ xs, next x ≠ 0) (ht : next t = 0) (hf : xs.length < fuel) :
    walk next fuel c = some (xs,t) := by
  induction xs generalizing c fuel with
  | nil =>
    obtain ⟨fuel,rfl⟩ : ∃ k, fuel = k + 1 := ⟨fuel - 1,by simp at hf; omega⟩
    obtain rfl : t = c := by simpa using hc
    rw [walk,if_pos ht]
  | cons x xs ih =>
    obtain ⟨fuel,rfl⟩ : ∃ k, fuel = k + 1 := ⟨fuel - 1,by omega⟩
    obtain rfl : x = c := by simpa using hc
    obtain ⟨y,ys,hy⟩ := List.exists_cons_of_ne_nil (l := xs ++ [t]) (by simp)
    have hn : next x = y := by
      rw [List.cons_append,hy] at h
      exact (List.isChain_cons_cons.mp h).1.1
    have hrest : Linked next prev (xs ++ [t]) := List.IsChain.tail h
    have hlen : xs.length < fuel := by simp only [List.length_cons] at hf; omega
    have hw := ih hrest (c := y) (by rw [hy]; rfl) (fun z hz => hs z (by simp [hz])) hlen
    rw [walk,if_neg (hs x (by simp)),hn,hw]
    rfl

theorem IsList.prev_pos {m : Mem} {l n : Nat} {xs : List Nat} (h : IsList m l xs) (hn : n ∈ xs) :
    nodePrev m n ≠ 0 := by
  obtain ⟨as,bs,rfl⟩ := List.append_of_mem hn
  rw [h.prev_eq]
  have hm : (l :: as).getLast (by simp) ∈ l :: (as ++ n :: bs) := by
    have : (l :: as).getLast (by simp) ∈ l :: as := List.getLast_mem _
    simp only [List.mem_append,List.mem_cons] at this ⊢
    tauto
  exact (h.toSpaced.next_bound hm).1.ne'

theorem IsList.wellFormed {m : Mem} {l : Nat} {xs : List Nat} (h : IsList m l xs) :
    WellFormed m l xs where
  forward := by
    have hl : Linked (nodeNext m) (nodePrev m) (xs ++ [l + 4]) := List.IsChain.tail h.linked
    refine walk_linked hl ?_ (fun x hx => h.next_pos hx) h.null h.toSpaced.length_lt
    rw [h.header_next,List.head?_eq_some_head]
  backward := by
    -- The same walk down the list that is linked the other way round.
    have hrev : Linked (nodePrev m) (nodeNext m) ((l + 4) :: xs.reverse ++ [l]) := by
      have hr : (l + 4) :: xs.reverse ++ [l] = (l :: xs ++ [l + 4]).reverse := by simp
      rw [hr]
      exact List.isChain_reverse.mpr (h.linked.imp (fun _ _ hxy => hxy.symm))
    have hl : Linked (nodePrev m) (nodeNext m) (xs.reverse ++ [l]) := List.IsChain.tail hrev
    refine walk_linked hl ?_ (fun x hx => h.prev_pos (List.mem_reverse.mp hx)) h.null ?_
    · have hcons : xs.reverse ++ [l] = (l :: xs).reverse := by simp
      rw [h.tail_prev,hcons,List.head?_reverse,List.getLast?_eq_some_getLast (by simp)]
    · rw [List.length_reverse]
      exact h.toSpaced.length_lt


-- The lists that the memory holds are the sequences of `A`.
structure Refines (W : ListLayout) (m : Mem) (A : Sequences Nat) : Prop extends A.Parted where
  head : ∀ l xs, A l = some xs → l ∈ W.heads
  node : ∀ l xs, A l = some xs → ∀ x ∈ xs, x ∈ W.nodes
  lists : ∀ l xs, A l = some xs → IsList m l xs

-- A node is added while it is in no list; targets are in some list.
def ValidOp (W : ListLayout) (A : Sequences Nat) : SeqOp Nat → Prop
  | .init l => l ∈ W.heads
  | .addHead l n => A l ≠ none ∧ n ∈ W.nodes ∧ ¬ A.Holds n
  | .addTail l n => A l ≠ none ∧ n ∈ W.nodes ∧ ¬ A.Holds n
  | .insertAfter t n => A.Holds t ∧ n ∈ W.nodes ∧ ¬ A.Holds n
  | .delete n => A.Holds n
  | .deleteHead l => A l ≠ none
  | .deleteTail l => A l ≠ none

namespace ListLayout

variable {W : ListLayout} {l : Nat} {xs : List Nat}

theorem spaced (W : ListLayout) (hl : l ∈ W.heads) (hx : ∀ x ∈ xs, x ∈ W.nodes)
    (hd : xs.Nodup) : Spaced l xs where
  pos := W.head_pos l hl
  top := W.head_top l hl
  node_pos := fun x h => W.node_pos x (hx x h)
  node_top := fun x h => W.node_top x (hx x h)
  off_header := fun x h => W.off_heads x (hx x h) l hl
  apart := hd.pairwise_of_forall_ne (fun a ha b hb hne => W.nodes_apart a (hx a ha) b (hx b hb) hne)

end ListLayout

namespace Refines

variable {W : ListLayout} {m m' : Mem} {A : Sequences Nat} {l n t : Nat} {xs ys zs : List Nat}

-- Another list's header and nodes lie outside of what an operation on this one touches.
theorem cells_off (h : Refines W m A) {k : Nat} (hl : l ∈ W.heads) (hz : ∀ z ∈ zs, z ∈ W.nodes)
    (hk : A k = some ys) (hne : k ≠ l) (hd : ∀ z ∈ zs, z ∉ ys) :
    cells k ys ⊆ (cells l zs)ᶜ := by
  intro x hx hx'
  have hkh := h.head k ys hk
  have hh := W.heads_apart k hkh l hl hne
  rcases hx with hx | ⟨y,hy,hx⟩ <;> rcases hx' with hx' | ⟨z,hzm,hx'⟩
  · omega
  · have := W.off_heads z (hz z hzm) k hkh
    omega
  · have := W.off_heads y (h.node k ys hk y hy) l hl
    omega
  · have hne' : y ≠ z := by
      rintro rfl
      exact hd y hzm hy
    have := W.nodes_apart y (h.node k ys hk y hy) z (hz z hzm) hne'
    unfold NodesApart at this
    omega

-- One list gets another content, the others stay where they are.
theorem relist (h : Refines W m A) (hl : l ∈ W.heads) (hi : IsList m' l zs)
    (hz : ∀ z ∈ zs, z ∈ W.nodes) (hnd : zs.Nodup)
    (hn : ∀ k ys, A k = some ys → k ≠ l → ∀ z ∈ zs, z ∉ ys)
    (ha : Mem.Agree (cells l zs)ᶜ m m') : Refines W m' (update A l (some zs)) := by
  have hcase : ∀ k ys, update A l (some zs) k = some ys →
      k = l ∧ ys = zs ∨ k ≠ l ∧ A k = some ys := by
    intro k ys hk
    by_cases hkl : k = l
    · subst hkl
      rw [update_self] at hk
      exact .inl ⟨rfl,(Option.some.inj hk).symm⟩
    · rw [update_of_ne hkl] at hk
      exact .inr ⟨hkl,hk⟩
  refine ⟨h.toParted.relist hnd hn,fun k ys hk => ?_,fun k ys hk => ?_,fun k ys hk => ?_⟩
  · rcases hcase k ys hk with ⟨rfl,-⟩ | ⟨-,hk⟩
    · exact hl
    · exact h.head k ys hk
  · rcases hcase k ys hk with ⟨-,rfl⟩ | ⟨-,hk⟩
    · exact hz
    · exact h.node k ys hk
  · rcases hcase k ys hk with ⟨rfl,rfl⟩ | ⟨hkl,hk⟩
    · exact hi
    · exact (h.lists k ys hk).agree (ha.mono (h.cells_off hl hz hk hkl (hn k ys hk hkl)))

end Refines

-- What a call leaves: the sequences of the operation, its result, and every list but its operand
-- byte for byte as it was.
structure Performed (W : ListLayout) (m : Mem) (A : Sequences Nat) (o : SeqOp Nat) (m' : Mem)
    (r : Nat) : Prop where
  refines : Refines W m' (A.apply o).1
  result : r = (A.apply o).2.getD 0
  others : ∀ k xs, A k = some xs → ¬ A.Operand k o →
    (A.apply o).1 k = some xs ∧ Mem.Agree (cells k xs) m m'

namespace Refines

variable {W : ListLayout} {m m' : Mem} {A : Sequences Nat} {o : SeqOp Nat} {l n t r : Nat}
  {xs zs : List Nat}

theorem performed (h : Refines W m A) (hl : l ∈ W.heads) (hi : IsList m' l zs)
    (hz : ∀ z ∈ zs, z ∈ W.nodes) (hnd : zs.Nodup)
    (hn : ∀ k ys, A k = some ys → k ≠ l → ∀ z ∈ zs, z ∉ ys)
    (ha : Mem.Agree (cells l zs)ᶜ m m') (ho : ∀ k, A.Operand k o ↔ k = l)
    (hA : (A.apply o).1 = update A l (some zs)) (hr : r = (A.apply o).2.getD 0) :
    Performed W m A o m' r := by
  refine ⟨hA ▸ h.relist hl hi hz hnd hn ha,hr,fun k ys hk hno => ?_⟩
  have hkl : k ≠ l := fun he => hno ((ho k).mpr he)
  rw [hA,update_of_ne hkl]
  exact ⟨hk,ha.mono (h.cells_off hl hz hk hkl (hn k ys hk hkl))⟩

-- The operand's new content, as far as it was in the list before.
theorem kept (h : Refines W m A) (hl : A l = some xs) (hs : zs ⊆ xs) :
    (∀ z ∈ zs, z ∈ W.nodes) ∧ ∀ k ys, A k = some ys → k ≠ l → ∀ z ∈ zs, z ∉ ys :=
  ⟨fun z hz => h.node l xs hl z (hs hz),
    fun k ys hk hne z hz => h.apart l k xs ys hl hk (Ne.symm hne) z (hs hz)⟩

theorem added (h : Refines W m A) (hl : A l = some xs) (hn : n ∈ W.nodes) (hno : ¬ A.Holds n)
    (hp : zs.Perm (n :: xs)) : (∀ z ∈ zs, z ∈ W.nodes) ∧ zs.Nodup ∧
      (∀ k ys, A k = some ys → k ≠ l → ∀ z ∈ zs, z ∉ ys) ∧ Spaced l zs := by
  have hsub : ∀ z ∈ zs, z = n ∨ z ∈ xs := fun z hz => List.mem_cons.mp (hp.mem_iff.mp hz)
  have hnodes : ∀ z ∈ zs, z ∈ W.nodes := by
    intro z hz
    rcases hsub z hz with rfl | hz
    · exact hn
    · exact h.node l xs hl z hz
  have hnd : zs.Nodup := by
    refine hp.nodup_iff.mpr (List.nodup_cons.mpr ⟨fun hm => hno ⟨l,xs,hl,hm⟩,h.nodup l xs hl⟩)
  refine ⟨hnodes,hnd,fun k ys hk hne z hz hy => ?_,W.spaced (h.head l xs hl) hnodes hnd⟩
  rcases hsub z hz with rfl | hz
  · exact hno ⟨k,ys,hk,hy⟩
  · exact h.apart l k xs ys hl hk (Ne.symm hne) z hz hy

theorem init (h : Refines W m A) (hl : l ∈ W.heads) :
    Performed W m A (.init l) (listInit m l) l := by
  have hs : Spaced l [] := W.spaced hl (by simp) .nil
  obtain ⟨hi,ha⟩ := list_init (m := m) hs
  exact h.performed hl hi (by simp) .nil (by simp) ha (fun _ => Iff.rfl) rfl rfl

theorem addHead (h : Refines W m A) (hl : A l = some xs) (hn : n ∈ W.nodes) (hno : ¬ A.Holds n)
    (d0 : Nat) : Performed W m A (.addHead l n) (listAddHead m d0 l n) n := by
  obtain ⟨hz,hnd,hd,hs⟩ := h.added hl hn hno (.refl _)
  obtain ⟨hi,ha⟩ := (h.lists l xs hl).add_head d0 hs
  refine h.performed (h.head l xs hl) hi hz hnd hd ha (fun _ => Iff.rfl) ?_ rfl
  simp [Sequences.apply,hl]

theorem addTail (h : Refines W m A) (hl : A l = some xs) (hn : n ∈ W.nodes) (hno : ¬ A.Holds n)
    (d0 : Nat) : Performed W m A (.addTail l n) (listAddTail m d0 l n) n := by
  obtain ⟨hz,hnd,hd,hs⟩ := h.added hl hn hno (List.perm_append_singleton n xs)
  obtain ⟨hi,ha⟩ := (h.lists l xs hl).add_tail d0 hs
  refine h.performed (h.head l xs hl) hi hz hnd hd ha (fun _ => Iff.rfl) ?_ rfl
  simp [Sequences.apply,hl]

theorem insertAfter (h : Refines W m A) (ht : A.Holds t) (hn : n ∈ W.nodes) (hno : ¬ A.Holds n)
    (d0 : Nat) : Performed W m A (.insertAfter t n) (listNodeInsertAfter m d0 t n) n := by
  obtain ⟨l,zs,hl,htz⟩ := ht
  obtain ⟨xs,ys,rfl⟩ := List.append_of_mem htz
  have htx : t ∉ xs := by
    have hnd := h.nodup l _ hl
    exact fun hx => (List.nodup_append.mp hnd).2.2 t hx t (by simp) rfl
  have hbehind := insertBehind_append (n := n) ys htx
  obtain ⟨hz,hnd,hd,hs⟩ := h.added hl hn hno (insertBehind_perm htz)
  rw [hbehind] at hz hnd hd hs
  have hlist : IsList m l ((xs ++ [t]) ++ ys) := by simpa using h.lists l _ hl
  have hs' : Spaced l ((xs ++ [t]) ++ n :: ys) := by simpa using hs
  obtain ⟨hi,ha⟩ := hlist.insert_after d0 hs'
  have hlast : (l :: (xs ++ [t])).getLast (by simp) = t := by simp
  rw [hlast] at hi ha
  have hxs : (xs ++ [t]) ++ n :: ys = xs ++ t :: n :: ys := by simp
  rw [hxs] at hi ha
  refine h.performed (h.head l _ hl) hi hz hnd hd ha
    (fun k => Sequences.operand_iff h.toParted hl htz) ?_ rfl
  rw [← hbehind]
  exact Sequences.map_eq_update h.toParted hl htz (fun _ hy => insertBehind_not_mem hy)

theorem delete (h : Refines W m A) (hn : A.Holds n) :
    Performed W m A (.delete n) (listNodeDelete m n) n := by
  obtain ⟨l,zs,hl,hnz⟩ := hn
  obtain ⟨xs,ys,hnx,rfl,herase⟩ := List.exists_erase_eq hnz
  obtain ⟨hi,ha⟩ := (h.lists l _ hl).delete
  have hsub : (xs ++ ys).Sublist (xs ++ n :: ys) := by simp
  obtain ⟨hz,hd⟩ := h.kept hl hsub.subset
  refine h.performed (h.head l _ hl) hi hz ((h.nodup l _ hl).sublist hsub) hd ha
    (fun k => Sequences.operand_iff h.toParted hl hnz) ?_ rfl
  rw [← herase]
  exact Sequences.map_eq_update h.toParted hl hnz (fun _ hy => List.erase_of_not_mem hy)

end Refines

theorem IsList.delete_tail_concat {m : Mem} {l n : Nat} {xs : List Nat}
    (h : IsList m l (xs ++ [n])) : listDeleteTail m l = (listNodeDelete m n,n) := by
  have hn : nodePrev m (l + 4) = n := by
    rw [h.tail_prev]
    simp
  simp [listDeleteTail,hn,h.prev_pos (n := n) (by simp)]

theorem IsList.delete_tail_nil {m : Mem} {l : Nat} (h : IsList m l []) :
    listDeleteTail m l = (m,0) := by
  have hn : nodePrev m (l + 4) = l := by
    rw [h.tail_prev]
    rfl
  have h0 : nodePrev m l = 0 := h.null
  simp [listDeleteTail,hn,h0]

namespace Refines

variable {W : ListLayout} {m : Mem} {A : Sequences Nat} {l : Nat} {xs : List Nat}

-- Nothing is taken from an empty list.
theorem empty (h : Refines W m A) (hl : A l = some []) {o : SeqOp Nat}
    (hA : A.apply o = (update A l (some []),none)) : Performed W m A o m 0 := by
  have hself : update A l (some []) = A := by rw [← hl,update_eq_self]
  rw [hself] at hA
  refine ⟨by rw [hA]; exact h,by rw [hA]; rfl,fun k ys hk _ => ⟨by rw [hA]; exact hk,.refl _ _⟩⟩

theorem deleteHead (h : Refines W m A) (hl : A l = some xs) :
    Performed W m A (.deleteHead l) (listDeleteHead m l).1 (listDeleteHead m l).2 ∧
      (xs = [] → listDeleteHead m l = (m,0)) := by
  have hlist := h.lists l xs hl
  cases xs with
  | nil =>
    rw [hlist.delete_head_nil]
    exact ⟨h.empty hl (by simp [Sequences.apply,hl]),fun _ => rfl⟩
  | cons n xs =>
    obtain ⟨hi,ha⟩ := IsList.delete (show IsList m l ([] ++ n :: xs) from hlist)
    have hsub : xs.Sublist (n :: xs) := by simp
    obtain ⟨hz,hd⟩ := h.kept hl hsub.subset
    rw [hlist.delete_head_cons]
    refine ⟨h.performed (h.head l _ hl) hi hz ((h.nodup l _ hl).sublist hsub) hd ha
      (fun _ => Iff.rfl) ?_ ?_,by simp⟩
    · simp [Sequences.apply,hl]
    · simp [Sequences.apply,hl]

theorem deleteTail (h : Refines W m A) (hl : A l = some xs) :
    Performed W m A (.deleteTail l) (listDeleteTail m l).1 (listDeleteTail m l).2 ∧
      (xs = [] → listDeleteTail m l = (m,0)) := by
  have hlist := h.lists l xs hl
  rcases xs.eq_nil_or_concat' with rfl | ⟨ys,n,rfl⟩
  · rw [hlist.delete_tail_nil]
    exact ⟨h.empty hl (by simp [Sequences.apply,hl]),fun _ => rfl⟩
  · obtain ⟨hi,ha⟩ := IsList.delete hlist
    rw [List.append_nil] at hi ha
    have hsub : ys.Sublist (ys ++ [n]) := by simp
    obtain ⟨hz,hd⟩ := h.kept hl hsub.subset
    rw [hlist.delete_tail_concat]
    refine ⟨h.performed (h.head l _ hl) hi hz ((h.nodup l _ hl).sublist hsub) hd ha
      (fun _ => Iff.rfl) ?_ ?_,by simp⟩
    · simp [Sequences.apply,hl]
    · simp [Sequences.apply,hl]

theorem call (h : Refines W m A) {o : SeqOp Nat} (hv : ValidOp W A o) (d0 : Nat) :
    Performed W m A o (listCall m d0 o).1 (listCall m d0 o).2 := by
  cases o with
  | init l => exact h.init hv
  | addHead l n =>
    obtain ⟨hl,hn,hno⟩ := hv
    obtain ⟨xs,hl⟩ := Option.ne_none_iff_exists'.mp hl
    exact h.addHead hl hn hno d0
  | addTail l n =>
    obtain ⟨hl,hn,hno⟩ := hv
    obtain ⟨xs,hl⟩ := Option.ne_none_iff_exists'.mp hl
    exact h.addTail hl hn hno d0
  | insertAfter t n => exact h.insertAfter hv.1 hv.2.1 hv.2.2 d0
  | delete n => exact h.delete hv
  | deleteHead l =>
    obtain ⟨xs,hl⟩ := Option.ne_none_iff_exists'.mp hv
    exact (h.deleteHead hl).1
  | deleteTail l =>
    obtain ⟨xs,hl⟩ := Option.ne_none_iff_exists'.mp hv
    exact (h.deleteTail hl).1

end Refines

-- One call in memory and in the sequences it stands for.
def ListStep (W : ListLayout) (s s' : Mem × Sequences Nat) : Prop :=
  ∃ o d0, ValidOp W s.2 o ∧ s' = ((listCall s.1 d0 o).1,(s.2.apply o).1)

-- No list has been set up at the start.
def ListReached (W : ListLayout) (m : Mem) : Mem × Sequences Nat → Prop :=
  Relation.ReflTransGen (ListStep W) (m,fun _ => none)

theorem ListReached.refines {W : ListLayout} {m : Mem} {s : Mem × Sequences Nat}
    (h : ListReached W m s) : Refines W s.1 s.2 := by
  induction h with
  | refl => exact ⟨⟨by simp,by simp⟩,by simp,by simp,by simp⟩
  | tail _ hstep ih =>
    obtain ⟨o,d0,hv,rfl⟩ := hstep
    exact (ih.call hv d0).refines

theorem list_run_refines {W : ListLayout} {m : Mem} {s : Mem × Sequences Nat}
    (h : ListReached W m s) :
    (∀ l xs, s.2 l = some xs → WellFormed s.1 l xs) ∧
    (∀ o d0, ValidOp W s.2 o → (listCall s.1 d0 o).2 = (s.2.apply o).2.getD 0 ∧
      ∀ k xs, s.2 k = some xs → ¬ s.2.Operand k o →
        (s.2.apply o).1 k = some xs ∧ Mem.Agree (cells k xs) s.1 (listCall s.1 d0 o).1) ∧
    ∀ l, s.2 l = some [] → listDeleteHead s.1 l = (s.1,0) ∧ listDeleteTail s.1 l = (s.1,0) := by
  have hr := h.refines
  refine ⟨fun l xs hl => (hr.lists l xs hl).wellFormed,fun o d0 hv => ?_,fun l hl => ?_⟩
  · have hp := hr.call hv d0
    exact ⟨hp.result,hp.others⟩
  · exact ⟨(hr.deleteHead hl).2 rfl,(hr.deleteTail hl).2 rfl⟩

-- Two headers and two nodes.
def ListLayout.pair : ListLayout where
  heads := {0x1000,0x1010}
  nodes := {0x2000,0x2010}
  head_pos := by simp
  head_top := by simp [addressSpace]
  heads_apart := by simp
  node_pos := by simp
  node_top := by simp [addressSpace]
  nodes_apart := by simp [NodesApart]
  off_heads := by simp

theorem list_run_refines_two : ∃ s, ListReached .pair (fun _ => 0) s ∧
    s.2 0x1000 = some [0x2000,0x2010] ∧
    (∀ l xs, s.2 l = some xs → WellFormed s.1 l xs) ∧
    (∀ o d0, ValidOp .pair s.2 o → (listCall s.1 d0 o).2 = (s.2.apply o).2.getD 0 ∧
      ∀ k xs, s.2 k = some xs → ¬ s.2.Operand k o →
        (s.2.apply o).1 k = some xs ∧ Mem.Agree (cells k xs) s.1 (listCall s.1 d0 o).1) ∧
    ∀ l, s.2 l = some [] → listDeleteHead s.1 l = (s.1,0) ∧ listDeleteTail s.1 l = (s.1,0) := by
  have hrun : ∃ s, ListReached .pair (fun _ => 0) s ∧
      s.2 = fun l => if l = 0x1000 then some [0x2000,0x2010] else none := by
    have hinit : ValidOp .pair (fun _ => none) (.init 0x1000) := by simp [ValidOp,ListLayout.pair]
    refine ⟨_,((Relation.ReflTransGen.single ⟨_,0,hinit,rfl⟩).tail
      ⟨.addTail 0x1000 0x2010,0,?tail,rfl⟩).tail ⟨.addHead 0x1000 0x2000,0,?head,rfl⟩,?lists⟩
    case tail => simp [ValidOp,ListLayout.pair,Sequences.apply,Sequences.Holds,update_apply]
    case head => simp [ValidOp,ListLayout.pair,Sequences.apply,Sequences.Holds,update_apply]
    case lists =>
      funext l
      simp only [Sequences.apply,update_apply]
      split <;> simp
  obtain ⟨s,hr,hs⟩ := hrun
  exact ⟨s,hr,by simp [hs],list_run_refines hr⟩

end RoscoM68k
