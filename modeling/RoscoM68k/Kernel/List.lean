import RoscoM68k.Base.Memory
import RoscoM68k.Base.Linked

namespace RoscoM68k
open Function

-- A loop that follows pointers and has not ended after this many nodes has visited one of the
-- 2^32 addresses twice.
def addressSpace : Nat := 4294967296

def wrap (x : Nat) : Nat := x % addressSpace

-- NODE_NEXT $00, NODE_PREV $04, NODE_SIZE $08; LIST_HEAD $00, LIST_TAIL $04, LIST_TPREV $08.
def nodeNext (m : Mem) (a : Nat) : Nat := m.readL a
def nodePrev (m : Mem) (a : Nat) : Nat := m.readL (a + 4)
def nodeSize (m : Mem) (a : Nat) : Nat := m.readL (a + 8)

-- With a NULL target the subject is linked to whatever d0 holds on entry.
def listNodeInsertAfter (m : Mem) (d0 a0 a1 : Nat) : Mem :=
  let d0' := if a0 = 0 then d0 else nodeNext m a0
  let m := if a0 = 0 then m else m.writeL a0 a1
  if a1 = 0 then m
  else
    let m := (m.writeL a1 d0').writeL (a1 + 4) a0
    if d0' = 0 then m else m.writeL (d0' + 4) a1

def listNodeDelete (m : Mem) (a0 : Nat) : Mem :=
  if a0 = 0 then m
  else
    let a1 := nodePrev m a0
    let a2 := nodeNext m a0
    let m := if a1 = 0 then m else m.writeL a1 a2
    if a2 = 0 then m else m.writeL (a2 + 4) a1

def listInit (m : Mem) (a0 : Nat) : Mem :=
  ((m.writeL a0 (a0 + 4)).writeL (a0 + 4) 0).writeL (a0 + 8) a0

def listAddHead (m : Mem) (d0 a0 a1 : Nat) : Mem := listNodeInsertAfter m d0 a0 a1

def listAddTail (m : Mem) (d0 a0 a1 : Nat) : Mem :=
  listNodeInsertAfter m d0 (nodePrev m (a0 + 4)) a1

def listDeleteHead (m : Mem) (a0 : Nat) : Mem × Nat :=
  let a0 := nodeNext m a0
  if nodeNext m a0 ≠ 0 then (listNodeDelete m a0,a0) else (m,0)

def listDeleteTail (m : Mem) (a0 : Nat) : Mem × Nat :=
  let a0 := nodePrev m (a0 + 4)
  if nodePrev m a0 ≠ 0 then (listNodeDelete m a0,a0) else (m,0)

-- The C loop `for (current = list.head; current->next; current = current->next)`.
def listFor {β : Type} (m : Mem) (l : Nat) (f : Nat → Option β) : Option (Option β) :=
  firstFrom (nodeNext m) (fun x => nodeNext m x == 0) f addressSpace (nodeNext m l)

def NodesApart (x y : Nat) : Prop := x + 8 ≤ y ∨ y + 8 ≤ x

instance : Std.Symm NodesApart := ⟨fun _ _ h => Or.symm h⟩

structure Spaced (l : Nat) (xs : List Nat) : Prop where
  pos : 0 < l
  top : l + 12 ≤ addressSpace
  node_pos : ∀ x ∈ xs, 0 < x
  node_top : ∀ x ∈ xs, x + 8 ≤ addressSpace
  off_header : ∀ x ∈ xs, x + 8 ≤ l ∨ l + 12 ≤ x
  apart : xs.Pairwise NodesApart

-- The header is two overlapping nodes: the head node at `l` and the tail node at `l + 4`.
structure IsList (m : Mem) (l : Nat) (xs : List Nat) : Prop extends Spaced l xs where
  linked : Linked (nodeNext m) (nodePrev m) (l :: xs ++ [l + 4])
  null : m.readL (l + 4) = 0

def cells (l : Nat) (xs : List Nat) : Set Nat :=
  {a | (l ≤ a ∧ a < l + 12) ∨ ∃ x ∈ xs, x ≤ a ∧ a < x + 8}

theorem cells_mono {l : Nat} {xs ys : List Nat} (h : xs ⊆ ys) : cells l xs ⊆ cells l ys := by
  rintro a (ha | ⟨x,hx,ha⟩)
  · exact .inl ha
  · exact .inr ⟨x,h hx,ha⟩

namespace Spaced

variable {l n x y : Nat} {xs ys : List Nat}

theorem apart_of_mem (h : Spaced l xs) (hx : x ∈ xs) (hy : y ∈ xs) (hne : x ≠ y) :
    x + 8 ≤ y ∨ y + 8 ≤ x :=
  h.apart.forall hx hy hne

theorem sublist (h : Spaced l xs) (hs : ys.Sublist xs) : Spaced l ys where
  pos := h.pos
  top := h.top
  node_pos := fun x hx => h.node_pos x (hs.subset hx)
  node_top := fun x hx => h.node_top x (hs.subset hx)
  off_header := fun x hx => h.off_header x (hs.subset hx)
  apart := h.apart.sublist hs

theorem perm (h : Spaced l xs) (hp : xs.Perm ys) : Spaced l ys where
  pos := h.pos
  top := h.top
  node_pos := fun x hx => h.node_pos x (hp.mem_iff.mpr hx)
  node_top := fun x hx => h.node_top x (hp.mem_iff.mpr hx)
  off_header := fun x hx => h.off_header x (hp.mem_iff.mpr hx)
  apart := (hp.pairwise_iff symm).mp h.apart

theorem cons (h : Spaced l xs) (h0 : 0 < n) (ht : n + 8 ≤ addressSpace)
    (hl : n + 8 ≤ l ∨ l + 12 ≤ n) (ha : ∀ x ∈ xs, n + 8 ≤ x ∨ x + 8 ≤ n) :
    Spaced l (n :: xs) where
  pos := h.pos
  top := h.top
  node_pos := by simpa using ⟨h0,h.node_pos⟩
  node_top := by simpa using ⟨ht,h.node_top⟩
  off_header := by simpa using ⟨hl,h.off_header⟩
  apart := List.pairwise_cons.mpr ⟨ha,h.apart⟩

theorem nodup_full (h : Spaced l xs) : (l :: xs ++ [l + 4]).Nodup := by
  rw [List.cons_append,List.nodup_cons,List.nodup_append]
  refine ⟨?_,h.apart.imp (fun hh => by unfold NodesApart at hh; omega),by simp,?_⟩
  · intro hm
    rcases List.mem_append.mp hm with hm | hm
    · have := h.off_header l hm
      omega
    · simp at hm
  · intro x hx y hy
    have := h.off_header x hx
    simp at hy
    omega

theorem length_lt (h : Spaced l xs) : xs.length < addressSpace := by
  have hnd : (l :: xs).Nodup := h.nodup_full.sublist (List.sublist_append_left _ _)
  have hsub : (l :: xs) ⊆ List.range addressSpace := by
    intro x hx
    rw [List.mem_range]
    rcases List.mem_cons.mp hx with rfl | hx
    · have := h.top
      omega
    · have := h.node_top x hx
      omega
  have := (List.subperm_of_subset hnd hsub).length_le
  rw [List.length_range,List.length_cons] at this
  omega

theorem next_bound (h : Spaced l xs) (hx : x ∈ l :: xs) : 0 < x ∧ x + 4 < addressSpace := by
  have := h.top
  rcases List.mem_cons.mp hx with rfl | hx
  · exact ⟨h.pos,by omega⟩
  · exact ⟨h.node_pos x hx,by have := h.node_top x hx; omega⟩

theorem prev_bound (h : Spaced l xs) (hx : x ∈ xs ++ [l + 4]) :
    0 < x ∧ x + 4 < addressSpace := by
  have := h.top
  rcases List.mem_append.mp hx with hx | hx
  · exact ⟨h.node_pos x hx,by have := h.node_top x hx; omega⟩
  · simp at hx
    exact ⟨by omega,by omega⟩

end Spaced

section Writes

variable {m : Mem} {l a v x y : Nat} {xs : List Nat}

theorem next_write_next (h : Spaced l xs) (ha : a ∈ l :: xs) (hx : x ∈ l :: xs)
    (hv : v < addressSpace) :
    nodeNext (m.writeL a v) x = update (nodeNext m) a v x := by
  by_cases he : x = a
  · subst he
    rw [update_self]
    exact m.readL_writeL_self_of_lt hv
  · rw [update_of_ne he]
    refine m.readL_writeL_apart v ?_
    rcases List.mem_cons.mp ha with h1 | h1 <;> rcases List.mem_cons.mp hx with h2 | h2
    · omega
    · have := h.off_header x h2
      omega
    · have := h.off_header a h1
      omega
    · have := h.apart_of_mem h1 h2 (Ne.symm he)
      omega

theorem prev_write_prev (h : Spaced l xs) (ha : a ∈ xs ++ [l + 4]) (hx : x ∈ xs ++ [l + 4])
    (hv : v < addressSpace) :
    nodePrev (m.writeL (a + 4) v) x = update (nodePrev m) a v x := by
  by_cases he : x = a
  · subst he
    rw [update_self]
    exact m.readL_writeL_self_of_lt hv
  · rw [update_of_ne he]
    refine m.readL_writeL_apart v ?_
    rcases List.mem_append.mp ha with h1 | h1 <;> rcases List.mem_append.mp hx with h2 | h2
    · have := h.apart_of_mem h1 h2 (Ne.symm he)
      omega
    · have := h.off_header a h1
      simp at h2
      omega
    · have := h.off_header x h2
      simp at h1
      omega
    · simp at h1 h2
      omega

theorem next_apart_prev (h : Spaced l xs) (hx : x ∈ l :: xs) (hy : y ∈ xs ++ [l + 4]) :
    x + 4 ≤ y + 4 ∨ y + 4 + 4 ≤ x := by
  rcases List.mem_cons.mp hx with h1 | h1 <;> rcases List.mem_append.mp hy with h2 | h2
  · have := h.off_header y h2
    omega
  · simp at h2
    omega
  · by_cases he : x = y
    · omega
    · have := h.apart_of_mem h1 h2 he
      omega
  · have := h.off_header x h1
    simp at h2
    omega

theorem next_write_prev (h : Spaced l xs) (ha : a ∈ xs ++ [l + 4]) (hx : x ∈ l :: xs) :
    nodeNext (m.writeL (a + 4) v) x = nodeNext m x :=
  m.readL_writeL_apart v (by have := next_apart_prev h hx ha; omega)

theorem prev_write_next (h : Spaced l xs) (ha : a ∈ l :: xs) (hx : x ∈ xs ++ [l + 4]) :
    nodePrev (m.writeL a v) x = nodePrev m x :=
  m.readL_writeL_apart v (by have := next_apart_prev h ha hx; omega)

theorem null_write_next (h : Spaced l xs) (ha : a ∈ l :: xs) :
    (m.writeL a v).readL (l + 4) = m.readL (l + 4) := by
  refine m.readL_writeL_apart v ?_
  rcases List.mem_cons.mp ha with rfl | ha
  · omega
  · have := h.off_header a ha
    omega

theorem null_write_prev (h : Spaced l xs) (ha : a ∈ xs ++ [l + 4]) :
    (m.writeL (a + 4) v).readL (l + 4) = m.readL (l + 4) := by
  refine m.readL_writeL_apart v ?_
  rcases List.mem_append.mp ha with ha | ha
  · have := h.off_header a ha
    omega
  · simp at ha
    omega

theorem agree_write_next (ha : a ∈ l :: xs) :
    Mem.Agree (cells l xs)ᶜ m (m.writeL a v) := by
  refine Mem.agree_writeL m v (fun x hx => ?_)
  by_contra hc
  refine hx ?_
  rcases List.mem_cons.mp ha with rfl | ha
  · exact .inl ⟨by omega,by omega⟩
  · exact .inr ⟨a,ha,by omega,by omega⟩

theorem agree_write_prev (ha : a ∈ xs ++ [l + 4]) :
    Mem.Agree (cells l xs)ᶜ m (m.writeL (a + 4) v) := by
  refine Mem.agree_writeL m v (fun x hx => ?_)
  by_contra hc
  refine hx ?_
  rcases List.mem_append.mp ha with ha | ha
  · exact .inr ⟨a,ha,by omega,by omega⟩
  · simp at ha
    exact .inl ⟨by omega,by omega⟩

end Writes

theorem chain_split (l : Nat) (xs ys : List Nat) : ∃ pre p post q,
    l :: xs = pre ++ [p] ∧ ys ++ [l + 4] = q :: post ∧ (l :: xs).getLast (by simp) = p := by
  refine ⟨(l :: xs).dropLast,(l :: xs).getLast (by simp),(ys ++ [l + 4]).tail,
    (ys ++ [l + 4]).head (by simp),?_,?_,rfl⟩
  · exact (List.dropLast_append_getLast (by simp)).symm
  · exact (List.cons_head_tail (by simp)).symm

namespace IsList

variable {m : Mem} {l n : Nat} {xs ys : List Nat}

theorem header_next (h : IsList m l xs) : nodeNext m l = (xs ++ [l + 4]).head (by simp) := by
  obtain ⟨y,zs,hy⟩ := List.exists_cons_of_ne_nil (l := xs ++ [l + 4]) (by simp)
  have hl : Linked (nodeNext m) (nodePrev m) ([] ++ l :: y :: zs) := by
    rw [List.nil_append,← hy]
    exact h.linked
  simp only [hy,List.head_cons]
  exact hl.neighbours.1

theorem agree (h : IsList m l xs) {m' : Mem} (ha : Mem.Agree (cells l xs) m m') :
    IsList m' l xs where
  toSpaced := h.toSpaced
  linked := by
    refine h.linked.congr (fun x hx => ?_) (fun x hx => ?_)
    · rw [List.dropLast_concat] at hx
      refine ha.readL (fun a h1 => ?_)
      rcases List.mem_cons.mp hx with rfl | hx
      · exact .inl ⟨h1.1,by have := h1.2; omega⟩
      · exact .inr ⟨x,hx,h1.1,by have := h1.2; omega⟩
    · have hx : x ∈ xs ++ [l + 4] := hx
      refine ha.readL (fun a h1 => ?_)
      have := h1.1
      have := h1.2
      rcases List.mem_append.mp hx with hx | hx
      · exact .inr ⟨x,hx,by omega,by omega⟩
      · simp at hx
        exact .inl ⟨by omega,by omega⟩
  null := by
    rw [ha.readL (fun a h1 => .inl ⟨by have := h1.1; omega,by have := h1.2; omega⟩)]
    exact h.null

end IsList

-- The four stores of `list_node_insert_after` and the two of `list_node_delete` between a node
-- `p` and its right neighbour `q`.
section Splice

variable {m : Mem} {l n p q d0 : Nat} {xs pre post : List Nat}

theorem insert_after_eq (hp : p ≠ 0) (hn : n ≠ 0) (hq : q ≠ 0) (hpq : nodeNext m p = q) :
    listNodeInsertAfter m d0 p n =
      (((m.writeL p n).writeL n q).writeL (n + 4) p).writeL (q + 4) n := by
  simp [listNodeInsertAfter,hp,hn,hpq,hq]

theorem delete_eq (hp : p ≠ 0) (hn : n ≠ 0) (hq : q ≠ 0) (hnq : nodeNext m n = q)
    (hnp : nodePrev m n = p) :
    listNodeDelete m n = (m.writeL p q).writeL (q + 4) p := by
  simp [listNodeDelete,hp,hn,hq,hnq,hnp]

end Splice

namespace IsList

variable {m : Mem} {l n : Nat} {xs ys : List Nat}

theorem insert_after (d0 : Nat) (h : IsList m l (xs ++ ys)) (hs : Spaced l (xs ++ n :: ys)) :
    IsList (listNodeInsertAfter m d0 ((l :: xs).getLast (by simp)) n) l (xs ++ n :: ys) ∧
      Mem.Agree (cells l (xs ++ n :: ys))ᶜ m
        (listNodeInsertAfter m d0 ((l :: xs).getLast (by simp)) n) := by
  obtain ⟨pre,p,post,q,hpre,hpost,hlast⟩ := chain_split l xs ys
  have hold : l :: (xs ++ ys) ++ [l + 4] = pre ++ p :: q :: post := by
    rw [← List.cons_append,List.append_assoc,hpost,hpre]
    simp
  have hnew : l :: (xs ++ n :: ys) ++ [l + 4] = pre ++ p :: n :: q :: post := by
    have : l :: (xs ++ n :: ys) ++ [l + 4] = (l :: xs) ++ n :: (ys ++ [l + 4]) := by simp
    rw [this,hpre,hpost]
    simp
  have hlinked := h.linked
  rw [hold] at hlinked
  have hnd := hs.nodup_full
  rw [hnew] at hnd
  have hp : p ∈ l :: (xs ++ n :: ys) := by
    have : p ∈ l :: xs := by simp [hpre]
    simp only [List.mem_append,List.mem_cons] at this ⊢
    tauto
  have hq : q ∈ (xs ++ n :: ys) ++ [l + 4] := by
    have : q ∈ ys ++ [l + 4] := by simp [hpost]
    simp only [List.mem_append,List.mem_cons] at this ⊢
    tauto
  have hn : n ∈ l :: (xs ++ n :: ys) := by simp
  have hn' : n ∈ (xs ++ n :: ys) ++ [l + 4] := by simp
  have hp0 := hs.next_bound hp
  have hq0 := hs.prev_bound hq
  have hn0 := hs.next_bound hn
  rw [hlast,insert_after_eq (by omega) (by omega) (by omega) hlinked.neighbours.1]
  refine ⟨⟨hs,?_,?_⟩,?_⟩
  · rw [hnew]
    refine (Linked.insert hnd hlinked).congr (fun x hx => ?_) (fun x hx => ?_)
    · have hx : x ∈ l :: (xs ++ n :: ys) := by
        rw [← hnew,List.dropLast_concat] at hx
        exact hx
      rw [next_write_prev hs hq hx,next_write_prev hs hn' hx,
        next_write_next hs hn hx (by omega)]
      simp only [update_apply,next_write_next hs hp hx (show n < addressSpace by omega)]
    · have hx : x ∈ (xs ++ n :: ys) ++ [l + 4] := by
        rw [← hnew] at hx
        exact hx
      rw [prev_write_prev hs hq hx (by omega)]
      simp only [update_apply,prev_write_prev hs hn' hx (show p < addressSpace by omega),
        prev_write_next hs hn hx,prev_write_next hs hp hx]
  · rw [null_write_prev hs hq,null_write_prev hs hn',null_write_next hs hn,
      null_write_next hs hp]
    exact h.null
  · exact (((agree_write_next hp).trans (agree_write_next hn)).trans
      (agree_write_prev hn')).trans (agree_write_prev hq)

theorem delete (h : IsList m l (xs ++ n :: ys)) :
    IsList (listNodeDelete m n) l (xs ++ ys) ∧
      Mem.Agree (cells l (xs ++ ys))ᶜ m (listNodeDelete m n) := by
  obtain ⟨pre,p,post,q,hpre,hpost,-⟩ := chain_split l xs ys
  have hold : l :: (xs ++ n :: ys) ++ [l + 4] = pre ++ p :: n :: q :: post := by
    have : l :: (xs ++ n :: ys) ++ [l + 4] = (l :: xs) ++ n :: (ys ++ [l + 4]) := by simp
    rw [this,hpre,hpost]
    simp
  have hnew : l :: (xs ++ ys) ++ [l + 4] = pre ++ p :: q :: post := by
    rw [← List.cons_append,List.append_assoc,hpost,hpre]
    simp
  have hlinked := h.linked
  rw [hold] at hlinked
  have hnd := h.toSpaced.nodup_full
  rw [hold] at hnd
  have hs : Spaced l (xs ++ ys) := h.toSpaced.sublist (by simp)
  have hp : p ∈ l :: (xs ++ ys) := by
    have : p ∈ l :: xs := by simp [hpre]
    simp only [List.mem_append,List.mem_cons] at this ⊢
    tauto
  have hq : q ∈ (xs ++ ys) ++ [l + 4] := by
    have : q ∈ ys ++ [l + 4] := by simp [hpost]
    simp only [List.mem_append,List.mem_cons] at this ⊢
    tauto
  have hp0 := hs.next_bound hp
  have hq0 := hs.prev_bound hq
  have hn0 := h.toSpaced.next_bound (x := n) (by simp)
  have hnp : nodePrev m n = p := hlinked.neighbours.2
  have hnq : nodeNext m n = q := by
    have hl : Linked (nodeNext m) (nodePrev m) ((pre ++ [p]) ++ n :: q :: post) := by
      simpa using hlinked
    exact hl.neighbours.1
  rw [delete_eq (by omega) (by omega) (by omega) hnq hnp]
  refine ⟨⟨hs,?_,?_⟩,?_⟩
  · rw [hnew]
    refine (Linked.delete hnd hlinked).congr (fun x hx => ?_) (fun x hx => ?_)
    · have hx : x ∈ l :: (xs ++ ys) := by
        rw [← hnew,List.dropLast_concat] at hx
        exact hx
      rw [next_write_prev hs hq hx,next_write_next hs hp hx (by omega)]
    · have hx : x ∈ (xs ++ ys) ++ [l + 4] := by
        rw [← hnew] at hx
        exact hx
      rw [prev_write_prev hs hq hx (by omega)]
      simp only [update_apply,prev_write_next hs hp hx]
  · rw [null_write_prev hs hq,null_write_next hs hp]
    exact h.null
  · exact (agree_write_next hp).trans (agree_write_prev hq)

theorem prev_eq {n : Nat} (h : IsList m l (xs ++ n :: ys)) :
    nodePrev m n = (l :: xs).getLast (by simp) := by
  obtain ⟨pre,p,post,q,hpre,hpost,hlast⟩ := chain_split l xs ys
  have hold : l :: (xs ++ n :: ys) ++ [l + 4] = pre ++ p :: n :: q :: post := by
    have : l :: (xs ++ n :: ys) ++ [l + 4] = (l :: xs) ++ n :: (ys ++ [l + 4]) := by simp
    rw [this,hpre,hpost]
    simp
  have hlinked := h.linked
  rw [hold] at hlinked
  rw [hlast]
  exact hlinked.neighbours.2

theorem tail_prev (h : IsList m l xs) : nodePrev m (l + 4) = (l :: xs).getLast (by simp) := by
  obtain ⟨pre,p,post,q,hpre,hpost,hlast⟩ := chain_split l xs []
  obtain ⟨rfl,rfl⟩ : l + 4 = q ∧ [] = post := by simpa using hpost
  have hlinked := h.linked
  have hold : l :: xs ++ [l + 4] = pre ++ p :: (l + 4) :: [] := by
    rw [hpre]
    simp
  rw [hold] at hlinked
  rw [hlast]
  exact hlinked.neighbours.2

theorem next_eq (h : IsList m l (xs ++ n :: ys)) :
    nodeNext m n = (ys ++ [l + 4]).head (by simp) := by
  obtain ⟨y,zs,hy⟩ := List.exists_cons_of_ne_nil (l := ys ++ [l + 4]) (by simp)
  have hl : Linked (nodeNext m) (nodePrev m) ((l :: xs) ++ n :: y :: zs) := by
    rw [← hy]
    simpa using h.linked
  simp only [hy,List.head_cons]
  exact hl.neighbours.1

theorem unique (h : IsList m l xs) (h' : IsList m l ys) : xs = ys := by
  have hnull : nodeNext m (l + 4) = 0 := h.null
  have hoff : ∀ {zs : List Nat}, IsList m l zs → nodeNext m (l + 4) ∉ zs := by
    intro zs hz hm
    have := hz.node_pos _ hm
    omega
  exact h.linked.unique (by omega) (hoff h) (hoff h') h'.linked

theorem next_pos (h : IsList m l xs) (hn : n ∈ xs) : nodeNext m n ≠ 0 := by
  obtain ⟨as,bs,rfl⟩ := List.append_of_mem hn
  rw [h.next_eq]
  have hm : (bs ++ [l + 4]).head (by simp) ∈ (as ++ n :: bs) ++ [l + 4] := by
    have : (bs ++ [l + 4]).head (by simp) ∈ bs ++ [l + 4] := List.head_mem _
    simp only [List.mem_append,List.mem_cons] at this ⊢
    tauto
  have := h.toSpaced.prev_bound hm
  omega

theorem listFor_eq {β : Type} (h : IsList m l xs) (f : Nat → Option β) :
    listFor m l f = some (xs.findSome? f) := by
  have hl : Linked (nodeNext m) (nodePrev m) (xs ++ [l + 4]) := List.IsChain.tail h.linked
  refine firstFrom_linked hl ?_ (fun x hx => ?_) ?_ h.toSpaced.length_lt
  · rw [h.header_next,List.head?_eq_some_head]
  · simpa using h.next_pos hx
  · simpa [nodeNext] using h.null

theorem add_head (d0 : Nat) (h : IsList m l xs) (hs : Spaced l (n :: xs)) :
    IsList (listAddHead m d0 l n) l (n :: xs) ∧
      Mem.Agree (cells l (n :: xs))ᶜ m (listAddHead m d0 l n) :=
  insert_after d0 (show IsList m l ([] ++ xs) from h) hs

theorem add_tail (d0 : Nat) (h : IsList m l xs) (hs : Spaced l (xs ++ [n])) :
    IsList (listAddTail m d0 l n) l (xs ++ [n]) ∧
      Mem.Agree (cells l (xs ++ [n]))ᶜ m (listAddTail m d0 l n) := by
  rw [listAddTail,h.tail_prev]
  have h' : IsList m l (xs ++ []) := by simpa using h
  exact h'.insert_after d0 hs

theorem delete_head_cons (h : IsList m l (n :: xs)) :
    listDeleteHead m l = (listNodeDelete m n,n) := by
  have hn : nodeNext m l = n := by rw [h.header_next]; rfl
  simp [listDeleteHead,hn,h.next_pos (n := n) (by simp)]

theorem delete_head_nil (h : IsList m l []) : listDeleteHead m l = (m,0) := by
  have hn : nodeNext m l = l + 4 := by rw [h.header_next]; rfl
  have h0 : nodeNext m (l + 4) = 0 := h.null
  simp [listDeleteHead,hn,h0]

end IsList

theorem list_init {m : Mem} {l : Nat} (hs : Spaced l []) :
    IsList (listInit m l) l [] ∧ Mem.Agree (cells l [])ᶜ m (listInit m l) := by
  have h0 := hs.pos
  have ht := hs.top
  have hnull : (listInit m l).readL (l + 4) = 0 := by
    rw [listInit,Mem.readL_writeL_apart _ _ (by omega)]
    exact Mem.readL_writeL_self_of_lt _ (by omega)
  have hnext : nodeNext (listInit m l) l = l + 4 := by
    rw [nodeNext,listInit,Mem.readL_writeL_apart _ _ (by omega),
      Mem.readL_writeL_apart _ _ (by omega)]
    exact Mem.readL_writeL_self_of_lt _ (by unfold addressSpace at ht; omega)
  have hprev : nodePrev (listInit m l) (l + 4) = l := by
    rw [nodePrev,listInit]
    exact Mem.readL_writeL_self_of_lt _ (by unfold addressSpace at ht; omega)
  refine ⟨⟨hs,?_,hnull⟩,?_⟩
  · exact List.isChain_cons_cons.mpr ⟨⟨hnext,hprev⟩,.singleton _⟩
  · have hc : ∀ k, k ≤ 8 → ∀ x ∈ (cells l [])ᶜ, x < l + k ∨ l + k + 4 ≤ x := by
      intro k hk x hx
      by_contra hc
      exact hx (.inl ⟨by omega,by omega⟩)
    exact ((Mem.agree_writeL _ _ (hc 0 (by omega))).trans
      (Mem.agree_writeL _ _ (hc 4 (by omega)))).trans (Mem.agree_writeL _ _ (hc 8 (by omega)))

end RoscoM68k
