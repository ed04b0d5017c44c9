import RoscoM68k.Kernel.List

namespace RoscoM68k
open Function

-- The loop of list_node_add: the last node, with the NULL that d0 then holds.
def findEnd (m : Mem) : Nat → Nat → Option (Nat × Nat)
  | 0, _ => none
  | fuel + 1, a0 =>
    let d0 := nodeNext m a0
    if d0 = 0 then some (d0,a0) else findEnd m fuel d0

-- A NULL head goes straight on to list_node_insert_after, with the d0 of the caller.
def listNodeAdd (m : Mem) (d0 a0 a1 : Nat) : Option (Mem × Nat) := do
  let (d0,a0) ← if a0 = 0 then some (d0,a0) else findEnd m addressSpace a0
  some (listNodeInsertAfter m d0 a0 a1,a1)

-- The nodes of a chain without a header, the pointer to it and the pointer to its last node.
structure NodeChain (m : Mem) (xs : List Nat) : Prop where
  pos : ∀ x ∈ xs, 0 < x
  top : ∀ x ∈ xs, x + 8 ≤ addressSpace
  apart : xs.Pairwise NodesApart
  linked : Linked (nodeNext m) (nodePrev m) xs
  first : ∀ x ∈ xs.head?, nodePrev m x = 0
  last : ∀ x ∈ xs.getLast?, nodeNext m x = 0

def headOf (xs : List Nat) : Nat := xs.head?.getD 0

def lastOf (xs : List Nat) : Nat := xs.getLast?.getD 0

def chainCells (xs : List Nat) : Set Nat := {a | ∃ x ∈ xs, x ≤ a ∧ a < x + 8}

structure FreshNode (xs : List Nat) (n : Nat) : Prop where
  pos : 0 < n
  top : n + 8 ≤ addressSpace
  apart : ∀ x ∈ xs, NodesApart x n

-- What an append does to the memory.
structure Appended (m m' : Mem) (xs : List Nat) (n : Nat) : Prop where
  next : nodeNext m' n = 0
  prev : nodePrev m' n = lastOf xs
  last : ∀ x ∈ xs.getLast?, nodeNext m' x = n
  other_next : ∀ x ∈ xs.dropLast, nodeNext m' x = nodeNext m x
  other_prev : ∀ x ∈ xs, nodePrev m' x = nodePrev m x
  chain : NodeChain m' (xs ++ [n])
  outside : Mem.Agree (chainCells (xs ++ [n]))ᶜ m m'

section Walk

variable {m : Mem} {xs : List Nat} {n : Nat}

theorem NodeChain.length_lt (h : NodeChain m xs) : xs.length < addressSpace := by
  have hnd : (0 :: xs).Nodup := by
    refine List.nodup_cons.mpr ⟨fun h0 => absurd (h.pos 0 h0) (by omega),?_⟩
    exact h.apart.imp (fun hh => by unfold NodesApart at hh; omega)
  have hsub : (0 :: xs) ⊆ List.range addressSpace := by
    intro x hx
    rw [List.mem_range]
    rcases List.mem_cons.mp hx with rfl | hx
    · decide
    · have := h.top x hx
      omega
  have := (List.subperm_of_subset hnd hsub).length_le
  rw [List.length_range,List.length_cons] at this
  omega

-- By induction on the nodes before the last.
theorem findEnd_linked {x fuel : Nat} (h : Linked (nodeNext m) (nodePrev m) (xs ++ [x]))
    (hpos : ∀ y ∈ xs ++ [x], 0 < y) (hx : nodeNext m x = 0) (hf : xs.length < fuel) :
    findEnd m fuel (headOf (xs ++ [x])) = some (0,x) := by
  induction xs generalizing fuel with
  | nil =>
    obtain ⟨fuel,rfl⟩ : ∃ k, fuel = k + 1 := ⟨fuel - 1,by simp at hf; omega⟩
    rw [findEnd]
    exact (if_pos hx).trans (by rw [show nodeNext m (headOf ([] ++ [x])) = 0 from hx]; rfl)
  | cons y ys ih =>
    obtain ⟨fuel,rfl⟩ : ∃ k, fuel = k + 1 := ⟨fuel - 1,by omega⟩
    obtain ⟨z,zs,hz⟩ := List.exists_cons_of_ne_nil (l := ys ++ [x]) (by simp)
    have hn : nodeNext m y = z := by
      rw [List.cons_append,hz] at h
      exact (List.isChain_cons_cons.mp h).1.1
    have hz0 : 0 < z := hpos z (by rw [List.cons_append,hz]; simp)
    have hrest : Linked (nodeNext m) (nodePrev m) (ys ++ [x]) := List.IsChain.tail h
    have hlen : ys.length < fuel := by simp only [List.length_cons] at hf; omega
    have hih := ih hrest (fun w hw => hpos w (List.mem_cons_of_mem _ hw)) hlen
    have hhead : headOf (ys ++ [x]) = z := by rw [hz]; rfl
    rw [hhead] at hih
    rw [findEnd]
    change (if nodeNext m y = 0 then _ else findEnd m fuel (nodeNext m y)) = _
    rw [hn,if_neg (by omega),hih]

end Walk

section Append

variable {m : Mem} {xs : List Nat} {n : Nat} {d0 : BitVec 32}

theorem listNodeAdd_nil (m : Mem) (d0 n : Nat) :
    listNodeAdd m d0 (headOf []) n = some (listNodeInsertAfter m d0 0 n,n) := rfl

-- The two stores to the subject and the one to its new neighbour.
theorem insertAfter_last {x : Nat} (hx : 0 < x) (hn : 0 < n) (hnext : nodeNext m x = 0) :
    listNodeInsertAfter m 0 x n = ((m.writeL x n).writeL n 0).writeL (n + 4) x := by
  rw [listNodeInsertAfter]
  simp only [if_neg hx.ne',if_neg hn.ne',hnext,if_true]

theorem insertAfter_null (hn : 0 < n) {d : Nat} : listNodeInsertAfter m d 0 n =
    if d = 0 then (m.writeL n d).writeL (n + 4) 0
    else ((m.writeL n d).writeL (n + 4) 0).writeL (d + 4) n := by
  rw [listNodeInsertAfter]
  simp only [if_true,if_neg hn.ne']

theorem listNodeAdd_concat {x : Nat} (h : NodeChain m (xs ++ [x])) (d0 n : Nat) :
    listNodeAdd m d0 (headOf (xs ++ [x])) n = some (listNodeInsertAfter m 0 x n,n) := by
  have hlen := h.length_lt
  rw [List.length_append] at hlen
  have hend := findEnd_linked h.linked h.pos (h.last x (by simp))
    (show xs.length < addressSpace by omega)
  have hne : headOf (xs ++ [x]) ≠ 0 := by
    have hm : headOf (xs ++ [x]) ∈ xs ++ [x] := by
      cases xs with
      | nil => exact List.mem_singleton_self x
      | cons y ys => exact List.mem_cons_self
    exact (h.pos _ hm).ne'
  rw [listNodeAdd,if_neg hne,hend]
  rfl

theorem FreshNode.ne (h : FreshNode xs n) {x : Nat} (hx : x ∈ xs) : x ≠ n := by
  have := h.apart x hx
  unfold NodesApart at this
  omega

-- The link from the old last node to the new one.
theorem NodeChain.extend {m' : Mem} {x : Nat} (h : NodeChain m (xs ++ [x]))
    (hf : FreshNode (xs ++ [x]) n) (hnext : nodeNext m' n = 0) (hprev : nodePrev m' n = x)
    (hlast : nodeNext m' x = n) (hother : ∀ y ∈ xs, nodeNext m' y = nodeNext m y)
    (hback : ∀ y ∈ xs ++ [x], nodePrev m' y = nodePrev m y) : NodeChain m' (xs ++ [x] ++ [n]) where
  pos := by
    intro y hy
    rcases List.mem_append.mp hy with hy | hy
    · exact h.pos y hy
    · exact List.mem_singleton.mp hy ▸ hf.pos
  top := by
    intro y hy
    rcases List.mem_append.mp hy with hy | hy
    · exact h.top y hy
    · exact List.mem_singleton.mp hy ▸ hf.top
  apart := by
    refine List.pairwise_append.mpr ⟨h.apart,List.pairwise_singleton _ _,fun y hy z hz => ?_⟩
    exact List.mem_singleton.mp hz ▸ hf.apart y hy
  linked := by
    have hold : Linked (nodeNext m') (nodePrev m') (xs ++ [x]) := by
      refine h.linked.congr (fun y hy => ?_) (fun y hy => hback y (List.mem_of_mem_tail hy))
      rw [List.dropLast_concat] at hy
      exact hother y hy
    have hnew : Linked (nodeNext m') (nodePrev m') (x :: [n]) :=
      List.isChain_cons_cons.mpr ⟨⟨hlast,hprev⟩,.singleton _⟩
    rw [List.append_assoc]
    exact Linked.split.mpr ⟨hold,hnew⟩
  first := by
    intro y hy
    have hy' : y ∈ (xs ++ [x]).head? := by
      cases xs with
      | nil => exact hy
      | cons z zs => exact hy
    rw [hback y (List.mem_of_mem_head? hy')]
    exact h.first y hy'
  last := by
    intro y hy
    rw [List.getLast?_concat] at hy
    cases hy
    exact hnext

theorem NodeChain.append {x : Nat} (h : NodeChain m (xs ++ [x])) (hf : FreshNode (xs ++ [x]) n) :
    Appended m (listNodeInsertAfter m 0 x n) (xs ++ [x]) n := by
  have hx : x ∈ xs ++ [x] := by simp
  have hx0 := h.pos x hx
  have hxt := h.top x hx
  have hn0 := hf.pos
  have hnt := hf.top
  have hxn := hf.apart x hx
  have hlast : nodeNext m x = 0 := h.last x (by simp)
  unfold NodesApart at hxn
  rw [insertAfter_last hx0 hn0 hlast]
  obtain ⟨m',hm⟩ : ∃ m', m' = ((m.writeL x n).writeL n 0).writeL (n + 4) x := ⟨_,rfl⟩
  rw [← hm]
  have hnext : nodeNext m' n = 0 := by
    rw [hm,nodeNext,Mem.readL_writeL_apart _ _ (by omega)]
    exact Mem.readL_writeL_self_of_lt _ (by omega)
  have hprev : nodePrev m' n = x := by
    rw [hm]
    exact Mem.readL_writeL_self_of_lt _ (by unfold addressSpace at hxt; omega)
  have hto : nodeNext m' x = n := by
    rw [hm,nodeNext,Mem.readL_writeL_apart _ _ (by omega),Mem.readL_writeL_apart _ _ (by omega)]
    exact Mem.readL_writeL_self_of_lt _ (by unfold addressSpace at hnt; omega)
  have hoff : ∀ y ∈ xs, y + 8 ≤ x ∨ x + 8 ≤ y := by
    intro y hy
    exact (List.pairwise_append.mp h.apart).2.2 y hy x (List.mem_singleton_self x)
  have hother : ∀ y ∈ xs, nodeNext m' y = nodeNext m y := by
    intro y hy
    have h1 := hoff y hy
    have h2 := hf.apart y (List.mem_append_left _ hy)
    unfold NodesApart at h2
    rw [hm,nodeNext,Mem.readL_writeL_apart _ _ (by omega),Mem.readL_writeL_apart _ _ (by omega),
      Mem.readL_writeL_apart _ _ (by omega)]
    rfl
  have hback : ∀ y ∈ xs ++ [x], nodePrev m' y = nodePrev m y := by
    intro y hy
    have h1 : y = x ∨ y + 8 ≤ x ∨ x + 8 ≤ y := by
      rcases List.mem_append.mp hy with hy | hy
      · exact .inr (hoff y hy)
      · exact .inl (List.mem_singleton.mp hy)
    have h2 := hf.apart y hy
    unfold NodesApart at h2
    rw [hm,nodePrev,Mem.readL_writeL_apart _ _ (by omega),Mem.readL_writeL_apart _ _ (by omega),
      Mem.readL_writeL_apart _ _ (by omega)]
    rfl
  refine ⟨hnext,?_,?_,?_,hback,h.extend hf hnext hprev hto hother hback,?_⟩
  · rw [hprev,lastOf,List.getLast?_concat]
    rfl
  · intro y hy
    rw [List.getLast?_concat] at hy
    cases hy
    exact hto
  · intro y hy
    rw [List.dropLast_concat] at hy
    exact hother y hy
  · have hcell : ∀ y ∈ xs ++ [x] ++ [n], ∀ a ∈ (chainCells (xs ++ [x] ++ [n]))ᶜ,
        a < y ∨ y + 8 ≤ a := by
      intro y hy a ha
      by_contra hc
      exact ha ⟨y,hy,by omega,by omega⟩
    rw [hm]
    refine ((Mem.agree_writeL m n (fun a ha => ?_)).trans
      (Mem.agree_writeL _ 0 (fun a ha => ?_))).trans (Mem.agree_writeL _ x (fun a ha => ?_))
    · have := hcell x (by simp) a ha
      omega
    · have := hcell n (by simp) a ha
      omega
    · have := hcell n (by simp) a ha
      omega

theorem append_empty (hf : FreshNode [] n) : Appended m (listNodeInsertAfter m 0 0 n) [] n := by
  have hn0 := hf.pos
  have hnt := hf.top
  rw [insertAfter_null hn0,if_pos rfl]
  have hnext : nodeNext ((m.writeL n 0).writeL (n + 4) 0) n = 0 := by
    rw [nodeNext,Mem.readL_writeL_apart _ _ (by omega)]
    exact Mem.readL_writeL_self_of_lt _ (by omega)
  have hprev : nodePrev ((m.writeL n 0).writeL (n + 4) 0) n = 0 :=
    Mem.readL_writeL_self_of_lt _ (by omega)
  refine ⟨hnext,hprev,fun y hy => absurd hy (Option.not_mem_none y),
    fun y hy => absurd hy List.not_mem_nil,fun y hy => absurd hy List.not_mem_nil,
    ⟨?_,?_,List.pairwise_singleton _ _,.singleton _,?_,?_⟩,?_⟩
  · intro y hy
    exact List.mem_singleton.mp hy ▸ hn0
  · intro y hy
    exact List.mem_singleton.mp hy ▸ hnt
  · intro y hy
    cases hy
    exact hprev
  · intro y hy
    cases hy
    exact hnext
  · refine (Mem.agree_writeL m 0 (fun a ha => ?_)).trans (Mem.agree_writeL _ 0 (fun a ha => ?_))
    · by_contra hc
      exact ha ⟨n,List.mem_singleton_self n,by omega,by omega⟩
    · by_contra hc
      exact ha ⟨n,List.mem_singleton_self n,by omega,by omega⟩

end Append

section Garbage

variable {m : Mem} {n d : Nat}

theorem readL_zero_iff : m.readL n = 0 ↔ ∀ k < 4, m.readB (n + k) = 0 := by
  have hb : m.readL n = (m.readB n * 256 + m.readB (n + 1)) * 65536 +
      (m.readB (n + 2) * 256 + m.readB (n + 3)) := rfl
  constructor
  · intro h k hk
    interval_cases k
    · rw [Nat.add_zero]
      omega
    · omega
    · omega
    · omega
  · intro h
    have h0 := h 0 (by omega)
    rw [Nat.add_zero] at h0
    rw [hb,h0,h 1 (by omega),h 2 (by omega),h 3 (by omega)]

-- The last byte of a stored long is its lowest.
theorem readB_writeL_last (v : Nat) : (m.writeL n v).readB (n + 3) = v % 256 := by
  rw [Mem.writeL,Mem.writeW,Mem.readB_writeB,if_pos rfl]

-- With garbage in d0 the subject does not end up between two NULLs, wherever the garbage points.
theorem garbage_linked (hn : 0 < n) (hnt : n < addressSpace) (hd : 0 < d) (hdt : d < addressSpace) :
    ¬ (nodeNext (((m.writeL n d).writeL (n + 4) 0).writeL (d + 4) n) n = 0 ∧
      nodePrev (((m.writeL n d).writeL (n + 4) 0).writeL (d + 4) n) n = 0) := by
  rintro ⟨hnext,hprev⟩
  obtain ⟨m1,h1⟩ : ∃ m1, m1 = (m.writeL n d).writeL (n + 4) 0 := ⟨_,rfl⟩
  rw [← h1] at hnext hprev
  have hd1 : m1.readL n = d := by
    rw [h1,Mem.readL_writeL_apart _ _ (by omega)]
    exact Mem.readL_writeL_self_of_lt _ hdt
  have hlow : m1.readB (n + 3) = d % 256 := by
    rw [h1,Mem.readB_congr (Mem.writeL_of_outside _ _ (by omega)),readB_writeL_last]
  have hback : (m1.writeL (d + 4) n).readL (d + 4) = n := Mem.readL_writeL_self_of_lt _ hnt
  by_cases hoff : d + 8 ≤ n ∨ n ≤ d
  · rw [nodeNext,Mem.readL_writeL_apart _ _ (by omega),hd1] at hnext
    omega
  by_cases hin : n ≤ d + 4
  · -- The stored pointer lies in the subject, whose fields are all zero.
    have hzero : (m1.writeL (d + 4) n).readL (d + 4) = 0 := by
      refine readL_zero_iff.mpr (fun k hk => ?_)
      by_cases hfirst : d + 4 + k < n + 4
      · have := readL_zero_iff.mp hnext (d + 4 + k - n) (by omega)
        rwa [Nat.add_sub_cancel' (by omega)] at this
      · have := readL_zero_iff.mp hprev (d + 4 + k - (n + 4)) (by omega)
        rwa [Nat.add_sub_cancel' (by omega)] at this
    omega
  · -- It ends in the next field: then both pointers would be multiples of 256.
    have hdz : d % 256 = 0 := by
      rw [← hlow,← readL_zero_iff.mp hnext 3 (by omega)]
      exact (Mem.readB_congr (Mem.writeL_of_outside _ _ (by omega))).symm
    have hnz : n % 256 = 0 := by
      rw [← readB_writeL_last (m := m1) (n := d + 4) n]
      have := readL_zero_iff.mp hnext (d + 4 + 3 - n) (by omega)
      rwa [Nat.add_sub_cancel' (by omega)] at this
    omega

end Garbage

-- An empty chain is appended to only if d0 happens to be NULL on entry.
theorem list_node_add_appends {m : Mem} {xs : List Nat} {n : Nat} (d0 : BitVec 32)
    (h : NodeChain m xs) (hf : FreshNode xs n) :
    (∃ m', listNodeAdd m d0.toNat (headOf xs) n = some (m',n) ∧ Appended m m' xs n) ↔
      xs ≠ [] ∨ d0 = 0#32 := by
  rcases xs.eq_nil_or_concat' with rfl | ⟨ys,x,rfl⟩
  · rw [listNodeAdd_nil]
    constructor
    · rintro ⟨m',he,ha⟩
      refine .inr ?_
      by_contra hd
      have hpos : 0 < d0.toNat := by
        refine Nat.pos_of_ne_zero (fun hz => hd ?_)
        exact BitVec.eq_of_toNat_eq hz
      obtain ⟨rfl,-⟩ := Prod.mk.inj (Option.some.inj he)
      have hnt := hf.top
      have hpair := And.intro ha.next ha.prev
      rw [insertAfter_null hf.pos,if_neg hpos.ne'] at hpair
      exact garbage_linked hf.pos (by omega) hpos d0.isLt hpair
    · rintro (hne | rfl)
      · exact absurd rfl hne
      · exact ⟨_,rfl,append_empty hf⟩
  · refine iff_of_true ⟨_,listNodeAdd_concat h _ n,h.append hf⟩ (.inl (by simp))

-- The d0 of the caller becomes the next node of the only one.
theorem list_node_add_garbage : ¬ ∀ (m : Mem) (xs : List Nat) (n : Nat) (d0 : BitVec 32),
    NodeChain m xs → FreshNode xs n →
      ∃ m', listNodeAdd m d0.toNat (headOf xs) n = some (m',n) ∧ Appended m m' xs n := by
  intro hall
  have hnil : NodeChain (fun _ => 0) [] := ⟨nofun,nofun,.nil,.nil,nofun,nofun⟩
  obtain ⟨m',he,ha⟩ := hall (fun _ => 0) [] 0x40000 0x50000#32 hnil ⟨by decide,by decide,nofun⟩
  have hpeek : (listNodeAdd (fun _ => 0) (0x50000#32).toNat (headOf []) 0x40000).map
      (fun r => nodeNext r.1 0x40000) = some 0x50000 := by decide +kernel
  rw [he] at hpeek
  have hnext : nodeNext m' 0x40000 = 0x50000 := Option.some.inj hpeek
  rw [ha.next] at hnext
  cases hnext

theorem list_node_add_two : ∃ m : Mem, NodeChain m [0x40000] ∧
    ∃ m', listNodeAdd m (0xffffffff#32).toNat 0x40000 0x50000 = some (m',0x50000) ∧
      Appended m m' [0x40000] 0x50000 := by
  have hone : NodeChain (fun _ => 0) [0x40000] := by
    refine ⟨by decide,by decide,List.pairwise_singleton _ _,.singleton _,?_,?_⟩
    · intro x hx
      cases hx
      rfl
    · intro x hx
      cases hx
      rfl
  have hfresh : FreshNode [0x40000] 0x50000 := by
    refine ⟨by decide,by decide,fun x hx => ?_⟩
    rw [List.mem_singleton.mp hx]
    exact .inl (by decide)
  exact ⟨_,hone,(list_node_add_appends 0xffffffff#32 hone hfresh).mpr (.inl (by decide))⟩
end RoscoM68k
