import RoscoM68k.Libs.Shmall

namespace RoscoM68k
open Function

theorem dbf_eq {σ : Type} (f : σ → σ) (n : Nat) (s : σ) : dbf f n s = f^[n + 1] s := by
  induction n generalizing s with
  | zero => rfl
  | succ n ih => rw [dbf,ih,← iterate_succ_apply]

-- A long in memory is four bytes.
theorem writeL_eq (m : Mem) (a v : Nat) : m.writeL a v = overlay m a
    [UInt8.ofNat (v / 65536 / 256),UInt8.ofNat (v / 65536),UInt8.ofNat (v / 256),
      UInt8.ofNat v] := by
  rw [← overlay_cons,← overlay_cons,← overlay_cons,← overlay_cons,overlay_nil]
  simp only [Mem.writeL,Mem.writeW,Mem.writeB_update]

theorem writeL_zero (m : Mem) (a : Nat) : m.writeL a 0 = overlay m a (List.replicate 4 0) :=
  writeL_eq m a 0

theorem writeL_readL (m : Mem) (a b : Nat) :
    m.writeL a (m.readL b) = overlay m a (slice m b 4) := by
  have h0 := m.readB_lt b
  have h1 := m.readB_lt (b + 1)
  have h2 := m.readB_lt (b + 2)
  have h3 := m.readB_lt (b + 3)
  have hofB (a v : Nat) (hv : v % 256 = m.readB a) : UInt8.ofNat v = m a := by
    apply UInt8.toNat_inj.mp
    rw [UInt8.toNat_ofNat']
    exact hv
  rw [writeL_eq,slice,slice,slice,slice,slice]
  rw [hofB b _ ?_,hofB (b + 1) _ ?_,hofB (b + 1 + 1) _ ?_,hofB (b + 1 + 1 + 1) _ ?_]
  all_goals
    unfold Mem.readL Mem.readW
    simp only [Nat.add_assoc,Nat.reduceAdd]
    omega

-- Two parts that follow each other are one.
theorem overlay_replicate (m : Mem) (a i j : Nat) (v : UInt8) :
    overlay (overlay m a (List.replicate i v)) (a + i) (List.replicate j v) =
      overlay m a (List.replicate (i + j) v) := by
  have hlen : (List.replicate i v).length = i := List.length_replicate
  rw [List.replicate_add,← overlay_append,hlen]

theorem overlay_slices (m g : Mem) (a b i j : Nat) :
    overlay (overlay m a (slice g b i)) (a + i) (slice g (b + i) j) =
      overlay m a (slice g b (i + j)) := by
  rw [slice_add,← overlay_append,slice_length]

namespace Clearing

variable {m : Mem} {d c i : Nat}

-- After `i` bytes.
def cleared (m : Mem) (d c i : Nat) : Clearing :=
  ⟨overlay m d (List.replicate i 0),d + i,c - i⟩

theorem cleared_cleared (j : Nat) :
    cleared (overlay m d (List.replicate i 0)) (d + i) (c - i) j = cleared m d c (i + j) := by
  rw [cleared,cleared,overlay_replicate,Nat.add_assoc,Nat.sub_sub]

theorem bytes_iterate (n : Nat) : byte^[n] ⟨m,d,c⟩ = cleared m d c n := by
  induction n generalizing m d c with
  | zero => rw [cleared,List.replicate_zero,overlay_nil]; rfl
  | succ n ih =>
    have hone : byte ⟨m,d,c⟩ = cleared m d c 1 := by
      rw [cleared,List.replicate_one,← overlay_cons,overlay_nil]
      rfl
    rw [iterate_succ_apply,hone,cleared,ih,cleared_cleared,Nat.add_comm]

theorem chunks_iterate (n : Nat) : chunk^[n] ⟨m,d,c⟩ =
    ⟨overlay m d (List.replicate (4 * n) 0),d + 4 * n,c⟩ := by
  induction n generalizing m d with
  | zero => rw [Nat.mul_zero,List.replicate_zero,overlay_nil]; rfl
  | succ n ih =>
    have hfour : 4 + 4 * n = 4 * (n + 1) := by omega
    rw [iterate_succ_apply,chunk,writeL_zero,CHUNK_SIZE,ih,overlay_replicate,Nat.add_assoc,hfour]

theorem fastLoop_eq (hc : 4 ≤ c) : ∃ k, 0 < k ∧ k ≤ c ∧ fastLoop ⟨m,d,c⟩ = cleared m d c k ∧
    c / 4 * 4 = k + (c - k) / 4 * 4 := by
  obtain ⟨l,hl⟩ : ∃ l, l = (c / 4 - 1) % 65536 := ⟨_,rfl⟩
  have hle : l + 1 ≤ c / 4 := by
    have hmod := Nat.mod_le (c / 4 - 1) 65536
    omega
  refine ⟨4 * (l + 1),by omega,by omega,?_,by omega⟩
  rw [fastLoop]
  dsimp only
  rw [CHUNK_SIZE,← hl,dbf_eq,chunks_iterate,cleared,Nat.mul_comm (l + 1)]

-- The fast loops together clear all whole chunks.
theorem chunks_gives (m : Mem) (d c : Nat) :
    Gives (fun n => loop (fun s => decide (CHUNK_SIZE ≤ s.countLeft)) fastLoop n ⟨m,d,c⟩)
      (cleared m d c (c / 4 * 4)) := by
  induction c using Nat.strong_induction_on generalizing m d with
  | _ c ih =>
    by_cases hc : 4 ≤ c
    · obtain ⟨k,hpos,hk,hfast,hrest⟩ := fastLoop_eq (m := m) (d := d) hc
      refine Loop.gives_next (decide_eq_true hc) ?_
      rw [hfast,hrest,← cleared_cleared]
      exact ih (c - k) (by omega) _ _
    · have hnone : c / 4 * 4 = 0 := by omega
      rw [hnone,cleared,List.replicate_zero,overlay_nil]
      exact Loop.gives_stop (decide_eq_false hc)

theorem bytes_gives (m : Mem) (d c : Nat) :
    Gives (fun n => bytes n ⟨m,d,c⟩) (cleared m d c c) := by
  rw [← bytes_iterate]
  refine Loop.gives_exactly (fun i hi => ?_) ?_
  · have hleft : 0 < c - i := by omega
    rw [bytes_iterate]
    exact decide_eq_true hleft
  · have hleft : ¬ 0 < c - c := by omega
    rw [bytes_iterate]
    exact decide_eq_false hleft

-- At most one byte comes before the chunks.
theorem align_gives (m : Mem) (d c : Nat) : ∃ k, k ≤ 1 ∧
    Gives (fun n => loop (fun s => decide (s.bdst % CHUNK_ALIGN ≠ 0)) byte n ⟨m,d,c⟩)
      (cleared m d c k) := by
  refine ⟨d % 2,by omega,?_⟩
  rw [← bytes_iterate]
  refine Loop.gives_exactly (fun i hi => ?_) ?_
  · have hodd : (d + i) % 2 ≠ 0 := by omega
    rw [bytes_iterate]
    exact decide_eq_true hodd
  · have heven : ¬ (d + d % 2) % 2 ≠ 0 := by omega
    rw [bytes_iterate]
    exact decide_eq_false heven

end Clearing

-- What the tail leaves once `k` bytes are done.
theorem clear_rest (m : Mem) {d c k : Nat} (hk : k ≤ c) :
    Gives (fun n => do
      let s ← (Clearing.cleared m d c k).bytes n
      some s.mem) (overlay m d (List.replicate c 0)) := by
  have hrest := Clearing.bytes_gives (overlay m d (List.replicate k 0)) (d + k) (c - k)
  rw [Clearing.cleared_cleared,Nat.add_sub_cancel' hk] at hrest
  exact .bind hrest (.of_eq fun _ => rfl)

theorem plainClear_gives (m : Mem) (dst count : Nat) :
    Gives (plainClear m dst count) (overlay m dst (List.replicate count 0)) :=
  .bind (Clearing.bytes_gives m dst count) (.of_eq fun _ => rfl)

theorem memClear_gives (m : Mem) (dst count : Nat) :
    Gives (memClear m dst count) (overlay m dst (List.replicate count 0)) := by
  change Gives (fun n => memClear m dst count n) _
  unfold memClear
  by_cases hsmall : count < PLATFORM_THRESHOLD
  · simp only [if_pos hsmall]
    exact plainClear_gives m dst count
  · simp only [if_neg hsmall]
    rw [PLATFORM_THRESHOLD] at hsmall
    obtain ⟨k,hk,halign⟩ := Clearing.align_gives m dst count
    have hchunks := Clearing.chunks_gives (overlay m dst (List.replicate k 0)) (dst + k) (count - k)
    rw [Clearing.cleared_cleared] at hchunks
    refine Gives.bind halign (Gives.bind hchunks (clear_rest m ?_))
    omega

theorem Apart.parts {d s i j : Nat} (h : Apart d (i + j) s (i + j)) :
    Apart d i s i ∧ Apart (d + i) j (s + i) j := by
  unfold Apart at *
  omega

namespace Copying

variable {m : Mem} {d s c i j : Nat}

-- After `i` bytes.
def copied (m : Mem) (d s c i : Nat) : Copying :=
  ⟨overlay m d (slice m s i),d + i,s + i,c - i⟩

theorem overlay_copies (h : Apart d (i + j) s (i + j)) :
    overlay (overlay m d (slice m s i)) (d + i) (slice (overlay m d (slice m s i)) (s + i) j) =
      overlay m d (slice m s (i + j)) := by
  have hsame : slice (overlay m d (slice m s i)) (s + i) j = slice m (s + i) j := by
    refine slice_overlay ?_
    rw [slice_length]
    unfold Apart at *
    omega
  rw [hsame,overlay_slices]

theorem copied_copied (h : Apart d (i + j) s (i + j)) :
    copied (overlay m d (slice m s i)) (d + i) (s + i) (c - i) j = copied m d s c (i + j) := by
  rw [copied,copied,overlay_copies h,Nat.add_assoc,Nat.add_assoc,Nat.sub_sub]

theorem bytes_iterate (n : Nat) (h : Apart d n s n) : byte^[n] ⟨m,d,s,c⟩ = copied m d s c n := by
  induction n generalizing m d s c with
  | zero => rw [copied,slice,overlay_nil]; rfl
  | succ n ih =>
    rw [Nat.add_comm] at h
    have hone : byte ⟨m,d,s,c⟩ = copied m d s c 1 := by
      rw [copied,slice,slice,← overlay_cons,overlay_nil]
      rfl
    rw [iterate_succ_apply,hone,copied,ih h.parts.2,copied_copied h,Nat.add_comm]

theorem chunks_iterate (n : Nat) (h : Apart d (4 * n) s (4 * n)) : chunk^[n] ⟨m,d,s,c⟩ =
    ⟨overlay m d (slice m s (4 * n)),d + 4 * n,s + 4 * n,c⟩ := by
  induction n generalizing m d s with
  | zero => rw [Nat.mul_zero,slice,overlay_nil]; rfl
  | succ n ih =>
    have hfour : 4 * (n + 1) = 4 + 4 * n := by omega
    rw [hfour] at h ⊢
    rw [iterate_succ_apply,chunk,writeL_readL,CHUNK_SIZE,ih h.parts.2,overlay_copies h,
      Nat.add_assoc,Nat.add_assoc]

theorem fastLoop_eq (hc : 4 ≤ c) (h : Apart d c s c) : ∃ k, 0 < k ∧ k ≤ c ∧
    fastLoop ⟨m,d,s,c⟩ = copied m d s c k ∧ c / 4 * 4 = k + (c - k) / 4 * 4 := by
  obtain ⟨l,hl⟩ : ∃ l, l = (c / 4 - 1) % 65536 := ⟨_,rfl⟩
  have hle : l + 1 ≤ c / 4 := by
    have hmod := Nat.mod_le (c / 4 - 1) 65536
    omega
  have hpart : Apart d (4 * (l + 1)) s (4 * (l + 1)) := by
    unfold Apart at *
    omega
  refine ⟨4 * (l + 1),by omega,by omega,?_,by omega⟩
  rw [fastLoop]
  dsimp only
  rw [CHUNK_SIZE,← hl,dbf_eq,chunks_iterate (l + 1) hpart,copied,Nat.mul_comm (l + 1)]

theorem chunks_gives (m : Mem) (d s c : Nat) (h : Apart d c s c) :
    Gives (fun n => loop (fun s => decide (CHUNK_SIZE ≤ s.countLeft)) fastLoop n ⟨m,d,s,c⟩)
      (copied m d s c (c / 4 * 4)) := by
  induction c using Nat.strong_induction_on generalizing m d s with
  | _ c ih =>
    by_cases hc : 4 ≤ c
    · obtain ⟨k,hpos,hk,hfast,hrest⟩ := fastLoop_eq (m := m) hc h
      have hall : Apart d (k + (c - k)) s (k + (c - k)) := by rwa [Nat.add_sub_cancel' hk]
      have hchunks : Apart d (k + (c - k) / 4 * 4) s (k + (c - k) / 4 * 4) := by
        unfold Apart at *
        omega
      refine Loop.gives_next (decide_eq_true hc) ?_
      rw [hfast,hrest,← copied_copied hchunks]
      exact ih (c - k) (by omega) _ _ _ hall.parts.2
    · have hnone : c / 4 * 4 = 0 := by omega
      rw [hnone,copied,slice,overlay_nil]
      exact Loop.gives_stop (decide_eq_false hc)

theorem bytes_gives (m : Mem) (d s c : Nat) (h : Apart d c s c) :
    Gives (fun n => bytes n ⟨m,d,s,c⟩) (copied m d s c c) := by
  rw [← bytes_iterate c h]
  refine Loop.gives_exactly (fun i hi => ?_) ?_
  · have hleft : 0 < c - i := by omega
    have hpart : Apart d i s i := by
      unfold Apart at *
      omega
    rw [bytes_iterate i hpart]
    exact decide_eq_true hleft
  · have hleft : ¬ 0 < c - c := by omega
    rw [bytes_iterate c h]
    exact decide_eq_false hleft

-- The two pointers get even together.
theorem align_gives (m : Mem) (d s c : Nat) (h : Apart d 1 s 1) (he : d % 2 = s % 2) :
    ∃ k, k ≤ 1 ∧ Gives (fun n => loop
      (fun s => decide (s.bdst % CHUNK_ALIGN ≠ 0 ∨ s.bsrc % CHUNK_ALIGN ≠ 0)) byte n ⟨m,d,s,c⟩)
      (copied m d s c k) := by
  have hpart {i : Nat} (hi : i ≤ d % 2) : Apart d i s i := by
    unfold Apart at *
    omega
  refine ⟨d % 2,by omega,?_⟩
  rw [← bytes_iterate _ (hpart le_rfl)]
  refine Loop.gives_exactly (fun i hi => ?_) ?_
  · have hodd : (d + i) % 2 ≠ 0 ∨ (s + i) % 2 ≠ 0 := by omega
    rw [bytes_iterate i (hpart (by omega))]
    exact decide_eq_true hodd
  · have heven : ¬ ((d + d % 2) % 2 ≠ 0 ∨ (s + d % 2) % 2 ≠ 0) := by omega
    rw [bytes_iterate _ (hpart le_rfl)]
    exact decide_eq_false heven

end Copying

theorem copy_rest (m : Mem) {d s c k : Nat} (hk : k ≤ c) (h : Apart d c s c) :
    Gives (fun n => do
      let s ← (Copying.copied m d s c k).bytes n
      some s.mem) (overlay m d (slice m s c)) := by
  have hall : Apart d (k + (c - k)) s (k + (c - k)) := by rwa [Nat.add_sub_cancel' hk]
  have hrest := Copying.bytes_gives (overlay m d (slice m s k)) (d + k) (s + k) (c - k) hall.parts.2
  rw [Copying.copied_copied hall,Nat.add_sub_cancel' hk] at hrest
  exact .bind hrest (.of_eq fun _ => rfl)

theorem plainCopy_gives (m : Mem) {dst src count : Nat} (h : Apart dst count src count) :
    Gives (plainCopy m dst src count) (overlay m dst (slice m src count)) :=
  .bind (Copying.bytes_gives m dst src count h) (.of_eq fun _ => rfl)

theorem memCopy_gives (m : Mem) {dst src count : Nat} (h : Apart dst count src count) :
    Gives (memCopy m dst src count) (overlay m dst (slice m src count)) := by
  change Gives (fun n => memCopy m dst src count n) _
  unfold memCopy
  by_cases hsmall : count < PLATFORM_THRESHOLD
  · simp only [if_pos hsmall]
    exact plainCopy_gives m h
  · by_cases hodd : dst % CHUNK_ALIGN ≠ src % CHUNK_ALIGN
    · simp only [if_neg hsmall,if_pos hodd]
      exact plainCopy_gives m h
    · simp only [if_neg hsmall,if_neg hodd]
      rw [PLATFORM_THRESHOLD] at hsmall
      have hone : Apart dst 1 src 1 := by
        unfold Apart at *
        omega
      obtain ⟨k,hk,halign⟩ := Copying.align_gives m dst src count hone (not_not.mp hodd)
      have hall : Apart dst (k + (count - k)) src (k + (count - k)) := by
        rwa [Nat.add_sub_cancel' (by omega)]
      have hpart : Apart dst (k + (count - k) / 4 * 4) src (k + (count - k) / 4 * 4) := by
        unfold Apart at *
        omega
      have hchunks := Copying.chunks_gives (overlay m dst (slice m src k)) (dst + k) (src + k)
        (count - k) hall.parts.2
      rw [Copying.copied_copied hpart] at hchunks
      refine Gives.bind halign (Gives.bind hchunks (copy_rest m ?_ h))
      omega

-- What heap_alloc and heap_free owe to a block `p` and to a new one of `n` bytes: the old block
-- and its node are left alone and lie apart from the new block, which survives that `p` is freed.
structure Allocates (H : Heap) (m : Mem) (p n : Nat) : Prop where
  kept : ∀ x, getHead p ≤ x → x < p + blockSize m p → (H.alloc m n).2 x = m x
  apart : (H.alloc m n).1 ≠ 0 → Apart (H.alloc m n).1 n (getHead p) (8 + blockSize m p)
  freeKeeps : ∀ m', (∀ x, x < (H.alloc m n).1 ∨ (H.alloc m n).1 + n ≤ x →
      m' x = (H.alloc m n).2 x) →
    ∀ x, (H.alloc m n).1 ≤ x → x < (H.alloc m n).1 + n → H.free m' p x = m' x

-- Without a new block nothing happens to the old one. Else what fits is copied to it, and the old
-- block is freed.
structure Reallocates (H : Heap) (m : Mem) (p n : Nat) : Prop where
  failed : (H.alloc m n).1 = 0 → Gives (realloc H m p n) (0,(H.alloc m n).2) ∧
    ∀ x, getHead p ≤ x → x < p + blockSize m p → (H.alloc m n).2 x = m x
  moved : (H.alloc m n).1 ≠ 0 → ∃ m',
    m' = overlay (H.alloc m n).2 (H.alloc m n).1 (slice m p (min (blockSize m p) n)) ∧
    Gives (realloc H m p n) ((H.alloc m n).1,H.free m' p) ∧
    ∀ i < min (blockSize m p) n, H.free m' p ((H.alloc m n).1 + i) = m (p + i)

section Blocks

variable {H : Heap} {m : Mem} {p q n num size : Nat}

theorem overlay_slice (m m' : Mem) (a b : Nat) {i k : Nat} (hi : i < k) :
    overlay m a (slice m' b k) (a + i) = m' (b + i) := by
  have hlen : (slice m' b (i + 1)).length = i + 1 := slice_length m' b (i + 1)
  have hsplit : slice m' b k = slice m' b i ++ m' (b + i) :: slice m' (b + i + 1) (k - i - 1) := by
    have hk : k = i + (1 + (k - i - 1)) := by omega
    nth_rewrite 1 [hk]
    rw [slice_add,slice_add]
    rfl
  refine overlay_inside (Nat.le_add_right a i) ?_
  rw [hsplit,Nat.add_sub_cancel_left,List.getElem?_append_right (by rw [slice_length]),slice_length,
    Nat.sub_self]
  rfl

theorem realloc_reallocates (hp : 8 ≤ p) (hn : 1 ≤ n) (h : Allocates H m p n) :
    Reallocates H m p n := by
  have hp0 : p ≠ 0 := by omega
  constructor
  · intro hq
    refine ⟨.of_eq fun k => ?_,h.kept⟩
    simp only [realloc,malloc,hq]
    exact if_neg fun hs => hs.2.1 rfl
  · intro hq
    have happart := h.apart hq
    have hkept := h.kept
    have hfree := h.freeKeeps
    obtain ⟨q,hqe⟩ : ∃ q, q = (H.alloc m n).1 := ⟨_,rfl⟩
    obtain ⟨m1,hm1⟩ : ∃ m1, m1 = (H.alloc m n).2 := ⟨_,rfl⟩
    obtain ⟨size,hsize⟩ : ∃ size, size = blockSize m p := ⟨_,rfl⟩
    have halloc : H.alloc m n = (q,m1) := by rw [hqe,hm1]
    rw [halloc,← hsize] at hkept happart
    rw [halloc] at hfree
    rw [halloc] at hq
    rw [halloc,← hsize]
    unfold getHead at hkept happart
    unfold Apart at happart
    have hnode : blockSize m1 p = size := by
      rw [hsize]
      refine Mem.readL_congr fun x hx hx' => hkept x ?_ ?_
      · unfold getHead at hx
        omega
      · unfold getHead at hx'
        omega
    have hmin : (if size < n then size else n) = min size n := by
      split <;> omega
    have hcopyApart : Apart q (min size n) p (min size n) := by
      unfold Apart
      omega
    have hcopy := memCopy_gives m1 hcopyApart
    have hsource : slice m1 p (min size n) = slice m p (min size n) :=
      slice_congr fun x hx hx' => hkept x (by omega) (by omega)
    rw [hsource] at hcopy
    have hmoves : p ≠ 0 ∧ q ≠ 0 ∧ 0 < n := ⟨hp0,hq,hn⟩
    refine ⟨_,rfl,?_,fun i hi => ?_⟩
    · change Gives (fun k => realloc H m p n k) _
      simp only [realloc,malloc,halloc,if_pos hmoves,hnode,hmin]
      refine Gives.bind hcopy (.of_eq fun k => ?_)
      rw [free,if_pos hp0]
    · have hsurvives := hfree (overlay m1 q (slice m p (min size n))) (fun x hx => ?_) (q + i)
        (Nat.le_add_right q i) (by dsimp only; omega)
      · rw [hsurvives]
        exact overlay_slice m1 m q p hi
      · obtain hx | hx := hx
        · exact overlay_below hx
        · refine overlay_above ?_
          rw [slice_length]
          omega

end Blocks

theorem fast_paths (m : Mem) (d k : Nat) {dst src count : Nat} (ha : Apart dst count src count)
    {H : Heap} {p n : Nat} (hp : 8 ≤ p) (hn : 1 ≤ n) (h : Allocates H m p n) :
    (Gives (memClear m d k) (overlay m d (List.replicate k 0)) ∧
      Gives (plainClear m d k) (overlay m d (List.replicate k 0))) ∧
    (Gives (memCopy m dst src count) (overlay m dst (slice m src count)) ∧
      Gives (plainCopy m dst src count) (overlay m dst (slice m src count))) ∧
    Reallocates H m p n :=
  ⟨⟨memClear_gives m d k,plainClear_gives m d k⟩,⟨memCopy_gives m ha,plainCopy_gives m ha⟩,
    realloc_reallocates hp hn h⟩

-- A heap with one free block of 8 bytes, at 64.
def smallHeap : Heap where
  alloc m n := if n ≤ 8 then (64,m.writeL 60 n) else (0,m)
  free m p := m.writeL (getHead p) 1

-- A block of 4 bytes at 24.
def oneBlock : Mem := fun x => if x = 23 then 4 else if 24 ≤ x then UInt8.ofNat x else 0

theorem fast_paths_block :
    (Gives (memClear oneBlock 101 70000) (overlay oneBlock 101 (List.replicate 70000 0)) ∧
      Gives (plainClear oneBlock 101 70000) (overlay oneBlock 101 (List.replicate 70000 0))) ∧
    (Gives (memCopy oneBlock 0 99999 300) (overlay oneBlock 0 (slice oneBlock 99999 300)) ∧
      Gives (plainCopy oneBlock 0 99999 300) (overlay oneBlock 0 (slice oneBlock 99999 300))) ∧
    Reallocates smallHeap oneBlock 24 6 := by
  have halloc : smallHeap.alloc oneBlock 6 = (64,oneBlock.writeL 60 6) := rfl
  have hsize : blockSize oneBlock 24 = 4 := by decide
  refine fast_paths oneBlock 101 70000 (.inl (by decide)) (by decide) (by decide) ⟨?_,?_,?_⟩
  · intro x hx hx'
    rw [hsize] at hx'
    rw [halloc]
    exact Mem.writeL_of_outside _ _ (.inl (by omega))
  · intro _
    rw [halloc,hsize]
    exact .inr (by decide)
  · intro m' _ x hx _
    rw [halloc] at hx
    exact Mem.writeL_of_outside _ _ (.inr (by simp only [getHead] at *; omega))

-- The block that is returned is large enough for all of the product, and it is blank. Where the
-- product is no size, nothing is returned.
structure CallocContract (num size : Nat) (x : Nat × Mem) : Prop where
  whole : x.1 ≠ 0 → num * size ≤ blockSize x.2 x.1 ∧ ∀ i < num * size, x.2 (x.1 + i) = 0
  overflow : 4294967296 ≤ num * size → x.1 = 0

-- A pointer of malloc, if it is not NULL, is that of a block with at least the requested size.
def MallocSound (H : Heap) (m : Mem) (n : Nat) : Prop :=
  (H.alloc m n).1 ≠ 0 → 8 ≤ (H.alloc m n).1 ∧ n ≤ blockSize (H.alloc m n).2 (H.alloc m n).1

theorem calloc_gives (H : Heap) (m : Mem) (num size : Nat) : ∃ x, Gives (calloc H m num size) x ∧
    x.1 = (H.alloc m (num * size % 4294967296)).1 ∧
    (x.1 ≠ 0 → x.2 = overlay (H.alloc m (num * size % 4294967296)).2 x.1
      (List.replicate (num * size % 4294967296) 0)) := by
  obtain ⟨total,htotal⟩ : ∃ total, total = num * size % 4294967296 := ⟨_,rfl⟩
  obtain ⟨q,m1,halloc⟩ : ∃ q m1, H.alloc m total = (q,m1) := ⟨_,_,rfl⟩
  rw [← htotal,halloc]
  by_cases hc : q ≠ 0 ∧ 0 < total
  · refine ⟨(q,overlay m1 q (List.replicate total 0)),?_,rfl,fun _ => rfl⟩
    change Gives (fun k => calloc H m num size k) _
    simp only [calloc,malloc,← htotal,halloc,if_pos hc]
    exact Gives.bind (memClear_gives m1 q total) (.of_eq fun _ => rfl)
  · refine ⟨(q,m1),.of_eq fun k => ?_,rfl,fun hq => ?_⟩
    · simp only [calloc,malloc,← htotal,halloc,if_neg hc]
    · have hnone : total = 0 := by
        by_contra hpos
        exact hc ⟨hq,Nat.pos_of_ne_zero hpos⟩
      rw [hnone,List.replicate_zero,overlay_nil]

theorem calloc_whole {H : Heap} {m : Mem} {num size : Nat}
    (h : MallocSound H m (num * size % 4294967296)) :
    ∃ x, Gives (calloc H m num size) x ∧ (CallocContract num size x ↔
      num * size < 4294967296 ∨ (H.alloc m (num * size % 4294967296)).1 = 0) := by
  obtain ⟨x,hx,hptr,hmem⟩ := calloc_gives H m num size
  refine ⟨x,hx,?_⟩
  rw [← hptr]
  constructor
  · intro hc
    by_cases hfit : num * size < 4294967296
    · exact .inl hfit
    · exact .inr (hc.overflow (not_lt.mp hfit))
  · intro hc
    refine ⟨fun hq => ?_,fun hbig => hc.resolve_left (not_lt.mpr hbig)⟩
    have hfit := hc.resolve_right hq
    have htotal := Nat.mod_eq_of_lt hfit
    have hblank := hmem hq
    rw [htotal] at hblank
    obtain ⟨h8,hsize⟩ := h (hptr ▸ hq)
    rw [← hptr] at h8
    rw [← hptr,htotal] at hsize
    constructor
    · refine le_trans hsize (le_of_eq ?_)
      rw [hblank]
      refine (Mem.readL_congr fun y hy hy' => ?_).symm
      unfold getHead at hy hy'
      exact overlay_below (by omega)
    · intro i hi
      rw [hblank]
      refine overlay_inside (Nat.le_add_right _ _) ?_
      rw [Nat.add_sub_cancel_left,List.getElem?_replicate,if_pos hi]

theorem calloc_whole_small : ∃ x, Gives (calloc smallHeap oneBlock 2 3) x ∧
    (CallocContract 2 3 x ↔ 2 * 3 < 4294967296 ∨
      (smallHeap.alloc oneBlock (2 * 3 % 4294967296)).1 = 0) :=
  calloc_whole fun _ => ⟨by decide,by decide⟩

-- 2^32 + 2 bytes are asked for, and a block of two comes back.
theorem calloc_short : MallocSound smallHeap oneBlock (2147483649 * 2 % 4294967296) ∧
    ∃ x, Gives (calloc smallHeap oneBlock 2147483649 2) x ∧ x.1 = 64 ∧
      4294967296 ≤ 2147483649 * 2 := by
  obtain ⟨x,hx,hptr,-⟩ := calloc_gives smallHeap oneBlock 2147483649 2
  exact ⟨fun _ => ⟨by decide,by decide⟩,x,hx,hptr,by decide⟩

end RoscoM68k
