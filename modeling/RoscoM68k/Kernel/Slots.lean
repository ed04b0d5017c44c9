import RoscoM68k.Kernel.Bitmap

namespace RoscoM68k

-- `n` blocks of 32 bytes handed out from `addr` on.
structure Slot where
  addr : Nat
  n : Nat
  deriving DecidableEq, Repr

def Slot.stop (a : Slot) : Nat := a.addr + 32 * a.n

def Slot.bytes (a : Slot) : Set Nat := Set.Ico a.addr a.stop

def Slot.Apart (a b : Slot) : Prop := a.stop ≤ b.addr ∨ b.stop ≤ a.addr

-- Blocks `i` to `i + n - 1` of a page, block 31 excluded.
def Slot.Within (a : Slot) (p : Nat) : Prop := ∃ i, a.addr = p + 32 * i ∧ 0 < a.n ∧ i + a.n ≤ 31

-- The bitmaps of the pages mark the blocks of the live allocations and block 31.
structure Marked (pages : List Nat) (map : Nat → BitVec 32) (live : List Slot) : Prop where
  aligned : ∀ p ∈ pages, 1024 ∣ p
  slot : ∀ a ∈ live, ∃ p ∈ pages, a.Within p
  apart : live.Pairwise Slot.Apart
  top : ∀ p ∈ pages, (map p).getLsbD 31 = true
  bit : ∀ p ∈ pages, ∀ i < 31, (map p).getLsbD i = true ↔ ∃ a ∈ live, p + 32 * i ∈ a.bytes

instance : Std.Symm Slot.Apart := ⟨fun _ _ h => Or.symm h⟩

variable {pages : List Nat} {map map' : Nat → BitVec 32} {live : List Slot} {a b : Slot}
  {p q n i : Nat}

theorem Slot.Within.page (h : a.Within p) (hp : 1024 ∣ p) {x : Nat} (hx : x ∈ a.bytes) :
    x / 1024 * 1024 = p := by
  obtain ⟨i,ha,-,hle⟩ := h
  simp only [Slot.bytes,Slot.stop,Set.mem_Ico] at hx
  omega

namespace Marked

theorem congr (h : Marked pages map live) (hm : ∀ p ∈ pages, map' p = map p) :
    Marked pages map' live where
  aligned := h.aligned
  slot := h.slot
  apart := h.apart
  top := fun p hp => by rw [hm p hp]; exact h.top p hp
  bit := fun p hp i hi => by rw [hm p hp]; exact h.bit p hp i hi

theorem perm (h : Marked pages map live) {pages' : List Nat} (hp : pages'.Perm pages) :
    Marked pages' map live where
  aligned := fun p hm => h.aligned p (hp.mem_iff.mp hm)
  slot := fun a ha => by
    obtain ⟨p,hm,hw⟩ := h.slot a ha
    exact ⟨p,hp.mem_iff.mpr hm,hw⟩
  apart := h.apart
  top := fun p hm => h.top p (hp.mem_iff.mp hm)
  bit := fun p hm => h.bit p (hp.mem_iff.mp hm)

theorem fits_le (h : Marked pages map live) (hp : p ∈ pages) (hn : 0 < n)
    (hf : Fits (map p) n i) : i + n ≤ 31 := by
  by_contra hc
  have hle := hf.1
  have h31 := hf.2 (31 - i) (by omega)
  rw [show i + (31 - i) = 31 by omega,h.top p hp] at h31
  exact absurd h31 (by simp)

-- Blocks that are clear in the bitmap belong to no live allocation.
theorem fits_apart (h : Marked pages map live) (hp : p ∈ pages) (hn : 0 < n)
    (hf : Fits (map p) n i) (ha : a ∈ live) : Slot.Apart ⟨p + 32 * i,n⟩ a := by
  have hle := h.fits_le hp hn hf
  obtain ⟨q,hq,hw⟩ := h.slot a ha
  have hdp := h.aligned p hp
  have hdq := h.aligned q hq
  obtain ⟨k,hak,hpos,hk⟩ := hw
  by_contra hno
  simp only [Slot.Apart,Slot.stop] at hno
  obtain rfl : p = q := by omega
  have hcov : ∀ j, i ≤ j → j < i + n → ¬ (k ≤ j ∧ j < k + a.n) := by
    intro j h1 h2 h3
    have hclear := hf.2 (j - i) (by omega)
    rw [show i + (j - i) = j by omega] at hclear
    have hset := (h.bit p hp j (by omega)).mpr
      ⟨a,ha,by simp only [Slot.bytes,Slot.stop,Set.mem_Ico]; omega⟩
    rw [hclear] at hset
    exact absurd hset (by simp)
  have h1 := hcov i (by omega) (by omega)
  have h2 := hcov k
  omega

theorem fits_iff (h : Marked pages map live) (hp : p ∈ pages) (hn : 0 < n) :
    Fits (map p) n i ↔ i + n ≤ 31 ∧ ∀ a ∈ live, Slot.Apart ⟨p + 32 * i,n⟩ a := by
  refine ⟨fun hf => ⟨h.fits_le hp hn hf,fun a ha => h.fits_apart hp hn hf ha⟩,?_⟩
  rintro ⟨hle,hap⟩
  refine ⟨by omega,fun j hj => ?_⟩
  rw [← Bool.not_eq_true]
  intro hset
  obtain ⟨a,ha,hx⟩ := (h.bit p hp (i + j) (by omega)).mp hset
  have := hap a ha
  simp only [Slot.Apart,Slot.stop,Slot.bytes,Set.mem_Ico] at this hx
  omega

theorem full_iff (h : Marked pages map live) (hp : p ∈ pages) :
    map p = 0xFFFFFFFF#32 ↔ ∀ i < 31, ∃ a ∈ live, p + 32 * i ∈ a.bytes := by
  have hones : 0xFFFFFFFF#32 = BitVec.allOnes 32 := rfl
  rw [hones,BitVec.eq_of_getLsbD_eq_iff]
  simp only [BitVec.getLsbD_allOnes]
  constructor
  · intro hall i hi
    exact (h.bit p hp i hi).mp ((hall i (by omega)).trans (by simp; omega))
  · intro hall i hi
    rw [decide_eq_true hi]
    by_cases h31 : i = 31
    · subst h31
      exact h.top p hp
    · exact (h.bit p hp i (by omega)).mpr (hall i (by omega))

theorem alloc (h : Marked pages map live) (hp : p ∈ pages) (hn : 0 < n) (hf : Fits (map p) n i)
    (hq : ∀ q ∈ pages, q ≠ p → map' q = map q)
    (hbit : ∀ j < 32, (map' p).getLsbD j = ((map p).getLsbD j || decide (i ≤ j ∧ j < i + n))) :
    Marked pages map' (⟨p + 32 * i,n⟩ :: live) where
  aligned := h.aligned
  slot := by
    intro a ha
    rcases List.mem_cons.mp ha with rfl | ha
    · exact ⟨p,hp,i,rfl,hn,h.fits_le hp hn hf⟩
    · exact h.slot a ha
  apart := List.pairwise_cons.mpr ⟨fun a ha => h.fits_apart hp hn hf ha,h.apart⟩
  top := by
    intro q hq'
    by_cases hqp : q = p
    · subst hqp
      rw [hbit 31 (by omega),h.top q hq',Bool.true_or]
    · rw [hq q hq' hqp]
      exact h.top q hq'
  bit := by
    intro q hq' j hj
    have hle := h.fits_le hp hn hf
    have hdp := h.aligned p hp
    have hdq := h.aligned q hq'
    simp only [List.mem_cons,exists_eq_or_imp]
    by_cases hqp : q = p
    · subst hqp
      rw [hbit j (by omega),Bool.or_eq_true,h.bit q hq' j hj,or_comm]
      refine or_congr ?_ Iff.rfl
      simp only [decide_eq_true_eq,Slot.bytes,Slot.stop,Set.mem_Ico]
      omega
    · rw [hq q hq' hqp,h.bit q hq' j hj]
      refine (or_iff_right ?_).symm
      simp only [Slot.bytes,Slot.stop,Set.mem_Ico]
      omega

theorem add_page (h : Marked pages map live) (hp : 1024 ∣ p) (hn : p ∉ pages)
    (hq : ∀ q ∈ pages, map' q = map q) (hnew : map' p = 0x80000000#32) :
    Marked (p :: pages) map' live where
  aligned := by
    intro q hq'
    rcases List.mem_cons.mp hq' with rfl | hq'
    · exact hp
    · exact h.aligned q hq'
  slot := by
    intro a ha
    obtain ⟨q,hq',hw⟩ := h.slot a ha
    exact ⟨q,List.mem_cons_of_mem _ hq',hw⟩
  apart := h.apart
  top := by
    intro q hq'
    rcases List.mem_cons.mp hq' with rfl | hq'
    · rw [hnew]
      decide
    · rw [hq q hq']
      exact h.top q hq'
  bit := by
    intro q hq' j hj
    rcases List.mem_cons.mp hq' with rfl | hq'
    · have hz : (0x80000000#32).getLsbD j = false := by
        have h31 : 0x80000000#32 = BitVec.twoPow 32 31 := rfl
        rw [h31,BitVec.getLsbD_twoPow]
        simp only [Bool.and_eq_false_iff,decide_eq_false_iff_not]
        omega
      rw [hnew,hz]
      refine ⟨fun hf => absurd hf (by simp),?_⟩
      rintro ⟨a,ha,hx⟩
      obtain ⟨r,hr,hw⟩ := h.slot a ha
      have := hw.page (h.aligned r hr) hx
      have hrq : r = q := by omega
      exact absurd (hrq ▸ hr) hn
    · rw [hq q hq']
      exact h.bit q hq' j hj

theorem free (h : Marked pages map live) (hp : p ∈ pages) (ha : a ∈ live)
    (hai : a.addr = p + 32 * i) (hn : 0 < a.n) (hle : i + a.n ≤ 31)
    (hq : ∀ q ∈ pages, q ≠ p → map' q = map q)
    (hbit : ∀ j < 32, (map' p).getLsbD j =
      ((map p).getLsbD j && !decide (i ≤ j ∧ j < i + a.n))) :
    Marked pages map' (live.erase a) where
  aligned := h.aligned
  slot := fun b hb => h.slot b (List.mem_of_mem_erase hb)
  apart := h.apart.sublist List.erase_sublist
  top := by
    intro q hq'
    by_cases hqp : q = p
    · subst hqp
      rw [hbit 31 (by omega),h.top q hq']
      simp only [Bool.true_and,Bool.not_eq_true',decide_eq_false_iff_not]
      omega
    · rw [hq q hq' hqp]
      exact h.top q hq'
  bit := by
    intro q hq' j hj
    have hdp := h.aligned p hp
    have hdq := h.aligned q hq'
    have hnd : live.Nodup := by
      refine List.nodup_iff_forall_not_duplicate.mpr (fun b hd => ?_)
      have hap := h.apart.sublist (List.duplicate_iff_sublist.mp hd)
      have hself : Slot.Apart b b := by simpa using hap
      obtain ⟨r,-,k,-,hpos,-⟩ := h.slot b hd.mem
      simp only [Slot.Apart,Slot.stop] at hself
      omega
    -- An allocation other than `a` shares no block with it.
    have hother : ∀ b ∈ live, b ≠ a → ∀ x, x ∈ b.bytes → x ∉ a.bytes := by
      intro b hb hne x hxb hxa
      have := h.apart.forall hb ha hne
      simp only [Slot.Apart,Slot.bytes,Slot.stop,Set.mem_Ico] at *
      omega
    have hmem : (∃ b ∈ live.erase a, q + 32 * j ∈ b.bytes) ↔
        (∃ b ∈ live, q + 32 * j ∈ b.bytes) ∧ q + 32 * j ∉ a.bytes := by
      constructor
      · rintro ⟨b,hb,hx⟩
        obtain ⟨hne,hb⟩ := hnd.mem_erase_iff.mp hb
        exact ⟨⟨b,hb,hx⟩,hother b hb hne _ hx⟩
      · rintro ⟨⟨b,hb,hx⟩,hxa⟩
        refine ⟨b,hnd.mem_erase_iff.mpr ⟨?_,hb⟩,hx⟩
        rintro rfl
        exact hxa hx
    rw [hmem]
    by_cases hqp : q = p
    · subst hqp
      rw [hbit j (by omega),Bool.and_eq_true,h.bit q hq' j hj]
      refine and_congr_right (fun _ => ?_)
      simp only [Bool.not_eq_true',decide_eq_false_iff_not,Slot.bytes,Slot.stop,Set.mem_Ico]
      omega
    · rw [hq q hq' hqp,h.bit q hq' j hj]
      refine (and_iff_left ?_).symm
      simp only [Slot.bytes,Slot.stop,Set.mem_Ico]
      omega

theorem empty_page (h : Marked pages map live) (hp : p ∈ pages) (he : map p = 0x80000000#32)
    (ha : a ∈ live) : ¬ a.Within p := by
  rintro ⟨i,hai,hn,hle⟩
  have hset := (h.bit p hp i (by omega)).mpr
    ⟨a,ha,by simp only [Slot.bytes,Slot.stop,Set.mem_Ico]; omega⟩
  have h31 : 0x80000000#32 = BitVec.twoPow 32 31 := rfl
  rw [he,h31,BitVec.getLsbD_twoPow] at hset
  simp only [Bool.and_eq_true,decide_eq_true_eq] at hset
  omega

theorem drop_page (h : Marked pages map live) (hp : p ∈ pages) (he : map p = 0x80000000#32) :
    Marked (pages.erase p) map live where
  aligned := fun q hq => h.aligned q (List.mem_of_mem_erase hq)
  slot := by
    intro a ha
    obtain ⟨q,hq,hw⟩ := h.slot a ha
    have hne : q ≠ p := by
      rintro rfl
      exact h.empty_page hp he ha hw
    exact ⟨q,(List.mem_erase_of_ne hne).mpr hq,hw⟩
  apart := h.apart
  top := fun q hq => h.top q (List.mem_of_mem_erase hq)
  bit := fun q hq => h.bit q (List.mem_of_mem_erase hq)

end Marked
end RoscoM68k
