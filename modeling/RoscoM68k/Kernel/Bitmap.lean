import RoscoM68k.Kernel.List

namespace RoscoM68k

-- A register read from a long of memory.
def bits (m : Mem) (a : Nat) : BitVec 32 := BitVec.ofNat 32 (m.readL a)

def lowByte (d : BitVec 32) : BitVec 8 := d.setWidth 8

-- move.b into a data register, which keeps the other three bytes.
def moveByte (b : BitVec 8) (d : BitVec 32) : BitVec 32 := (d &&& 0xFFFFFF00#32) ||| b.setWidth 32

def bitmapMask (d0 : BitVec 32) : BitVec 32 := 1#32 <<< (d0 &&& 0x1f#32).toNat

def bitmapLong (a1 : Nat) (d0 : BitVec 32) : Nat := wrap (a1 + ((d0 >>> 5) <<< 2).toNat)

def bitmapSet (m : Mem) (a1 : Nat) (d0 : BitVec 32) : Mem :=
  let a := bitmapLong a1 d0
  m.writeL a (bits m a ||| bitmapMask d0).toNat

def bitmapClear (m : Mem) (a1 : Nat) (d0 : BitVec 32) : Mem :=
  let a := bitmapLong a1 d0
  m.writeL a (bits m a &&& ~~~bitmapMask d0).toNat

def findBitInByte (d0 d1 : BitVec 32) : BitVec 32 :=
  if d1.getLsbD 0 = false then d0
  else if d1.getLsbD 1 = false then d0 + 1#32
  else if d1.getLsbD 2 = false then d0 + 2#32
  else if d1.getLsbD 3 = false then d0 + 3#32
  else if d1.getLsbD 4 = false then d0 + 4#32
  else if d1.getLsbD 5 = false then d0 + 5#32
  else if d1.getLsbD 6 = false then d0 + 6#32
  else if d1.getLsbD 7 = false then d0 + 7#32
  else 0xFFFFFFFF#32

def bitmapFindClear (d1 : BitVec 32) : BitVec 32 :=
  if d1.setWidth 16 = 0xFFFF#16 then
    let d1 := d1 >>> 8 >>> 8
    if lowByte d1 = 0xFF#8 then findBitInByte 24#32 (d1 >>> 8) else findBitInByte 16#32 d1
  else if lowByte d1 = 0xFF#8 then findBitInByte 8#32 (d1 >>> 8)
  else findBitInByte 0#32 d1

def orLoop : Nat → BitVec 32 → BitVec 32 → BitVec 32
  | 0, d1, _ => d1
  | k + 1, d1, d2 =>
    let d2 := d2 >>> 1 ||| 0x80000000#32
    orLoop k (d1 ||| d2) d2

-- subi.b leaves the upper bytes of d0 alone, and dbra counts its low word down.
def bitmapFindNClear (d0 d1 : BitVec 32) : BitVec 32 :=
  let d0 := moveByte (lowByte d0 - 1#8) d0
  bitmapFindClear (orLoop (d0.toNat % 65536) d1 d1)

section FindClear

variable {d0 d1 d2 x : BitVec 32}

theorem findBitInByte_cases (d0 d1 : BitVec 32) :
    ((∀ j < 8, d1.getLsbD j = true) ∧ findBitInByte d0 d1 = 0xFFFFFFFF#32) ∨
      ∃ j < 8, findBitInByte d0 d1 = d0 + BitVec.ofNat 32 j ∧ d1.getLsbD j = false ∧
        ∀ k < j, d1.getLsbD k = true := by
  unfold findBitInByte
  split_ifs with h0 h1 h2 h3 h4 h5 h6 h7
  · exact .inr ⟨0,by omega,by simp,h0,by omega⟩
  all_goals simp only [Bool.not_eq_false] at *
  · exact .inr ⟨1,by omega,rfl,h1,fun k hk => by interval_cases k; assumption⟩
  · exact .inr ⟨2,by omega,rfl,h2,fun k hk => by interval_cases k <;> assumption⟩
  · exact .inr ⟨3,by omega,rfl,h3,fun k hk => by interval_cases k <;> assumption⟩
  · exact .inr ⟨4,by omega,rfl,h4,fun k hk => by interval_cases k <;> assumption⟩
  · exact .inr ⟨5,by omega,rfl,h5,fun k hk => by interval_cases k <;> assumption⟩
  · exact .inr ⟨6,by omega,rfl,h6,fun k hk => by interval_cases k <;> assumption⟩
  · exact .inr ⟨7,by omega,rfl,h7,fun k hk => by interval_cases k <;> assumption⟩
  · exact .inl ⟨fun j hj => by interval_cases j <;> assumption,trivial⟩

theorem lowByte_full : lowByte x = 0xFF#8 ↔ ∀ j < 8, x.getLsbD j = true := by
  have hones : 0xFF#8 = BitVec.allOnes 8 := rfl
  rw [lowByte,hones,BitVec.eq_of_getLsbD_eq_iff]
  simp only [BitVec.getLsbD_setWidth,BitVec.getLsbD_allOnes]
  exact forall₂_congr (fun j hj => by simp [hj])

theorem lowWord_full : x.setWidth 16 = 0xFFFF#16 ↔ ∀ j < 16, x.getLsbD j = true := by
  have hones : 0xFFFF#16 = BitVec.allOnes 16 := rfl
  rw [hones,BitVec.eq_of_getLsbD_eq_iff]
  simp only [BitVec.getLsbD_setWidth,BitVec.getLsbD_allOnes]
  exact forall₂_congr (fun j hj => by simp [hj])

-- The lowest clear bit, as a search from bit `k` on finds it once all bits below are set.
theorem findBitInByte_at {k : Nat} (hk : k ≤ 24) (hlow : ∀ j < k, x.getLsbD j = true)
    (hin : k < 24 → ∃ j < 8, x.getLsbD (k + j) = false) :
    ((∀ j < 32, x.getLsbD j = true) ∧
        findBitInByte (BitVec.ofNat 32 k) (x >>> k) = 0xFFFFFFFF#32) ∨
      ∃ i < 32, findBitInByte (BitVec.ofNat 32 k) (x >>> k) = BitVec.ofNat 32 i ∧
        x.getLsbD i = false ∧ ∀ j < i, x.getLsbD j = true := by
  have hbelow : ∀ {n : Nat}, (∀ j < n, (x >>> k).getLsbD j = true) →
      ∀ j < k + n, x.getLsbD j = true := by
    intro n hn j hj
    by_cases h : j < k
    · exact hlow j h
    · have := hn (j - k) (by omega)
      rw [BitVec.getLsbD_ushiftRight] at this
      rwa [Nat.add_sub_cancel' (by omega)] at this
  rcases findBitInByte_cases (BitVec.ofNat 32 k) (x >>> k) with ⟨hall,he⟩ | ⟨j,hj,he,hclear,hset⟩
  · refine .inl ⟨?_,he⟩
    have h24 : k = 24 := by
      by_contra hne
      obtain ⟨j,hj,hc⟩ := hin (by omega)
      have := hall j hj
      rw [BitVec.getLsbD_ushiftRight,hc] at this
      exact absurd this (by simp)
    subst h24
    exact hbelow hall
  · refine .inr ⟨k + j,by omega,?_,?_,hbelow hset⟩
    · rw [he,← BitVec.ofNat_add]
    · rwa [BitVec.getLsbD_ushiftRight] at hclear

theorem bitmapFindClear_cases (x : BitVec 32) :
    ((∀ j < 32, x.getLsbD j = true) ∧ bitmapFindClear x = 0xFFFFFFFF#32) ∨
      ∃ i < 32, bitmapFindClear x = BitVec.ofNat 32 i ∧ x.getLsbD i = false ∧
        ∀ j < i, x.getLsbD j = true := by
  have hsh : x >>> 8 >>> 8 = x >>> 16 := (BitVec.shiftRight_add x 8 8).symm
  have hsh' : x >>> 16 >>> 8 = x >>> 24 := (BitVec.shiftRight_add x 16 8).symm
  have hnot : ∀ {y : BitVec 32} {n : Nat}, ¬ (∀ j < n, y.getLsbD j = true) →
      ∃ j < n, y.getLsbD j = false := by
    intro y n h
    push Not at h
    simpa using h
  unfold bitmapFindClear
  simp only [lowWord_full,lowByte_full,hsh,hsh']
  split_ifs with hw hb hb
  · refine findBitInByte_at (le_refl 24) (fun j hj => ?_) (by omega)
    by_cases h : j < 16
    · exact hw j h
    · have := hb (j - 16) (by omega)
      rw [BitVec.getLsbD_ushiftRight] at this
      rwa [Nat.add_sub_cancel' (by omega)] at this
  · refine findBitInByte_at (by omega : 16 ≤ 24) hw (fun _ => ?_)
    obtain ⟨j,hj,hc⟩ := hnot hb
    exact ⟨j,hj,by rwa [BitVec.getLsbD_ushiftRight] at hc⟩
  · refine findBitInByte_at (by omega : 8 ≤ 24) hb (fun _ => ?_)
    obtain ⟨j,hj,hc⟩ := hnot hw
    refine ⟨j - 8,by omega,?_⟩
    have h8 : 8 ≤ j := by
      by_contra h
      rw [hb j (by omega)] at hc
      exact absurd hc (by simp)
    rwa [Nat.add_sub_cancel' h8]
  · refine findBitInByte_at (x := x) (by omega : 0 ≤ 24) (by omega) (fun _ => ?_)
    obtain ⟨j,hj,hc⟩ := hnot hb
    exact ⟨j,hj,by simpa using hc⟩

theorem orLoop_getLsbD (k : Nat) (d1 d2 : BitVec 32) {i : Nat} (hi : i < 32) :
    (orLoop k d1 d2).getLsbD i = true ↔ d1.getLsbD i = true ∨
      ∃ j, 0 < j ∧ j ≤ k ∧ (32 ≤ i + j ∨ d2.getLsbD (i + j) = true) := by
  induction k generalizing d1 d2 with
  | zero =>
    refine ⟨.inl,fun h => h.resolve_right ?_⟩
    rintro ⟨j,h0,h1,-⟩
    omega
  | succ k ih =>
    have htop : ∀ n, (0x80000000#32).getLsbD n = true ↔ n = 31 := by
      intro n
      have h31 : 0x80000000#32 = BitVec.twoPow 32 31 := rfl
      rw [h31,BitVec.getLsbD_twoPow]
      simp [eq_comm]
    rw [orLoop,ih]
    simp only [BitVec.getLsbD_or,BitVec.getLsbD_ushiftRight,Bool.or_eq_true,htop]
    constructor
    · rintro ((h | h | h) | ⟨j,h0,h1,h | h | h⟩)
      · exact .inl h
      · exact .inr ⟨1,by omega,by omega,.inr (by rwa [Nat.add_comm])⟩
      · exact .inr ⟨1,by omega,by omega,.inl (by omega)⟩
      · exact .inr ⟨j + 1,by omega,by omega,.inl (by omega)⟩
      · exact .inr ⟨j + 1,by omega,by omega,.inr (by rwa [show i + (j + 1) = 1 + (i + j) by omega])⟩
      · exact .inr ⟨j + 1,by omega,by omega,.inl (by omega)⟩
    · rintro (h | ⟨j,h0,h1,h⟩)
      · exact .inl (.inl h)
      · by_cases hj : j = 1
        · subst hj
          rcases h with h | h
          · exact .inl (.inr (.inr (by omega)))
          · exact .inl (.inr (.inl (by rwa [Nat.add_comm])))
        · refine .inr ⟨j - 1,by omega,by omega,?_⟩
          rcases h with h | h
          · by_cases h32 : 32 ≤ i + (j - 1)
            · exact .inl h32
            · exact .inr (.inr (by omega))
          · exact .inr (.inl (by rwa [show 1 + (i + (j - 1)) = i + j by omega]))

end FindClear

-- `n` blocks from block `i` on, all of them clear.
def Fits (x : BitVec 32) (n i : Nat) : Prop := i + n ≤ 32 ∧ ∀ j < n, x.getLsbD (i + j) = false

instance (x : BitVec 32) (n i : Nat) : Decidable (Fits x n i) :=
  inferInstanceAs (Decidable (_ ∧ _))

theorem toNat_moveByte (b : BitVec 8) (d : BitVec 32) :
    (moveByte b d).toNat = d.toNat / 256 * 256 + b.toNat := by
  have hd : (d &&& 0xFFFFFF00#32).toNat = d.toNat / 256 * 256 := by
    rw [BitVec.toNat_and]
    exact and_high_mask (k := 8) (by omega) d.isLt
  have hb : (b.setWidth 32).toNat = b.toNat := by
    rw [BitVec.toNat_setWidth]
    exact Nat.mod_eq_of_lt (by omega)
  rw [moveByte,BitVec.toNat_or,hd,hb,Nat.mul_comm]
  exact (Nat.two_pow_add_eq_or_of_lt (i := 8) b.isLt _).symm

theorem lowByte_moveByte (b : BitVec 8) (d : BitVec 32) : lowByte (moveByte b d) = b := by
  refine BitVec.eq_of_toNat_eq ?_
  rw [lowByte,BitVec.toNat_setWidth,toNat_moveByte]
  omega

theorem moveByte_moveByte (b c : BitVec 8) (d : BitVec 32) :
    moveByte b (moveByte c d) = moveByte b d := by
  refine BitVec.eq_of_toNat_eq ?_
  rw [toNat_moveByte,toNat_moveByte,toNat_moveByte]
  omega

theorem orLoop_clear {k i : Nat} {x : BitVec 32} (hi : i < 32) :
    (orLoop k x x).getLsbD i = false ↔ Fits x (k + 1) i := by
  have h := orLoop_getLsbD k x x hi
  constructor
  · intro hc
    have hno := mt h.mpr (by simp [hc])
    obtain ⟨h0,h1⟩ := not_or.mp hno
    have hle : ∀ j, 0 < j → j ≤ k → i + j < 32 ∧ x.getLsbD (i + j) = false := by
      intro j hj hk
      by_contra hb
      refine h1 ⟨j,hj,hk,?_⟩
      by_cases h32 : 32 ≤ i + j
      · exact .inl h32
      · exact .inr (by simpa [show i + j < 32 by omega] using hb)
    refine ⟨?_,fun j hj => ?_⟩
    · by_cases hk : k = 0
      · omega
      · have := (hle k (by omega) le_rfl).1
        omega
    · by_cases hj0 : j = 0
      · subst hj0
        simpa using h0
      · exact (hle j (by omega) (by omega)).2
  · rintro ⟨hle,hf⟩
    rw [← Bool.not_eq_true]
    intro hs
    rcases h.mp hs with h1 | ⟨j,h1,h2,h3⟩
    · have := hf 0 (by omega)
      rw [Nat.add_zero,h1] at this
      exact absurd this (by simp)
    · rw [hf j (by omega)] at h3
      have := h3.resolve_right (by simp)
      omega

-- The lowest place where `n` blocks fit.
def Lowest (x : BitVec 32) (n i : Nat) : Prop := Fits x n i ∧ ∀ j < i, ¬ Fits x n j

-- What the search answers after it has run `k` rounds: the first of `k + 1` clear bits in a row.
theorem findClear_lowest (k : Nat) (x : BitVec 32) :
    ((∀ i, ¬ Fits x (k + 1) i) ∧ bitmapFindClear (orLoop k x x) = 0xFFFFFFFF#32) ∨
      ∃ i, Lowest x (k + 1) i ∧ bitmapFindClear (orLoop k x x) = BitVec.ofNat 32 i := by
  have hset : ∀ {i : Nat}, i < 32 → (orLoop k x x).getLsbD i = true → ¬ Fits x (k + 1) i := by
    intro i hi hs hf
    rw [(orLoop_clear hi).mpr hf] at hs
    exact Bool.false_ne_true hs
  rcases bitmapFindClear_cases (orLoop k x x) with ⟨hall,he⟩ | ⟨i,hi,he,hc,hlow⟩
  · refine .inl ⟨fun i hf => ?_,he⟩
    have hi : i < 32 := by
      have := hf.1
      omega
    exact hset hi (hall i hi) hf
  · have hfits : Fits x (k + 1) i := (orLoop_clear hi).mp hc
    exact .inr ⟨i,⟨hfits,fun j hj => hset (by omega) (hlow j hj)⟩,he⟩

theorem findClear_orLoop (k : Nat) (x : BitVec 32) :
    ((∀ i, ¬ Fits x (k + 1) i) ∧ bitmapFindClear (orLoop k x x) = 0xFFFFFFFF#32) ∨
      ∃ i, Fits x (k + 1) i ∧ bitmapFindClear (orLoop k x x) = BitVec.ofNat 32 i := by
  rcases findClear_lowest k x with hnone | ⟨i,hi,he⟩
  · exact .inl hnone
  · exact .inr ⟨i,hi.1,he⟩

theorem bitmapFindNClear_eq (n : BitVec 8) (d0 d1 : BitVec 32) :
    bitmapFindNClear (moveByte n d0) d1 =
      bitmapFindClear (orLoop ((d0.toNat / 256 * 256 + (n - 1#8).toNat) % 65536) d1 d1) := by
  rw [bitmapFindNClear,lowByte_moveByte,moveByte_moveByte,toNat_moveByte]

-- The first search of a call: d0 holds the byte argument and nothing else.
theorem bitmapFindNClear_clean {n : BitVec 8} {d0 : BitVec 32} (hn : n ≠ 0#8)
    (hd : d0.toNat < 256) (x : BitVec 32) :
    bitmapFindNClear (moveByte n d0) x = bitmapFindClear (orLoop (n.toNat - 1) x x) ∧
      n.toNat - 1 + 1 = n.toNat := by
  have hpos : 0 < n.toNat := by
    have := mt BitVec.eq_of_toNat_eq hn
    simp only [BitVec.toNat_ofNat] at this
    omega
  have hk : (d0.toNat / 256 * 256 + (n - 1#8).toNat) % 65536 = n.toNat - 1 := by
    have hlt := n.isLt
    rw [BitVec.toNat_sub]
    simp only [BitVec.toNat_ofNat]
    omega
  rw [bitmapFindNClear_eq,hk]
  exact ⟨rfl,Nat.sub_add_cancel hpos⟩

theorem bitmapFindNClear_first {n : BitVec 8} {d0 : BitVec 32} (hn : n ≠ 0#8)
    (hd : d0.toNat < 256) (x : BitVec 32) :
    ((∀ i, ¬ Fits x n.toNat i) ∧ bitmapFindNClear (moveByte n d0) x = 0xFFFFFFFF#32) ∨
      ∃ i, Fits x n.toNat i ∧ bitmapFindNClear (moveByte n d0) x = BitVec.ofNat 32 i := by
  obtain ⟨hclean,hlen⟩ := bitmapFindNClear_clean hn hd x
  have h := findClear_orLoop (n.toNat - 1) x
  rw [hlen] at h
  rw [hclean]
  exact h

-- Every search after one that failed: the upper bytes of the -1 are still in d0, and the loop
-- shifts ones in at least $ff00 times.
theorem bitmapFindNClear_again (n : BitVec 8) (x : BitVec 32) :
    bitmapFindNClear (moveByte n 0xFFFFFFFF#32) x = 0xFFFFFFFF#32 := by
  rw [bitmapFindNClear_eq]
  rcases findClear_orLoop _ x with ⟨-,he⟩ | ⟨i,hf,-⟩
  · exact he
  · have hd : (0xFFFFFFFF#32).toNat / 256 * 256 = 4294967040 := rfl
    have h1 := hf.1
    have h2 := (n - 1#8).isLt
    rw [hd] at h1
    omega

-- What a search for `n` clear bits in a row answers.
structure Searched (x : BitVec 32) (n : Nat) (r : BitVec 32) : Prop where
  first : (∃ i, Fits x n i) → ∃ i, Lowest x n i ∧ r = BitVec.ofNat 32 i
  none : r = 0xFFFFFFFF#32 ↔ ∀ i, ¬ Fits x n i

theorem searched_of {x r : BitVec 32} {n : Nat}
    (h : ((∀ i, ¬ Fits x n i) ∧ r = 0xFFFFFFFF#32) ∨
      ∃ i, Lowest x n i ∧ r = BitVec.ofNat 32 i) : Searched x n r := by
  rcases h with ⟨hno,hr⟩ | ⟨i,hlow,hr⟩
  · refine ⟨?_,iff_of_true hr hno⟩
    rintro ⟨i,hf⟩
    exact absurd hf (hno i)
  · refine ⟨fun _ => ⟨i,hlow,hr⟩,iff_of_false ?_ fun hno => hno i hlow.1⟩
    have hi : i ≤ 32 := (Nat.le_add_right i n).trans hlow.1.1
    rw [hr]
    intro he
    have ht := congrArg BitVec.toNat he
    rw [BitVec.toNat_ofNat,Nat.mod_eq_of_lt (by omega)] at ht
    rw [ht] at hi
    exact absurd hi (by decide)

theorem findClear_searched (x : BitVec 32) : Searched x 1 (bitmapFindClear x) :=
  searched_of (findClear_lowest 0 x)

theorem bitmap_search_first (x : BitVec 32) (n : Nat) (hn : 1 ≤ n) (hn' : n ≤ 255) :
    Searched x n (bitmapFindNClear (BitVec.ofNat 32 n) x) ∧
      (n = 1 → bitmapFindNClear (BitVec.ofNat 32 n) x = bitmapFindClear x) ∧
      Searched x 1 (bitmapFindClear x) := by
  have hbyte : (BitVec.ofNat 8 n).toNat = n := by
    rw [BitVec.toNat_ofNat]
    exact Nat.mod_eq_of_lt (by omega)
  have harg : BitVec.ofNat 32 n = moveByte (BitVec.ofNat 8 n) 0#32 := by
    refine BitVec.eq_of_toNat_eq ?_
    rw [toNat_moveByte,hbyte,BitVec.toNat_ofNat,BitVec.toNat_ofNat]
    omega
  have hpos : BitVec.ofNat 8 n ≠ 0#8 := by
    intro he
    rw [he] at hbyte
    exact absurd hbyte (by rw [BitVec.toNat_ofNat]; omega)
  have hzero : (0#32).toNat < 256 := by decide
  obtain ⟨hclean,hlen⟩ := bitmapFindNClear_clean hpos hzero x
  rw [hbyte] at hclean hlen
  rw [harg,hclean]
  refine ⟨searched_of ?_,?_,findClear_searched x⟩
  · have h := findClear_lowest (n - 1) x
    rwa [hlen] at h
  · rintro rfl
    rfl

theorem bitmap_search_three :
    Searched 0x00000009#32 3 (bitmapFindNClear 3#32 0x00000009#32) ∧
      bitmapFindNClear 3#32 0x00000009#32 = 4#32 :=
  ⟨(bitmap_search_first 0x00000009#32 3 (by decide) (by decide)).1,by decide⟩

end RoscoM68k
