import RoscoM68k.Base.ByteStrings

namespace RoscoM68k

-- Plain char is signed.
def signedChar (b : UInt8) : Int := b.toInt8.toInt

def unsignedChar (b : UInt8) : Int := b.toNat

def strcmp (m : Mem) (s1 s2 : Nat) : Nat → Option Int
  | 0 => none
  | n + 1 =>
    let c1 := m s1
    if c1 ≠ 0 then
      let c2 := m s2
      if c2 = 0 then some 1
      else if c1 ≠ c2 then some (signedChar c1 - signedChar c2)
      else strcmp m (s1 + 1) (s2 + 1) n
    else if m s2 ≠ 0 then some (-1)
    else some 0

-- The loop, with the `result` of the round before.
def strncmpLoop (m : Mem) (p1 p2 : Nat) (result : Int) : Nat → Int
  | 0 => result
  | n + 1 =>
    let result := unsignedChar (m p1) - unsignedChar (m p2)
    if result = 0 then
      if m p1 = 0 then result else strncmpLoop m (p1 + 1) (p2 + 1) result n
    else result

def strncmp (m : Mem) (s1 s2 n : Nat) : Int := if s1 = s2 then 0 else strncmpLoop m s1 s2 0 n

-- The first bytes that differ, if any, are both below 0x80 or both not.
def SameHalf : List UInt8 → List UInt8 → Prop
  | c :: s, d :: t => if c = d then SameHalf s t else (c < 0x80 ↔ d < 0x80)
  | [], _ => True
  | _ :: _, [] => True

section Compare

variable {m : Mem} {a b c : Nat} {s t u : List UInt8} {r : Int}

theorem signedChar_eq (b : UInt8) :
    signedChar b = if b < 0x80 then (b.toNat : Int) else b.toNat - 256 := by
  have hint : signedChar b = b.toBitVec.toInt := rfl
  have h80 : b < 0x80 ↔ b.toNat < 128 := UInt8.lt_iff_toNat_lt
  have hnat : b.toBitVec.toNat = b.toNat := rfl
  rw [hint,BitVec.toInt_eq_toNat_cond,hnat]
  simp only [h80]
  split <;> split <;> omega

theorem signedChar_injective : Function.Injective signedChar := by
  intro x y h
  have hx := x.toNat_lt
  have hy := y.toNat_lt
  rw [signedChar_eq,signedChar_eq] at h
  simp only [UInt8.lt_iff_toNat_lt] at h
  refine UInt8.toNat_inj.mp ?_
  split at h <;> split at h <;> omega

theorem unsignedChar_injective : Function.Injective unsignedChar := by
  intro x y h
  exact UInt8.toNat_inj.mp (Int.ofNat_inj.mp h)

theorem unsignedChar_pos {d : UInt8} (h : d ≠ 0) : 0 < unsignedChar d := by
  have hne : d.toNat ≠ 0 := fun hz => h (UInt8.toNat_inj.mp hz)
  rw [unsignedChar]
  omega

-- strcmp orders strings by the signed values of their bytes, but no byte is below the end.
theorem strcmp_gives (hs : StrAt m a s) (ht : StrAt m b t) :
    ∃ r, Gives (strcmp m a b) r ∧ Orders signedChar s t r := by
  induction s generalizing a b t with
  | nil =>
    have hz : ¬ m a ≠ 0 := not_not.mpr hs
    cases t with
    | nil =>
      have hz' : ¬ m b ≠ 0 := not_not.mpr ht
      refine ⟨0,.succ ⟨0,fun k _ => ?_⟩,.nil⟩
      change strcmp m a b (k + 1) = _
      rw [strcmp,if_neg hz,if_neg hz']
    | cons d t =>
      have hd : m b ≠ 0 := ht.2.1 ▸ ht.1
      refine ⟨-1,.succ ⟨0,fun k _ => ?_⟩,.shorter (by decide)⟩
      change strcmp m a b (k + 1) = _
      rw [strcmp,if_neg hz,if_pos hd]
  | cons c s ih =>
    have hc : m a ≠ 0 := hs.2.1 ▸ hs.1
    cases t with
    | nil =>
      have hz : m b = 0 := ht
      refine ⟨1,.succ ⟨0,fun k _ => ?_⟩,.longer (by decide)⟩
      change strcmp m a b (k + 1) = _
      rw [strcmp,if_pos hc,if_pos hz]
    | cons d t =>
      have hd : m b ≠ 0 := ht.2.1 ▸ ht.1
      have hround (n : Nat) : strcmp m a b (n + 1) =
          if c ≠ d then some (signedChar c - signedChar d)
          else strcmp m (a + 1) (b + 1) n := by
        rw [strcmp,if_pos hc,if_neg hd,hs.2.1,ht.2.1]
      by_cases he : c = d
      · obtain rfl := he
        obtain ⟨r,hrun,hr⟩ := ih hs.2.2 ht.2.2
        have hsame : (fun n => strcmp m a b (n + 1)) = strcmp m (a + 1) (b + 1) := by
          funext n
          rw [hround,if_neg (not_not.mpr rfl)]
        exact ⟨r,.succ (hsame ▸ hrun),hr.cons c⟩
      · refine ⟨signedChar c - signedChar d,.succ ⟨0,fun k _ => ?_⟩,
          .differ (fun hk => he (signedChar_injective hk)) rfl⟩
        exact (hround k).trans (if_pos he)

theorem strncmpLoop_orders (hs : StrAt m a s) (ht : StrAt m b t) {n : Nat} (hn : s.length < n)
    (hn' : t.length < n) (result : Int) :
    Orders unsignedChar s t (strncmpLoop m a b result n) := by
  induction s generalizing a b t n result with
  | nil =>
    obtain ⟨n,rfl⟩ : ∃ k, n = k + 1 := ⟨n - 1,by omega⟩
    rw [strncmpLoop]
    cases t with
    | nil =>
      rw [show m a = 0 from hs,show m b = 0 from ht]
      exact .nil
    | cons d t =>
      have hpos := unsignedChar_pos ht.1
      have hlt : unsignedChar 0 - unsignedChar d < 0 := by
        change 0 - unsignedChar d < 0
        omega
      rw [show m a = 0 from hs,ht.2.1,if_neg (ne_of_lt hlt)]
      exact .shorter hlt
  | cons c s ih =>
    obtain ⟨n,rfl⟩ : ∃ k, n = k + 1 := ⟨n - 1,by omega⟩
    rw [strncmpLoop,hs.2.1]
    cases t with
    | nil =>
      have hpos := unsignedChar_pos hs.1
      have hlt : 0 < unsignedChar c - unsignedChar 0 := by
        change 0 < unsignedChar c - 0
        omega
      rw [show m b = 0 from ht,if_neg (ne_of_gt hlt)]
      exact .longer hlt
    | cons d t =>
      rw [ht.2.1]
      by_cases he : c = d
      · obtain rfl := he
        rw [if_pos (sub_self _),if_neg hs.1]
        exact (ih hs.2.2 ht.2.2 (Nat.lt_of_succ_lt_succ hn) (Nat.lt_of_succ_lt_succ hn') _).cons c
      · have hk : unsignedChar c ≠ unsignedChar d := fun hk => he (unsignedChar_injective hk)
        rw [if_neg (sub_ne_zero.mpr hk)]
        exact .differ hk rfl

theorem strncmp_orders (hs : StrAt m a s) (ht : StrAt m b t) {n : Nat} (hn : s.length < n)
    (hn' : t.length < n) : Orders unsignedChar s t (strncmp m a b n) := by
  rw [strncmp]
  split
  · next he =>
    obtain rfl := he
    obtain rfl := hs.unique ht
    exact ⟨iff_of_false (lt_irrefl 0) (lt_irrefl _),iff_of_false (lt_irrefl 0) (lt_irrefl _)⟩
  · exact strncmpLoop_orders hs ht hn hn' 0

-- Signed and unsigned bytes are ordered alike in each half.
theorem signed_lt_iff {x y : UInt8} (hne : x ≠ y) :
    ((signedChar x < signedChar y ↔ unsignedChar x < unsignedChar y) ↔
      (x < 0x80 ↔ y < 0x80)) := by
  have hx := x.toNat_lt
  have hy := y.toNat_lt
  have hn : x.toNat ≠ y.toNat := fun he => hne (UInt8.toNat_inj.mp he)
  have h80 : (0x80 : UInt8).toNat = 128 := rfl
  rw [signedChar_eq,signedChar_eq]
  simp only [unsignedChar,UInt8.lt_iff_toNat_lt,h80]
  split <;> split <;> omega

theorem signs_agree_iff {x y : Int} (hx : Orders signedChar s t x)
    (hy : Orders unsignedChar s t y) :
    x.sign = y.sign ↔ SameHalf s t := by
  have hsign : x.sign = y.sign ↔ (s.map signedChar < t.map signedChar ↔
      s.map unsignedChar < t.map unsignedChar) := by
    rw [← hx.below,← hy.below]
    have hz : x = 0 ↔ y = 0 :=
      (hx.zero_iff signedChar_injective).trans (hy.zero_iff unsignedChar_injective).symm
    obtain h1 | rfl | h1 := lt_trichotomy x 0
    · rw [Int.sign_eq_neg_one_of_neg h1,eq_comm,Int.sign_eq_neg_one_iff_neg]
      exact ⟨fun h2 => iff_of_true h1 h2,fun he => he.mp h1⟩
    · rw [hz.mp rfl]
      exact iff_of_true rfl Iff.rfl
    · rw [Int.sign_eq_one_of_pos h1,eq_comm,Int.sign_eq_one_iff_pos]
      constructor
      · intro h2
        exact iff_of_false (by omega) (by omega)
      · intro he
        have h2 : ¬ y < 0 := fun h2 => absurd (he.mpr h2) (by omega)
        have h3 : y ≠ 0 := fun h3 => absurd (hz.mpr h3) (by omega)
        omega
  rw [hsign]
  clear hsign hx hy
  induction s generalizing t with
  | nil =>
    cases t with
    | nil => exact iff_of_true (iff_of_false (lt_irrefl _) (lt_irrefl _)) trivial
    | cons d t =>
      exact iff_of_true (iff_of_true (List.nil_lt_cons _ _) (List.nil_lt_cons _ _)) trivial
  | cons c s ih =>
    cases t with
    | nil => exact iff_of_true (iff_of_false (List.not_lt_nil _) (List.not_lt_nil _)) trivial
    | cons d t =>
      rw [SameHalf]
      by_cases he : c = d
      · obtain rfl := he
        rw [if_pos rfl]
        refine Iff.trans ?_ ih
        simp only [List.map_cons,List.cons_lt_cons_self]
      · have h1 : signedChar c ≠ signedChar d := fun hk => he (signedChar_injective hk)
        have h2 : unsignedChar c ≠ unsignedChar d := fun hk => he (unsignedChar_injective hk)
        rw [if_neg he,← signed_lt_iff he]
        simp only [List.map_cons,List.cons_lt_cons_iff,h1,h2,false_and,or_false]

end Compare

-- What the comparisons of `s` with `t` come to, both ways, and those of both with a third string.
structure Comparisons (m : Mem) (a b c : Nat) (st ts tu su : Int) : Prop where
  forth : Gives (strcmp m a b) st
  back : Gives (strcmp m b a) ts
  next : Gives (strcmp m b c) tu
  far : Gives (strcmp m a c) su

-- strcmp is an order of strings, and strncmp finds the same strings equal.
structure OrdersStrings (s t : List UInt8) (st ts tu su sn : Int) : Prop where
  zero : st = 0 ↔ s = t
  nzero : sn = 0 ↔ s = t
  anti : st.sign = -ts.sign
  total : st ≤ 0 ∨ ts ≤ 0
  trans : st ≤ 0 → tu ≤ 0 → su ≤ 0

theorem strings_compared (m : Mem) {a b c n : Nat} {s t u : List UInt8} (hs : StrAt m a s)
    (ht : StrAt m b t) (hu : StrAt m c u) (hn : s.length < n) (hn' : t.length < n) :
    ∃ st ts tu su, Comparisons m a b c st ts tu su ∧
      OrdersStrings s t st ts tu su (strncmp m a b n) ∧
      (st.sign = (strncmp m a b n).sign ↔ SameHalf s t) := by
  obtain ⟨st,hst,h⟩ := strcmp_gives hs ht
  obtain ⟨ts,hts,h'⟩ := strcmp_gives ht hs
  obtain ⟨tu,htu,hnext⟩ := strcmp_gives ht hu
  obtain ⟨su,hsu,hfar⟩ := strcmp_gives hs hu
  have hsn := strncmp_orders hs ht hn hn'
  have hanti : st.sign = -ts.sign := by
    rw [← Int.sign_neg]
    exact h.sign_eq h'.swap
  refine ⟨st,ts,tu,su,⟨hst,hts,htu,hsu⟩,⟨h.zero_iff signedChar_injective,
    hsn.zero_iff unsignedChar_injective,hanti,?_,h.trans hnext hfar⟩,signs_agree_iff h hsn⟩
  rw [h.le_iff,h'.le_iff]
  exact le_total _ _

-- The strings "\x80" and "\x01".
def highAndLow : Mem := fun x => if x = 0 then 0x80 else if x = 2 then 1 else 0

theorem strings_compared_high : ∃ st ts tu su, Comparisons highAndLow 0 2 1 st ts tu su ∧
    OrdersStrings [0x80] [1] st ts tu su (strncmp highAndLow 0 2 2) ∧
    (st.sign = (strncmp highAndLow 0 2 2).sign ↔ SameHalf [0x80] [1]) :=
  strings_compared highAndLow (a := 0) (b := 2) (c := 1) (n := 2) (s := [0x80]) (t := [1]) (u := [])
    ⟨by decide,rfl,rfl⟩ ⟨by decide,rfl,rfl⟩ rfl (by decide) (by decide)

-- strcmp finds the first string below the second, strncmp above it.
theorem strings_compared_apart : StrAt highAndLow 0 [0x80] ∧ StrAt highAndLow 2 [1] ∧
    Gives (strcmp highAndLow 0 2) (-129) ∧ strncmp highAndLow 0 2 2 = 127 := by
  refine ⟨⟨by decide,rfl,rfl⟩,⟨by decide,rfl,rfl⟩,⟨1,fun k hk => ?_⟩,by decide⟩
  obtain ⟨j,rfl⟩ : ∃ j, k = j + 1 := ⟨k - 1,by omega⟩
  rfl

end RoscoM68k
