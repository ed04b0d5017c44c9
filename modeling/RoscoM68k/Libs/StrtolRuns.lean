import RoscoM68k.Libs.Strtol

namespace RoscoM68k

-- What base 16 skips.
def afterPrefix (base : Nat) : List UInt8 → List UInt8
  | [] => []
  | [c] => [c]
  | c :: d :: cs => if base = 16 ∧ c = 0x30 ∧ (d = 0x78 ∨ d = 0x58) then cs else c :: d :: cs

section Chars

variable {m : Mem} {a q : Nat} {c k : UInt8} {bs cs : List UInt8}

theorem charAt_iff (m : Mem) (a : Nat) (k : UInt8) : charAt m a = signedChar k ↔ m a = k :=
  signedChar_injective.eq_iff

theorem head_iff (h : StrAt m q cs) (hk : k ≠ 0) :
    charAt m q = signedChar k ↔ cs.head? = some k := by
  rw [charAt_iff]
  cases cs with
  | nil =>
    have hz : m q = 0 := h
    rw [hz]
    exact iff_of_false hk.symm nofun
  | cons c cs =>
    rw [h.2.1,List.head?_cons,Option.some.injEq]

theorem charAt_digit (h : StrAt m q (c :: cs)) : digitOf (charAt m q) = digitOf (signedChar c) := by
  rw [charAt,h.2.1]

theorem digitOf_nul : digitOf (signedChar 0) = none := by decide

theorem skipBlanks_gives (h : StrAt m a bs) : ∃ q, StrAt m q (bs.dropWhile (· = 0x20)) ∧
    q + (bs.dropWhile (· = 0x20)).length = a + bs.length ∧
    Gives (skipBlanks m a) (charAt m q,q + 1) := by
  induction bs generalizing a with
  | nil =>
    have hblank : ¬ charAt m a = 0x20 := fun he =>
      nomatch (head_iff (k := 0x20) h (by decide)).mp he
    refine ⟨a,h,rfl,.succ (.of_eq fun n => ?_)⟩
    rw [skipBlanks,if_neg hblank]
  | cons c bs ih =>
    have hblank : charAt m a = 0x20 ↔ c = 0x20 := by
      rw [← h.2.1]
      exact charAt_iff m a 0x20
    by_cases hc : c = 0x20
    · obtain ⟨q,hq,hlen,hrun⟩ := ih h.2.2
      have hdrop : (c :: bs).dropWhile (· = 0x20) = bs.dropWhile (· = 0x20) :=
        List.dropWhile_cons_of_pos (decide_eq_true hc)
      have hnext : (fun n => skipBlanks m a (n + 1)) = skipBlanks m (a + 1) := by
        funext n
        rw [skipBlanks,if_pos (hblank.mpr hc)]
      refine ⟨q,hdrop ▸ hq,?_,.succ (hnext ▸ hrun)⟩
      rw [hdrop,hlen,List.length_cons]
      omega
    · have hdrop : (c :: bs).dropWhile (· = 0x20) = c :: bs :=
        List.dropWhile_cons_of_neg (by simpa using hc)
      rw [hdrop]
      refine ⟨a,h,rfl,.succ (.of_eq fun n => ?_)⟩
      rw [skipBlanks,if_neg (fun he => hc (hblank.mp he))]

-- The char and the pointer of the scanner when it has passed a sign, if there is one.
theorem sign_passed (h : StrAt m a (bs.dropWhile (· = 0x20))) :
    ∃ q, StrAt m q (unsignedPart bs) ∧
      q + (unsignedPart bs).length = a + (bs.dropWhile (· = 0x20)).length ∧
      (if charAt m a = 0x2d ∨ charAt m a = 0x2b then (charAt m (a + 1),a + 1 + 1)
        else (charAt m a,a + 1)) = (charAt m q,q + 1) := by
  have hminus := head_iff (k := 0x2d) h (by decide)
  have hplus := head_iff (k := 0x2b) h (by decide)
  change charAt m a = 0x2d ↔ _ at hminus
  change charAt m a = 0x2b ↔ _ at hplus
  rw [unsignedPart]
  cases hcs : bs.dropWhile (· = 0x20) with
  | nil =>
    rw [hcs] at h hminus hplus
    refine ⟨a,h,rfl,if_neg ?_⟩
    rintro (hs | hs)
    · exact nomatch hminus.mp hs
    · exact nomatch hplus.mp hs
  | cons c cs =>
    rw [hcs] at h hminus hplus
    rw [List.head?_cons,Option.some.injEq] at hminus hplus
    have hsign := or_congr hminus hplus
    dsimp only
    by_cases hs : c = 0x2d ∨ c = 0x2b
    · rw [if_pos hs,if_pos (hsign.mpr hs)]
      refine ⟨a + 1,h.2.2,?_,rfl⟩
      rw [List.length_cons]
      omega
    · rw [if_neg hs,if_neg (fun hc => hs (hsign.mp hc))]
      exact ⟨a,h,rfl,rfl⟩

theorem prefix_passed {base : Nat} (hb : base ≠ 0) (h : StrAt m a cs) :
    ∃ q, StrAt m q (afterPrefix base cs) ∧ q + (afterPrefix base cs).length = a + cs.length ∧
      (if ((base : Int) = 0 ∨ (base : Int) = 16) ∧ charAt m a = 0x30 ∧
          (charAt m (a + 1) = 0x78 ∨ charAt m (a + 1) = 0x58) then
        ((16 : Int),charAt m (a + 1 + 1),a + 1 + 2)
      else ((base : Int),charAt m a,a + 1)) = ((base : Int),charAt m q,q + 1) := by
  have hbase : ((base : Int) = 0 ∨ (base : Int) = 16) ↔ base = 16 := by omega
  have hzero := head_iff (k := 0x30) h (by decide)
  change charAt m a = 0x30 ↔ _ at hzero
  cases cs with
  | nil => exact ⟨a,h,rfl,if_neg (fun hp => nomatch hzero.mp hp.2.1)⟩
  | cons c cs =>
    have hx := head_iff (k := 0x78) h.2.2 (by decide)
    have hX := head_iff (k := 0x58) h.2.2 (by decide)
    change charAt m (a + 1) = 0x78 ↔ _ at hx
    change charAt m (a + 1) = 0x58 ↔ _ at hX
    cases cs with
    | nil =>
      refine ⟨a,h,rfl,if_neg ?_⟩
      rintro ⟨_,_,hp | hp⟩
      · exact nomatch hx.mp hp
      · exact nomatch hX.mp hp
    | cons d cs =>
      rw [List.head?_cons,Option.some.injEq] at hzero hx hX
      have hskip := and_congr hbase (and_congr hzero (or_congr hx hX))
      rw [afterPrefix]
      by_cases hp : base = 16 ∧ c = 0x30 ∧ (d = 0x78 ∨ d = 0x58)
      · rw [if_pos hp,if_pos (hskip.mpr hp)]
        refine ⟨a + 1 + 1,h.2.2.2.2,?_,?_⟩
        · simp only [List.length_cons]
          omega
        · rw [hp.1]
          rfl
      · rw [if_neg hp,if_neg (fun hc => hp (hskip.mp hc))]
        exact ⟨a,h,rfl,rfl⟩

end Chars

-- `acc` and `any` after digits of the value `v`, where the number may go up to `lim`.
def Accumulated (lim v acc : Nat) (any : Int) : Prop :=
  0 ≤ any ∧ acc = v ∧ v ≤ lim ∨ any < 0 ∧ lim < v

section Digits

variable {m : Mem} {q base lim v acc d : Nat} {any : Int} {cs : List UInt8}

-- The comparisons with the cutoff say whether one digit more goes over the limit.
theorem over_iff (hb : 0 < base) (hd : d < base) :
    lim / base < acc ∨ (acc = lim / base ∧ lim % base < d) ↔ lim < acc * base + d := by
  obtain ⟨c,hc⟩ : ∃ c, c = lim / base := ⟨_,rfl⟩
  obtain ⟨r,hr⟩ : ∃ r, r = lim % base := ⟨_,rfl⟩
  have hlim : lim = c * base + r := by
    rw [hc,hr,Nat.mul_comm]
    exact (Nat.div_add_mod lim base).symm
  have hlt : r < base := hr ▸ Nat.mod_lt lim hb
  rw [← hc,← hr,hlim]
  obtain h | rfl | h := Nat.lt_trichotomy acc c
  · have hle : (acc + 1) * base ≤ c * base := Nat.mul_le_mul_right base h
    rw [Nat.add_mul,Nat.one_mul] at hle
    omega
  · omega
  · have hle : (c + 1) * base ≤ acc * base := Nat.mul_le_mul_right base h
    rw [Nat.add_mul,Nat.one_mul] at hle
    omega

theorem Accumulated.over (h : Accumulated lim v acc any) (hb : 0 < base) (hd : d < base)
    (ho : any < 0 ∨ lim / base < acc ∨ (acc = lim / base ∧ lim % base < d)) :
    Accumulated lim (v * base + d) acc (-1) := by
  refine .inr ⟨by decide,?_⟩
  obtain ⟨hany,rfl,_⟩ | ⟨_,hv⟩ := h
  · exact (over_iff hb hd).mp (ho.resolve_left (not_lt.mpr hany))
  · have hmul : v * 1 ≤ v * base := Nat.mul_le_mul_left v hb
    omega

theorem Accumulated.digit (h : Accumulated lim v acc any) (hb : 0 < base) (hd : d < base)
    (hlim : lim < 4294967296)
    (ho : ¬ (any < 0 ∨ lim / base < acc ∨ (acc = lim / base ∧ lim % base < d))) :
    Accumulated lim (v * base + d) ((acc * base + d) % 4294967296) 1 := by
  rw [not_or,over_iff hb hd] at ho
  obtain ⟨_,rfl,_⟩ | ⟨hany,_⟩ := h
  · have hle : acc * base + d ≤ lim := by omega
    refine .inl ⟨by decide,Nat.mod_eq_of_lt (by omega),hle⟩
  · exact absurd hany ho.1

theorem strtolLoop_gives (h : StrAt m q cs) (hb : 0 < base) (hlim : lim < 4294967296)
    (ha : Accumulated lim v acc any) :
    ∃ acc' any', Gives (strtolLoop m base (lim / base) (lim % base) acc any (charAt m q) (q + 1))
        (acc',any',q + (cs.takeWhile (isDigit base)).length + 1) ∧
      Accumulated lim (valueFrom base v (cs.takeWhile (isDigit base))) acc' any' := by
  induction cs generalizing q v acc any with
  | nil =>
    have hnone : digitOf (charAt m q) = none := by
      rw [charAt,show m q = 0 from h]
      exact digitOf_nul
    refine ⟨acc,any,.succ (.of_eq fun n => ?_),ha⟩
    rw [strtolLoop,hnone]
    rfl
  | cons c cs ih =>
    cases hd : digitOf (signedChar c) with
    | none =>
      have hstop : isDigit base c = false := by rw [isDigit,hd]; rfl
      rw [List.takeWhile_cons_of_neg (by rw [hstop]; decide)]
      refine ⟨acc,any,.succ (.of_eq fun n => ?_),ha⟩
      rw [strtolLoop,charAt_digit h,hd]
      rfl
    | some d =>
      have hdigit : isDigit base c = decide (d < base) := by rw [isDigit,hd]; rfl
      by_cases hlt : d < base
      · have htake : (c :: cs).takeWhile (isDigit base) = c :: cs.takeWhile (isDigit base) :=
          List.takeWhile_cons_of_pos (hdigit.trans (decide_eq_true hlt))
        have hlen : q + (c :: cs.takeWhile (isDigit base)).length + 1 =
            q + 1 + (cs.takeWhile (isDigit base)).length + 1 := by
          rw [List.length_cons]
          omega
        have hvalue : valueFrom base v (c :: cs.takeWhile (isDigit base)) =
            valueFrom base (v * base + d) (cs.takeWhile (isDigit base)) := by
          rw [valueFrom,List.foldl_cons,hd]
          rfl
        rw [htake,hlen,hvalue]
        by_cases ho : any < 0 ∨ lim / base < acc ∨ (acc = lim / base ∧ lim % base < d)
        · obtain ⟨acc',any',hrun,hacc⟩ := ih h.2.2 (ha.over hb hlt ho)
          refine ⟨acc',any',.succ ?_,hacc⟩
          simpa only [strtolLoop,charAt_digit h,hd,if_neg (not_le.mpr hlt),if_pos ho] using hrun
        · obtain ⟨acc',any',hrun,hacc⟩ := ih h.2.2 (ha.digit hb hlt hlim ho)
          refine ⟨acc',any',.succ ?_,hacc⟩
          simpa only [strtolLoop,charAt_digit h,hd,if_neg (not_le.mpr hlt),if_neg ho] using hrun
      · have hstop : isDigit base c = false := hdigit.trans (decide_eq_false hlt)
        rw [List.takeWhile_cons_of_neg (by rw [hstop]; decide)]
        refine ⟨acc,any,.succ (.of_eq fun n => ?_),ha⟩
        rw [strtolLoop,charAt_digit h,hd]
        dsimp only
        rw [if_pos (not_lt.mp hlt)]
        rfl

end Digits

-- The digits that are read, and their number with its sign.
def digitsOf (base : Nat) (bs : List UInt8) : List UInt8 :=
  (afterPrefix base (unsignedPart bs)).takeWhile (isDigit base)

def numberOf (base : Nat) (bs : List UInt8) : Int :=
  if Negative bs then -(valueFrom base 0 (digitsOf base bs) : Int)
  else valueFrom base 0 (digitsOf base bs)

section Results

variable {m : Mem} {a base : Nat} {bs : List UInt8}

theorem toLong_result {lim v acc : Nat} {any : Int} {neg : Prop} [Decidable neg]
    (hlim : lim = if neg then 2147483648 else 2147483647) (h : Accumulated lim v acc any) :
    toLong (if any < 0 then if neg then 2147483648 else 2147483647
      else if neg then (4294967296 - acc) % 4294967296 else acc) =
      clamp (if neg then -(v : Int) else v) := by
  unfold toLong clamp LONG_MIN LONG_MAX
  by_cases hn : neg
  · simp only [if_pos hn] at hlim ⊢
    obtain ⟨hany,rfl,hv⟩ | ⟨hany,hv⟩ := h
    · rw [if_neg (not_lt.mpr hany)]
      split <;> omega
    · rw [if_pos hany]
      split <;> omega
  · simp only [if_neg hn] at hlim ⊢
    obtain ⟨hany,rfl,hv⟩ | ⟨hany,hv⟩ := h
    · rw [if_neg (not_lt.mpr hany)]
      split <;> omega
    · rw [if_pos hany]
      split <;> omega

theorem strtol_gives (h : StrAt m a bs) (hb : 2 ≤ base) (hb' : base ≤ 36) :
    Gives (strtol m a base) (clamp (numberOf base bs),
      a + bs.length - (afterPrefix base (unsignedPart bs)).length +
        (digitsOf base bs).length) := by
  obtain ⟨q0,h0,hlen0,hblank⟩ := skipBlanks_gives h
  obtain ⟨q1,h1,hlen1,hsign⟩ := sign_passed h0
  have hpositive : base ≠ 0 := by omega
  obtain ⟨q2,h2,hlen2,hskip⟩ := prefix_passed hpositive h1
  have hneg : charAt m q0 = 0x2d ↔ Negative bs := head_iff (k := 0x2d) h0 (by decide)
  obtain ⟨lim,hlim⟩ : ∃ lim, lim = if charAt m q0 = 0x2d then 2147483648 else 2147483647 := ⟨_,rfl⟩
  have hlt : lim < 4294967296 := by
    rw [hlim]
    split <;> decide
  have hstart : Accumulated lim 0 0 0 := .inl ⟨le_rfl,rfl,lim.zero_le⟩
  obtain ⟨acc,any,hloop,hacc⟩ := strtolLoop_gives h2 (by omega : 0 < base) hlt hstart
  have hresult := toLong_result hlim hacc
  have hbase : ¬ ((base : Int) < 0 ∨ (base : Int) = 1 ∨ 36 < (base : Int)) := by omega
  have hplain : ¬ (base : Int) = 0 := by omega
  have hend : a + bs.length - (afterPrefix base (unsignedPart bs)).length +
      (digitsOf base bs).length = q2 + (digitsOf base bs).length + 1 - 1 := by omega
  have hnumber : numberOf base bs = if charAt m q0 = 0x2d then
      -(valueFrom base 0 (digitsOf base bs) : Int) else valueFrom base 0 (digitsOf base bs) := by
    rw [numberOf]
    simp only [hneg]
  rw [hend,hnumber]
  unfold digitsOf
  rw [← hresult]
  change Gives (fun n => strtol m a base n) _
  simp only [strtol,if_neg hbase]
  refine Gives.bind hblank ?_
  dsimp only
  rw [hsign]
  dsimp only
  rw [hskip]
  dsimp only
  rw [if_neg hplain,Int.toNat_natCast,← hlim]
  refine Gives.bind hloop (.of_eq fun n => ?_)
  rfl

end Results
end RoscoM68k
