import RoscoM68k.Base.Overlay
import RoscoM68k.Libs.StrtolRuns
import Mathlib.Data.List.TakeWhile
import Mathlib.Data.Nat.Digits.Defs

namespace RoscoM68k
open Function

-- A digit, and the digits of a number with the last one first.
def digitByte (r : Nat) : UInt8 := digits.getD r 0

def digitsFromLast (base value : Nat) : List Nat :=
  if value = 0 then [0] else Nat.digits base value

section Digits

variable {base value : Nat}

theorem digitOf_digitByte : ∀ r < 36, digitOf (signedChar (digitByte r)) = some r := by
  decide +kernel

theorem digitsFromLast_small (hb : 2 ≤ base) (h : value / base = 0) :
    digitsFromLast base value = [value % base] := by
  have hlt : value < base := by
    rwa [Nat.div_eq_zero_iff_lt (by omega)] at h
  rw [Nat.mod_eq_of_lt hlt,digitsFromLast]
  split
  · next hz => rw [hz]
  · next hz => exact Nat.digits_of_lt base value hz hlt

theorem digitsFromLast_step (hb : 2 ≤ base) (h : value / base ≠ 0) :
    digitsFromLast base value = value % base :: digitsFromLast base (value / base) := by
  have hz : value ≠ 0 := by
    rintro rfl
    exact h (Nat.zero_div base)
  rw [digitsFromLast,digitsFromLast,if_neg hz,if_neg h]
  exact Nat.digits_def' hb (Nat.pos_of_ne_zero hz)

theorem digitsFromLast_ne_nil (base value : Nat) : digitsFromLast base value ≠ [] := by
  rw [digitsFromLast]
  split
  · nofun
  · next hz => exact Nat.digits_ne_nil_iff_ne_zero.mpr hz

theorem digitsFromLast_lt (hb : 2 ≤ base) : ∀ r ∈ digitsFromLast base value, r < base := by
  intro r hr
  rw [digitsFromLast] at hr
  split at hr
  · rw [List.mem_singleton.mp hr]
    omega
  · exact Nat.digits_lt_base hb hr

theorem ofDigits_digitsFromLast (base value : Nat) :
    Nat.ofDigits base (digitsFromLast base value) = value := by
  rw [digitsFromLast]
  split
  · next hz => rw [hz]; rfl
  · exact Nat.ofDigits_digits base value

theorem valueFrom_concat (acc : Nat) (ds : List UInt8) (c : UInt8) :
    valueFrom base acc (ds ++ [c]) =
      valueFrom base acc ds * base + (digitOf (signedChar c)).getD 0 := by
  rw [valueFrom,List.foldl_append]
  rfl

theorem valueFrom_digits (rs : List Nat) (h : ∀ r ∈ rs, r < 36) :
    valueFrom base 0 (rs.reverse.map digitByte) = Nat.ofDigits base rs := by
  induction rs with
  | nil => rfl
  | cons r rs ih =>
    have hrest := ih fun x hx => h x (List.mem_cons_of_mem r hx)
    have hr := digitOf_digitByte r (h r List.mem_cons_self)
    rw [List.reverse_cons,List.map_append,List.map_singleton,valueFrom_concat,hrest,hr,
      Nat.ofDigits_cons,Nat.mul_comm,Nat.add_comm]
    rfl

end Digits

section Utoa

variable {m : Mem} {str base value i : Nat}

theorem utoaLoop_gives (m : Mem) (str value i : Nat) (hb : 2 ≤ base) :
    Gives (utoaLoop m str base value i)
    (overlay m (str + i) ((digitsFromLast base value).map digitByte),
      i + (digitsFromLast base value).length) := by
  induction value using Nat.strong_induction_on generalizing m i with
  | _ value ih =>
    by_cases h : value / base = 0
    · refine .succ (.of_eq fun n => ?_)
      rw [digitsFromLast_small hb h]
      simp only [utoaLoop,ne_eq,h,not_true_eq_false,if_false,List.map_cons,List.map_nil,
        ← overlay_cons,overlay_nil]
      rfl
    · have hsmaller : value / base < value :=
        Nat.div_lt_self (Nat.pos_of_ne_zero fun hz => h (hz ▸ Nat.zero_div base)) hb
      obtain ⟨m1,hm1⟩ : ∃ m1 : Mem, m1 = update m (str + i) (digitByte (value % base)) := ⟨_,rfl⟩
      have hrest : Gives (utoaLoop m1 str base (value / base) (i + 1))
          (overlay m1 (str + (i + 1)) ((digitsFromLast base (value / base)).map digitByte),
            i + 1 + (digitsFromLast base (value / base)).length) := ih _ hsmaller m1 (i + 1)
      have hlen : i + 1 + (digitsFromLast base (value / base)).length =
          i + ((digitsFromLast base (value / base)).length + 1) := by omega
      rw [digitsFromLast_step hb h,List.map_cons,List.length_cons,← overlay_cons,← hm1,← hlen]
      refine .succ ?_
      have hdigit : digits.getD (value % base) 0 = digitByte (value % base) := rfl
      simp only [utoaLoop,ne_eq,h,not_false_eq_true,if_true,hdigit,← hm1]
      exact hrest

-- Chars in places as far from the two ends change places.
theorem reverseLoop_gives (m : Mem) (str j i : Nat) : ∃ m', Gives (reverseLoop m str j i) m' ∧
    ∀ x, m' x = if str + j ≤ x ∧ x ≤ str + i then m (str + j + (str + i) - x) else m x := by
  obtain ⟨k,hk⟩ : ∃ k, k = i - j := ⟨_,rfl⟩
  induction k using Nat.strong_induction_on generalizing m j i with
  | _ k ih =>
    by_cases h : j < i
    · obtain ⟨m1,hm1⟩ : ∃ m1 : Mem, m1 =
          update (update m (str + j) (m (str + i))) (str + i) (m (str + j)) := ⟨_,rfl⟩
      obtain ⟨m',hrun,hm'⟩ := ih (i - 1 - (j + 1)) (by omega) m1 (j + 1) (i - 1) rfl
      refine ⟨m',.succ ?_,fun x => ?_⟩
      · simp only [reverseLoop,if_pos h,← hm1]
        exact hrun
      · have hlow : m1 (str + j) = m (str + i) := by
          rw [hm1,update_of_ne (by omega),update_self]
        have hhigh : m1 (str + i) = m (str + j) := by rw [hm1,update_self]
        have hother : ∀ y, y ≠ str + j → y ≠ str + i → m1 y = m y := fun y hy hy' => by
          rw [hm1,update_of_ne hy',update_of_ne hy]
        rw [hm']
        by_cases hx : str + j ≤ x ∧ x ≤ str + i
        · rw [if_pos hx]
          by_cases hin : str + (j + 1) ≤ x ∧ x ≤ str + (i - 1)
          · have he : str + (j + 1) + (str + (i - 1)) - x = str + j + (str + i) - x := by omega
            rw [if_pos hin,he]
            exact hother _ (by omega) (by omega)
          · rw [if_neg hin]
            obtain rfl | rfl : x = str + j ∨ x = str + i := by omega
            · rw [hlow,Nat.add_sub_cancel_left]
            · rw [hhigh,Nat.add_sub_cancel]
        · rw [if_neg hx,if_neg (by omega)]
          exact hother x (by omega) (by omega)
    · refine ⟨m,.succ (.of_eq fun n => ?_),fun x => ?_⟩
      · rw [reverseLoop,if_neg h]
      · split
        · next hx =>
          congr 1
          omega
        · rfl

theorem reversed_overlay {m m' : Mem} {bs : List UInt8} (hne : bs ≠ [])
    (h : ∀ x, m' x = if str + 0 ≤ x ∧ x ≤ str + (bs.length - 1) then
      overlay m str (bs ++ [0]) (str + 0 + (str + (bs.length - 1)) - x)
      else overlay m str (bs ++ [0]) x) :
    m' = overlay m str (bs.reverse ++ [0]) := by
  have hpos : 0 < bs.length := List.length_pos_of_ne_nil hne
  funext x
  rw [h]
  by_cases hx : str ≤ x
  · obtain ⟨k,rfl⟩ : ∃ k, x = str + k := ⟨x - str,by omega⟩
    by_cases hk : k < bs.length
    · have hplace : str + 0 + (str + (bs.length - 1)) - (str + k) = str + (bs.length - 1 - k) := by
        omega
      rw [if_pos (by omega),hplace]
      simp only [overlay,if_pos (Nat.le_add_right _ _),Nat.add_sub_cancel_left]
      rw [List.getElem?_append_left (by omega),List.getElem?_append_left (by simpa using hk),
        List.getElem?_reverse hk]
      have hin : bs.length - 1 - k < bs.length := by omega
      rw [List.getElem?_eq_getElem hin]
      rfl
    · rw [if_neg (by omega)]
      simp only [overlay,if_pos (Nat.le_add_right _ _),Nat.add_sub_cancel_left]
      rw [List.getElem?_append_right (by omega),
        List.getElem?_append_right (by simpa using hk),List.length_reverse]
  · rw [if_neg (by omega),overlay_below (by omega),overlay_below (by omega)]

-- The digits of a number as they stand in a string.
def numeral (base value : Nat) : List UInt8 := (digitsFromLast base value).reverse.map digitByte

theorem utoa_gives (m : Mem) (value str : Nat) (hb : 2 ≤ base) (hb' : base ≤ 36) :
    Gives (utoa m value str base) (some str,overlay m str (numeral base value ++ [0])) := by
  have hbase : ¬ ((base : Int) < 2 ∨ 36 < (base : Int)) := by omega
  obtain ⟨bs,hbs⟩ : ∃ bs, bs = (digitsFromLast base value).map digitByte := ⟨_,rfl⟩
  have hlen : bs.length = (digitsFromLast base value).length := by rw [hbs,List.length_map]
  have hne : bs ≠ [] := by
    rw [hbs]
    exact fun he => digitsFromLast_ne_nil base value (List.map_eq_nil_iff.mp he)
  have hloop := utoaLoop_gives m str value 0 hb
  obtain ⟨m',hrun,hm'⟩ := reverseLoop_gives (overlay m str (bs ++ [0])) str 0 (bs.length - 1)
  have hreverse : m' = overlay m str (numeral base value ++ [0]) := by
    rw [reversed_overlay hne hm',hbs,← List.map_reverse]
    rfl
  have hnul : update (overlay m str bs) (str + bs.length) 0 = overlay m str (bs ++ [0]) :=
    (overlay_snoc m 0).symm
  rw [← hbs,← hlen,Nat.add_zero,Nat.zero_add] at hloop
  change Gives (fun n => utoa m value str base n) _
  simp only [utoa,if_neg hbase,Int.toNat_natCast]
  refine Gives.bind hloop ?_
  dsimp only
  rw [hnul]
  refine Gives.bind hrun (.of_eq fun n => ?_)
  rw [hreverse]

-- A number with its sign, which only base 10 has.
def spelling (base : Nat) (value : Int) : List UInt8 :=
  if value < 0 then 0x2d :: numeral base value.natAbs else numeral base value.natAbs

theorem itoa_gives (m : Mem) {value : Int} (str : Nat) (hb : 2 ≤ base) (hb' : base ≤ 36)
    (hlow : LONG_MIN ≤ value) (hhigh : value ≤ LONG_MAX) (hneg : base = 10 ∨ 0 ≤ value) :
    Gives (itoa m value str base) (some str,overlay m str (spelling base value ++ [0])) := by
  have hbase : ¬ ((base : Int) < 2 ∨ 36 < (base : Int)) := by omega
  change -2147483648 ≤ value at hlow
  change value ≤ 2147483647 at hhigh
  change Gives (fun n => itoa m value str base n) _
  simp only [itoa,if_neg hbase]
  by_cases hv : value < 0
  · have hten : (base : Int) = 10 := by omega
    have habs : (-value % 4294967296).toNat = value.natAbs := by omega
    have hrun := utoa_gives (update m str 0x2d) value.natAbs (str + 1) hb hb'
    rw [overlay_cons] at hrun
    simp only [if_pos (And.intro hten hv),habs,spelling,if_pos hv]
    exact Gives.bind hrun (.of_eq fun n => rfl)
  · have habs : (value % 4294967296).toNat = value.natAbs := by omega
    have hrun := utoa_gives m value.natAbs str hb hb'
    simp only [if_neg (fun hs : (base : Int) = 10 ∧ value < 0 => hv hs.2),habs,spelling,if_neg hv]
    exact Gives.bind hrun (.of_eq fun n => rfl)

end Utoa

section Readings

variable {m : Mem} {a base : Nat} {bs cs : List UInt8}

theorem strAt_overlay (m : Mem) (a : Nat) (h : ∀ c ∈ bs, c ≠ 0) :
    StrAt (overlay m a (bs ++ [0])) a bs := by
  induction bs generalizing m a with
  | nil => exact overlay_inside le_rfl (by simp)
  | cons c bs ih =>
    have hrest := ih (update m a c) (a + 1) fun d hd => h d (List.mem_cons_of_mem c hd)
    rw [overlay_cons] at hrest
    exact ⟨h c List.mem_cons_self,overlay_inside le_rfl (by simp),hrest⟩

-- Chars that begin no number are no digits.
theorem not_digit {c : UInt8} (h : c = 0 ∨ c = 0x20 ∨ c = 0x2b ∨ c = 0x2d) :
    isDigit base c = false := by
  obtain rfl | rfl | rfl | rfl := h <;> rfl

theorem zero_digit (hb : 2 ≤ base) : isDigit base 0x30 = true := by
  have hpos : 0 < base := by omega
  exact decide_eq_true hpos

theorem afterPrefix_digits (h : ∀ c ∈ cs, isDigit base c = true) : afterPrefix base cs = cs := by
  cases cs with
  | nil => rfl
  | cons c cs =>
    cases cs with
    | nil => rfl
    | cons d cs =>
      rw [afterPrefix,if_neg]
      rintro ⟨rfl,-,hx⟩
      have hd := h d (List.mem_cons_of_mem c List.mem_cons_self)
      obtain rfl | rfl := hx
      · exact absurd hd (by decide)
      · exact absurd hd (by decide)

theorem afterPrefix_none (hb : 2 ≤ base) (h : ∀ c ∈ cs.head?, isDigit base c = false) :
    afterPrefix base cs = cs := by
  cases cs with
  | nil => rfl
  | cons c cs =>
    cases cs with
    | nil => rfl
    | cons d cs =>
      rw [afterPrefix,if_neg]
      rintro ⟨-,rfl,-⟩
      have hc := h 0x30 rfl
      rw [zero_digit hb] at hc
      exact absurd hc (by decide)

theorem takeWhile_none {p : UInt8 → Bool} (h : ∀ c ∈ cs.head?, p c = false) :
    cs.takeWhile p = [] := by
  cases cs with
  | nil => rfl
  | cons c cs =>
    have hc := h c rfl
    exact List.takeWhile_cons_of_neg (by rw [hc]; decide)

-- Neither a blank nor a sign comes first.
def Bare (bs : List UInt8) : Prop := ∀ c ∈ bs.head?, c ≠ 0x20 ∧ c ≠ 0x2b ∧ c ≠ 0x2d

theorem unsignedPart_length (bs : List UInt8) : (unsignedPart bs).length ≤ bs.length := by
  have hdrop := (List.dropWhile_sublist (· = 0x20) (l := bs)).length_le
  rw [unsignedPart]
  split
  · exact Nat.zero_le _
  · next c cs hcs =>
    rw [hcs,List.length_cons] at hdrop
    split
    · omega
    · exact hdrop

theorem unsignedPart_bare (h : Bare bs) : unsignedPart bs = bs := by
  cases bs with
  | nil => rfl
  | cons c bs =>
    obtain ⟨hblank,hplus,hminus⟩ := h c rfl
    have hdrop : (c :: bs).dropWhile (· = 0x20) = c :: bs :=
      List.dropWhile_cons_of_neg (by simpa using hblank)
    rw [unsignedPart,hdrop]
    exact if_neg (not_or.mpr ⟨hminus,hplus⟩)

theorem bare_iff : (unsignedPart bs).length = bs.length ↔ Bare bs := by
  constructor
  · intro h c hc
    cases bs with
    | nil => exact nomatch hc
    | cons d bs =>
      obtain rfl : d = c := Option.some.inj hc
      refine ⟨?_,?_,?_⟩
      · rintro rfl
        have hshort := unsignedPart_length bs
        change (unsignedPart bs).length = bs.length + 1 at h
        omega
      · rintro rfl
        change bs.length = bs.length + 1 at h
        omega
      · rintro rfl
        change bs.length = bs.length + 1 at h
        omega
  · intro h
    rw [unsignedPart_bare h]

end Readings

-- What is read of a string that holds a number, and of one in which no digit comes where one may.
def NumberRead (base a : Nat) (bs : List UInt8) (r : Int × Nat) : Prop :=
  unsignedPart bs ≠ [] → (∀ c ∈ unsignedPart bs, isDigit base c = true) →
    r = (clamp (if Negative bs then -(valueFrom base 0 (unsignedPart bs) : Int)
      else valueFrom base 0 (unsignedPart bs)),a + bs.length)

def NoDigit (base : Nat) (bs : List UInt8) : Prop :=
  ∀ c ∈ (unsignedPart bs).head?, isDigit base c = false

def NothingRead (base a : Nat) (bs : List UInt8) (r : Int × Nat) : Prop :=
  NoDigit base bs → r = (0,a)

-- A number written out and read back.
def RoundTrip (m : Mem) (value : Int) (buf base : Nat) : Prop :=
  ∃ m' bs, Gives (itoa m value buf base) (some buf,m') ∧ StrAt m' buf bs ∧
    Gives (strtol m' buf base) (value,buf + bs.length)

section Claims

variable {m : Mem} {a base : Nat} {bs : List UInt8}

theorem number_gives (h : StrAt m a bs) (hb : 2 ≤ base) (hb' : base ≤ 36)
    (hd : ∀ c ∈ unsignedPart bs, isDigit base c = true) :
    Gives (strtol m a base) (clamp (if Negative bs then
      -(valueFrom base 0 (unsignedPart bs) : Int) else valueFrom base 0 (unsignedPart bs)),
      a + bs.length) := by
  have hskip := afterPrefix_digits hd
  have hdigits : digitsOf base bs = unsignedPart bs := by
    rw [digitsOf,hskip]
    exact List.takeWhile_eq_self_iff.mpr hd
  have hlen := unsignedPart_length bs
  have hend : a + bs.length - (unsignedPart bs).length + (unsignedPart bs).length =
      a + bs.length := by omega
  have hrun := strtol_gives h hb hb'
  rw [numberOf,hdigits,hskip,hend] at hrun
  exact hrun

theorem nothing_gives (h : StrAt m a bs) (hb : 2 ≤ base) (hb' : base ≤ 36)
    (hn : NoDigit base bs) :
    Gives (strtol m a base) (0,a + bs.length - (unsignedPart bs).length) := by
  have hskip := afterPrefix_none hb hn
  have hdigits : digitsOf base bs = [] := by
    rw [digitsOf,hskip]
    exact takeWhile_none hn
  have hnumber : clamp (numberOf base bs) = 0 := by
    rw [numberOf,hdigits]
    split <;> rfl
  have hrun := strtol_gives h hb hb'
  rw [hnumber,hdigits,hskip] at hrun
  exact hrun

theorem numeral_digit (hb : 2 ≤ base) (hb' : base ≤ 36) (value : Nat) :
    ∀ c ∈ numeral base value, isDigit base c = true := by
  intro c hc
  obtain ⟨r,hr,rfl⟩ := List.mem_map.mp hc
  have hlt := digitsFromLast_lt hb r (List.mem_reverse.mp hr)
  rw [isDigit,digitOf_digitByte r (by omega)]
  exact decide_eq_true hlt

theorem numeral_bare (hb : 2 ≤ base) (hb' : base ≤ 36) (value : Nat) :
    Bare (numeral base value) := by
  intro c hc
  have hd := numeral_digit hb hb' value c (List.mem_of_mem_head? hc)
  refine ⟨?_,?_,?_⟩ <;> rintro rfl
  · exact nomatch hd.symm.trans (not_digit (.inr (.inl rfl)))
  · exact nomatch hd.symm.trans (not_digit (.inr (.inr (.inl rfl))))
  · exact nomatch hd.symm.trans (not_digit (.inr (.inr (.inr rfl))))

theorem numeral_value (hb : 2 ≤ base) (hb' : base ≤ 36) (value : Nat) :
    valueFrom base 0 (numeral base value) = value := by
  have hlt : ∀ r ∈ digitsFromLast base value, r < 36 :=
    fun r hr => lt_of_lt_of_le (digitsFromLast_lt hb r hr) hb'
  rw [numeral,valueFrom_digits _ hlt,ofDigits_digitsFromLast]

-- The numeral of a number is what its spelling has behind the sign.
theorem spelling_parts (hb : 2 ≤ base) (hb' : base ≤ 36) (value : Int) :
    unsignedPart (spelling base value) = numeral base value.natAbs ∧
      (Negative (spelling base value) ↔ value < 0) := by
  have hbare := numeral_bare hb hb' value.natAbs
  rw [spelling]
  split
  · next hv => exact ⟨rfl,iff_of_true rfl hv⟩
  · next hv =>
    refine ⟨unsignedPart_bare hbare,iff_of_false (fun hn => ?_) hv⟩
    cases hcs : numeral base value.natAbs with
    | nil =>
      rw [hcs] at hn
      exact nomatch hn
    | cons c cs =>
      obtain ⟨hblank,-,hminus⟩ := hbare c (by rw [hcs]; rfl)
      have hdrop : (c :: cs).dropWhile (· = 0x20) = c :: cs :=
        List.dropWhile_cons_of_neg (by simpa using hblank)
      rw [hcs,Negative,hdrop] at hn
      exact hminus (Option.some.inj hn)

theorem round_trip (m : Mem) {value : Int} (buf : Nat) (hb : 2 ≤ base) (hb' : base ≤ 36)
    (hlow : LONG_MIN ≤ value) (hhigh : value ≤ LONG_MAX) (hneg : base = 10 ∨ 0 ≤ value) :
    RoundTrip m value buf base := by
  obtain ⟨hpart,hsign⟩ := spelling_parts hb hb' value
  have hdigit : ∀ c ∈ unsignedPart (spelling base value), isDigit base c = true := by
    rw [hpart]
    exact numeral_digit hb hb' value.natAbs
  have hnonzero : ∀ c ∈ spelling base value, c ≠ 0 := by
    rintro c hc rfl
    have hnum : ∀ c ∈ numeral base value.natAbs, c ≠ 0 := by
      rintro c hc rfl
      exact nomatch (numeral_digit hb hb' _ 0 hc).symm.trans (not_digit (.inl rfl))
    rw [spelling] at hc
    split at hc
    · obtain hc | hc := List.mem_cons.mp hc
      · exact absurd hc (by decide)
      · exact hnum 0 hc rfl
    · exact hnum 0 hc rfl
  have hstr := strAt_overlay m buf hnonzero
  have hread := number_gives hstr hb hb' hdigit
  have hvalue : clamp (if Negative (spelling base value) then
      -(valueFrom base 0 (unsignedPart (spelling base value)) : Int)
      else valueFrom base 0 (unsignedPart (spelling base value))) = value := by
    rw [hpart,numeral_value hb hb']
    simp only [hsign]
    unfold clamp LONG_MIN LONG_MAX at *
    split <;> omega
  rw [hvalue] at hread
  exact ⟨_,_,itoa_gives m buf hb hb' hlow hhigh hneg,hstr,hread⟩

end Claims

theorem strtol_itoa (m : Mem) {a base : Nat} {bs : List UInt8} (h : StrAt m a bs) (hb : 2 ≤ base)
    (hb' : base ≤ 36) :
    (∀ value buf, LONG_MIN ≤ value → value ≤ LONG_MAX → base = 10 ∨ 0 ≤ value →
      RoundTrip m value buf base) ∧
    ∃ r, Gives (strtol m a base) r ∧ NumberRead base a bs r ∧
      (NothingRead base a bs r ↔ (NoDigit base bs → Bare bs)) := by
  refine ⟨fun value buf hlow hhigh hneg => round_trip m buf hb hb' hlow hhigh hneg,
    _,strtol_gives h hb hb',fun _ hd => ?_,?_⟩
  · exact (strtol_gives h hb hb').unique (number_gives h hb hb' hd)
  · refine forall_congr' fun hn => ?_
    have hlen := unsignedPart_length bs
    rw [(strtol_gives h hb hb').unique (nothing_gives h hb hb' hn),← bare_iff,Prod.mk.injEq]
    omega

-- A blank, and nothing else.
def blankOnly : Mem := fun x => if x = 0 then 0x20 else 0

theorem strtol_itoa_blank :
    (∀ value buf, LONG_MIN ≤ value → value ≤ LONG_MAX → 10 = 10 ∨ 0 ≤ value →
      RoundTrip blankOnly value buf 10) ∧
    ∃ r, Gives (strtol blankOnly 0 (10 : Nat)) r ∧ NumberRead 10 0 [0x20] r ∧
      (NothingRead 10 0 [0x20] r ↔ (NoDigit 10 [0x20] → Bare [0x20])) :=
  strtol_itoa blankOnly (a := 0) ⟨by decide,rfl,rfl⟩ (by decide) (by decide)

theorem strtol_moves_end : StrAt blankOnly 0 [0x20] ∧ NoDigit 10 [0x20] ∧
    Gives (strtol blankOnly 0 (10 : Nat)) (0,1) := by
  have hstr : StrAt blankOnly 0 [0x20] := ⟨by decide,rfl,rfl⟩
  have hnone : NoDigit 10 [0x20] := nofun
  exact ⟨hstr,hnone,nothing_gives hstr (by decide) (by decide) hnone⟩

end RoscoM68k
