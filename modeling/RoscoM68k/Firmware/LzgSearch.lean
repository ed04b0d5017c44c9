import RoscoM68k.Firmware.LzgEncode
import RoscoM68k.Firmware.LzgTokens

namespace RoscoM68k
open Function

namespace Encoder

variable {E : Encoder} {sa : SearchAccel} {n p p2 pos : Nat}

-- The symbols that the search structure goes by are the same at both positions.
def SameStart (E : Encoder) (p q : Nat) : Prop := ∀ i < E.preMatch, E.inp[p + i]? = E.inp[q + i]?

theorem SameStart.symm (h : E.SameStart p p2) : E.SameStart p2 p := fun i hi => (h i hi).symm

theorem SameStart.trans {p3 : Nat} (h : E.SameStart p p2) (h' : E.SameStart p2 p3) :
    E.SameStart p p3 := fun i hi => (h i hi).trans (h' i hi)

theorem entry_inp (E : Encoder) {i : Nat} (h : i < E.inp.length) :
    ∃ x, E.inp[i]? = some x ∧ entry E.inp i = .ok x :=
  ⟨E.inp[i],List.getElem?_eq_getElem h,entry_of_lt h⟩

theorem index3 (x y z : UInt8) : x.toNat <<< 16 ||| y.toNat <<< 8 ||| z.toNat =
    (x.toNat * 256 + y.toNat) * 256 + z.toNat := by
  have hy : y.toNat * 256 < 65536 := by
    have := y.toNat_lt
    omega
  have e0 : x.toNat <<< 16 = x.toNat * 65536 := by rw [Nat.shiftLeft_eq]
  have e1 : y.toNat <<< 8 = y.toNat * 256 := by rw [Nat.shiftLeft_eq]
  have s1 : x.toNat * 65536 + y.toNat * 256 = (x.toNat * 256 + y.toNat) * 256 := by ring
  rw [e0,e1,or_join 16 (by norm_num) hy,s1,or_join 8 (by norm_num) z.toNat_lt]

theorem index2 (x y : UInt8) : x.toNat <<< 8 ||| y.toNat = x.toNat * 256 + y.toNat := by
  have e0 : x.toNat <<< 8 = x.toNat * 256 := by rw [Nat.shiftLeft_eq]
  rw [e0,or_join 8 (by norm_num) y.toNat_lt]

theorem lastIndex_spec (h : p + 2 < E.inp.length) : ∃ i, E.lastIndex p = .ok i ∧
    ∀ q, q + 2 < E.inp.length → E.lastIndex q = .ok i → E.SameStart p q := by
  obtain ⟨x0,h0,e0⟩ := E.entry_inp (show p < E.inp.length by omega)
  obtain ⟨x1,h1,e1⟩ := E.entry_inp (show p + 1 < E.inp.length by omega)
  obtain ⟨x2,h2,e2⟩ := E.entry_inp h
  have hx0 := x0.toNat_lt
  have hx1 := x1.toNat_lt
  have hx2 := x2.toNat_lt
  unfold lastIndex SameStart preMatch
  cases E.fast with
  | true =>
    simp only [if_true,e0,e1,e2,ok_bind,index3]
    refine ⟨_,rfl,fun q hq hi => ?_⟩
    obtain ⟨y0,g0,f0⟩ := E.entry_inp (show q < E.inp.length by omega)
    obtain ⟨y1,g1,f1⟩ := E.entry_inp (show q + 1 < E.inp.length by omega)
    obtain ⟨y2,g2,f2⟩ := E.entry_inp hq
    have hy0 := y0.toNat_lt
    have hy1 := y1.toNat_lt
    have hy2 := y2.toNat_lt
    simp only [f0,f1,f2,ok_bind] at hi
    have he := Except.ok.inj hi
    have s0 : x0 = y0 := UInt8.toNat_inj.mp (by omega)
    have s1 : x1 = y1 := UInt8.toNat_inj.mp (by omega)
    have s2 : x2 = y2 := UInt8.toNat_inj.mp (by omega)
    intro i hi3
    match i with
    | 0 => exact h0.trans (s0 ▸ g0.symm)
    | 1 => exact h1.trans (s1 ▸ g1.symm)
    | 2 => exact h2.trans (s2 ▸ g2.symm)
  | false =>
    simp only [Bool.false_eq_true,if_false,e0,e1,ok_bind,index2]
    refine ⟨_,rfl,fun q hq hi => ?_⟩
    obtain ⟨y0,g0,f0⟩ := E.entry_inp (show q < E.inp.length by omega)
    obtain ⟨y1,g1,f1⟩ := E.entry_inp (show q + 1 < E.inp.length by omega)
    have hy0 := y0.toNat_lt
    have hy1 := y1.toNat_lt
    simp only [f0,f1,ok_bind] at hi
    have he := Except.ok.inj hi
    have s0 : x0 = y0 := UInt8.toNat_inj.mp (by omega)
    have s1 : x1 = y1 := UInt8.toNat_inj.mp (by omega)
    intro i hi2
    match i with
    | 0 => exact h0.trans (s0 ▸ g0.symm)
    | 1 => exact h1.trans (s1 ▸ g1.symm)

-- The window is a power of two, and what it reaches can be written as an offset.
def Tuned (E : Encoder) : Prop := ∃ w ≤ 19, E.params.window = 2 ^ w

theorem Tuned.mask (h : E.Tuned) (pos : Nat) :
    pos &&& (E.params.window - 1) = pos % E.params.window := by
  obtain ⟨w,-,hw⟩ := h
  rw [hw]
  exact Nat.and_two_pow_sub_one_eq_mod pos w

theorem Tuned.window_pos (h : E.Tuned) : 0 < E.params.window := by
  obtain ⟨w,-,hw⟩ := h
  rw [hw]
  exact Nat.two_pow_pos w

theorem Tuned.window_le (h : E.Tuned) : E.params.window ≤ 524288 := by
  obtain ⟨w,hle,hw⟩ := h
  rw [hw]
  calc 2 ^ w ≤ 2 ^ 19 := Nat.pow_le_pow_right Nat.two_pos hle
    _ = 524288 := by norm_num

-- The structure when the positions below `n` have been put into it. What a slot holds comes
-- before the last position of the slot; the two last positions of the input are in none.
structure Chained (E : Encoder) (sa : SearchAccel) (n : Nat) : Prop where
  last : ∀ i p, sa.last i = some p → p < n ∧ p + 2 < E.inp.length ∧ E.lastIndex p = .ok i
  tab : ∀ slot p, sa.tab slot = some p → ∃ q, q < n ∧ q + 2 < E.inp.length ∧
    q % E.params.window = slot ∧ p < q ∧ E.SameStart p q ∧
    ∀ r < n, r % E.params.window = slot → r + 2 < E.inp.length → r ≤ q

theorem chained_init (E : Encoder) : E.Chained .init 0 where
  last i p h := by simp [SearchAccel.init] at h
  tab slot p h := by simp [SearchAccel.init] at h

theorem updateLastPos_spec (ht : E.Tuned) (h : E.Chained sa n) :
    ∃ sa', E.updateLastPos sa n = .ok sa' ∧ E.Chained sa' (n + 1) := by
  rw [updateLastPos]
  by_cases hend : E.inp.length ≤ n + 2
  · rw [if_pos hend]
    refine ⟨sa,rfl,⟨fun i p hp => ?_,fun slot p hp => ?_⟩⟩
    · obtain ⟨h1,h2,h3⟩ := h.last i p hp
      exact ⟨by omega,h2,h3⟩
    · obtain ⟨q,h1,h2,h3,h4,h5,h6⟩ := h.tab slot p hp
      exact ⟨q,by omega,h2,h3,h4,h5,fun r hr hs hr2 => h6 r (by omega) hs hr2⟩
  · obtain ⟨i,hi,hsame⟩ := lastIndex_spec (E := E) (p := n) (by omega)
    rw [if_neg hend,hi,ok_bind]
    refine ⟨_,rfl,⟨fun j p hp => ?_,fun slot p hp => ?_⟩⟩
    · dsimp only at hp
      by_cases hj : j = i
      · subst hj
        rw [update_self] at hp
        obtain rfl := Option.some.inj hp
        exact ⟨by omega,by omega,hi⟩
      · rw [update_of_ne hj] at hp
        obtain ⟨h1,h2,h3⟩ := h.last j p hp
        exact ⟨by omega,h2,h3⟩
    · dsimp only at hp
      rw [ht.mask] at hp
      by_cases hslot : slot = n % E.params.window
      · subst hslot
        rw [update_self] at hp
        obtain ⟨h1,h2,h3⟩ := h.last i p hp
        exact ⟨n,by omega,by omega,rfl,h1,(hsame p h2 h3).symm,fun r hr _ _ => by omega⟩
      · rw [update_of_ne hslot] at hp
        obtain ⟨q,h1,h2,h3,h4,h5,h6⟩ := h.tab slot p hp
        refine ⟨q,by omega,h2,h3,h4,h5,fun r hr hs hr2 => ?_⟩
        by_cases hrn : r = n
        · exact absurd (hrn ▸ hs.symm) hslot
        · exact h6 r (by omega) hs hr2

theorem updateRun_spec (ht : E.Tuned) {k : Nat} (h : E.Chained sa n) :
    ∃ sa', E.updateRun k n sa = .ok sa' ∧ E.Chained sa' (n + k) := by
  induction k generalizing sa n with
  | zero => exact ⟨sa,rfl,h⟩
  | succ k ih =>
    obtain ⟨sa1,h1,hc1⟩ := updateLastPos_spec ht h
    obtain ⟨sa2,h2,hc2⟩ := ih hc1
    refine ⟨sa2,?_,?_⟩
    · rw [updateRun,h1,ok_bind,h2]
    · have hadd : n + (k + 1) = n + 1 + k := by omega
      rw [hadd]
      exact hc2

-- The search at `pos` is at `p`, which is `pos` itself or a position in the window.
def Visits (E : Encoder) (pos p : Nat) : Prop :=
  p = pos ∨ (p < pos ∧ p + 2 < E.inp.length ∧ (E.params.window ≤ pos → pos - E.params.window < p))

-- Where the search goes on inside the window, it does so to a position that begins the same.
theorem Chained.next (ht : E.Tuned) (h : E.Chained sa (pos + 1)) (hv : E.Visits pos p)
    (htab : sa.tab (p % E.params.window) = some p2)
    (hmin : E.params.window ≤ pos → pos - E.params.window < p2) :
    p2 < p ∧ p + 2 < E.inp.length ∧ E.SameStart p2 p := by
  obtain ⟨q,hq,hq2,hslot,hlt,hsame,hmax⟩ := h.tab _ _ htab
  have hW := ht.window_pos
  have hqp : q = p := by
    by_contra hne
    have hmod : q % E.params.window = p % E.params.window := hslot
    have hfar : q + E.params.window ≤ p ∨ p + E.params.window ≤ q := by
      have hdq := Nat.div_add_mod q E.params.window
      have hdp := Nat.div_add_mod p E.params.window
      rcases Nat.lt_trichotomy (q / E.params.window) (p / E.params.window) with hc | hc | hc
      · left
        have := Nat.mul_le_mul_left E.params.window (Nat.succ_le_of_lt hc)
        rw [Nat.succ_eq_add_one,Nat.mul_add,Nat.mul_one] at this
        omega
      · rw [hc,hmod] at hdq
        omega
      · right
        have := Nat.mul_le_mul_left E.params.window (Nat.succ_le_of_lt hc)
        rw [Nat.succ_eq_add_one,Nat.mul_add,Nat.mul_one] at this
        omega
    rcases hv with rfl | ⟨hpp,hp2,hwin⟩
    · have := hmin (by omega)
      omega
    · have hle := hmax p (by omega) rfl hp2
      have := hwin (by omega)
      omega
  subst hqp
  exact ⟨hlt,hq2,hsame⟩

theorem compareRun_spec {k cmp1 cmp2 : Nat} (hle : cmp2 ≤ cmp1) (h : cmp1 + k ≤ E.inp.length) :
    ∃ j ≤ k, E.compareRun k cmp1 cmp2 = .ok (cmp1 + j) ∧
      ∀ i < j, E.inp[cmp1 + i]? = E.inp[cmp2 + i]? := by
  induction k generalizing cmp1 cmp2 with
  | zero => exact ⟨0,le_rfl,rfl,fun i hi => absurd hi (Nat.not_lt_zero i)⟩
  | succ k ih =>
    obtain ⟨x,hx,ex⟩ := E.entry_inp (show cmp1 < E.inp.length by omega)
    obtain ⟨y,hy,ey⟩ := E.entry_inp (show cmp2 < E.inp.length by omega)
    rw [compareRun,ex,ok_bind,ey,ok_bind]
    by_cases hxy : x = y
    · obtain ⟨j,hj,hrun,hsame⟩ := ih (Nat.succ_le_succ hle) (by omega)
      refine ⟨j + 1,by omega,?_,fun i hi => ?_⟩
      · rw [if_pos hxy,hrun]
        congr 1
        omega
      · cases i with
        | zero => rw [Nat.add_zero,Nat.add_zero,hx,hy,hxy]
        | succ i =>
          have he := hsame i (by omega)
          have h1 : cmp1 + 1 + i = cmp1 + (i + 1) := by omega
          have h2 : cmp2 + 1 + i = cmp2 + (i + 1) := by omega
          rwa [h1,h2] at he
    · rw [if_neg hxy]
      exact ⟨0,Nat.zero_le _,rfl,fun i hi => absurd hi (Nat.not_lt_zero i)⟩

-- The lengths that can be written: encoded and decoded they come back.
def Quantized (length : Nat) : Prop :=
  ∃ enc, lengthEncodeLut[length]? = some enc ∧ 3 ≤ enc ∧ enc ≤ 33 ∧
    lengthDecodeLut[enc - 2]? = some length

theorem quantize {k : Nat} (h : k ≤ 128) :
    ∃ q, lengthQuantLut[k]? = some q ∧ q ≤ k ∧ (3 ≤ q → Quantized q) := by
  have hall : ∀ k < 129, lengthQuantLut[k]? = some (lengthQuantLut.getD k 0) ∧
      lengthQuantLut.getD k 0 ≤ k := by decide
  have henc : ∀ k < 129, 3 ≤ lengthQuantLut.getD k 0 →
      lengthEncodeLut[lengthQuantLut.getD k 0]? =
        some (lengthEncodeLut.getD (lengthQuantLut.getD k 0) 0) ∧
      3 ≤ lengthEncodeLut.getD (lengthQuantLut.getD k 0) 0 ∧
      lengthEncodeLut.getD (lengthQuantLut.getD k 0) 0 ≤ 33 ∧
      lengthDecodeLut[lengthEncodeLut.getD (lengthQuantLut.getD k 0) 0 - 2]? =
        some (lengthQuantLut.getD k 0) := by decide
  obtain ⟨hq,hle⟩ := hall k (by omega)
  exact ⟨_,hq,hle,fun h3 => ⟨_,henc k (by omega) h3⟩⟩

-- A copy of what is `offset` places before `pos`.
structure MatchAt (E : Encoder) (pos length offset : Nat) : Prop where
  three : 3 ≤ length
  quantized : Quantized length
  fits : pos + length ≤ E.inp.length
  behind : 1 ≤ offset
  reaches : offset ≤ pos
  window : offset < E.params.window
  same : ∀ i < length, E.inp[pos + i]? = E.inp[pos - offset + i]?

-- No match yet, or a match.
def Candidate (E : Encoder) (pos : Nat) (b : BestMatch) : Prop :=
  (b.win = 0 ∧ b.length = 2) ∨ (2 ≤ b.length ∧ E.MatchAt pos b.length b.offset)

theorem Candidate.two_le {b : BestMatch} (h : E.Candidate pos b) : 2 ≤ b.length := by
  rcases h with ⟨-,h2⟩ | ⟨h2,-⟩
  · exact h2.ge
  · exact h2

theorem preMatch_le (E : Encoder) : E.preMatch ≤ 3 := by
  unfold preMatch
  split <;> omega

theorem tryMatch_spec {endStr : Nat} {b : BestMatch} (symbolCost : Nat) (hlt : p2 < pos)
    (hsame : E.SameStart p2 pos) (hwin : pos - p2 < E.params.window)
    (hend : endStr = if E.inp.length < pos + LZG_MAX_RUN_LENGTH then E.inp.length
      else pos + LZG_MAX_RUN_LENGTH)
    (hc : E.Candidate pos b) (hb : pos + b.length < E.inp.length) (hpos : pos + 2 < E.inp.length) :
    ∃ b' stop, E.tryMatch pos p2 endStr symbolCost b = .ok (b',stop) ∧ E.Candidate pos b' ∧
      (stop = false → pos + b'.length < E.inp.length) := by
  have hpre := preMatch_le E
  have hrange : endStr ≤ E.inp.length ∧ endStr ≤ pos + 128 ∧ pos + 3 ≤ endStr := by
    unfold LZG_MAX_RUN_LENGTH at hend
    rw [hend]
    split <;> omega
  obtain ⟨hend1,hend2,hend3⟩ := hrange
  obtain ⟨x,-,ex⟩ := E.entry_inp hb
  obtain ⟨y,-,ey⟩ := E.entry_inp (show p2 + b.length < E.inp.length by omega)
  rw [tryMatch,ex,ok_bind,ey,ok_bind]
  by_cases hxy : x = y
  · have hbehind : p2 + E.preMatch ≤ pos + E.preMatch := by omega
    obtain ⟨j,hj,hrun,hrest⟩ := compareRun_spec (E := E) (k := endStr - (pos + E.preMatch))
      hbehind (by omega)
    have hdist : pos + E.preMatch + j - pos = E.preMatch + j := by omega
    obtain ⟨q,hq,hqle,hquant⟩ := quantize (k := E.preMatch + j) (by omega)
    rw [if_pos hxy,hrun,ok_bind,hdist,entry_some hq,ok_bind]
    by_cases hlen : b.length < q
    · by_cases hgain : b.win < matchWin q (pos - p2) symbolCost
      · have htwo := hc.two_le
        have hm : E.MatchAt pos q (pos - p2) := {
          three := by omega
          quantized := hquant (by omega)
          fits := by omega
          behind := by omega
          reaches := Nat.sub_le _ _
          window := hwin
          same := fun i hi => by
            have hback : pos - (pos - p2) + i = p2 + i := by omega
            rw [hback]
            by_cases hi2 : i < E.preMatch
            · exact (hsame i hi2).symm
            · have he := hrest (i - E.preMatch) (by omega)
              have h1 : pos + E.preMatch + (i - E.preMatch) = pos + i := by omega
              have h2 : p2 + E.preMatch + (i - E.preMatch) = p2 + i := by omega
              rwa [h1,h2] at he }
        rw [if_pos hlen]
        simp only
        rw [if_pos hgain]
        refine ⟨_,_,rfl,.inr ⟨by dsimp only; omega,hm⟩,fun hstop => ?_⟩
        have hgo : ¬ (E.params.goodLength ≤ q ∨ endStr ≤ pos + E.preMatch + j) :=
          of_decide_eq_false hstop
        dsimp only
        omega
      · rw [if_pos hlen]
        simp only
        rw [if_neg hgain]
        exact ⟨b,false,rfl,hc,fun _ => hb⟩
    · rw [if_neg hlen]
      exact ⟨b,false,rfl,hc,fun _ => hb⟩
  · rw [if_neg hxy]
    exact ⟨b,false,rfl,hc,fun _ => hb⟩

-- The search is at `q`: as long as it is inside the window, what it finds there begins like `pos`.
def Linked (E : Encoder) (pos minPos : Nat) (q : Option Nat) : Prop :=
  ∀ p2, q = some p2 → minPos < p2 →
    p2 < pos ∧ E.SameStart p2 pos ∧ pos + 2 < E.inp.length

theorem searchLoop_spec (symbolCost : Nat) (ht : E.Tuned) {endStr minPos k : Nat} {q : Option Nat}
    {b : BestMatch} (h : E.Chained sa (pos + 1))
    (hend : endStr = if E.inp.length < pos + LZG_MAX_RUN_LENGTH then E.inp.length
      else pos + LZG_MAX_RUN_LENGTH)
    (hmin : minPos = if E.params.window ≤ pos then pos - E.params.window else 0)
    (hq : E.Linked pos minPos q) (hc : E.Candidate pos b)
    (hb : pos + 2 < E.inp.length → pos + b.length < E.inp.length) :
    ∃ b', E.searchLoop sa.tab pos minPos endStr symbolCost k q b = .ok b' ∧
      E.Candidate pos b' := by
  have hW := ht.window_pos
  induction k generalizing q b with
  | zero => exact ⟨b,rfl,hc⟩
  | succ k ih =>
    cases q with
    | none => exact ⟨b,rfl,hc⟩
    | some p2 =>
      rw [searchLoop]
      by_cases hin : minPos < p2
      · obtain ⟨hlt,hsame,hpos⟩ := hq p2 rfl hin
        have hwin : pos - p2 < E.params.window := by
          rw [hmin] at hin
          split at hin <;> omega
        obtain ⟨b',stop,htry,hc',hb'⟩ := tryMatch_spec symbolCost hlt hsame hwin
          hend hc (hb hpos) hpos
        rw [if_pos hin,htry]
        simp only [ok_bind]
        cases stop with
        | true => exact ⟨b',rfl,hc'⟩
        | false =>
          simp only [Bool.false_eq_true,if_false]
          refine ih (fun p3 hp3 hin3 => ?_) hc' fun _ => hb' rfl
          rw [ht.mask] at hp3
          have hp2 : p2 + 2 < E.inp.length := by omega
          have hv : E.Visits pos p2 := .inr ⟨hlt,hp2,fun hle => by
            rw [hmin,if_pos hle] at hin
            exact hin⟩
          obtain ⟨h1,-,h3⟩ := h.next ht hv hp3 fun hle => by
            rw [hmin,if_pos hle] at hin3
            exact hin3
          exact ⟨h1.trans hlt,h3.trans hsame,hpos⟩
      · rw [if_neg hin]
        exact ⟨b,rfl,hc⟩

theorem findMatch_spec (ht : E.Tuned) (symbolCost : Nat) (h : E.Chained sa (pos + 1)) :
    ∃ length offset, E.findMatch sa pos symbolCost = .ok (length,offset) ∧
      (length = 0 ∨ E.MatchAt pos length offset) := by
  obtain ⟨minPos,hmin⟩ : ∃ x, x = if E.params.window ≤ pos then pos - E.params.window else 0 :=
    ⟨_,rfl⟩
  obtain ⟨endStr,hend⟩ : ∃ x, x = if E.inp.length < pos + LZG_MAX_RUN_LENGTH then E.inp.length
    else pos + LZG_MAX_RUN_LENGTH := ⟨_,rfl⟩
  have hlink : E.Linked pos minPos (sa.tab (pos &&& (E.params.window - 1))) := by
    intro p2 hp2 hin
    rw [ht.mask] at hp2
    obtain ⟨h1,h2,h3⟩ := h.next ht (.inl rfl) hp2 fun hle => by
      rw [hmin,if_pos hle] at hin
      exact hin
    exact ⟨h1,h3,h2⟩
  obtain ⟨b,hb,hc⟩ := searchLoop_spec symbolCost (k := E.params.maxMatches)
    (b := ⟨2,0,0⟩) ht h hend hmin hlink (.inl ⟨rfl,rfl⟩) id
  rw [findMatch]
  rw [← hmin,← hend,hb,ok_bind]
  by_cases hwin : 0 < b.win
  · rw [if_pos hwin]
    refine ⟨_,_,rfl,.inr ?_⟩
    rcases hc with ⟨h0,-⟩ | ⟨-,hm⟩
    · omega
    · exact hm
  · rw [if_neg hwin]
    exact ⟨_,_,rfl,.inl rfl⟩

end Encoder
end RoscoM68k
