import RoscoM68k.Firmware.LzgTokens

namespace RoscoM68k

section Header

def join32 (b0 b1 b2 b3 : UInt8) : Nat :=
  b0.toNat * 16777216 + b1.toNat * 65536 + b2.toNat * 256 + b3.toNat

theorem or_join32 (b0 b1 b2 b3 : UInt8) :
    b0.toNat <<< 24 ||| b1.toNat <<< 16 ||| b2.toNat <<< 8 ||| b3.toNat = join32 b0 b1 b2 b3 := by
  have h1 : b1.toNat < 256 := b1.toNat_lt
  have h2 : b2.toNat < 256 := b2.toNat_lt
  have h3 : b2.toNat * 256 < 65536 := by linarith
  have h4 : b1.toNat * 65536 < 16777216 := by linarith
  have e0 : b0.toNat <<< 24 = b0.toNat * 16777216 := by rw [Nat.shiftLeft_eq]
  have e1 : b1.toNat <<< 16 = b1.toNat * 65536 := by rw [Nat.shiftLeft_eq]
  have e2 : b2.toNat <<< 8 = b2.toNat * 256 := by rw [Nat.shiftLeft_eq]
  have s1 : b0.toNat * 16777216 + b1.toNat * 65536 = (b0.toNat * 256 + b1.toNat) * 65536 := by
    ring
  have s2 : (b0.toNat * 256 + b1.toNat) * 65536 + b2.toNat * 256 =
      ((b0.toNat * 256 + b1.toNat) * 256 + b2.toNat) * 256 := by ring
  have o1 : b0.toNat * 16777216 ||| b1.toNat * 65536 = b0.toNat * 16777216 + b1.toNat * 65536 :=
    or_join 24 (by norm_num) h4
  have o2 : (b0.toNat * 256 + b1.toNat) * 65536 ||| b2.toNat * 256 =
      (b0.toNat * 256 + b1.toNat) * 65536 + b2.toNat * 256 :=
    or_join 16 (by norm_num) h3
  have o3 := or_join (k := 256) (a := (b0.toNat * 256 + b1.toNat) * 256 + b2.toNat) 8
    (by norm_num) b3.toNat_lt
  rw [e0,e1,e2,o1,s1,o2,s2,o3,join32]
  ring

theorem getUint32_eq {xs : List UInt8} {i : Nat} {b0 b1 b2 b3 : UInt8}
    (h0 : xs[i]? = some b0) (h1 : xs[i + 1]? = some b1) (h2 : xs[i + 2]? = some b2)
    (h3 : xs[i + 3]? = some b3) : getUint32 xs i = .ok (join32 b0 b1 b2 b3) := by
  rw [getUint32,entry_some h0,ok_bind,entry_some h1,ok_bind,entry_some h2,ok_bind,entry_some h3,
    ok_bind,or_join32]

theorem join32_lt (b0 b1 b2 b3 : UInt8) : join32 b0 b1 b2 b3 < 4294967296 := by
  have h0 := b0.toNat_lt
  have h1 := b1.toNat_lt
  have h2 := b2.toNat_lt
  have h3 := b3.toNat_lt
  rw [join32]
  omega

theorem bytes32_eq (n : Nat) : bytes32 n = [UInt8.ofNat (n / 16777216),UInt8.ofNat (n / 65536),
    UInt8.ofNat (n / 256),UInt8.ofNat n] := by
  rw [bytes32,Nat.shiftRight_eq_div_pow,Nat.shiftRight_eq_div_pow,Nat.shiftRight_eq_div_pow]

theorem bytes32_join32 (b0 b1 b2 b3 : UInt8) : bytes32 (join32 b0 b1 b2 b3) = [b0,b1,b2,b3] := by
  have h0 := b0.toNat_lt
  have h1 := b1.toNat_lt
  have h2 := b2.toNat_lt
  have h3 := b3.toNat_lt
  have hbyte : ∀ (b : UInt8) (n : Nat), n % 256 = b.toNat → UInt8.ofNat n = b := by
    intro b n h
    rw [← UInt8.toNat_inj,UInt8.toNat_ofNat']
    exact h
  rw [bytes32_eq,join32,hbyte b0 _ (by omega),hbyte b1 _ (by omega),hbyte b2 _ (by omega),
    hbyte b3 _ (by omega)]

theorem join32_bytes32 {n : Nat} (h : n < 4294967296) :
    join32 (UInt8.ofNat (n / 16777216)) (UInt8.ofNat (n / 65536)) (UInt8.ofNat (n / 256))
      (UInt8.ofNat n) = n := by
  simp only [join32,UInt8.toNat_ofNat']
  omega

end Header

section Checksum

theorem checksumEights_eq (n : Nat) (data : List UInt8) (s : UInt16 × UInt16) :
    checksumEights n data s = (data.drop (8 * n),(data.take (8 * n)).foldl checksumOp s) := by
  induction n generalizing data s with
  | zero => rfl
  | succ n ih =>
    have hn : 8 * (n + 1) = 8 + 8 * n := by omega
    rw [checksumEights,ih,List.drop_drop,hn,List.take_add,List.foldl_append]

-- The loop that is not unrolled.
theorem calcChecksum_eq (data : List UInt8) :
    calcChecksum data = joinSums (data.foldl checksumOp (1,0)) := by
  rw [calcChecksum,checksumEights_eq]
  simp only
  rw [← List.foldl_append,List.take_append_drop]

theorem joinSums_lt (s : UInt16 × UInt16) : joinSums s < 4294967296 := by
  have h1 := s.1.toNat_lt
  have h2 := s.2.toNat_lt
  have he : s.2.toNat <<< 16 = s.2.toNat * 65536 := Nat.shiftLeft_eq _ _
  rw [joinSums,he,or_join 16 (by norm_num) h1]
  omega

end Checksum

section Streams

variable {m : Markers} {k n : Nat} {rest out out' : List UInt8}

-- A stream that says how to go on from `out` to `out'`.
inductive Expands (m : Markers) : List UInt8 → List UInt8 → List UInt8 → Prop where
  | done (out : List UInt8) : Expands m [] out out
  | token {rest rest' out out' : List UInt8} {t : Token} (hread : m.read rest = some (t,rest'))
      (hreach : t.Reaches out) (hnext : Expands m rest' (t.expand out) out') :
      Expands m rest out out'

theorem Expands.length_le (h : Expands m rest out out') : out.length ≤ out'.length := by
  induction h with
  | done out => exact le_rfl
  | token hread hreach hnext ih =>
    rw [(Markers.read_fair hread).1.expand_length hreach] at ih
    omega

theorem Expands.unique {out'' : List UInt8} (h : Expands m rest out out')
    (h' : Expands m rest out out'') : out' = out'' := by
  induction h with
  | done out =>
    cases h' with
    | done => rfl
    | token hread => simp [Markers.read] at hread
  | token hread hreach hnext ih =>
    cases h' with
    | done => simp [Markers.read] at hread
    | token hread' hreach' hnext' =>
      obtain ⟨rfl,rfl⟩ := Prod.mk.inj (Option.some.inj (hread.symm.trans hread'))
      exact ih hnext'

theorem decodeLoop_iff (hn : rest.length ≤ n) (hk : out.length ≤ k) :
    Faultless (decodeLoop k m n ⟨rest,out⟩) ∧ ∀ out',
      decodeLoop k m n ⟨rest,out⟩ = .ok out' ↔ Expands m rest out out' ∧ out'.length ≤ k := by
  induction n generalizing rest out with
  | zero =>
    obtain rfl : rest = [] := List.length_eq_zero_iff.mp (Nat.le_zero.mp hn)
    refine ⟨.ok out,fun out' => ⟨fun h => ?_,fun h => ?_⟩⟩
    · obtain rfl := Except.ok.inj h
      exact ⟨.done out,hk⟩
    · cases h.1 with
      | done => rfl
      | token hread => simp [Markers.read] at hread
  | succ n ih =>
    rw [decodeLoop]
    by_cases hrest : rest = []
    · subst hrest
      refine ⟨.ok out,fun out' => ⟨fun h => ?_,fun h => ?_⟩⟩
      · obtain rfl := Except.ok.inj h
        exact ⟨.done out,hk⟩
      · cases h.1 with
        | done => rfl
        | token hread => simp [Markers.read] at hread
    · rw [if_neg hrest,decodeRound_eq k m hrest]
      cases hread : m.read rest with
      | none =>
        refine ⟨.refused,fun out' => ⟨fun h => ?_,fun h => ?_⟩⟩
        · simp [error_bind] at h
        · cases h.1 with
          | done => exact absurd rfl hrest
          | token hread' => simp [hread] at hread'
      | some r =>
        obtain ⟨t,rest'⟩ := r
        obtain ⟨hfair,hlt⟩ := Markers.read_fair hread
        simp only [Token.step]
        by_cases hfit : t.Reaches out ∧ out.length + t.size ≤ k
        · rw [if_pos hfit,ok_bind]
          have hlen := hfair.expand_length hfit.1
          have hn' : rest'.length ≤ n := by omega
          have hk' : (t.expand out).length ≤ k := by omega
          obtain ⟨hsafe,hiff⟩ := ih hn' hk'
          refine ⟨hsafe,fun out' => (hiff out').trans ⟨fun h => ?_,fun h => ?_⟩⟩
          · exact ⟨.token hread hfit.1 h.1,h.2⟩
          · cases h.1 with
            | done => exact absurd rfl hrest
            | token hread' hreach hnext =>
              obtain ⟨rfl,rfl⟩ := Prod.mk.inj (Option.some.inj (hread.symm.trans hread'))
              exact ⟨hnext,h.2⟩
        · rw [if_neg hfit,error_bind]
          refine ⟨.refused,fun out' => ⟨fun h => by simp at h,fun h => ?_⟩⟩
          cases h.1 with
          | done => exact absurd rfl hrest
          | token hread' hreach hnext =>
            obtain ⟨rfl,rfl⟩ := Prod.mk.inj (Option.some.inj (hread.symm.trans hread'))
            have hle := hnext.length_le
            rw [hfair.expand_length hreach] at hle
            exact absurd ⟨hreach,hle.trans h.2⟩ hfit

theorem copyPlain_eq (hn : n ≤ rest.length) (hk : out.length + n ≤ k) :
    copyPlain k n ⟨rest,out⟩ = .ok (out ++ rest.take n) := by
  induction n generalizing rest out with
  | zero => rw [copyPlain,List.take_zero,List.append_nil]
  | succ n ih =>
    match rest with
    | [] => simp at hn
    | b :: rest =>
      have hput : putByte k out b = .ok (out ++ [b]) := if_pos (by omega)
      rw [copyPlain]
      simp only [takeByte,ok_bind]
      rw [hput,ok_bind,ih (Nat.le_of_succ_le_succ hn) (by simp; omega)]
      simp

end Streams
section Blocks

variable {m : Markers} {k n d : Nat} {src out out' inp : List UInt8} {method : UInt8}

-- What the data behind the header say, by each of the two methods.
inductive Says : UInt8 → List UInt8 → List UInt8 → Prop where
  | copy (out : List UInt8) : Says LZG_METHOD_COPY out out
  | lzg1 {m : Markers} {rest out : List UInt8} (h : Expands m rest [] out) :
      Says LZG_METHOD_LZG1
        ([m.marker1,m.marker2,m.marker3,m.marker4] ++ rest) out

theorem says_methods (h : Says method src out) :
    method = LZG_METHOD_COPY ∨ method = LZG_METHOD_LZG1 := by
  cases h with
  | copy => exact .inl rfl
  | lzg1 => exact .inr rfl

theorem says_lzg1 (h : Says LZG_METHOD_LZG1 src out) : ∃ m1 m2 m3 m4 rest,
    src = [m1,m2,m3,m4] ++ rest ∧ Expands ⟨m1,m2,m3,m4⟩ rest [] out := by
  cases h with
  | lzg1 hexp => exact ⟨_,_,_,_,_,rfl,hexp⟩

theorem says_nil (h : Says method [] out) : out = [] := by
  rcases says_methods h with rfl | rfl
  · cases h
    rfl
  · obtain ⟨m1,m2,m3,m4,rest,hdata,-⟩ := says_lzg1 h
    exact absurd hdata (List.cons_ne_nil _ _).symm

theorem Says.unique (h : Says method src out) (h' : Says method src out') : out = out' := by
  rcases says_methods h with rfl | rfl
  · cases h
    cases h'
    rfl
  · obtain ⟨m1,m2,m3,m4,rest,rfl,hexp⟩ := says_lzg1 h
    obtain ⟨n1,n2,n3,n4,rest',heq,hexp'⟩ := says_lzg1 h'
    simp only [List.cons_append,List.nil_append,List.cons.injEq] at heq
    obtain ⟨rfl,rfl,rfl,rfl,rfl⟩ := heq
    exact hexp.unique hexp'

-- The blocks of the format, with what they are decoded to.
def LzgBlock (inp out : List UInt8) : Prop :=
  ∃ method data, inp = withHeader out.length method data ∧ data.length < 4294967296 ∧
    out.length < 4294967296 ∧ Says method data out

theorem decodeData_iff (hd : d ≤ k) (hm : method ≤ LZG_METHOD_LZG1) :
    Faultless (decodeData k d src.length method src) ∧ ∀ out,
      decodeData k d src.length method src = .ok out ↔ Says method src out ∧ out.length = d := by
  have hcases : method = LZG_METHOD_COPY ∨ method = LZG_METHOD_LZG1 := by
    have hle : method.toNat ≤ 1 := hm
    rw [← UInt8.toNat_inj,← UInt8.toNat_inj]
    change method.toNat = 0 ∨ method.toNat = 1
    omega
  rw [decodeData]
  rcases hcases with rfl | rfl
  · rw [if_pos rfl,check_bind]
    by_cases hlen : d = src.length
    · subst hlen
      rw [if_pos rfl,copyPlain_eq le_rfl (by simpa using hd),List.nil_append,List.take_length]
      refine ⟨.ok src,fun out => ⟨fun h => ?_,fun h => ?_⟩⟩
      · obtain rfl := Except.ok.inj h
        exact ⟨.copy src,rfl⟩
      · cases h.1
        rfl
    · rw [if_neg hlen]
      refine ⟨.refused,fun out => ⟨fun h => by simp at h,fun h => ?_⟩⟩
      obtain ⟨hs,hl⟩ := h
      cases hs
      exact absurd hl.symm hlen
  · rw [if_neg (by decide),check_bind]
    by_cases hlen : 4 ≤ src.length
    · rw [if_pos hlen]
      match src with
      | m1 :: m2 :: m3 :: m4 :: rest =>
        simp only [takeByte,ok_bind]
        have hnil : ([] : List UInt8).length ≤ k := Nat.zero_le k
        obtain ⟨hsafe,hiff⟩ := decodeLoop_iff (m := ⟨m1,m2,m3,m4⟩) (le_refl rest.length) hnil
        refine ⟨hsafe.bind fun out _ => .check fun _ => .ok out,fun out => ?_⟩
        rw [bind_eq_ok]
        simp only [hiff,check_bind_ok]
        refine ⟨fun h => ?_,fun h => ?_⟩
        · obtain ⟨x,⟨hexp,-⟩,hl,hx⟩ := h
          obtain rfl := Except.ok.inj hx
          exact ⟨.lzg1 (m := ⟨m1,m2,m3,m4⟩) hexp,hl⟩
        · obtain ⟨hs,hl⟩ := h
          cases hs with
          | lzg1 hexp => exact ⟨out,⟨hexp,hl ▸ hd⟩,hl,rfl⟩
    · rw [if_neg hlen]
      refine ⟨.refused,fun out => ⟨fun h => by simp at h,fun h => ?_⟩⟩
      obtain ⟨hs,-⟩ := h
      cases hs with
      | lzg1 hexp =>
        simp at hlen

-- The header of sixteen bytes, read.
theorem decode_header (c0 c1 c2 c3 c4 c5 c6 c7 c8 c9 c10 c11 c12 c13 c14 c15 : UInt8)
    (data : List UInt8) :
    LZG_Decode ([c0,c1,c2,c3,c4,c5,c6,c7,c8,c9,c10,c11,c12,c13,c14,c15] ++ data) k = (do
      checkBounds (c0 = 0x4c ∧ c1 = 0x5a ∧ c2 = 0x47)
      checkBounds (join32 c3 c4 c5 c6 ≤ k)
      checkBounds (join32 c7 c8 c9 c10 = data.length)
      checkBounds (calcChecksum (data.take (join32 c7 c8 c9 c10)) = join32 c11 c12 c13 c14)
      checkBounds (c15 ≤ LZG_METHOD_LZG1)
      let out ← decodeData k (join32 c3 c4 c5 c6) (join32 c7 c8 c9 c10) c15 data
      .ok (join32 c3 c4 c5 c6,out)) := by
  have hsize : LZG_HEADER_SIZE ≤
      ([c0,c1,c2,c3,c4,c5,c6,c7,c8,c9,c10,c11,c12,c13,c14,c15] ++ data).length := by
    simp only [LZG_HEADER_SIZE,List.length_append,List.length_cons,List.length_nil]
    omega
  have hrest : ([c0,c1,c2,c3,c4,c5,c6,c7,c8,c9,c10,c11,c12,c13,c14,c15] ++ data).length -
      LZG_HEADER_SIZE = data.length := by
    simp only [LZG_HEADER_SIZE,List.length_append,List.length_cons,List.length_nil]
    omega
  have hdrop : ([c0,c1,c2,c3,c4,c5,c6,c7,c8,c9,c10,c11,c12,c13,c14,c15] ++ data).drop
      LZG_HEADER_SIZE = data := rfl
  rw [LZG_Decode,check_pos hsize,ok_bind,entry_some (x := c0) rfl,ok_bind,
    entry_some (x := c1) rfl,ok_bind,entry_some (x := c2) rfl,ok_bind,
    getUint32_eq (i := 3) rfl rfl rfl rfl,ok_bind,getUint32_eq (i := 7) rfl rfl rfl rfl,ok_bind,
    hrest,getUint32_eq (i := 11) rfl rfl rfl rfl,ok_bind,hdrop,
    entry_some (x := c15) rfl,ok_bind]

theorem withHeader_eq (n : Nat) (method : UInt8) (data : List UInt8) :
    withHeader n method data = [0x4c,0x5a,0x47,
      UInt8.ofNat (n / 16777216),UInt8.ofNat (n / 65536),UInt8.ofNat (n / 256),UInt8.ofNat n,
      UInt8.ofNat (data.length / 16777216),UInt8.ofNat (data.length / 65536),
      UInt8.ofNat (data.length / 256),UInt8.ofNat data.length,
      UInt8.ofNat (calcChecksum data / 16777216),UInt8.ofNat (calcChecksum data / 65536),
      UInt8.ofNat (calcChecksum data / 256),UInt8.ofNat (calcChecksum data),method] ++ data := by
  rw [withHeader,bytes32_eq,bytes32_eq,bytes32_eq]
  rfl

theorem calcChecksum_lt (data : List UInt8) : calcChecksum data < 4294967296 := by
  rw [calcChecksum_eq]
  exact joinSums_lt _

theorem block_header (c0 c1 c2 c3 c4 c5 c6 c7 c8 c9 c10 c11 c12 c13 c14 c15 : UInt8)
    (data out : List UInt8) :
    LzgBlock ([c0,c1,c2,c3,c4,c5,c6,c7,c8,c9,c10,c11,c12,c13,c14,c15] ++ data) out ↔
      (c0 = 0x4c ∧ c1 = 0x5a ∧ c2 = 0x47) ∧ join32 c3 c4 c5 c6 = out.length ∧
      join32 c7 c8 c9 c10 = data.length ∧ join32 c11 c12 c13 c14 = calcChecksum data ∧
      Says c15 data out := by
  refine ⟨fun h => ?_,fun h => ?_⟩
  · obtain ⟨method,data',he,hdata,hout,hs⟩ := h
    rw [withHeader_eq] at he
    simp only [List.cons_append,List.nil_append,List.cons.injEq] at he
    obtain ⟨rfl,rfl,rfl,rfl,rfl,rfl,rfl,rfl,rfl,rfl,rfl,rfl,rfl,rfl,rfl,rfl,rfl⟩ := he
    exact ⟨⟨rfl,rfl,rfl⟩,join32_bytes32 hout,join32_bytes32 hdata,
      join32_bytes32 (calcChecksum_lt data),hs⟩
  · obtain ⟨⟨rfl,rfl,rfl⟩,hout,hdata,hsum,hs⟩ := h
    refine ⟨c15,data,?_,hdata ▸ join32_lt c7 c8 c9 c10,hout ▸ join32_lt c3 c4 c5 c6,hs⟩
    rw [withHeader,← hout,← hdata,← hsum,bytes32_join32,bytes32_join32,bytes32_join32]
    rfl

theorem says_method (h : Says method src out) : method ≤ LZG_METHOD_LZG1 := by
  cases h with
  | copy => decide
  | lzg1 => decide

-- The decoder stays inside its buffers whatever it is given, and decodes what is a block of the
-- format and small enough, and only this.
theorem LZG_Decode_iff (inp : List UInt8) (k : Nat) :
    Faultless (LZG_Decode inp k) ∧ ∀ n out,
      LZG_Decode inp k = .ok (n,out) ↔ LzgBlock inp out ∧ n = out.length ∧ n ≤ k := by
  by_cases hlen : LZG_HEADER_SIZE ≤ inp.length
  · match inp with
    | c0 :: c1 :: c2 :: c3 :: c4 :: c5 :: c6 :: c7 :: c8 :: c9 :: c10 :: c11 :: c12 :: c13 ::
        c14 :: c15 :: data =>
      have hh := decode_header (k := k) c0 c1 c2 c3 c4 c5 c6 c7 c8 c9 c10 c11 c12 c13 c14 c15 data
      simp only [List.cons_append,List.nil_append] at hh
      have hb := block_header c0 c1 c2 c3 c4 c5 c6 c7 c8 c9 c10 c11 c12 c13 c14 c15 data
      simp only [List.cons_append,List.nil_append] at hb
      rw [hh]
      refine ⟨.check fun _ => .check fun hd => .check fun he => .check fun _ => .check fun hm => ?_,
        fun n out => ?_⟩
      · rw [he]
        exact (decodeData_iff hd hm).1.bind fun out _ => .ok _
      · rw [hb,check_bind_ok,check_bind_ok,check_bind_ok,check_bind_ok,check_bind_ok,bind_eq_ok]
        refine ⟨fun h => ?_,fun h => ?_⟩
        · obtain ⟨hmagic,hd,he,hsum,hm,x,hx,hr⟩ := h
          obtain ⟨rfl,rfl⟩ := Prod.mk.inj (Except.ok.inj hr)
          rw [he] at hx hsum
          rw [List.take_length] at hsum
          obtain ⟨hs,hl⟩ := ((decodeData_iff hd hm).2 x).mp hx
          exact ⟨⟨hmagic,hl.symm,he,hsum.symm,hs⟩,hl.symm,hd⟩
        · obtain ⟨⟨hmagic,hout,he,hsum,hs⟩,hn,hk⟩ := h
          have hm := says_method hs
          have hd : join32 c3 c4 c5 c6 ≤ k := by omega
          have hx := ((decodeData_iff hd hm).2 out).mpr ⟨hs,hout.symm⟩
          rw [he,List.take_length]
          exact ⟨hmagic,hd,rfl,hsum.symm,hm,out,hx,by rw [hout,hn]⟩
  · rw [LZG_Decode,check_neg hlen,error_bind]
    refine ⟨.refused,fun n out => ⟨fun h => by simp at h,fun h => ?_⟩⟩
    obtain ⟨⟨method,data,rfl,-⟩,-⟩ := h
    rw [withHeader_eq] at hlen
    simp [LZG_HEADER_SIZE] at hlen

theorem LzgBlock.unique (h : LzgBlock inp out) (h' : LzgBlock inp out') : out = out' := by
  obtain ⟨method,data,rfl,-,-,hs⟩ := h
  obtain ⟨method',data',heq,-,-,hs'⟩ := h'
  rw [withHeader_eq,withHeader_eq] at heq
  simp only [List.cons_append,List.nil_append,List.cons.injEq] at heq
  obtain ⟨-,-,-,-,-,-,-,-,-,-,-,-,-,-,-,rfl,rfl⟩ := heq
  exact hs.unique hs'

theorem LzgBlock.header_le (h : LzgBlock inp out) : LZG_HEADER_SIZE ≤ inp.length := by
  obtain ⟨method,data,rfl,-⟩ := h
  rw [withHeader_eq]
  simp [LZG_HEADER_SIZE]

theorem LzgBlock.decode (h : LzgBlock inp out) (k : Nat) : LZG_Decode inp k =
    if out.length ≤ k then .ok (out.length,out) else .error .refused := by
  obtain ⟨hsafe,hiff⟩ := LZG_Decode_iff inp k
  by_cases hk : out.length ≤ k
  · rw [if_pos hk]
    exact (hiff _ _).mpr ⟨h,rfl,hk⟩
  · rw [if_neg hk]
    rcases hsafe.cases with ⟨⟨n,out'⟩,hok⟩ | hno
    · obtain ⟨hblock,rfl,hle⟩ := (hiff _ _).mp hok
      rw [h.unique hblock] at hk
      exact absurd hle hk
    · exact hno

theorem LzgBlock.decodedSize (h : LzgBlock inp out) : LZG_DecodedSize inp = .ok out.length := by
  obtain ⟨method,data,rfl,-,hout,-⟩ := h
  have hlong : ¬ (withHeader out.length method data).length < 7 := by
    rw [withHeader_eq]
    simp
  rw [LZG_DecodedSize,if_neg hlong,withHeader_eq,entry_some (x := 0x4c) rfl,ok_bind,
    entry_some (x := 0x5a) rfl,ok_bind,entry_some (x := 0x47) rfl,ok_bind,if_neg (by decide),
    getUint32_eq (i := 3) rfl rfl rfl rfl,join32_bytes32 hout]

-- The decoder stays inside its buffers whatever it is given. It decodes the blocks of the format
-- that fit the output and nothing else, and where it does, the size in the header is right.
theorem LZG_Decode_exact (inp : List UInt8) (k : Nat) :
    Faultless (LZG_Decode inp k) ∧
    (∀ n out, LZG_Decode inp k = .ok (n,out) ↔ LzgBlock inp out ∧ n = out.length ∧ n ≤ k) ∧
    ∀ n out, LZG_Decode inp k = .ok (n,out) → LZG_DecodedSize inp = .ok n := by
  obtain ⟨hsafe,hiff⟩ := LZG_Decode_iff inp k
  refine ⟨hsafe,hiff,fun n out hok => ?_⟩
  obtain ⟨hblock,rfl,-⟩ := (hiff _ _).mp hok
  exact hblock.decodedSize

end Blocks

end RoscoM68k
