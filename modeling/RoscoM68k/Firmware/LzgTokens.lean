import RoscoM68k.Firmware.Lzg

namespace RoscoM68k

-- What a stream says: a symbol, or a copy from the history.
inductive Token where
  | symbol (x : UInt8)
  | copy (length offset : Nat)
  deriving DecidableEq, Repr

def Token.expand (out : List UInt8) : Token → List UInt8
  | .symbol x => out ++ [x]
  | .copy length offset => copyBack offset length out

def Token.size : Token → Nat
  | .symbol _ => 1
  | .copy length _ => length

-- The history reaches back far enough.
def Token.Reaches (out : List UInt8) : Token → Prop
  | .symbol _ => True
  | .copy _ offset => offset ≤ out.length

instance (out : List UInt8) (t : Token) : Decidable (t.Reaches out) := by
  cases t <;> unfold Token.Reaches <;> infer_instance

def copyLength (b : UInt8) : Nat := lengthDecodeLut.getD (b.toNat % 32) 0

-- The copy that a marker with the byte `b` behind it, which is not zero, begins.
def Markers.readCopy (m : Markers) (symbol b : UInt8) :
    List UInt8 → Option (Token × List UInt8)
  | rest =>
    if symbol = m.marker1 then
      match rest with
      | b2 :: b3 :: rest => some (.copy (copyLength b)
          (b.toNat / 32 * 65536 + b2.toNat * 256 + b3.toNat + 2056),rest)
      | _ => none
    else if symbol = m.marker2 then
      match rest with
      | b2 :: rest => some (.copy (copyLength b) (b.toNat / 32 * 256 + b2.toNat + 8),rest)
      | [] => none
    else if symbol = m.marker3 then some (.copy (b.toNat / 64 + 3) (b.toNat % 64 + 8),rest)
    else some (.copy (copyLength b) (b.toNat / 32 + 1),rest)

-- The same for any byte behind the marker.
def Markers.readMarked (m : Markers) (symbol : UInt8) : List UInt8 → Option (Token × List UInt8)
  | [] => none
  | b :: rest => if b = 0 then some (.symbol symbol,rest) else m.readCopy symbol b rest

-- The first token of a stream.
def Markers.read (m : Markers) : List UInt8 → Option (Token × List UInt8)
  | [] => none
  | symbol :: rest =>
    if m.isMarkerSymbol symbol then m.readMarked symbol rest else some (.symbol symbol,rest)

theorem or_join {a b k : Nat} (j : Nat) (hk : 2 ^ j = k) (h : b < k) :
    a * k ||| b = a * k + b := by
  subst hk
  rw [← Nat.shiftLeft_eq]
  exact (Nat.shiftLeft_add_eq_or_of_lt h a).symm

theorem low5 (b : UInt8) : (b &&& 0x1f).toNat = b.toNat % 32 := by
  rw [UInt8.toNat_and]
  exact Nat.and_two_pow_sub_one_eq_mod _ 5

theorem low6 (b : UInt8) : (b &&& 0x3f).toNat = b.toNat % 64 := by
  rw [UInt8.toNat_and]
  exact Nat.and_two_pow_sub_one_eq_mod _ 6

theorem and_high3 (n : Nat) (h : n < 256) : n &&& 0xe0 = n / 32 * 32 := by
  have hhigh : (n &&& 0xe0) >>> 5 = n >>> 5 &&& 7 := Nat.shiftRight_and_distrib
  have hlow : (n &&& 0xe0) % 2 ^ 5 = n % 2 ^ 5 &&& 0 := Nat.and_mod_two_pow
  rw [show 7 = 2 ^ 3 - 1 from rfl,Nat.and_two_pow_sub_one_eq_mod,Nat.shiftRight_eq_div_pow,
    Nat.shiftRight_eq_div_pow] at hhigh
  rw [Nat.and_zero] at hlow
  omega

theorem high3 (b : UInt8) : (b &&& 0xe0).toNat = b.toNat / 32 * 32 := by
  rw [UInt8.toNat_and]
  exact and_high3 _ b.toNat_lt

theorem far_offset (b b2 b3 : UInt8) :
    (b &&& 0xe0).toNat <<< 11 ||| b2.toNat <<< 8 ||| b3.toNat =
      b.toNat / 32 * 65536 + b2.toNat * 256 + b3.toNat := by
  have h2 := b2.toNat_lt
  have h3 := b3.toNat_lt
  have hhigh : (b &&& 0xe0).toNat <<< 11 = b.toNat / 32 * 65536 := by
    rw [high3,Nat.shiftLeft_eq]
    omega
  have hlow : b2.toNat <<< 8 = b2.toNat * 256 := Nat.shiftLeft_eq _ _
  have hsum : b.toNat / 32 * 65536 + b2.toNat * 256 = (b.toNat / 32 * 256 + b2.toNat) * 256 := by
    omega
  rw [hhigh,hlow,or_join 16 (by norm_num) (by omega),hsum,
    or_join 8 (by norm_num) h3]

theorem medium_offset (b b2 : UInt8) :
    (b &&& 0xe0).toNat <<< 3 ||| b2.toNat = b.toNat / 32 * 256 + b2.toNat := by
  have hhigh : (b &&& 0xe0).toNat <<< 3 = b.toNat / 32 * 256 := by
    rw [high3,Nat.shiftLeft_eq]
    omega
  rw [hhigh,or_join 8 (by norm_num) b2.toNat_lt]

theorem length_entry (b : UInt8) :
    entry lengthDecodeLut (b &&& 0x1f).toNat = .ok (copyLength b) := by
  have hlt : b.toNat % 32 < lengthDecodeLut.length := Nat.mod_lt _ (by decide)
  rw [low5,entry_of_lt hlt,copyLength,List.getD_eq_getElem?_getD,List.getElem?_eq_getElem hlt,
    Option.getD_some]

theorem copyLength_range (b : UInt8) : 2 ≤ copyLength b ∧ copyLength b ≤ 128 := by
  have h : ∀ i < 32, 2 ≤ lengthDecodeLut.getD i 0 ∧ lengthDecodeLut.getD i 0 ≤ 128 := by decide
  exact h _ (Nat.mod_lt _ (by decide))

section Reading

variable {m : Markers} {symbol b : UInt8} {rest : List UInt8} {t : Token}

theorem Markers.readCopy_copy (h : m.readCopy symbol b rest = some (t,rest')) :
    ∃ length offset, t = .copy length offset ∧ 2 ≤ length ∧ length ≤ 128 ∧ 1 ≤ offset ∧
      offset ≤ 526343 ∧ rest'.length ≤ rest.length := by
  have hb := b.toNat_lt
  have hlen := copyLength_range b
  unfold Markers.readCopy at h
  split_ifs at h
  · match rest with
    | b2 :: b3 :: rest =>
      have h2 := b2.toNat_lt
      have h3 := b3.toNat_lt
      obtain ⟨rfl,rfl⟩ := Prod.mk.inj (Option.some.inj h)
      exact ⟨_,_,rfl,hlen.1,hlen.2,by omega,by omega,by simp; omega⟩
  · match rest with
    | b2 :: rest =>
      have h2 := b2.toNat_lt
      obtain ⟨rfl,rfl⟩ := Prod.mk.inj (Option.some.inj h)
      exact ⟨_,_,rfl,hlen.1,hlen.2,by omega,by omega,by simp⟩
  · obtain ⟨rfl,rfl⟩ := Prod.mk.inj (Option.some.inj h)
    exact ⟨_,_,rfl,by omega,by omega,by omega,by omega,le_rfl⟩
  · obtain ⟨rfl,rfl⟩ := Prod.mk.inj (Option.some.inj h)
    exact ⟨_,_,rfl,hlen.1,hlen.2,by omega,by omega,le_rfl⟩

theorem copyParameters_eq (m : Markers) (symbol b : UInt8) (rest : List UInt8) :
    copyParameters m symbol b rest =
      match m.readCopy symbol b rest with
      | some (.copy length offset,rest) => .ok ⟨length,offset,rest⟩
      | _ => .error .refused := by
  unfold copyParameters Markers.readCopy
  split_ifs with h1 h2 h3
  · rw [check_bind]
    match rest with
    | [] => rfl
    | [b2] => rfl
    | b2 :: b3 :: rest =>
      rw [if_pos (by simp),length_entry]
      simp only [ok_bind,takeByte,far_offset]
  · rw [check_bind]
    match rest with
    | [] => rfl
    | b2 :: rest =>
      rw [if_pos (by simp),length_entry]
      simp only [ok_bind,takeByte,medium_offset]
  · have h6 : (b >>> 6).toNat = b.toNat / 64 := by
      rw [UInt8.toNat_shiftRight]
      exact Nat.shiftRight_eq_div_pow _ 6
    simp only [h6,low6]
  · have h5 : (b >>> 5).toNat = b.toNat / 32 := by
      rw [UInt8.toNat_shiftRight]
      exact Nat.shiftRight_eq_div_pow _ 5
    rw [length_entry]
    simp only [ok_bind,h5]

end Reading

theorem copyHistory_eq {k offset n : Nat} {out : List UInt8} (hd : 0 < offset)
    (h : offset ≤ out.length) (hn : out.length + n ≤ k) :
    copyHistory k offset n out = .ok (copyBack offset n out) := by
  induction n generalizing out with
  | zero => rfl
  | succ n ih =>
    obtain ⟨x,hx,hnext⟩ := copyBack_snoc (n := n) hd h
    have hput : putByte k out x = .ok (out ++ [x]) := if_pos (by omega)
    rw [copyHistory,if_neg (by omega),entry_some hx,ok_bind,hput,ok_bind,hnext]
    exact ih (by simp; omega) (by simp; omega)

theorem unrolled_eq {n : Nat} (h : 1 ≤ n) : unrolled n = n := by
  unfold unrolled
  split_ifs <;> omega

section Rounds

variable {m : Markers} {s s' : Decoding} {k k' n : Nat} {t : Token} {rest out : List UInt8}

-- The result of a token in a buffer of size `k`.
def Token.step (k : Nat) (out : List UInt8) (r : Token × List UInt8) : Except Fault Decoding :=
  if r.1.Reaches out ∧ out.length + r.1.size ≤ k then .ok ⟨r.2,r.1.expand out⟩
  else .error .refused

theorem symbol_step (k : Nat) (out : List UInt8) (x : UInt8) (rest : List UInt8) :
    (do
      checkBounds (out.length < k)
      let out ← putByte k out x
      .ok ⟨rest,out⟩) = Token.step k out (.symbol x,rest) := by
  rw [check_bind,Token.step]
  by_cases h : out.length < k
  · have hput : putByte k out x = .ok (out ++ [x]) := if_pos h
    rw [if_pos h,hput,ok_bind,if_pos ⟨trivial,h⟩]
    rfl
  · rw [if_neg h,if_neg fun h' => h h'.2]

theorem decodeRound_eq (k : Nat) (m : Markers) (h : s.rest ≠ []) :
    decodeRound k m s = match m.read s.rest with
      | some r => Token.step k s.out r
      | none => .error .refused := by
  obtain ⟨symbol,rest,hrest⟩ := List.exists_cons_of_ne_nil h
  rw [decodeRound,hrest,Markers.read]
  simp only [takeByte,ok_bind]
  cases hm : m.isMarkerSymbol symbol with
  | false => exact symbol_step k s.out symbol rest
  | true =>
    simp only [Bool.not_true,Bool.false_eq_true,if_false,if_true]
    rw [check_bind]
    match rest with
    | [] => rfl
    | b :: rest =>
      rw [if_pos (by simp),Markers.readMarked]
      simp only [ok_bind]
      by_cases hb : b = 0
      · rw [if_neg (not_not.mpr hb),if_pos hb]
        exact symbol_step k s.out symbol rest
      · rw [if_pos hb,if_neg hb,copyParameters_eq]
        cases hc : m.readCopy symbol b rest with
        | none => rfl
        | some r =>
          obtain ⟨t,rest'⟩ := r
          obtain ⟨length,offset,rfl,hlen,-,hoff,-,-⟩ := Markers.readCopy_copy hc
          simp only [ok_bind]
          rw [check_bind,Token.step]
          by_cases hfit : offset ≤ s.out.length ∧ s.out.length + length ≤ k
          · rw [if_pos hfit,unrolled_eq (by omega),copyHistory_eq hoff hfit.1 hfit.2,ok_bind]
            exact (if_pos hfit).symm
          · rw [if_neg hfit]
            exact (if_neg hfit).symm

-- What has been read is a symbol, or a copy within what a marker can say.
inductive Token.Fair : Token → Prop where
  | symbol (x : UInt8) : Fair (.symbol x)
  | copy {length offset : Nat} (hlen : 2 ≤ length) (hmax : length ≤ 128) (hoff : 1 ≤ offset)
      (hfar : offset ≤ 526343) : Fair (.copy length offset)

theorem Markers.readMarked_fair {symbol : UInt8} (h : m.readMarked symbol rest = some (t,rest')) :
    t.Fair ∧ rest'.length < rest.length := by
  match rest with
  | [] => simp [Markers.readMarked] at h
  | b :: rest =>
    rw [Markers.readMarked] at h
    split_ifs at h
    · obtain ⟨rfl,rfl⟩ := Prod.mk.inj (Option.some.inj h)
      exact ⟨.symbol symbol,Nat.lt_succ_self _⟩
    · obtain ⟨length,offset,rfl,hlen,hmax,hoff,hfar,hle⟩ := Markers.readCopy_copy h
      exact ⟨.copy hlen hmax hoff hfar,Nat.lt_succ_of_le hle⟩

theorem Markers.read_fair (h : m.read rest = some (t,rest')) :
    t.Fair ∧ rest'.length < rest.length := by
  match rest with
  | [] => simp [Markers.read] at h
  | symbol :: rest =>
    rw [Markers.read] at h
    split_ifs at h
    · obtain ⟨hfair,hlt⟩ := Markers.readMarked_fair h
      exact ⟨hfair,Nat.lt_succ_of_lt hlt⟩
    · obtain ⟨rfl,rfl⟩ := Prod.mk.inj (Option.some.inj h)
      exact ⟨.symbol symbol,Nat.lt_succ_self _⟩

-- It is expanded to as many bytes as its size says, and to one at least.
theorem Token.Fair.expand_length (h : t.Fair) (hr : t.Reaches out) :
    (t.expand out).length = out.length + t.size := by
  cases h with
  | symbol x => exact List.length_append
  | copy hlen hmax hoff hfar => exact copyBack_length hoff hr

theorem Token.Fair.size_pos (h : t.Fair) : 0 < t.size := by
  cases h with
  | symbol x => exact Nat.one_pos
  | copy hlen hmax hoff hfar => exact Nat.lt_of_lt_of_le Nat.two_pos hlen

end Rounds

end RoscoM68k
