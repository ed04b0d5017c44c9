import RoscoM68k.Firmware.LzgDecode
import RoscoM68k.Firmware.LzgSearch

namespace RoscoM68k

structure Markers.Distinct (m : Markers) : Prop where
  one_two : m.marker1 ≠ m.marker2
  one_three : m.marker1 ≠ m.marker3
  one_four : m.marker1 ≠ m.marker4
  two_three : m.marker2 ≠ m.marker3
  two_four : m.marker2 ≠ m.marker4
  three_four : m.marker3 ≠ m.marker4

-- A chunk of a stream that says `t`, whatever follows it.
def Markers.Writes (m : Markers) (chunk : List UInt8) (t : Token) : Prop :=
  ∀ rest, m.read (chunk ++ rest) = some (t,rest)

section Chunks

variable {m : Markers} {n length offset enc : Nat} {x : UInt8}

theorem toNat_byte (h : n < 256) : (UInt8.ofNat n).toNat = n := by
  rw [UInt8.toNat_ofNat']
  exact Nat.mod_eq_of_lt h

theorem byte_ne_zero (h : n < 256) (h0 : 0 < n) : UInt8.ofNat n ≠ 0 := by
  intro he
  have hn := toNat_byte h
  rw [he] at hn
  exact absurd hn.symm h0.ne'

theorem writes_plain (h : m.isMarkerSymbol x = false) : m.Writes [x] (.symbol x) := by
  intro rest
  rw [List.singleton_append,Markers.read,h]
  rfl

theorem writes_marked (h : m.isMarkerSymbol x = true) : m.Writes [x,0] (.symbol x) := by
  intro rest
  rw [List.cons_append,Markers.read,h]
  rfl

theorem read_marked {b : UInt8} {rest : List UInt8} (h : m.isMarkerSymbol x = true) (hb : b ≠ 0) :
    m.read (x :: b :: rest) = m.readCopy x b rest := by
  rw [Markers.read,h,if_pos rfl,Markers.readMarked,if_neg hb]

theorem copyLength_enc (hdec : lengthDecodeLut[enc - 2]? = some length) {b : UInt8}
    (hb : b.toNat % 32 = enc - 2) : copyLength b = length := by
  rw [copyLength,hb,List.getD_eq_getElem?_getD,hdec,Option.getD_some]

theorem writes_short (hm : m.Distinct) (hlen : 3 ≤ length ∧ length ≤ 6)
    (hoff : 9 ≤ offset ∧ offset ≤ 71) :
    m.Writes [m.marker3,UInt8.ofNat ((length - 3) <<< 6 ||| (offset - 8))]
      (.copy length offset) := by
  intro rest
  have hshift : (length - 3) <<< 6 = (length - 3) * 64 := by rw [Nat.shiftLeft_eq]
  rw [hshift,or_join 6 (by norm_num) (by omega)]
  have hb : (UInt8.ofNat ((length - 3) * 64 + (offset - 8))).toNat =
      (length - 3) * 64 + (offset - 8) := toNat_byte (by omega)
  have hl : ((length - 3) * 64 + (offset - 8)) / 64 + 3 = length := by omega
  have ho : ((length - 3) * 64 + (offset - 8)) % 64 + 8 = offset := by omega
  rw [List.cons_append,List.singleton_append,
    read_marked (by simp [Markers.isMarkerSymbol]) (byte_ne_zero (by omega) (by omega)),
    Markers.readCopy.eq_def,if_neg hm.one_three.symm,if_neg hm.two_three.symm,if_pos rfl,hb,hl,ho]

theorem writes_near (hm : m.Distinct) (henc : 3 ≤ enc ∧ enc ≤ 33)
    (hdec : lengthDecodeLut[enc - 2]? = some length) (hoff : 1 ≤ offset ∧ offset ≤ 8) :
    m.Writes [m.marker4,UInt8.ofNat ((offset - 1) <<< 5 ||| (enc - 2))] (.copy length offset) := by
  intro rest
  have hshift : (offset - 1) <<< 5 = (offset - 1) * 32 := by rw [Nat.shiftLeft_eq]
  rw [hshift,or_join 5 (by norm_num) (by omega)]
  have hb : (UInt8.ofNat ((offset - 1) * 32 + (enc - 2))).toNat = (offset - 1) * 32 + (enc - 2) :=
    toNat_byte (by omega)
  have hl := copyLength_enc (b := UInt8.ofNat ((offset - 1) * 32 + (enc - 2))) hdec
    (by rw [hb]; omega)
  have ho : ((offset - 1) * 32 + (enc - 2)) / 32 + 1 = offset := by omega
  rw [List.cons_append,List.singleton_append,
    read_marked (by simp [Markers.isMarkerSymbol]) (byte_ne_zero (by omega) (by omega)),
    Markers.readCopy.eq_def,if_neg hm.one_four.symm,if_neg hm.two_four.symm,
    if_neg hm.three_four.symm,hl,hb,ho]

theorem writes_medium (hm : m.Distinct) (henc : 3 ≤ enc ∧ enc ≤ 33)
    (hdec : lengthDecodeLut[enc - 2]? = some length) (hoff : offset < 2048) :
    m.Writes [m.marker2,UInt8.ofNat ((offset >>> 3 &&& 0xe0) ||| (enc - 2)),UInt8.ofNat offset]
      (.copy length (offset + 8)) := by
  intro rest
  have hshift : offset >>> 3 &&& 0xe0 = offset / 256 * 32 := by
    rw [Nat.shiftRight_eq_div_pow,and_high3 _ (by omega)]
    omega
  rw [hshift,or_join 5 (by norm_num) (by omega)]
  have hb : (UInt8.ofNat (offset / 256 * 32 + (enc - 2))).toNat = offset / 256 * 32 + (enc - 2) :=
    toNat_byte (by omega)
  have hl := copyLength_enc (b := UInt8.ofNat (offset / 256 * 32 + (enc - 2))) hdec
    (by rw [hb]; omega)
  have ho : (offset / 256 * 32 + (enc - 2)) / 32 * 256 + offset % 256 + 8 = offset + 8 := by omega
  simp only [List.cons_append,List.nil_append]
  rw [read_marked (by simp [Markers.isMarkerSymbol]) (byte_ne_zero (by omega) (by omega)),
    Markers.readCopy.eq_def,if_neg hm.one_two.symm,if_pos rfl]
  simp only
  rw [hl,hb,UInt8.toNat_ofNat']
  exact congrArg (fun o => some (Token.copy length o,rest)) ho

theorem writes_far (henc : 3 ≤ enc ∧ enc ≤ 33)
    (hdec : lengthDecodeLut[enc - 2]? = some length) (hoff : offset < 524288) :
    m.Writes [m.marker1,UInt8.ofNat ((offset >>> 11 &&& 0xe0) ||| (enc - 2)),
      UInt8.ofNat (offset >>> 8),UInt8.ofNat offset] (.copy length (offset + 2056)) := by
  intro rest
  have hshift : offset >>> 11 &&& 0xe0 = offset / 65536 * 32 := by
    rw [Nat.shiftRight_eq_div_pow,and_high3 _ (by omega)]
    omega
  have hmid : offset >>> 8 = offset / 256 := by rw [Nat.shiftRight_eq_div_pow]
  rw [hshift,hmid,or_join 5 (by norm_num) (by omega)]
  have hb : (UInt8.ofNat (offset / 65536 * 32 + (enc - 2))).toNat =
      offset / 65536 * 32 + (enc - 2) := toNat_byte (by omega)
  have hl := copyLength_enc (b := UInt8.ofNat (offset / 65536 * 32 + (enc - 2))) hdec
    (by rw [hb]; omega)
  have ho : (offset / 65536 * 32 + (enc - 2)) / 32 * 65536 + offset / 256 % 256 * 256 +
      offset % 256 + 2056 = offset + 2056 := by omega
  simp only [List.cons_append,List.nil_append]
  rw [read_marked (by simp [Markers.isMarkerSymbol]) (byte_ne_zero (by omega) (by omega)),
    Markers.readCopy.eq_def,if_pos rfl]
  simp only
  rw [hl,hb,UInt8.toNat_ofNat',UInt8.toNat_ofNat']
  exact congrArg (fun o => some (Token.copy length o,rest)) ho

end Chunks

namespace Encoder

variable {E : Encoder} {dst : List UInt8} {pos length offset n : Nat} {s : Encoding}

theorem emit_eq (E : Encoder) (dst bs : List UInt8) : E.emit dst bs =
    if LZG_HEADER_SIZE + dst.length + bs.length ≤ E.outsize then .ok (dst ++ bs)
    else .error .refused := check_bind _

-- A match is written in the one of the four ways that it fits, and this can be read again.
theorem emitCopy_writes (dst : List UInt8) (ht : E.Tuned) (hm : E.markers.Distinct)
    (h : E.MatchAt pos length offset) :
    ∃ chunk, E.emitCopy dst length offset = E.emit dst chunk ∧
      E.markers.Writes chunk (.copy length offset) := by
  obtain ⟨enc,henc,hge,hle,hdec⟩ := h.quantized
  have hthree := h.three
  have hbehind := h.behind
  have hwin := h.window
  have hmax := ht.window_le
  unfold emitCopy
  by_cases hshort : length ≤ 6 ∧ 9 ≤ offset ∧ offset ≤ 71
  · rw [if_pos hshort]
    exact ⟨_,rfl,writes_short hm ⟨hthree,hshort.1⟩ hshort.2⟩
  · rw [if_neg hshort]
    by_cases hnear : offset ≤ 8
    · rw [if_pos hnear,entry_some henc]
      exact ⟨_,rfl,writes_near hm ⟨hge,hle⟩ hdec ⟨hbehind,hnear⟩⟩
    · rw [if_neg hnear]
      by_cases hfar : 2056 ≤ offset
      · have hback : offset - 2056 + 2056 = offset := by omega
        have hlt : offset - 2056 < 524288 := by omega
        have hw := writes_far (m := E.markers) ⟨hge,hle⟩ hdec hlt
        rw [hback] at hw
        rw [if_pos hfar,entry_some henc]
        exact ⟨_,rfl,hw⟩
      · have hback : offset - 8 + 8 = offset := by omega
        have hlt : offset - 8 < 2048 := by omega
        have hw := writes_medium hm ⟨hge,hle⟩ hdec hlt
        rw [hback] at hw
        rw [if_neg hfar,entry_some henc]
        exact ⟨_,rfl,hw⟩

-- What a round puts into the stream is a token that leads on to a longer part of the input.
structure Advance (E : Encoder) (s s' : Encoding) (t : Token) (chunk : List UInt8) : Prop where
  dst : s'.dst = s.dst ++ chunk
  writes : E.markers.Writes chunk t
  reaches : t.Reaches (E.inp.take s.src)
  expand : t.expand (E.inp.take s.src) = E.inp.take s'.src
  forth : s.src < s'.src
  le : s'.src ≤ E.inp.length
  chained : E.Chained s'.sa s'.src
  fits : LZG_HEADER_SIZE + s'.dst.length ≤ E.outsize

theorem emit_fits (E : Encoder) (dst bs : List UInt8) : E.emit dst bs = .error .refused ∨
    (E.emit dst bs = .ok (dst ++ bs) ∧ LZG_HEADER_SIZE + (dst ++ bs).length ≤ E.outsize) := by
  rw [emit_eq]
  by_cases h : LZG_HEADER_SIZE + dst.length + bs.length ≤ E.outsize
  · rw [if_pos h]
    exact .inr ⟨rfl,by rw [List.length_append]; omega⟩
  · rw [if_neg h]
    exact .inl rfl

-- Two bytes one after the other fit if both together do.
theorem emit_emit (dst xs ys : List UInt8) :
    (E.emit dst xs >>= fun dst => E.emit dst ys) = E.emit dst (xs ++ ys) := by
  rw [emit_eq,emit_eq,List.length_append]
  by_cases h : LZG_HEADER_SIZE + dst.length + xs.length ≤ E.outsize
  · rw [if_pos h,ok_bind,emit_eq,List.length_append,List.append_assoc]
    have hadd : LZG_HEADER_SIZE + (dst.length + xs.length) + ys.length =
        LZG_HEADER_SIZE + dst.length + (xs.length + ys.length) := by omega
    rw [hadd]
  · rw [if_neg h,if_neg (by omega),error_bind]

theorem encodeRound_spec (ht : E.Tuned) (hm : E.markers.Distinct) (hc : E.Chained s.sa s.src)
    (hsrc : s.src < E.inp.length) : E.encodeRound s = .error .refused ∨
      ∃ s' t chunk, E.encodeRound s = .ok s' ∧ E.Advance s s' t chunk := by
  obtain ⟨x,hx,ex⟩ := E.entry_inp hsrc
  obtain ⟨sa1,hsa1,hc1⟩ := updateLastPos_spec ht hc
  obtain ⟨length,offset,hfind,hmatch⟩ := findMatch_spec ht
    (if E.markers.isMarkerSymbol x then 2 else 1) hc1
  rw [encodeRound,ex]
  simp only [ok_bind]
  rw [hsa1]
  simp only [ok_bind]
  rw [hfind]
  simp only [ok_bind]
  by_cases hlen : 0 < length
  · have hma : E.MatchAt s.src length offset := by
      rcases hmatch with h0 | hma
      · exact absurd h0 hlen.ne'
      · exact hma
    obtain ⟨chunk,hemit,hw⟩ := emitCopy_writes s.dst ht hm hma
    rw [if_pos hlen,hemit]
    rcases emit_fits E s.dst chunk with hno | ⟨hok,hfit⟩
    · rw [hno]
      exact .inl rfl
    · obtain ⟨sa2,hsa2,hc2⟩ := updateRun_spec ht (k := length - 1) hc1
      rw [hok,ok_bind,hsa2,ok_bind]
      have hadd : s.src + 1 + (length - 1) = s.src + length := by omega
      rw [hadd] at hc2
      exact .inr ⟨_,_,chunk,rfl,{
        dst := rfl
        writes := hw
        reaches := by
          rw [Token.Reaches,List.length_take_of_le hsrc.le]
          exact hma.reaches
        expand := copyBack_take hma.behind hma.reaches hma.fits hma.same
        forth := Nat.lt_add_of_pos_right hlen
        le := hma.fits
        chained := hc2
        fits := hfit }⟩
  · rw [if_neg hlen]
    have hnext : ∀ chunk, E.markers.Writes chunk (.symbol x) →
        LZG_HEADER_SIZE + (s.dst ++ chunk).length ≤ E.outsize →
        E.Advance s ⟨s.src + 1,s.dst ++ chunk,sa1⟩ (.symbol x) chunk := by
      intro chunk hw hfit
      exact {
        dst := rfl
        writes := hw
        reaches := trivial
        expand := take_snoc hx
        forth := Nat.lt_succ_self _
        le := hsrc
        chained := hc1
        fits := hfit }
    cases hmk : E.markers.isMarkerSymbol x with
    | true =>
      simp only [if_true]
      rw [← bind_assoc,emit_emit]
      rcases emit_fits E s.dst ([x] ++ [0]) with hno | ⟨hok,hfit⟩
      · rw [hno]
        exact .inl rfl
      · rw [hok]
        exact .inr ⟨_,_,_,rfl,hnext _ (writes_marked hmk) hfit⟩
    | false =>
      simp only [Bool.false_eq_true,if_false]
      rcases emit_fits E s.dst [x] with hno | ⟨hok,hfit⟩
      · rw [hno]
        exact .inl rfl
      · rw [hok]
        exact .inr ⟨_,_,_,rfl,hnext _ (writes_plain hmk) hfit⟩

-- All rounds together say how to go on from the part of the input behind them to the whole.
theorem encodeLoop_spec (ht : E.Tuned) (hm : E.markers.Distinct) (hc : E.Chained s.sa s.src)
    (hsrc : s.src ≤ E.inp.length) (hn : E.inp.length ≤ s.src + n)
    (hfit : LZG_HEADER_SIZE + s.dst.length ≤ E.outsize) :
    E.encodeLoop n s = .error .refused ∨ ∃ bs, E.encodeLoop n s = .ok (s.dst ++ bs) ∧
      Expands E.markers bs (E.inp.take s.src) E.inp ∧
      LZG_HEADER_SIZE + (s.dst ++ bs).length ≤ E.outsize := by
  induction n generalizing s with
  | zero =>
    have hall : E.inp.take s.src = E.inp := List.take_of_length_le (by omega)
    rw [encodeLoop,if_neg (by omega)]
    refine .inr ⟨[],?_,?_,?_⟩
    · rw [List.append_nil]
    · rw [hall]
      exact .done _
    · rwa [List.append_nil]
  | succ n ih =>
    rw [encodeLoop]
    by_cases hlt : s.src < E.inp.length
    · rw [if_pos hlt]
      rcases encodeRound_spec ht hm hc hlt with hno | ⟨s',t,chunk,hok,ha⟩
      · rw [hno]
        exact .inl rfl
      · have hforth := ha.forth
        rw [hok,ok_bind]
        rcases ih ha.chained ha.le (by omega) ha.fits with hno | ⟨bs,hrun,hexp,hfit'⟩
        · exact .inl hno
        · refine .inr ⟨chunk ++ bs,?_,?_,?_⟩
          · rw [hrun,ha.dst,List.append_assoc]
          · exact .token (ha.writes bs) ha.reaches (ha.expand ▸ hexp)
          · rwa [← List.append_assoc,← ha.dst]
    · have hall : E.inp.take s.src = E.inp := List.take_of_length_le (by omega)
      rw [if_neg hlt]
      refine .inr ⟨[],?_,?_,?_⟩
      · rw [List.append_nil]
      · rw [hall]
        exact .done _
      · rwa [List.append_nil]

theorem encodeData_spec (ht : E.Tuned) (hm : E.markers.Distinct) :
    E.encodeData = .error .refused ∨ ∃ data, E.encodeData = .ok data ∧
      Says LZG_METHOD_LZG1 data E.inp ∧ LZG_HEADER_SIZE + data.length ≤ E.outsize := by
  rw [encodeData]
  rcases emit_fits E [] [E.markers.marker1,E.markers.marker2,E.markers.marker3,
    E.markers.marker4] with hno | ⟨hok,hfit⟩
  · rw [hno]
    exact .inl rfl
  · rw [hok,ok_bind]
    rcases encodeLoop_spec (s := ⟨0,_,.init⟩) (n := E.inp.length) ht hm (chained_init E)
      (Nat.zero_le _) (by dsimp only; omega) hfit with hno | ⟨bs,hrun,hexp,hfit'⟩
    · exact .inl hno
    · exact .inr ⟨_,hrun,.lzg1 hexp,hfit'⟩

end Encoder

section Marking

theorem count_symbols (inp : List UInt8) (hist : List HistRec) :
    (inp.foldl (fun hist x => hist.modify x.toNat (fun h => { h with count := h.count + 1 }))
      hist).map HistRec.symbol = hist.map HistRec.symbol := by
  induction inp generalizing hist with
  | nil => rfl
  | cons x inp ih =>
    rw [List.foldl_cons,ih]
    refine List.ext_getElem? fun i => ?_
    rw [List.getElem?_map,List.getElem?_map,List.getElem?_modify]
    cases hist[i]? with
    | none => rfl
    | some h =>
      by_cases hi : x.toNat = i
      · simp [hi]
      · simp [hi]

-- The histogram has each symbol once, however it is sorted.
theorem sorted_symbols (inp : List UInt8) :
    (((histogram inp).mergeSort histRecLe).map HistRec.symbol).Nodup ∧
      ((histogram inp).mergeSort histRecLe).length = 256 := by
  have hsym : (histogram inp).map HistRec.symbol = (List.range 256).map UInt8.ofNat := by
    rw [histogram,count_symbols,List.map_map]
    rfl
  have hperm := List.mergeSort_perm (histogram inp) histRecLe
  refine ⟨(hperm.map HistRec.symbol).nodup_iff.mpr ?_,?_⟩
  · rw [hsym]
    refine List.Nodup.map_on (fun a ha b hb hab => ?_) List.nodup_range
    have ha' := toNat_byte (List.mem_range.mp ha)
    have hb' := toNat_byte (List.mem_range.mp hb)
    rw [← ha',← hb',hab]
  · have hlen := congrArg List.length hsym
    rw [List.length_map,List.length_map,List.length_range] at hlen
    rw [hperm.length_eq,hlen]

theorem determineMarkers_spec (inp : List UInt8) :
    ∃ m, determineMarkers inp = .ok m ∧ m.Distinct := by
  obtain ⟨hnodup,hlen⟩ := sorted_symbols inp
  rw [determineMarkers]
  generalize (histogram inp).mergeSort histRecLe = hist at hnodup hlen
  match hist with
  | h0 :: h1 :: h2 :: h3 :: hist =>
    simp only [List.map_cons,List.nodup_cons,List.mem_cons,not_or] at hnodup
    obtain ⟨⟨h01,h02,h03,-⟩,⟨h12,h13,-⟩,⟨h23,-⟩,-⟩ := hnodup
    exact ⟨_,rfl,⟨h01,h02,h03,h12,h13,h23⟩⟩

theorem tuned (inp : List UInt8) (outsize : Nat) (config : EncoderConfig) (m : Markers) :
    Encoder.Tuned ⟨inp,outsize,tuningParameters config.tuned,config.fast,m⟩ := by
  have hall : ∀ i : Fin 9, ∃ w ≤ 19, (tuningParameters i).window = 2 ^ w := by
    intro i
    refine ⟨i.val + 11,by omega,?_⟩
    fin_cases i <;> rfl
  exact hall _

end Marking

-- What is encoded is a block of the format with the input in it, at most sixteen bytes longer.
theorem LZG_Encode_block (inp : List UInt8) (outsize : Nat) (config : EncoderConfig)
    (hlen : inp.length < 2147483648) (hout : outsize < 4294967296)
    (hroom : LZG_HEADER_SIZE + inp.length ≤ outsize) :
    ∃ block, LZG_Encode inp outsize config = .ok block ∧ LzgBlock block inp ∧
      block.length ≤ outsize := by
  obtain ⟨m,hm,hdist⟩ := determineMarkers_spec inp
  have hlow : low32 (LZG_HEADER_SIZE + inp.length) = LZG_HEADER_SIZE + inp.length :=
    Nat.mod_eq_of_lt (by unfold LZG_HEADER_SIZE; omega)
  have hheader : ∀ method data, (withHeader inp.length method data).length =
      LZG_HEADER_SIZE + data.length := by
    intro method data
    rw [withHeader_eq]
    simp only [List.length_append,List.length_cons,List.length_nil,LZG_HEADER_SIZE]
  rw [LZG_Encode,hlow,check_pos hroom,ok_bind,hm,ok_bind]
  rcases Encoder.encodeData_spec (tuned inp outsize config m) hdist with hno | ⟨data,hdata,hs,hfit⟩
  · rw [hno]
    refine ⟨_,rfl,⟨_,_,rfl,by omega,by omega,.copy inp⟩,?_⟩
    rwa [hheader]
  · have hle : LZG_HEADER_SIZE + data.length ≤ outsize := hfit
    rw [hdata]
    refine ⟨_,rfl,⟨_,_,rfl,by omega,by omega,hs⟩,?_⟩
    rwa [hheader]

-- Whatever the level and whether the fast search is used, the encoder gives what the decoder
-- turns back into the input, and it refuses only a buffer that the input as it is would not fit.
theorem LZG_Encode_decodes (inp : List UInt8) (outsize : Nat) (config : EncoderConfig)
    (hlen : inp.length < 2147483648) (hout : outsize < 4294967296) :
    (LZG_HEADER_SIZE + inp.length ≤ outsize → ∃ block, LZG_Encode inp outsize config = .ok block ∧
      block.length ≤ outsize ∧ LZG_DecodedSize block = .ok inp.length ∧
      ∀ k, LZG_Decode block k =
        if inp.length ≤ k then .ok (inp.length,inp) else .error .refused) ∧
    (outsize < LZG_HEADER_SIZE + inp.length →
      LZG_Encode inp outsize config = .error .refused) := by
  refine ⟨fun hroom => ?_,fun hsmall => ?_⟩
  · obtain ⟨block,henc,hblock,hle⟩ := LZG_Encode_block inp outsize config hlen hout hroom
    exact ⟨block,henc,hle,hblock.decodedSize,hblock.decode⟩
  · have hlow : low32 (LZG_HEADER_SIZE + inp.length) = LZG_HEADER_SIZE + inp.length :=
      Nat.mod_eq_of_lt (by unfold LZG_HEADER_SIZE; omega)
    rw [LZG_Encode,hlow,check_neg (by omega),error_bind]

theorem LZG_Encode_decodes_word :
    ∃ block, LZG_Encode [0x72,0x6f,0x73,0x63,0x6f] 21 ⟨9,false⟩ = .ok block ∧ block.length ≤ 21 ∧
      LZG_DecodedSize block = .ok 5 ∧ ∀ k, LZG_Decode block k =
        if 5 ≤ k then .ok (5,[0x72,0x6f,0x73,0x63,0x6f]) else .error .refused :=
  (LZG_Encode_decodes [0x72,0x6f,0x73,0x63,0x6f] 21 ⟨9,false⟩ (by simp) (by norm_num)).1
    (by simp [LZG_HEADER_SIZE])

end RoscoM68k
