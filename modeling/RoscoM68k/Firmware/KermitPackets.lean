import Mathlib.Data.Nat.Bitwise
import Mathlib.Data.List.TakeWhile
import RoscoM68k.Firmware.KermitRun
import RoscoM68k.Base.Bursts
namespace RoscoM68k
namespace Kermit

section Crc

variable {crc crc' : UInt16} {b b' : UInt8}

def crcTable (n : Nat) : UInt16 := crcta.getD (n / 16) 0 ^^^ crctb.getD (n % 16) 0

-- The number whose entry has a high byte.
def crcIndex (h : Nat) : Nat :=
  let lo := h % 16 ^^^ h / 16 / 2
  (h / 16 ^^^ lo) * 16 + lo

set_option maxRecDepth 4000 in
theorem crcIndex_high : ∀ n < 256, crcIndex ((crcTable n).toNat / 256) = n := by
  decide

theorem high_nibble (n : Nat) : (n &&& 0xf0) >>> 4 = n % 256 / 16 := by
  have h : (n &&& 0xf0) >>> 4 = n >>> 4 &&& 0xf := Nat.shiftRight_and_distrib
  rw [h,show 0xf = 2 ^ 4 - 1 from rfl,Nat.and_two_pow_sub_one_eq_mod,Nat.shiftRight_eq_div_pow]
  omega

theorem low_nibble (n : Nat) : n &&& 0x0f = n % 256 % 16 := by
  rw [show 0x0f = 2 ^ 4 - 1 from rfl,Nat.and_two_pow_sub_one_eq_mod]
  omega

-- The table entry that a byte leads to.
def crcEntry (crc : UInt16) (b : UInt8) : Nat := (crc ^^^ b.toUInt16).toNat % 256

theorem crcEntry_eq (crc : UInt16) (b : UInt8) :
    crcEntry crc b = crc.toNat % 256 ^^^ b.toNat := by
  have hb : b.toNat % 2 ^ 8 = b.toNat := Nat.mod_eq_of_lt b.toNat_lt
  rw [crcEntry,UInt16.toNat_xor,UInt8.toNat_toUInt16,show 256 = 2 ^ 8 from rfl,Nat.xor_mod_two_pow,
    hb]

theorem crcStep_eq (crc : UInt16) (b : UInt8) :
    crcStep crc b = crc >>> 8 ^^^ crcTable (crcEntry crc b) := by
  have hhigh : (((crc ^^^ b.toUInt16) &&& 0xf0) >>> 4).toNat = crcEntry crc b / 16 :=
    high_nibble (crc ^^^ b.toUInt16).toNat
  have hlow : ((crc ^^^ b.toUInt16) &&& 0x0f).toNat = crcEntry crc b % 16 :=
    low_nibble (crc ^^^ b.toUInt16).toNat
  rw [crcStep,hhigh,hlow,crcTable]

theorem crcStep_high (crc : UInt16) (b : UInt8) :
    (crcStep crc b).toNat / 256 = (crcTable (crcEntry crc b)).toNat / 256 := by
  have hshift : crc.toNat >>> 8 / 2 ^ 8 = 0 := by
    rw [Nat.shiftRight_eq_div_pow]
    have h := crc.toNat_lt
    omega
  have hx : (crc >>> 8).toNat = crc.toNat >>> 8 := rfl
  rw [crcStep_eq,UInt16.toNat_xor,hx,show 256 = 2 ^ 8 from rfl,Nat.xor_div_two_pow,hshift,
    Nat.zero_xor]

-- The high byte of a step gives the entry away, and the rest of it the high byte before.
theorem crcStep_told (h : crcStep crc b = crcStep crc' b') :
    crc >>> 8 = crc' >>> 8 ∧ crcEntry crc b = crcEntry crc' b' := by
  have hentry : crcEntry crc b = crcEntry crc' b' := by
    have hhigh := crcStep_high crc b
    rw [h,crcStep_high] at hhigh
    have hlt (c : UInt16) (x : UInt8) : crcEntry c x < 256 := Nat.mod_lt _ (by norm_num)
    rw [← crcIndex_high _ (hlt crc b),← hhigh,crcIndex_high _ (hlt crc' b')]
  rw [crcStep_eq,crcStep_eq,hentry] at h
  exact ⟨(UInt16.xor_left_inj _).mp h,hentry⟩

theorem crcStep_bytes (h : crcEntry crc b = crcEntry crc b') : b = b' := by
  rw [crcEntry_eq,crcEntry_eq] at h
  exact UInt8.toNat_inj.mp (Nat.xor_right_injective h)

theorem crc_distinguishing : Distinguishing crcStep 2 := by
  apply Distinguishing.of_pairs
  · intro b crc crc' h
    obtain ⟨hhigh,hentry⟩ := crcStep_told h
    rw [crcEntry_eq,crcEntry_eq] at hentry
    have hlow := Nat.xor_left_injective hentry
    have hdiv : crc.toNat >>> 8 = crc'.toNat >>> 8 := congrArg UInt16.toNat hhigh
    rw [Nat.shiftRight_eq_div_pow,Nat.shiftRight_eq_div_pow] at hdiv
    apply UInt16.toNat_inj.mp
    omega
  · intro crc b c b' c' h
    obtain ⟨hhigh,hentry⟩ := crcStep_told h
    have hb : b = b' := by
      have hdiv : (crcStep crc b).toNat >>> 8 = (crcStep crc b').toNat >>> 8 :=
        congrArg UInt16.toNat hhigh
      rw [Nat.shiftRight_eq_div_pow,Nat.shiftRight_eq_div_pow] at hdiv
      have hlt (x : UInt8) : crcEntry crc x < 256 := Nat.mod_lt _ (by norm_num)
      apply (crcStep_bytes : crcEntry crc b = crcEntry crc b' → b = b')
      rw [← crcIndex_high _ (hlt b),← crcStep_high,← crcIndex_high _ (hlt b'),← crcStep_high]
      rw [hdiv]
    rw [hb] at hentry
    exact ⟨hb,crcStep_bytes hentry⟩

end Crc

section Characters

theorem toNat_tochar {n : Nat} (h : n < 224) : (tochar n).toNat = n + 32 := by
  rw [tochar,UInt8.toNat_ofNat']
  exact Nat.mod_eq_of_lt (by omega)

@[simp] theorem xunchar_tochar {n : Nat} (h : n < 224) : xunchar (tochar n) = n := by
  have hsub := UInt8.toNat_sub (tochar n) SP
  rw [toNat_tochar h,show SP.toNat = 32 from rfl] at hsub
  rw [xunchar,hsub]
  omega

theorem tochar_ne_zero {n : Nat} (h : n < 224) : tochar n ≠ 0 := by
  intro he
  have hn := toNat_tochar h
  rw [he] at hn
  exact absurd hn (Nat.succ_ne_zero _).symm

theorem untilNul_append {s : List UInt8} (h : 0 ∉ s) (rest : List UInt8) :
    untilNul (s ++ 0 :: rest) = s := by
  rw [untilNul,List.takeWhile_append_of_pos (by
    intro c hc
    have hne : c ≠ 0 := fun he => h (he ▸ hc)
    simpa using hne)]
  simp

theorem untilNul_eq {s : List UInt8} (h : 0 ∉ s) : untilNul s = s := by
  rw [untilNul,List.takeWhile_eq_self_iff]
  intro c hc
  have hne : c ≠ 0 := fun he => h (he ▸ hc)
  simpa using hne

theorem cstring_append {s : List UInt8} (h : 0 ∉ s) (rest : List UInt8) :
    cstring (s ++ 0 :: rest) = .ok s := by
  rw [cstring,if_pos (by simp),untilNul_append h]

end Characters

section Codes

theorem chk1_lt (pkt : List UInt8) : chk1 pkt < 64 := by
  rw [chk1]
  exact Nat.lt_of_le_of_lt Nat.and_le_right (by norm_num)

theorem sixBits (n : Nat) : n &&& 0x3f = n % 64 := Nat.and_two_pow_sub_one_eq_mod n 6

theorem or_sixBits {a b : Nat} (h : b < 64) : a <<< 6 ||| b = a * 64 + b := by
  rw [← Nat.shiftLeft_add_eq_or_of_lt h,Nat.shiftLeft_eq]

theorem two_join (n : Nat) : (n / 64 % 64) <<< 6 ||| n % 64 = n % 4096 := by
  rw [or_sixBits (Nat.mod_lt n (by norm_num))]
  omega

theorem three_join (n : Nat) :
    (n / 4096) <<< 12 ||| (n / 64 % 64) <<< 6 ||| n % 64 = n := by
  have hhigh : (n / 4096) <<< 12 = ((n / 4096) <<< 6) <<< 6 := by
    rw [← Nat.shiftLeft_add]
  rw [hhigh,← Nat.shiftLeft_or_distrib,or_sixBits (by omega),or_sixBits (by omega)]
  omega

-- The bytes of the check of `pkt` are good for `pkt'` as well when the two have the same check.
theorem goodCheck_one (pkt pkt' : List UInt8) :
    goodCheck (blockCheck 1 pkt) pkt' ↔ chk1 pkt = chk1 pkt' := by
  have h := chk1_lt pkt
  rw [blockCheck,goodCheck,xunchar_tochar (by omega),decide_eq_true_iff]

theorem goodCheck_two (pkt pkt' : List UInt8) :
    goodCheck (blockCheck 2 pkt) pkt' ↔ (chk2 pkt).toNat % 4096 = (chk2 pkt').toNat := by
  rw [blockCheck,goodCheck]
  rw [sixBits,sixBits,Nat.shiftRight_eq_div_pow,show 2 ^ 6 = 64 from rfl,
    xunchar_tochar (by omega),xunchar_tochar (by omega),two_join,decide_eq_true_iff]

theorem goodCheck_three (pkt pkt' : List UInt8) :
    goodCheck (blockCheck 3 pkt) pkt' ↔ chk3 pkt = chk3 pkt' := by
  have hlt := (chk3 pkt).toNat_lt
  have hhigh : ((chk3 pkt).toNat &&& 0xf000) >>> 12 = (chk3 pkt).toNat / 4096 := by
    have h : ((chk3 pkt).toNat &&& 0xf000) >>> 12 = (chk3 pkt).toNat >>> 12 &&& 0xf :=
      Nat.shiftRight_and_distrib
    rw [h,show 0xf = 2 ^ 4 - 1 from rfl,Nat.and_two_pow_sub_one_eq_mod,Nat.shiftRight_eq_div_pow]
    omega
  rw [blockCheck,goodCheck]
  rw [hhigh,sixBits,sixBits,Nat.shiftRight_eq_div_pow,show 2 ^ 6 = 64 from rfl,
    xunchar_tochar (by omega),xunchar_tochar (by omega),xunchar_tochar (by omega),
    three_join,decide_eq_true_iff,UInt16.toNat_inj]

theorem blockCheck_length {bct : Nat} (h : 1 ≤ bct) (h' : bct ≤ 3) (pkt : List UInt8) :
    (blockCheck bct pkt).length = bct := by
  interval_cases bct
  · rfl
  · rfl
  · rfl

end Codes

section Buffers

variable {buf xs ys : List UInt8} {base i : Nat} {b : UInt8}

theorem byteAt_drop (h : buf.drop base = xs) (hb : xs[i]? = some b) :
    byteAt buf base i = .ok b := by
  rw [← h,List.getElem?_drop] at hb
  have hi : ((base : Int) + i).toNat = base + i := by omega
  rw [byteAt,if_pos (by omega),hi]
  exact entry_some hb

theorem putAt_drop (h : buf.drop base = xs) (hi : i < xs.length) (b : UInt8) :
    putAt buf base i b = .ok (buf.set (base + i) b) := by
  have hlen := congrArg List.length h
  rw [List.length_drop] at hlen
  rw [putAt,if_pos (by omega)]
  rfl

theorem drop_set (h : buf.drop base = xs) (b : UInt8) :
    (buf.set (base + i) b).drop base = xs.set i b := by
  rw [List.drop_set,if_neg (by omega),h,Nat.add_sub_cancel_left]

end Buffers
section Headers

variable {bct seq len : Nat} {typ : UInt8}

-- The fields of a long packet that the check of its header is about.
def longFields (bct : Nat) (typ : UInt8) (seq len : Nat) : List UInt8 :=
  [tochar 0,tochar seq,typ,tochar ((len + bct) / 95),tochar ((len + bct) % 95)]

theorem longFields_printed (hfits : len + bct < 9025) (hseq : seq < 64) (htyp : typ ≠ 0) :
    0 ∉ longFields bct typ seq len := by
  simp only [longFields,List.mem_cons,List.not_mem_nil,or_false,not_or]
  exact ⟨(tochar_ne_zero (by omega)).symm,(tochar_ne_zero (by omega)).symm,htyp.symm,
    (tochar_ne_zero (by omega)).symm,(tochar_ne_zero (by omega)).symm⟩

theorem header_short (h : len + bct + 2 ≤ 94) :
    header bct typ seq len = [tochar (len + bct + 2),tochar seq,typ] := by
  rw [header]
  exact if_neg (by omega)

theorem header_long (h : 94 < len + bct + 2) (hfits : len + bct < 9025) (hseq : seq < 64)
    (htyp : typ ≠ 0) :
    header bct typ seq len =
      longFields bct typ seq len ++ [tochar (chk1 (longFields bct typ seq len))] := by
  have hz := untilNul_eq (longFields_printed hfits hseq htyp)
  rw [longFields] at hz ⊢
  rw [header]
  dsimp only
  rw [if_pos h,hz]

theorem header_printed (hfits : len + bct < 9025) (hseq : seq < 64) (htyp : typ ≠ 0) :
    0 ∉ header bct typ seq len := by
  by_cases h : 94 < len + bct + 2
  · have hc := chk1_lt (longFields bct typ seq len)
    rw [header_long h hfits hseq htyp,List.mem_append,List.mem_singleton,not_or]
    exact ⟨longFields_printed hfits hseq htyp,(tochar_ne_zero (by omega)).symm⟩
  · rw [header_short (by omega)]
    simp only [List.mem_cons,List.not_mem_nil,or_false,not_or]
    exact ⟨(tochar_ne_zero (by omega)).symm,(tochar_ne_zero (by omega)).symm,htyp.symm⟩

theorem header_fields (bct : Nat) (typ : UInt8) (seq len : Nat) :
    ∃ x rest, header bct typ seq len = [tochar x,tochar seq,typ] ++ rest ∧
      x = if 94 < len + bct + 2 then 0 else len + bct + 2 := by
  rw [header]
  dsimp only
  split
  · exact ⟨0,_,rfl,rfl⟩
  · exact ⟨len + bct + 2,[],rfl,rfl⟩

end Headers

-- The length field.
def lengthField (bct len : Nat) : Nat := if 94 < len + bct + 2 then 0 else len + bct + 2

-- Packets whose length fits its field, with a number of the protocol. Parameters are always short
-- and have a check of type 1.
structure Sendable (bct : Nat) (typ : UInt8) (seq : Nat) (data : List UInt8) : Prop where
  bct_pos : 1 ≤ bct
  bct_le : bct ≤ 3
  seq_lt : seq < 64
  typ_ne : typ ≠ 0
  fits : data.length + bct < 9025
  short : typ = 0x53 → bct = 1 ∧ data.length + 3 ≤ 94
  printed : 0 ∉ data

theorem Sendable.body_printed {bct seq : Nat} {typ : UInt8} {data : List UInt8}
    (h : Sendable bct typ seq data) : 0 ∉ body bct typ seq data := by
  rw [body,List.mem_append,not_or]
  exact ⟨header_printed h.fits h.seq_lt h.typ_ne,h.printed⟩

theorem Sendable.frame_eq {bct seq : Nat} {typ : UInt8} {data : List UInt8}
    (h : Sendable bct typ seq data) : frame bct typ seq data =
      body bct typ seq data ++ blockCheck bct (body bct typ seq data) := by
  rw [frame,untilNul_eq h.body_printed]

theorem Sendable.frame_length {bct seq : Nat} {typ : UInt8} {data : List UInt8}
    (h : Sendable bct typ seq data) : 4 ≤ (frame bct typ seq data).length := by
  obtain ⟨x,rest,hfields,-⟩ := header_fields bct typ seq data.length
  have hpos := h.bct_pos
  rw [h.frame_eq,List.length_append,blockCheck_length h.bct_pos h.bct_le,body,hfields]
  simp only [List.length_append,List.length_cons]
  omega

section Parsing

variable {k : KData} {slot seq len : Nat} {t typ : UInt8} {hdr data pbc tail : List UInt8}

theorem dataField_long (h : 94 < len + k.bct + 2) (hfits : len + k.bct < 9025) (hseq : seq < 64)
    (htyp : typ ≠ 0) (hbuf : k.ipktbuf.drop slot = header k.bct typ seq len ++ tail) :
    k.dataField slot 0 = .ok (k,some (slot + (header k.bct typ seq len).length,(len : Int))) := by
  have hc := chk1_lt (longFields k.bct typ seq len)
  have hz : 0 ∉ longFields k.bct typ seq len := longFields_printed hfits hseq htyp
  have hlong := header_long h hfits hseq htyp
  rw [hlong,List.append_assoc] at hbuf
  have hheader : cstring ((k.ipktbuf.set (slot + 5) 0).drop slot) =
      .ok (longFields k.bct typ seq len) := by
    rw [drop_set hbuf]
    exact cstring_append hz tail
  have h3 : byteAt k.ipktbuf slot 3 = .ok (tochar ((len + k.bct) / 95)) := byteAt_drop hbuf rfl
  have h4 : byteAt k.ipktbuf slot 4 = .ok (tochar ((len + k.bct) % 95)) := byteAt_drop hbuf rfl
  have h5 : byteAt k.ipktbuf slot 5 = .ok (tochar (chk1 (longFields k.bct typ seq len))) :=
    byteAt_drop hbuf rfl
  have hput : putAt k.ipktbuf slot 5 0 = .ok (k.ipktbuf.set (slot + 5) 0) :=
    putAt_drop hbuf (by simp [longFields]) 0
  have hlen : ((xunchar (tochar ((len + k.bct) / 95)) * 95 +
      xunchar (tochar ((len + k.bct) % 95)) : Nat) : Int) - k.bct = len := by
    rw [xunchar_tochar (by omega),xunchar_tochar (by omega)]
    omega
  rw [KData.dataField,if_pos rfl,h3,ok_bind,h4,ok_bind,h5,ok_bind,hput,ok_bind,hheader,ok_bind,
    xunchar_tochar (by omega),if_neg (not_not_intro rfl),hlen,hlong]
  rfl

theorem dataField_short (h : len + k.bct + 2 ≤ 94) :
    k.dataField slot (len + k.bct + 2) =
      .ok (k,some (slot + (header k.bct typ seq len).length,(len : Int))) := by
  rw [header_short h,KData.dataField,if_neg (by omega)]
  have hlen : ((len + k.bct + 2 : Nat) : Int) - k.bct - 2 = len := by omega
  rw [hlen]
  rfl

theorem mapM_entries {α : Type} {f : Nat → Except Fault α} (xs : List α)
    (h : ∀ i x, xs[i]? = some x → f i = .ok x) : (List.range xs.length).mapM f = .ok xs := by
  induction xs using List.reverseRecOn with
  | nil => rfl
  | append_singleton xs x ih =>
    have hlast : f xs.length = .ok x := h xs.length x (by simp)
    have hinit : (List.range xs.length).mapM f = .ok xs := by
      apply ih
      intro i y hy
      have hi : i < xs.length := (List.getElem?_eq_some_iff.mp hy).1
      exact h i y (by rw [List.getElem?_append_left hi,hy])
    rw [List.length_append,List.length_singleton,List.range_succ,List.mapM_append,hinit,ok_bind,
      List.mapM_cons,hlast,ok_bind,List.mapM_nil]
    rfl

-- The buffer with the NUL that K_RUN puts behind the data.
def KData.ended (k : KData) (slot : Nat) (hdr data : List UInt8) : KData :=
  { k with ipktbuf := k.ipktbuf.set (slot + (hdr.length + data.length)) 0 }

theorem checkPacket_eq (hbuf : k.ipktbuf.drop slot = hdr ++ data ++ pbc ++ tail)
    (hz : 0 ∉ hdr ++ data) (hpos : 0 < pbc.length)
    (ht : t = 0x45 → goodCheck pbc (hdr ++ data)) :
    k.checkPacket slot t (slot + hdr.length) (data.length : Int) pbc.length =
      .ok (k.ended slot hdr data,goodCheck pbc (hdr ++ data)) := by
  have hdata : k.ipktbuf.drop (slot + hdr.length) = data ++ pbc ++ tail := by
    rw [← List.drop_drop,hbuf,List.append_assoc,List.append_assoc,List.drop_left,List.append_assoc]
  have hpbc : (List.range pbc.length).mapM (fun i : Nat => byteAt k.ipktbuf (slot + hdr.length)
      ((data.length : Int) + (i : Int))) = .ok pbc := by
    apply mapM_entries
    intro i x hx
    have hi : i < pbc.length := (List.getElem?_eq_some_iff.mp hx).1
    have hcast : (data.length : Int) + (i : Int) = ((data.length + i : Nat) : Int) := by omega
    rw [hcast]
    apply byteAt_drop hdata
    rw [List.append_assoc,List.getElem?_append_right (by omega),Nat.add_sub_cancel_left,
      List.getElem?_append_left hi,hx]
  have hput : putAt k.ipktbuf (slot + hdr.length) (data.length : Int) 0 =
      .ok (k.ended slot hdr data).ipktbuf := by
    rw [putAt_drop hdata (by simp; omega) 0,KData.ended,Nat.add_assoc]
  have hstr : cstring ((k.ended slot hdr data).ipktbuf.drop slot) = .ok (hdr ++ data) := by
    obtain ⟨c,cs,rfl⟩ := List.exists_cons_of_length_pos hpos
    rw [KData.ended,drop_set hbuf,← List.length_append,List.append_assoc,
      List.set_append_right _ _ le_rfl,Nat.sub_self,List.cons_append,List.set_cons_zero,
      cstring_append hz]
  rw [KData.checkPacket,hpbc,ok_bind,hput,ok_bind,hstr,ok_bind]
  split
  · rename_i hgood
    rw [hgood]
    rfl
  · rename_i hbad
    rw [if_neg (fun h => hbad (ht h.1))]
    rw [Bool.not_eq_true] at hbad
    rw [hbad]
    rfl

-- A slot after the packet in it has been read.
def KData.got (k : KData) (slot b seq : Nat) (typ : UInt8) (data : List UInt8) : KData :=
  (k.noted slot (lengthField b data.length) seq typ).ended slot (header b typ seq data.length) data

theorem parse_packet {b : Nat} (h : Sendable b typ seq data) (hb : checkType k.bct typ = b)
    (hbuf : k.ipktbuf.drop slot = body b typ seq data ++ pbc ++ tail) (hpbc : pbc.length = b)
    (hecho : ¬ (typ = 0x4e ∨ typ = 0x59))
    (ht : typ = 0x45 → goodCheck pbc (body b typ seq data)) :
    k.parse slot = .ok (k.got slot b seq typ data,
      if goodCheck pbc (body b typ seq data) then
        .good seq typ (slot + (header b typ seq data.length).length) data.length
      else .badCheck) := by
  obtain ⟨x,rest,hfields,hx⟩ := header_fields b typ seq data.length
  have hfront := hbuf
  rw [body,hfields] at hfront
  have h0 : byteAt k.ipktbuf slot 0 = .ok (tochar x) := byteAt_drop hfront rfl
  have h1 : byteAt k.ipktbuf slot 1 = .ok (tochar seq) := byteAt_drop hfront rfl
  have h2 : byteAt k.ipktbuf slot 2 = .ok typ := byteAt_drop hfront rfl
  have hseq := h.seq_lt
  have hbpos := h.bct_pos
  have hxlt : x < 224 := by
    rw [hx]
    split
    · omega
    · omega
  have hlen : xunchar (tochar x) = lengthField b data.length := by
    rw [xunchar_tochar hxlt,hx,lengthField]
  have hcheck := checkPacket_eq (k := k.noted slot (lengthField b data.length) seq typ) (t := typ)
    hbuf h.body_printed (by omega) ht
  rw [KData.parse,h0,ok_bind,h1,ok_bind,h2,ok_bind]
  dsimp only
  rw [if_neg hecho,hlen,xunchar_tochar (by omega)]
  -- The data lie where the header ends, in packets with parameters by a rule of their own.
  have hfield : ∃ y : Int,
      (k.noted slot (lengthField b data.length) seq typ).dataField slot
          (lengthField b data.length) =
        .ok (k.noted slot (lengthField b data.length) seq typ,
          some (slot + (header b typ seq data.length).length,y)) ∧
      (if typ = 0x53 then (lengthField b data.length : Int) - 3 else y) = data.length := by
    by_cases hs : typ = 0x53
    · obtain ⟨rfl,hshort⟩ := h.short hs
      have hl : lengthField 1 data.length = data.length + 1 + 2 := if_neg (by omega)
      rw [header_short (by omega),hl,KData.dataField,if_neg (by omega)]
      refine ⟨_,rfl,?_⟩
      rw [if_pos hs]
      omega
    · have hbct : k.bct = b := by rwa [checkType,if_neg hs] at hb
      subst hbct
      refine ⟨data.length,?_,if_neg hs⟩
      by_cases hl : 94 < data.length + k.bct + 2
      · have hfl : lengthField k.bct data.length = 0 := if_pos hl
        rw [hfl]
        rw [body,List.append_assoc,List.append_assoc] at hbuf
        exact dataField_long hl h.fits hseq h.typ_ne hbuf
      · have hfl : lengthField k.bct data.length = data.length + k.bct + 2 := if_neg hl
        rw [hfl]
        have hle : data.length + k.bct + 2 ≤ 94 := by omega
        exact dataField_short hle
  obtain ⟨y,hfield,hy⟩ := hfield
  rw [hpbc] at hcheck
  have hbct : (k.noted slot (lengthField b data.length) seq typ).bct = k.bct := rfl
  rw [hfield,ok_bind]
  dsimp only
  rw [hy,hbct,hb,hcheck,ok_bind]
  rfl

-- The data that a packet has come with, with the NUL behind them.
theorem got_data {b : Nat} (hbuf : k.ipktbuf.drop slot = body b typ seq data ++ pbc ++ tail)
    (hpbc : pbc.length = b) (hb : 1 ≤ b) : ∃ rest, (k.got slot b seq typ data).ipktbuf.drop
      (slot + (header b typ seq data.length).length) = data ++ 0 :: rest := by
  obtain ⟨c,cs,rfl⟩ := List.exists_cons_of_length_pos (by omega : 0 < pbc.length)
  refine ⟨cs ++ tail,?_⟩
  have hdrop : (k.got slot b seq typ data).ipktbuf.drop slot =
      (header b typ seq data.length ++ data) ++ 0 :: (cs ++ tail) := by
    have hset := drop_set (i := (header b typ seq data.length).length + data.length) hbuf 0
    rw [body,List.append_assoc,← List.length_append,List.set_append_right _ _ le_rfl,Nat.sub_self,
      List.cons_append,List.set_cons_zero,List.length_append] at hset
    exact hset
  rw [← List.drop_drop,hdrop,List.append_assoc,List.drop_left]

-- The bytes of a check are as good as the check is.
theorem goodCheck_frame {b : Nat} (hpos : 1 ≤ b) (hle : b ≤ 3) (pkt : List UInt8) :
    goodCheck (blockCheck b pkt) pkt ↔ (b = 2 → (chk2 pkt).toNat < 4096) := by
  interval_cases b
  · simp [goodCheck_one]
  · rw [goodCheck_two]
    omega
  · simp [goodCheck_three]

end Parsing
end Kermit
end RoscoM68k
