import RoscoM68k.Firmware.KermitTransfers

namespace RoscoM68k
namespace Kermit

theorem printed_inside (b : UInt8) (h : ¬ b &&& 127 < 32) :
    (b ≠ SOH ∧ b ≠ CR ∧ b ≠ LF) ∧ b &&& 0x7f ≠ SOH ∧ b &&& 0x7f ≠ CR ∧ b &&& 0x7f ≠ LF := by
  have hne (c : UInt8) (hc : c &&& 127 < 32) : b ≠ c := by
    rintro rfl
    exact h hc
  have hlow (c : UInt8) (hc : c < 32) : b &&& 0x7f ≠ c := by
    rintro rfl
    exact h hc
  exact ⟨⟨hne SOH (by decide),hne CR (by decide),hne LF (by decide)⟩,
    hlow SOH (by decide),hlow CR (by decide),hlow LF (by decide)⟩

section Frames

variable {b seq len : Nat} {typ : UInt8} {data : List UInt8}

theorem blockCheck_printed (hpos : 1 ≤ b) (hle : b ≤ 3) (pkt : List UInt8) :
    Printed (blockCheck b pkt) := by
  have hsix (n : Nat) : ¬ tochar (n &&& 0x3f) &&& 127 < 32 := by
    apply tochar_printed
    rw [sixBits]
    omega
  have hfour : ((chk3 pkt).toNat &&& 0xf000) >>> 12 < 95 := by
    have hlt := (chk3 pkt).toNat_lt
    have hand : (chk3 pkt).toNat &&& 0xf000 ≤ (chk3 pkt).toNat := Nat.and_le_left
    rw [Nat.shiftRight_eq_div_pow]
    omega
  interval_cases b
  · have hlt := chk1_lt pkt
    exact .cons (tochar_printed (by omega)) .nil
  · exact .cons (hsix _) (.cons (hsix _) .nil)
  · exact .cons (tochar_printed hfour) (.cons (hsix _) (.cons (hsix _) .nil))

theorem header_printed_all (hfits : len + b < 9025) (hseq : seq < 64) (htyp : ¬ typ &&& 127 < 32) :
    Printed (header b typ seq len) := by
  have hne : typ ≠ 0 := by
    rintro rfl
    exact htyp (by decide)
  by_cases h : 94 < len + b + 2
  · have hc := chk1_lt (longFields b typ seq len)
    rw [header_long h hfits hseq hne]
    apply Printed.append _ (.cons (tochar_printed (by omega)) .nil)
    exact .cons (tochar_printed (by omega)) (.cons (tochar_printed (by omega)) (.cons htyp
      (.cons (tochar_printed (by omega)) (.cons (tochar_printed (by omega)) .nil))))
  · rw [header_short (by omega)]
    exact .cons (tochar_printed (by omega)) (.cons (tochar_printed (by omega)) (.cons htyp .nil))

-- Nothing in a packet begins or ends one.
theorem Sendable.frame_printed (h : Sendable b typ seq data) (htyp : ¬ typ &&& 127 < 32)
    (hdata : Printed data) : Printed (frame b typ seq data) := by
  rw [h.frame_eq]
  exact .append (.append (header_printed_all h.fits h.seq_lt htyp) hdata)
    (blockCheck_printed h.bct_pos h.bct_le _)

end Frames

namespace KData

section Reading

variable {k k₁ : KData} {front s stored rest : List UInt8} {eom : UInt8} {slot n : Nat}

-- Bytes in front of a packet are not looked at.
def Between (k : KData) (front : List UInt8) : Prop :=
  ∀ b ∈ front, (if k.parity = 0 then b else b &&& 0x7f) ≠ SOH

theorem readpkt_between (h : k.Between front) :
    k.readpkt false [] (front ++ s) = k.readpkt false [] s := by
  induction front with
  | nil => rfl
  | cons b front ih =>
    rw [List.cons_append,readpkt]
    rw [if_pos ⟨rfl,h b List.mem_cons_self⟩]
    exact ih fun c hc => h c (List.mem_cons_of_mem b hc)

theorem readpkt_printed (h : Printed s) (hlen : stored.length + s.length ≤ P_PKTLEN + 1) :
    k.readpkt true stored (s ++ rest) = k.readpkt true (stored ++ s) rest := by
  induction s generalizing stored with
  | nil => rw [List.nil_append,List.append_nil]
  | cons b s ih =>
    obtain ⟨⟨h1,h2,h3⟩,h1',h2',h3'⟩ := printed_inside b (h b List.mem_cons_self)
    have hc (P : UInt8 → Prop) (hb : P b) (hb' : P (b &&& 0x7f)) :
        P (if k.parity = 0 then b else b &&& 0x7f) := by
      split
      · exact hb
      · exact hb'
    have hsoh := hc (· ≠ SOH) h1 h1'
    have hend := hc (fun c => ¬ (c = CR ∨ c = LF)) (not_or.mpr ⟨h2,h3⟩) (not_or.mpr ⟨h2',h3'⟩)
    rw [List.length_cons] at hlen
    rw [List.cons_append,readpkt]
    rw [if_neg (fun hf => absurd hf.1 (by decide)),if_neg hsoh,if_neg hend,if_neg (by omega)]
    rw [ih (fun c hc => h c (List.mem_cons_of_mem b hc)) (by
      rw [List.length_append,List.length_singleton]
      omega),List.append_assoc,List.singleton_append]

theorem readpkt_end (heom : eom = CR ∨ eom = LF) :
    k.readpkt true stored (eom :: rest) = some (stored,stored.length,rest) := by
  have hmask : eom &&& 0x7f = eom := by
    obtain rfl | rfl := heom
    · rfl
    · rfl
  have hne : eom ≠ SOH := by
    obtain rfl | rfl := heom
    · decide
    · decide
  rw [readpkt]
  rw [hmask,ite_self,if_neg (fun hf => absurd hf.1 (by decide)),if_neg hne,if_pos heom]

-- A packet is picked from the line, and what is behind it stays there.
theorem readpkt_packet (hfront : k.Between front) (h : Printed s) (hlen : s.length ≤ P_PKTLEN + 1)
    (heom : eom = CR ∨ eom = LF) (rest : List UInt8) :
    k.readpkt false [] (front ++ ([SOH] ++ s ++ [eom]) ++ rest) = some (s,s.length,rest) := by
  have hsoh : (if k.parity = 0 then SOH else SOH &&& 0x7f) = SOH := by
    split
    · rfl
    · rfl
  rw [List.append_assoc,readpkt_between hfront,List.append_assoc,List.append_assoc,
    List.singleton_append,readpkt]
  rw [hsoh,if_neg (fun hf => hf.2 rfl),if_pos rfl,readpkt_printed h (by simpa using hlen),
    List.nil_append,List.singleton_append,readpkt_end heom]

-- There is a free slot, and room for `n` bytes behind its start.
structure Room (k : KData) (slot n : Nat) : Prop where
  free : k.ipktinfo.findIdx? (·.len < 1) = some slot
  fits : slot + n ≤ k.ipktbuf.length

theorem Room.slot_lt (h : k.Room slot n) : slot < k.ipktinfo.length :=
  List.findIdx?_eq_some_iff_getElem.mp h.free |>.1

-- The slot that is taken, with a packet in it.
def placed (k : KData) (slot : Nat) (stored : List UInt8) : KData :=
  { k.setInfo slot fun i => { i with len := -1, seq := -1, typ := SP } with
    ipktbuf := k.ipktbuf.take slot ++ stored ++ k.ipktbuf.drop (slot + stored.length) }

theorem place_eq (h : k.Room slot stored.length) (hn : 0 < n) :
    k.place stored n = .ok (k.placed slot stored,slot) := by
  have hstore : (k.setInfo slot fun i => { i with len := -1, seq := -1, typ := SP }).store slot
      stored = .ok (k.placed slot stored) := if_pos h.fits
  rw [place,getrslot,h.free]
  dsimp only
  rw [hstore,ok_bind,if_neg (by omega)]

theorem placed_settled (k : KData) (slot : Nat) (stored : List UInt8) :
    k.Settled (k.placed slot stored) := ⟨⟨rfl,rfl⟩,rfl,rfl⟩

theorem placed_drop (h : k.Room slot stored.length) :
    (k.placed slot stored).ipktbuf.drop slot =
      stored ++ k.ipktbuf.drop (slot + stored.length) := by
  have hlen : (k.ipktbuf.take slot).length = slot := by
    have hfits := h.fits
    rw [List.length_take]
    omega
  change (k.ipktbuf.take slot ++ stored ++ _).drop slot = _
  rw [List.append_assoc]
  nth_rewrite 1 [← hlen]
  rw [List.drop_left]

section Answers

variable {typ : UInt8} {seq : Nat} {data : List UInt8} {st : Status} {k' : KData}

-- Answers with little text always fit their buffer.
theorem frame_length_le (b : Nat) (typ : UInt8) (seq : Nat) (data : List UInt8) :
    (frame b typ seq data).length ≤ data.length + 9 := by
  have hheader : (header b typ seq data.length).length ≤ 6 := by
    rw [header]
    split
    · rfl
    · norm_num
  have hcheck (pkt : List UInt8) : (blockCheck b pkt).length ≤ 3 := by
    unfold blockCheck
    split
    · norm_num
    · norm_num
    · norm_num
    · norm_num
  have hc := hcheck (untilNul (body b typ seq data))
  dsimp only [frame]
  rw [List.length_append,body,List.length_append]
  rw [body] at hc
  omega

theorem spkt_ok (k : KData) (typ : UInt8) (seq : Nat) (hlen : data.length < 4093) :
    k.spkt typ seq data = .ok { k with
      opktbuf := k.answer typ seq data
      sent := k.sent ++ [k.answer typ seq data] } := by
  have hle := frame_length_le k.bct typ seq data
  rw [spkt]
  apply if_pos
  rw [List.length_append,List.length_append,List.length_singleton,List.length_singleton]
  have hmax : P_PKTLEN = 4096 := rfl
  omega

theorem retried_ok (h : slot < k.ipktinfo.length) :
    ∃ k' tooMany, k.retried slot = .ok (k',tooMany) := by
  have hentry : entry k.ipktinfo slot = .ok k.ipktinfo[slot] := by
    rw [entry,List.getElem?_eq_getElem h]
  rw [retried,hentry]
  exact ⟨_,_,rfl⟩

-- A NAK leaves the session as it is.
theorem nak_ok (h : slot < k.ipktinfo.length) (seq : Nat) : ∃ st k', k.nak seq slot = .ok (st,k') ∧
    k.Quiet k' ∧ k'.sent = k.sent ++ [k.answer 0x4e seq []] := by
  obtain ⟨k',tooMany,hr⟩ := retried_ok (k := { k with
    opktbuf := k.answer 0x4e seq []
    sent := k.sent ++ [k.answer 0x4e seq []] }) h
  have hset := retried_settled hr
  rw [nak,spkt_ok k 0x4e seq (by simp),ok_bind,hr]
  exact ⟨_,k',rfl,⟨hset.session,hset.obuf⟩,hset.sent⟩

end Answers

section Bursts

variable {seq : Nat} {typ : UInt8} {xs us us' ys : List UInt8}

-- The check of a packet with other data is no check of it.
theorem goodCheck_burst (hlen : us.length = us'.length) (hw : us.length ≤ 2) (hne : us ≠ us')
    (hdr : List UInt8) : goodCheck (blockCheck 3 (hdr ++ (xs ++ us ++ ys)))
      (hdr ++ (xs ++ us' ++ ys)) = false := by
  rw [Bool.eq_false_iff,ne_eq,goodCheck_three]
  intro he
  apply crc_distinguishing.burst hlen hw hne 0 (hdr ++ xs) ys
  rw [chk3,chk3] at he
  simpa only [List.append_assoc] using he

end Bursts

end Reading

end KData
end Kermit
end RoscoM68k
