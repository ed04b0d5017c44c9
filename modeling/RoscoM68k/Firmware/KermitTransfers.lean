import RoscoM68k.Firmware.KermitTransitions

namespace RoscoM68k
namespace Kermit

-- As K_INIT leaves it.
def Session.start : Session where
  state := .wait
  r_seq := 0
  bct := 3
  prefixes := ⟨0,0x59,0x7e,false,0x23⟩
  loaded := []

-- What a sender sends, with the session before each packet and after the last one. It ends with
-- the only B packet.
structure Transfer where
  packets : List (UInt8 × List UInt8)
  session : Nat → Session
  nonempty : packets ≠ []
  starts : session 0 = Session.start
  takes : ∀ i p, packets[i]? = some p → (session i).Takes p.1 p.2 (session (i + 1))
  sendable : ∀ i p, packets[i]? = some p →
    Sendable (checkType (session i).bct p.1) p.1 (i % 64) p.2
  ends : ∀ i p, packets[i]? = some p → (p.1 = 0x42 ↔ i + 1 = packets.length)

namespace Transfer

variable {T : Transfer} {i n : Nat} {p : UInt8 × List UInt8}

def file (T : Transfer) : List UInt8 := (T.session T.packets.length).loaded

-- The type of the check of a packet.
def check (T : Transfer) (i : Nat) (p : UInt8 × List UInt8) : Nat :=
  checkType (T.session i).bct p.1

-- A packet as it is on the line, between its start and its end.
def frame (T : Transfer) (i : Nat) : List UInt8 :=
  match T.packets[i]? with
  | some p => Kermit.frame (T.check i p) p.1 (i % 64) p.2
  | none => []

theorem packet_of_lt (T : Transfer) (h : i < T.packets.length) : ∃ p, T.packets[i]? = some p :=
  ⟨_,List.getElem?_eq_getElem h⟩

theorem later (T : Transfer) (hn : n < T.packets.length) :
    (T.session (n + 1)).state ≠ .wait ∧ (T.session (n + 1)).bct = (T.session 1).bct := by
  induction n with
  | zero =>
    obtain ⟨p,hp⟩ := T.packet_of_lt hn
    exact ⟨(T.takes 0 p hp).next.2.1,rfl⟩
  | succ n ih =>
    obtain ⟨hstate,hbct⟩ := ih (by omega)
    obtain ⟨p,hp⟩ := T.packet_of_lt hn
    have hnext := (T.takes (n + 1) p hp).next
    exact ⟨hnext.2.1,(hnext.2.2.1 hstate).trans hbct⟩

theorem r_seq (T : Transfer) (hn : n ≤ T.packets.length) : (T.session n).r_seq = n % 64 := by
  induction n with
  | zero =>
    rw [T.starts]
    rfl
  | succ n ih =>
    obtain ⟨p,hp⟩ := T.packet_of_lt hn
    rw [(T.takes n p hp).next.1,ih (by omega)]
    omega

theorem loaded_mono {m : Nat} (T : Transfer) (hmn : m ≤ n) (hn : n ≤ T.packets.length) :
    (T.session m).loaded <+: (T.session n).loaded := by
  induction n with
  | zero =>
    obtain rfl := Nat.le_zero.mp hmn
    exact List.prefix_refl _
  | succ n ih =>
    obtain ⟨p,hp⟩ := T.packet_of_lt hn
    obtain rfl | hlt := Nat.eq_or_lt_of_le hmn
    · exact List.prefix_refl _
    · exact (ih (by omega) (by omega)).trans (T.takes n p hp).loaded_grows

theorem loaded_grows (T : Transfer) (hn : n ≤ T.packets.length) :
    (T.session n).loaded <+: T.file := T.loaded_mono hn le_rfl

-- The last packet is a B packet.
theorem last_state (T : Transfer) : (T.session T.packets.length).state = .file := by
  obtain ⟨n,hn⟩ := Nat.exists_eq_succ_of_ne_zero fun h => T.nonempty (List.length_eq_zero_iff.mp h)
  obtain ⟨p,hp⟩ := T.packet_of_lt (i := n) (by omega)
  rw [hn]
  exact (T.takes n p hp).next.2.2.2 ((T.ends n p hp).mpr hn.symm)

-- A packet has the check that is in use whenever it may arrive.
theorem check_eq (hp : T.packets[i]? = some p) (hn : n ≤ T.packets.length) (hopen : 0 < i → 0 < n) :
    checkType (T.session n).bct p.1 = T.check i p := by
  have hi : i < T.packets.length := (List.getElem?_eq_some_iff.mp hp).1
  have htyp := (T.takes i p hp).typ.2.2.2
  rw [check,checkType,checkType]
  split
  · rfl
  · rename_i hs
    cases i with
    | zero =>
      rw [T.starts] at htyp
      exact absurd (htyp.mpr rfl) hs
    | succ i =>
      obtain ⟨n,rfl⟩ := Nat.exists_eq_succ_of_ne_zero (hopen (Nat.succ_pos i)).ne'
      rw [(T.later (n := n) hn).2,(T.later (n := i) (by omega)).2]

end Transfer

-- Before parameters have been agreed on there is the control prefix only.
theorem plain_decodes {b : UInt8} (hb : b ≠ 0) (hc : ¬ isChar b Session.start.prefixes.r_ctlq) :
    Decodes Session.start.prefixes [b] [b] := by
  refine (Decodes.one hb one_pos fun rest => ?_ : Decodes _ [b] (List.replicate 1 b))
  rw [Prefixes.decodeChar,if_neg (by simp [Session.start]),Prefixes.decodeEighth,
    if_neg (by simp [Session.start]),
    Prefixes.decodeControl,if_neg hc]
  rfl

-- Two packets that open a file, one that fills it, and two that close it.
def hello : Transfer where
  packets := [(0x53,[]),(0x46,[0x61]),(0x44,[0x68,0x69]),(0x5a,[]),(0x42,[])]
  session := fun n =>
    { Session.start with
      state := [.wait,.file,.attr,.data].getD n .file
      r_seq := n
      loaded := if n < 3 then [] else [0x68,0x69] }
  nonempty := List.cons_ne_nil _ _
  starts := rfl
  takes := by
    intro i p hp
    match i with
    | 0 => obtain rfl := Option.some.inj hp; exact .params [] rfl rfl
    | 1 =>
      obtain rfl := Option.some.inj hp
      exact .name [0x61] [0x61] rfl (plain_decodes (by decide) (by decide)) (by decide)
    | 2 =>
      obtain rfl := Option.some.inj hp
      exact .data [0x68,0x69] [0x68,0x69] (.inl rfl)
        ((plain_decodes (by decide) (by decide)).append (plain_decodes (by decide) (by decide)))
    | 3 => obtain rfl := Option.some.inj hp; exact .eof [] rfl
    | 4 => obtain rfl := Option.some.inj hp; exact .eot [] rfl
    | n + 5 => exact absurd hp (by simp)
  sendable := by
    intro i p hp
    match i with
    | 0 | 1 | 2 | 3 | 4 =>
      obtain rfl := Option.some.inj hp
      exact ⟨by decide,by decide,by decide,by decide,by decide,by decide,by decide⟩
    | n + 5 => exact absurd hp (by simp)
  ends := by
    intro i p hp
    match i with
    | 0 | 1 | 2 | 3 | 4 => obtain rfl := Option.some.inj hp; decide
    | n + 5 => exact absurd hp (by simp)

namespace KData

section Arrivals

variable {k k' k₁ : KData} {stored : List UInt8} {n slot : Nat} {st : Status}

theorem getrslot_settled {r : Option Nat} (h : k.getrslot = (k₁,r)) : k.Settled k₁ := by
  rw [getrslot] at h
  split at h
  · obtain ⟨rfl,-⟩ := Prod.mk.inj h
    exact k.setInfo_settled _ _
  · obtain ⟨rfl,-⟩ := Prod.mk.inj h
    exact .refl k

theorem place_settled (h : k.place stored n = .ok (k₁,slot)) :
    k.Settled k₁ ∧ ∃ tail, k₁.ipktbuf.drop slot = stored ++ tail := by
  rw [place] at h
  split at h
  · simp at h
  · rename_i k₀ slot₀ hslot
    obtain ⟨k₂,hstore,h⟩ := bind_eq_ok.mp h
    obtain ⟨hk,rfl⟩ := Prod.mk.inj (Except.ok.inj h)
    rw [store] at hstore
    split at hstore
    · rename_i hroom
      have hset : k.Settled k₂ := by
        obtain rfl := Except.ok.inj hstore
        exact (getrslot_settled hslot).trans ⟨⟨rfl,rfl⟩,rfl,rfl⟩
      have hbuf : k₂.ipktbuf.drop slot₀ = stored ++ k₀.ipktbuf.drop (slot₀ + stored.length) := by
        obtain rfl := Except.ok.inj hstore
        have htake : (k₀.ipktbuf.take slot₀).length = slot₀ := by
          rw [List.length_take]
          omega
        dsimp only
        rw [List.append_assoc]
        nth_rewrite 1 [← htake]
        rw [List.drop_left]
      rw [← hk]
      split
      · exact ⟨hset.trans (k₂.freerslot_settled slot₀),_,hbuf⟩
      · exact ⟨hset,_,hbuf⟩
    · simp at hstore

-- Bytes that K_RUN does not take for a packet, in whatever slot they come to be.
def Rejects (k : KData) (stored : List UInt8) (n : Nat) : Prop :=
  ∀ k₁ slot, k.place stored n = .ok (k₁,slot) → n < 4 ∨ (k₁.sized slot n).Damaged slot

theorem receive_rejected (hbad : k.Rejects stored n) (h : k.receive stored n = .ok (st,k')) :
    k.Ignores k' ∧ st ≠ .done := by
  obtain ⟨⟨k₁,slot⟩,hplace,h⟩ := bind_eq_ok.mp h
  exact (kermit_damaged (hbad k₁ slot hplace) h).imp_left (place_settled hplace).1.ignores

theorem givesUp_of_settled {k₂ : KData} (h : k.Settled k₁) (h' : k₁.GivesUp k₂) : k.GivesUp k₂ where
  loaded := h'.loaded.trans h.loaded
  sent := by
    obtain ⟨ans,hsent,hall⟩ := h'.sent
    refine ⟨ans,by rw [hsent,h.sent],fun a ha => ?_⟩
    rw [← h.opktbuf]
    exact hall a ha

-- A packet of the other side, in the slot that it gets: it is not taken, or it has the number that
-- is waited for and the transition is made for its data.
theorem receive_frame {b seq : Nat} {typ : UInt8} {data : List UInt8}
    (hsend : Sendable b typ seq data) (hb : checkType k.bct typ = b)
    (htyp : typ ≠ 0x45 ∧ ¬ (typ = 0x4e ∨ typ = 0x59)) (hn : 4 ≤ n)
    (h : k.receive (frame b typ seq data) n = .ok (st,k')) :
    (k.Ignores k' ∧ st ≠ .done) ∨ (st = .error ∧ k.GivesUp k') ∨
      ∃ k₁ slot p tail, seq = k.r_seq ∧ k.Settled k₁ ∧ k₁.ipktbuf.drop p = data ++ 0 :: tail ∧
        k₁.transition slot typ p data.length = .ok (st,k') := by
  obtain ⟨⟨k₁,slot⟩,hplace,h⟩ := bind_eq_ok.mp h
  dsimp only at h
  obtain ⟨hset,tail,hbuf⟩ := place_settled hplace
  have hsized : k.Settled (k₁.sized slot n) := hset.trans (k₁.setInfo_settled slot _)
  have hbuf' : (k₁.sized slot n).ipktbuf.drop slot =
      body b typ seq data ++ blockCheck b (body b typ seq data) ++ tail := by
    rw [← hsend.frame_eq]
    exact hbuf
  have hcheck := blockCheck_length hsend.bct_pos hsend.bct_le (body b typ seq data)
  have hbct : (k₁.sized slot n).bct = k.bct := congrArg Session.bct hsized.session
  have hparse := parse_packet hsend (hbct ▸ hb) hbuf' hcheck htyp.2 (fun ht => absurd ht htyp.1)
  obtain ⟨rest,hdata⟩ := got_data hbuf' hcheck hsend.bct_pos
  split at hparse
  · rw [kermit_good hn hparse] at h
    have hgot := hsized.trans (parse_settled hparse)
    by_cases hseq : seq = ((k₁.sized slot n).got slot b seq typ data).r_seq
    · rw [checked,if_neg htyp.1,if_pos hseq] at h
      exact .inr (.inr ⟨_,slot,_,rest,hseq.trans hgot.r_seq,hgot.trans (setInfo_settled _ slot _),
        hdata,h⟩)
    · obtain ⟨hign,hst⟩ | ⟨hst,hgive⟩ := checked_stale htyp.1 hseq h
      · exact .inl ⟨hgot.ignores hign,hst⟩
      · exact .inr (.inl ⟨hst,givesUp_of_settled hgot hgive⟩)
  · left
    apply (kermit_damaged (.inr _) h).imp_left hset.ignores
    intro k₂ seq' t' p' datalen' hgood
    rw [hparse] at hgood
    exact absurd (Prod.mk.inj (Except.ok.inj hgood)).2 (by simp)

end Arrivals
end KData
end Kermit
end RoscoM68k
