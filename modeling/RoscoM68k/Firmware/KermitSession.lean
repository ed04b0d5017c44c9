import RoscoM68k.Firmware.KermitPackets
import RoscoM68k.Firmware.KermitData

namespace RoscoM68k
namespace Kermit

-- What the meaning of a packet depends on, and what has been received of the files.
structure Session where
  state : RState
  r_seq : Nat
  bct : Nat
  prefixes : Prefixes
  loaded : List UInt8
  deriving DecidableEq, Repr

-- An answer other than an ACK.
def NoAck (packet : List UInt8) : Prop :=
  ∃ bct typ seq data eom, typ ≠ 0x59 ∧ packet = [SOH] ++ frame bct typ seq data ++ [eom]

def IsAck (n : Nat) (packet : List UInt8) : Prop :=
  ∃ bct text eom, packet = [SOH] ++ frame bct 0x59 n text ++ [eom]

namespace KData

def session (k : KData) : Session := ⟨k.state,k.r_seq,k.bct,k.prefixes,k.written ++ k.obuf⟩

-- What a change to the slots, the buffers or the answers leaves alone.
structure Quiet (k k' : KData) : Prop where
  session : k'.session = k.session
  obuf : k'.obuf = k.obuf

namespace Quiet

variable {k k' k'' : KData}

theorem refl (k : KData) : k.Quiet k := ⟨rfl,rfl⟩

theorem trans (h : k.Quiet k') (h' : k'.Quiet k'') : k.Quiet k'' :=
  ⟨h'.session.trans h.session,h'.obuf.trans h.obuf⟩

theorem state (h : k.Quiet k') : k'.state = k.state := congrArg Session.state h.session

theorem r_seq (h : k.Quiet k') : k'.r_seq = k.r_seq := congrArg Session.r_seq h.session

theorem loaded (h : k.Quiet k') : k'.written ++ k'.obuf = k.written ++ k.obuf :=
  congrArg Session.loaded h.session

end Quiet

section Answers

variable {k k' : KData} {typ : UInt8} {seq slot : Nat} {data text : List UInt8} {st : Status}

def answer (k : KData) (typ : UInt8) (seq : Nat) (data : List UInt8) : List UInt8 :=
  [SOH] ++ frame k.bct typ seq data ++ [k.s_eom]

theorem spkt_eq_ok (h : k.spkt typ seq data = .ok k') : k' = { k with
    opktbuf := k.answer typ seq data
    sent := k.sent ++ [k.answer typ seq data] } := by
  rw [spkt] at h
  split at h
  · exact (Except.ok.inj h).symm
  · simp at h

theorem ack_eq_ok (h : k.ack seq text = .ok k') : k' = { k with
    opktbuf := k.answer 0x59 seq text
    sent := k.sent ++ [k.answer 0x59 seq text]
    r_seq := (k.r_seq + 1) % 64 } := by
  obtain ⟨k₁,hk,hok⟩ := bind_eq_ok.mp h
  obtain rfl := spkt_eq_ok hk
  exact (Except.ok.inj hok).symm

-- What is done about a packet that is not taken: nothing but answers, which are no ACK or the
-- last answer again.
structure Ignores (k k' : KData) : Prop extends k.Quiet k' where
  sent : ∃ ans, k'.sent = k.sent ++ ans ∧ ∀ a ∈ ans, NoAck a ∨ a = k.opktbuf ∧ a ≠ []
  held : k'.opktbuf = k.opktbuf ∨ NoAck k'.opktbuf

theorem Ignores.refl (k : KData) : k.Ignores k where
  toQuiet := .refl k
  sent := ⟨[],(List.append_nil _).symm,by simp⟩
  held := .inl rfl

-- Changes to the slots and to the packet that has come in make no difference.
structure Settled (k k' : KData) : Prop extends k.Quiet k' where
  sent : k'.sent = k.sent
  opktbuf : k'.opktbuf = k.opktbuf

theorem Settled.refl (k : KData) : k.Settled k := ⟨.refl k,rfl,rfl⟩

theorem Settled.trans {k'' : KData} (h : k.Settled k') (h' : k'.Settled k'') : k.Settled k'' :=
  ⟨h.toQuiet.trans h'.toQuiet,h'.sent.trans h.sent,h'.opktbuf.trans h.opktbuf⟩

theorem Settled.ignores {k'' : KData} (h : k.Settled k') (h' : k'.Ignores k'') : k.Ignores k'' where
  toQuiet := h.toQuiet.trans h'.toQuiet
  sent := by
    obtain ⟨ans,hsent,hall⟩ := h'.sent
    refine ⟨ans,by rw [hsent,h.sent],fun a ha => ?_⟩
    rw [← h.opktbuf]
    exact hall a ha
  held := by
    rw [← h.opktbuf]
    exact h'.held

theorem Ignores.settled {k'' : KData} (h : k.Ignores k') (h' : k'.Settled k'') : k.Ignores k'' where
  toQuiet := h.toQuiet.trans h'.toQuiet
  sent := by
    rw [h'.sent]
    exact h.sent
  held := by
    rw [h'.opktbuf]
    exact h.held

theorem setInfo_settled (k : KData) (slot : Nat) (f : Packet → Packet) :
    k.Settled (k.setInfo slot f) := ⟨⟨rfl,rfl⟩,rfl,rfl⟩

theorem freerslot_settled (k : KData) (slot : Nat) : k.Settled (k.freerslot slot) :=
  k.setInfo_settled slot _

theorem spkt_ignores (htyp : typ ≠ 0x59) (h : k.spkt typ seq data = .ok k') : k.Ignores k' := by
  obtain rfl := spkt_eq_ok h
  have hno : NoAck (k.answer typ seq data) := ⟨k.bct,typ,seq,data,k.s_eom,htyp,rfl⟩
  exact ⟨⟨rfl,rfl⟩,⟨_,rfl,fun a ha => .inl (List.mem_singleton.mp ha ▸ hno)⟩,.inr hno⟩

theorem resend_ignores (k : KData) : k.Ignores k.resend := by
  rw [resend]
  split
  · exact .refl k
  · rename_i hne
    refine ⟨⟨rfl,rfl⟩,⟨_,rfl,fun a ha => .inr ?_⟩,.inl rfl⟩
    rw [List.mem_singleton.mp ha]
    exact ⟨rfl,hne⟩

theorem retried_settled {tooMany : Bool} (h : k.retried slot = .ok (k',tooMany)) :
    k.Settled k' := by
  obtain ⟨i,-,hok⟩ := bind_eq_ok.mp h
  obtain ⟨rfl,-⟩ := Prod.mk.inj (Except.ok.inj hok)
  exact k.setInfo_settled slot _

theorem nak_ignores (h : k.nak seq slot = .ok (st,k')) : k.Ignores k' ∧ st ≠ .done := by
  obtain ⟨k₁,hk,h⟩ := bind_eq_ok.mp h
  obtain ⟨r,hr,h⟩ := bind_eq_ok.mp h
  obtain ⟨rfl,rfl⟩ := Prod.mk.inj (Except.ok.inj h)
  refine ⟨(spkt_ignores (by decide) hk).settled (retried_settled hr),?_⟩
  split
  · decide
  · decide

-- What is done when the transfer is given up: the answers are as before, and nothing is loaded.
structure GivesUp (k k' : KData) : Prop where
  loaded : k'.written ++ k'.obuf = k.written ++ k.obuf
  sent : ∃ ans, k'.sent = k.sent ++ ans ∧ ∀ a ∈ ans, NoAck a ∨ a = k.opktbuf ∧ a ≠ []

theorem Ignores.givesUp (h : k.Ignores k') : k.GivesUp k' := ⟨h.loaded,h.sent⟩

theorem epkt_givesUp {k₀ : KData} {msg : String} (h₀ : k₀.Settled k) (h : k.epkt msg = .ok k') :
    k₀.GivesUp k' := by
  obtain ⟨hquiet,hsent,hheld⟩ := spkt_ignores (by decide) h
  have hq : { k with bct := 1 }.written ++ { k with bct := 1 }.obuf = k.written ++ k.obuf := rfl
  refine ⟨(hquiet.loaded.trans hq).trans h₀.loaded,?_⟩
  obtain ⟨ans,hsent,hall⟩ := hsent
  refine ⟨ans,?_,fun a ha => ?_⟩
  · rw [hsent,← h₀.sent]
  · rw [← h₀.opktbuf]
    exact hall a ha

end Answers

section Parsing

variable {k k' : KData} {slot seq n : Nat} {t : UInt8} {p : Nat} {datalen : Int} {st : Status}

theorem dataField_settled {len : Nat} {r : Option (Nat × Int)}
    (h : k.dataField slot len = .ok (k',r)) : k.Settled k' := by
  rw [dataField] at h
  split at h
  · obtain ⟨x1,-,h⟩ := bind_eq_ok.mp h
    obtain ⟨x2,-,h⟩ := bind_eq_ok.mp h
    obtain ⟨c,-,h⟩ := bind_eq_ok.mp h
    obtain ⟨buf,-,h⟩ := bind_eq_ok.mp h
    obtain ⟨hdr,-,h⟩ := bind_eq_ok.mp h
    split at h
    · obtain ⟨rfl,-⟩ := Prod.mk.inj (Except.ok.inj h)
      exact ⟨⟨rfl,rfl⟩,rfl,rfl⟩
    · obtain ⟨rfl,-⟩ := Prod.mk.inj (Except.ok.inj h)
      exact .refl k
  · obtain ⟨rfl,-⟩ := Prod.mk.inj (Except.ok.inj h)
    exact .refl k

theorem checkPacket_settled {chklen : Nat} {good : Bool}
    (h : k.checkPacket slot t p datalen chklen = .ok (k',good)) : k.Settled k' := by
  obtain ⟨pbc,-,h⟩ := bind_eq_ok.mp h
  obtain ⟨buf,-,h⟩ := bind_eq_ok.mp h
  obtain ⟨pkt,-,h⟩ := bind_eq_ok.mp h
  split at h
  · obtain ⟨rfl,-⟩ := Prod.mk.inj (Except.ok.inj h)
    exact ⟨⟨rfl,rfl⟩,rfl,rfl⟩
  · split at h
    · obtain ⟨r,-,h⟩ := bind_eq_ok.mp h
      obtain ⟨rfl,-⟩ := Prod.mk.inj (Except.ok.inj h)
      exact ⟨⟨rfl,rfl⟩,rfl,rfl⟩
    · obtain ⟨rfl,-⟩ := Prod.mk.inj (Except.ok.inj h)
      exact ⟨⟨rfl,rfl⟩,rfl,rfl⟩

theorem parse_settled {r : Parsed} (h : k.parse slot = .ok (k',r)) : k.Settled k' := by
  obtain ⟨b0,-,h⟩ := bind_eq_ok.mp h
  obtain ⟨b1,-,h⟩ := bind_eq_ok.mp h
  obtain ⟨b2,-,h⟩ := bind_eq_ok.mp h
  dsimp only at h
  have hnoted := k.setInfo_settled slot fun i => { i with
    len := xunchar b0
    seq := xunchar b1
    typ := b2 }
  split at h
  · obtain ⟨rfl,-⟩ := Prod.mk.inj (Except.ok.inj h)
    exact hnoted
  · obtain ⟨⟨k₁,o⟩,hfield,h⟩ := bind_eq_ok.mp h
    have hset := hnoted.trans (dataField_settled hfield)
    cases o with
    | none =>
      obtain ⟨rfl,-⟩ := Prod.mk.inj (Except.ok.inj h)
      exact hset
    | some d =>
      obtain ⟨⟨k₂,good⟩,hcheck,h⟩ := bind_eq_ok.mp h
      obtain ⟨rfl,-⟩ := Prod.mk.inj (Except.ok.inj h)
      exact hset.trans (checkPacket_settled hcheck)

-- The packet in a slot is not one with a good check.
def Damaged (k : KData) (slot : Nat) : Prop :=
  ∀ k₁ seq t p datalen, k.parse slot ≠ .ok (k₁,.good seq t p datalen)

-- K_RUN with the length of the packet in its slot.
def sized (k : KData) (slot n : Nat) : KData := k.setInfo slot fun i => { i with len := n }

theorem kermit_damaged (hbad : n < 4 ∨ (k.sized slot n).Damaged slot)
    (h : k.kermit slot n = .ok (st,k')) : k.Ignores k' ∧ st ≠ .done := by
  have hsized : k.Settled (k.sized slot n) := k.setInfo_settled slot _
  rw [kermit] at h
  dsimp only at h
  split at h
  · exact (nak_ignores h).imp_left hsized.ignores
  · rename_i hn
    have hbad := hbad.resolve_left hn
    obtain ⟨⟨k₁,r⟩,hparse,h⟩ := bind_eq_ok.mp h
    have hset := hsized.trans (parse_settled hparse)
    have hfree := hset.trans (k₁.freerslot_settled slot)
    cases r with
    | echo =>
      obtain ⟨rfl,rfl⟩ := Prod.mk.inj (Except.ok.inj h)
      exact ⟨hfree.ignores (.refl _),by decide⟩
    | badHeader => exact (nak_ignores h).imp_left hfree.ignores
    | badCheck =>
      obtain ⟨⟨st₁,k₂⟩,hnak,h⟩ := bind_eq_ok.mp h
      obtain ⟨rfl,rfl⟩ := Prod.mk.inj (Except.ok.inj h)
      exact ⟨hfree.ignores (nak_ignores hnak).1,by decide⟩
    | good seq t p datalen => exact absurd hparse (hbad k₁ seq t p datalen)

theorem kermit_good {k₁ : KData} (hn : 4 ≤ n)
    (hparse : (k.sized slot n).parse slot = .ok (k₁,.good seq t p datalen)) :
    k.kermit slot n = k₁.checked slot seq t p datalen := by
  rw [kermit]
  dsimp only
  rw [if_neg (by omega),show k.setInfo slot _ = k.sized slot n from rfl,hparse,ok_bind]

-- A packet that is not the one that is waited for.
theorem checked_stale (ht : t ≠ 0x45) (hseq : seq ≠ k.r_seq)
    (h : k.checked slot seq t p datalen = .ok (st,k')) :
    k.Ignores k' ∧ st ≠ .done ∨ st = .error ∧ k.GivesUp k' := by
  have hfree := k.freerslot_settled slot
  rw [checked,if_neg ht,if_neg hseq] at h
  dsimp only at h
  generalize (if (k.freerslot slot).r_seq = 0 then 63 else (k.freerslot slot).r_seq - 1) = prev at h
  split at h
  · obtain ⟨⟨k₁,tooMany⟩,hretried,h⟩ := bind_eq_ok.mp h
    have hset := hfree.trans (retried_settled hretried)
    dsimp only at h
    split at h
    · obtain ⟨k₂,hepkt,h⟩ := bind_eq_ok.mp h
      obtain ⟨rfl,rfl⟩ := Prod.mk.inj (Except.ok.inj h)
      exact .inr ⟨rfl,epkt_givesUp hset hepkt⟩
    · obtain ⟨rfl,rfl⟩ := Prod.mk.inj (Except.ok.inj h)
      exact .inl ⟨hset.ignores (resend_ignores k₁),by decide⟩
  · exact .inl ((nak_ignores h).imp_left hfree.ignores)

end Parsing
end KData
end Kermit
end RoscoM68k
