import RoscoM68k.Firmware.KermitReading

namespace RoscoM68k
namespace Kermit
namespace KData

-- The packets that have come in, and what is noted of them.
def slots (k : KData) : List UInt8 × List Packet := (k.ipktbuf,k.ipktinfo)

section Steps

variable {k k' : KData} {d tail : List UInt8} {p n slot : Nat} {t : UInt8} {s s' : Session}

theorem slots_free (h : k'.slots = k.slots) (slot : Nat) :
    (k'.freerslot slot).slots = (k.freerslot slot).slots := by
  obtain ⟨hbuf,hinfo⟩ := Prod.mk.inj h
  rw [slots,slots,freerslot,freerslot,setInfo,setInfo,hbuf,hinfo]

theorem free_twice (k : KData) (slot : Nat) :
    ((k.freerslot slot).freerslot slot).slots = (k.freerslot slot).slots := by
  simp only [slots,freerslot,setInfo,List.modify_modify_eq,Function.comp_def]

theorem ack_ok (k : KData) (seq : Nat) (text : List UInt8) (h : text.length < 4093) :
    ∃ k', k.ack seq text = .ok k' ∧ k'.slots = k.slots := by
  rw [ack,spkt_ok k 0x59 seq h]
  exact ⟨_,rfl,rfl⟩

theorem untilNul_length (s : List UInt8) : (untilNul s).length ≤ s.length :=
  (List.takeWhile_sublist _).length_le

theorem sparField_ok (set : KData → UInt8 → KData) (hbuf : k.ipktbuf.drop p = d ++ 0 :: tail)
    (hset : ∀ b, (set k b).slots = k.slots) (n : Nat) :
    ∃ k', k.sparField p d.length (n + 1) set = .ok k' ∧ k'.slots = k.slots := by
  rw [sparField]
  split
  · rename_i hle
    have hn : n < d.length := by omega
    have hcast : ((n + 1 : Nat) : Int) - 1 = (n : Nat) := by omega
    have hb : byteAt k.ipktbuf p (n : Nat) = .ok d[n] := byteAt_drop hbuf (by
      rw [List.getElem?_append_left hn,List.getElem?_eq_getElem hn])
    rw [hcast,hb,ok_bind]
    exact ⟨_,rfl,hset _⟩
  · exact ⟨_,rfl,rfl⟩

theorem setEbq_slots (k : KData) (b : UInt8) : (k.setEbq b).slots = k.slots := by
  rw [setEbq]
  dsimp only
  split
  · rfl
  · split
    · rfl
    · rfl

theorem setRptq_slots (k : KData) (b : UInt8) : (k.setRptq b).slots = k.slots := by
  rw [setRptq]
  split
  · rfl
  · rfl

-- The NUL behind the data is looked at, but nothing behind it.
theorem lastCapas_ok {buf : List UInt8} (hbuf : buf.drop p = d ++ 0 :: tail) (n : Nat) {y : Nat}
    (hpos : 1 ≤ y) (hy : y ≤ d.length + 1) : ∃ y', lastCapas buf p d.length n y = .ok y' := by
  induction n generalizing y with
  | zero => exact ⟨y,rfl⟩
  | succ n ih =>
    obtain ⟨y,rfl⟩ := Nat.exists_eq_succ_of_ne_zero (by omega : y ≠ 0)
    have hlt : y < (d ++ 0 :: tail).length := by
      rw [List.length_append,List.length_cons]
      omega
    have hcast : ((y + 1 : Nat) : Int) - 1 = (y : Nat) := by omega
    have hb : byteAt buf p (y : Nat) = .ok (d ++ 0 :: tail)[y] :=
      byteAt_drop hbuf (List.getElem?_eq_getElem hlt)
    rw [lastCapas,hcast,hb,ok_bind]
    split
    · rename_i hmore
      exact ih (by omega) (by omega)
    · exact ⟨_,rfl⟩

theorem spar_ok (hbuf : k.ipktbuf.drop p = d ++ 0 :: tail) :
    ∃ k', k.spar p d.length = .ok k' ∧ k'.slots = k.slots := by
  have hkeep {k₁ : KData} (h : k₁.slots = k.slots) : k₁.ipktbuf.drop p = d ++ 0 :: tail := by
    rw [(Prod.mk.inj h).1,hbuf]
  obtain ⟨k5,h5,hk5⟩ := sparField_ok setEom hbuf (fun _ => rfl) 4
  obtain ⟨k6,h6,hk6⟩ := sparField_ok setCtlq (hkeep hk5) (fun _ => rfl) 5
  have hk6 := hk6.trans hk5
  obtain ⟨k7,h7,hk7⟩ := sparField_ok setEbq (hkeep hk6) k6.setEbq_slots 6
  have hk7 := hk7.trans hk6
  obtain ⟨k8,h8,hk8⟩ := sparField_ok setBct (hkeep hk7) (fun _ => rfl) 7
  have hk8 := hk8.trans hk7
  obtain ⟨k9,h9,hk9⟩ := sparField_ok setRptq (hkeep hk8) k8.setRptq_slots 8
  have hk9 := hk9.trans hk8
  obtain ⟨k10,h10,hk10⟩ := sparField_ok setCapas (hkeep hk9) (fun _ => rfl) 9
  have hk10 := hk10.trans hk9
  have hcapas : ∃ y, k10.capasField p d.length = .ok y := by
    rw [capasField]
    split
    · exact lastCapas_ok (hkeep hk10) _ (by omega) (by omega)
    · exact ⟨0,rfl⟩
  obtain ⟨y,hy⟩ := hcapas
  rw [spar,h5,ok_bind,h6,ok_bind,h7,ok_bind,h8,ok_bind,h9,ok_bind,h10,ok_bind,hy,ok_bind]
  split
  · exact ⟨k10,rfl,hk10⟩
  · obtain ⟨kw,hw,hkw⟩ := sparField_ok setWindow (hkeep hk10) (fun _ => rfl) y
    exact ⟨kw,hw,hkw.trans hk10⟩

theorem rpar_ok (k : KData) : ∃ k', k.rpar = .ok k' ∧ k'.slots = k.slots := by
  have hanswer {k₁ : KData} {text : List UInt8} (h : text.length < 4093)
      (hk : k₁.slots = k.slots) (b : Nat) :
      ∃ k', (k₁.ack 0 text >>= fun k => .ok { k with bct := b }) = .ok k' ∧ k'.slots = k.slots := by
    obtain ⟨k₂,hack,hsame⟩ := ack_ok k₁ 0 text h
    rw [hack,ok_bind]
    exact ⟨_,rfl,hsame.trans hk⟩
  rw [rpar]
  apply hanswer
  · exact lt_of_le_of_lt (untilNul_length _) (by norm_num)
  · split
    · rfl
    · rfl

theorem foldl_putObuf_slots (k : KData) (out : List UInt8) :
    (out.foldl putObuf k).slots = k.slots := by
  induction out generalizing k with
  | nil => rfl
  | cons a out ih =>
    have hput : (k.putObuf a).slots = k.slots := by
      rw [putObuf]
      split
      · rfl
      · rfl
    exact (ih (k.putObuf a)).trans hput

theorem decode_ok {out : List UInt8} (hbuf : k.ipktbuf.drop p = d ++ 0 :: tail)
    (hd : Decodes k.prefixes d out) : ∃ k', k.decode p = .ok k' ∧ k'.slots = k.slots := by
  have hloop := hd.decodeLoop_eq (n := (d ++ 0 :: tail).length) (by simp) tail []
  rw [decode,hbuf]
  rw [hloop,ok_bind]
  exact ⟨_,rfl,foldl_putObuf_slots k _⟩

-- Attributes that are read without leaving the buffers.
def Readable (d : List UInt8) : Prop :=
  ∀ tail r, ∃ r', gattrLoop (d ++ 0 :: tail).length (d ++ 0 :: tail) r = .ok r'

theorem inWait_ok (hbuf : k.ipktbuf.drop p = d ++ 0 :: tail) :
    ∃ r, k.inWait slot 0x53 p d.length = .ok r ∧ r.2.slots = (k.freerslot slot).slots := by
  obtain ⟨k₁,hspar,hk₁⟩ := spar_ok hbuf
  obtain ⟨k₂,hrpar,hk₂⟩ := rpar_ok k₁
  rw [inWait,if_pos rfl,hspar,ok_bind,hrpar,ok_bind]
  have hk : ({ k₂ with state := .file } : KData).slots = k.slots := hk₂.trans hk₁
  exact ⟨_,rfl,slots_free hk slot⟩

theorem inFile_name_ok {name : List UInt8} (hbuf : k.ipktbuf.drop p = d ++ 0 :: tail)
    (hd : Decodes k.prefixes d name) (hn : name.length < FN_MAX) :
    ∃ r, k.inFile slot 0x46 p = .ok r ∧ r.2.slots = (k.freerslot slot).slots := by
  have hloop := hd.decodeLoop_eq (n := (d ++ 0 :: tail).length) (by simp) tail []
  rw [List.nil_append] at hloop
  have hname : k.decodeFilename p = .ok { k with filename := name } := by
    rw [decodeFilename,hbuf]
    rw [hloop,ok_bind,if_pos hn]
  have hmax : FN_MAX = 1024 := rfl
  have htext : (untilNul name).length < 4093 := by
    have hle := untilNul_length name
    omega
  obtain ⟨k₁,hack,hk₁⟩ := ack_ok { k with
    filename := name
    state := .attr
    filedate := []
    filesize := 0
    sofar := 0 } k.r_seq _ htext
  rw [inFile,if_pos rfl,hname,ok_bind]
  dsimp only
  rw [hack,ok_bind]
  exact ⟨_,rfl,slots_free hk₁ slot⟩

theorem inFile_eot_ok (k : KData) :
    ∃ r, k.inFile slot 0x42 p = .ok r ∧ r.2.slots = (k.freerslot slot).slots := by
  obtain ⟨k₁,hack,hk₁⟩ := ack_ok (k.freerslot slot) k.r_seq [] (by norm_num)
  have hseq : (k.freerslot slot).r_seq = k.r_seq := rfl
  rw [inFile,if_neg (by decide),if_pos rfl]
  rw [hack,ok_bind]
  exact ⟨_,rfl,(slots_free hk₁ slot).trans (free_twice k slot)⟩

theorem inAttr_attributes_ok (hbuf : k.ipktbuf.drop p = d ++ 0 :: tail) (hd : Readable d) :
    ∃ r, k.inAttr slot 0x41 p = .ok r ∧ r.2.slots = (k.freerslot slot).slots := by
  obtain ⟨r,hr⟩ := hd tail ⟨none,-1,-1,k.filedate⟩
  have hgattr : ∃ k₁, k.gattr p = .ok k₁ ∧ k₁.slots = k.slots := by
    rw [gattr,hbuf]
    rw [hr,ok_bind]
    exact ⟨_,rfl,rfl⟩
  obtain ⟨k₁,hgattr,hk₁⟩ := hgattr
  obtain ⟨k₂,hack,hk₂⟩ := ack_ok (k₁.freerslot slot) k₁.r_seq [0x59] (by norm_num)
  rw [inAttr,if_pos rfl,hgattr,ok_bind,hack,ok_bind]
  exact ⟨_,rfl,hk₂.trans (slots_free hk₁ slot)⟩

-- Data are answered when they have gone to the file.
theorem data_ok {out : List UInt8} (hbuf : k.ipktbuf.drop p = d ++ 0 :: tail)
    (hd : Decodes k.prefixes d out) : ∃ r, (do
      let k ← k.decode p
      let k ← (k.freerslot slot).ack k.r_seq []
      .ok (Status.ok,k)) = Except.ok r ∧ r.2.slots = (k.freerslot slot).slots := by
  obtain ⟨k₁,hdec,hk₁⟩ := decode_ok hbuf hd
  obtain ⟨k₂,hack,hk₂⟩ := ack_ok (k₁.freerslot slot) k₁.r_seq [] (by norm_num)
  rw [hdec,ok_bind,hack,ok_bind]
  exact ⟨_,rfl,hk₂.trans (slots_free hk₁ slot)⟩

theorem inData_eof_ok (k : KData) :
    ∃ r, k.inData slot 0x5a p = .ok r ∧ r.2.slots = (k.freerslot slot).slots := by
  obtain ⟨k₁,hack,hk₁⟩ := ack_ok (({ k.flush with state := .file } : KData).freerslot slot) k.r_seq
    [] (by norm_num)
  rw [inData,if_neg (by decide),if_pos rfl]
  change ∃ r, (({ k.flush with state := .file } : KData).freerslot slot).ack k.r_seq [] >>= _ = _ ∧
    _
  rw [hack,ok_bind]
  exact ⟨_,rfl,hk₁⟩

-- The packet that is waited for is taken, and its slot is free again.
theorem transition_ok (ht : s.Takes t d s') (hs : k.session = s)
    (hbuf : k.ipktbuf.drop p = d ++ 0 :: tail) (hattr : t = 0x41 → Readable d) (slot : Nat) :
    ∃ r, k.transition slot t p d.length = .ok r ∧ r.2.slots = (k.freerslot slot).slots := by
  have hstate : k.state = s.state := congrArg Session.state hs
  have hpre : k.prefixes = s.prefixes := congrArg Session.prefixes hs
  rw [transition,hstate]
  cases ht with
  | params d hw hr =>
    rw [hw]
    exact inWait_ok hbuf
  | name d name hw hd hn =>
    rw [hw]
    exact inFile_name_ok hbuf (hpre ▸ hd) hn
  | attributes d hw =>
    rw [hw]
    exact inAttr_attributes_ok hbuf (hattr rfl)
  | data d out hw hd =>
    rw [← hpre] at hd
    obtain hw | hw := hw
    · rw [hw]
      exact data_ok (k := { k with
        obuf := []
        sofar := 0
        state := .data }) hbuf hd
    · rw [hw]
      exact data_ok hbuf hd
  | eof d hw =>
    rw [hw]
    exact inData_eof_ok k
  | eot d hw =>
    rw [hw]
    exact inFile_eot_ok k

end Steps
end KData

namespace Transfer

-- A packet on the line, with what comes before it.
def sent (T : Transfer) (gaps : Nat → List UInt8) (i : Nat) : List UInt8 :=
  gaps i ++ ([SOH] ++ T.frame i ++ [CR])

-- The packets from `i` on, `n` of them.
def stream (T : Transfer) (gaps : Nat → List UInt8) (i n : Nat) : List UInt8 :=
  (List.range' i n).flatMap (T.sent gaps)

-- The packets are whole, and fit a buffer of `size`.
structure Clean (T : Transfer) (gaps : Nat → List UInt8) (size : Nat) : Prop where
  gap : ∀ i, ∀ b ∈ gaps i, b &&& 0x7f ≠ SOH
  short : ∀ i, (T.frame i).length ≤ P_PKTLEN + 1
  fits : ∀ i, (T.frame i).length ≤ size
  printed : ∀ (i : Nat) (p : UInt8 × List UInt8), T.packets[i]? = some p → Printed p.2
  sum : ∀ (i : Nat) (p : UInt8 × List UInt8), T.packets[i]? = some p → T.check i p = 2 →
    (chk2 (body 2 p.1 (i % 64) p.2)).toNat < 4096
  readable : ∀ (i : Nat) (d : List UInt8), T.packets[i]? = some (0x41,d) → KData.Readable d

-- The receiver when `n` packets have been taken, each of them answered, with all slots free.
structure Ready (T : Transfer) (size n : Nat) (k : KData) : Prop where
  session : k.session = T.session n
  obuf : k.state ≠ .data → k.obuf = []
  free : k.ipktinfo.findIdx? (·.len < 1) = some 0
  room : k.ipktbuf.length = size
  sent_length : k.sent.length = n
  sent : ∀ i a, k.sent[i]? = some a → IsAck (i % 64) a

variable {T : Transfer} {gaps : Nat → List UInt8} {size n : Nat} {k : KData}
  {p : UInt8 × List UInt8}

theorem stream_succ (T : Transfer) (gaps : Nat → List UInt8) (i n : Nat) :
    T.stream gaps i (n + 1) = T.sent gaps i ++ T.stream gaps (i + 1) n := by
  rw [stream,List.range'_succ,List.flatMap_cons]
  rfl

theorem Clean.between (h : T.Clean gaps size) (k : KData) (i : Nat) : k.Between (gaps i) := by
  intro b hb
  have hgap := h.gap i b hb
  split
  · rintro rfl
    exact hgap (by decide)
  · exact hgap

theorem frame_eq (hp : T.packets[n]? = some p) :
    T.frame n = Kermit.frame (T.check n p) p.1 (n % 64) p.2 := by
  rw [frame,hp]

theorem Clean.frame_printed (h : T.Clean gaps size) (hp : T.packets[n]? = some p) :
    Printed (T.frame n) := by
  rw [frame_eq hp]
  exact (T.sendable n p hp).frame_printed (T.takes n p hp).typ_printed (h.printed n p hp)

theorem free_first (k : KData) (h : k.ipktinfo ≠ []) :
    (k.freerslot 0).ipktinfo.findIdx? (·.len < 1) = some 0 := by
  obtain ⟨i,rest,hi⟩ := List.exists_cons_of_ne_nil h
  rw [KData.freerslot,KData.setInfo]
  dsimp only
  rw [hi,List.modify_zero_cons,List.findIdx?_cons]
  rfl

-- The next packet is read from its slot and taken.
theorem Ready.receive (h : T.Ready size n k) (hc : T.Clean gaps size)
    (hp : T.packets[n]? = some p) : ∃ k',
      k.receive (T.frame n) (T.frame n).length =
        .ok (if p.1 = 0x42 then .done else .ok,k') ∧ T.Ready size (n + 1) k' := by
  have hlt : n < T.packets.length := (List.getElem?_eq_some_iff.mp hp).1
  have hsend : Sendable (T.check n p) p.1 (n % 64) p.2 := T.sendable n p hp
  have htakes := T.takes n p hp
  have htyp := htakes.typ
  have hroom : k.Room 0 (T.frame n).length := by
    refine ⟨h.free,?_⟩
    rw [h.room,Nat.zero_add]
    exact hc.fits n
  have hn : 4 ≤ (T.frame n).length := by
    rw [frame_eq hp]
    exact hsend.frame_length
  let k₁ := (k.placed 0 (T.frame n)).sized 0 (T.frame n).length
  have hset : k.Settled k₁ := (k.placed_settled 0 _).trans (KData.setInfo_settled _ 0 _)
  have hbuf : k₁.ipktbuf.drop 0 = body (T.check n p) p.1 (n % 64) p.2 ++
      blockCheck (T.check n p) (body (T.check n p) p.1 (n % 64) p.2) ++
        k.ipktbuf.drop (0 + (T.frame n).length) := by
    rw [← hsend.frame_eq,← frame_eq hp]
    exact KData.placed_drop hroom
  have hcheck := blockCheck_length hsend.bct_pos hsend.bct_le
    (body (T.check n p) p.1 (n % 64) p.2)
  have hb : checkType k₁.bct p.1 = T.check n p := by
    rw [show k₁.bct = (T.session n).bct from
      congrArg Session.bct (hset.session.trans h.session)]
    rfl
  have hgood : goodCheck (blockCheck (T.check n p) (body (T.check n p) p.1 (n % 64) p.2))
      (body (T.check n p) p.1 (n % 64) p.2) = true := by
    rw [goodCheck_frame hsend.bct_pos hsend.bct_le]
    intro htwo
    rw [htwo]
    exact hc.sum n p hp htwo
  have hparse := parse_packet hsend hb hbuf hcheck htyp.2.2.1 fun ht => absurd ht htyp.2.1
  obtain ⟨tail,hdata⟩ := got_data (k := k₁) hbuf hcheck hsend.bct_pos
  rw [if_pos hgood] at hparse
  let k₂ := k₁.got 0 (T.check n p) (n % 64) p.1 p.2
  have hgot : k.Settled k₂ := hset.trans (KData.parse_settled hparse)
  have hseq : n % 64 = k₂.r_seq := by
    rw [← T.r_seq hlt.le,← h.session]
    exact hgot.r_seq.symm
  let k₃ := k₂.setInfo 0 fun i => { i with rtr := 0 }
  have hset₃ : k.Settled k₃ := hgot.trans (k₂.setInfo_settled 0 _)
  have hsess : k₃.session = T.session n := hset₃.session.trans h.session
  have hobuf : k₃.state ≠ .data → k₃.obuf = [] := by
    intro hstate
    exact hset₃.obuf.trans (h.obuf (hset₃.state ▸ hstate))
  have hattr : p.1 = 0x41 → KData.Readable p.2 := fun ht => hc.readable n p.2 (by rw [hp,← ht])
  obtain ⟨⟨st,k'⟩,htrans,hslots⟩ := KData.transition_ok (k := k₃) htakes hsess hdata hattr 0
  obtain ⟨htaken,rfl⟩ := KData.transition_takes htakes hsess hobuf hdata htrans
  obtain ⟨hipkt,hinfo⟩ := Prod.mk.inj hslots
  obtain ⟨a,hack,hsent,-⟩ := htaken.sent
  rw [hset₃.sent] at hsent
  refine ⟨k',?_,htaken.session,htaken.obuf,?_,?_,?_,?_⟩
  · rw [KData.receive,KData.place_eq hroom (by omega),ok_bind]
    dsimp only
    rw [KData.kermit_good hn hparse,KData.checked,if_neg htyp.2.1,if_pos hseq]
    exact htrans
  · rw [hinfo]
    apply free_first
    intro hnil
    have hlen := congrArg List.length hnil
    have hslot := hroom.slot_lt
    simp only [k₃,k₂,k₁,KData.setInfo,KData.got,KData.ended,KData.noted,KData.sized,KData.placed,
      List.length_modify,List.length_nil] at hlen
    omega
  · rw [hipkt,← h.room]
    have hfits := hroom.fits
    simp only [KData.freerslot,k₃,k₂,k₁,KData.setInfo,KData.got,KData.ended,KData.noted,
      KData.sized,KData.placed,List.length_set,List.length_append,List.length_take,List.length_drop]
    omega
  · rw [hsent,List.length_append,h.sent_length]
    rfl
  · intro i b hb
    rw [hsent] at hb
    obtain hi | hi := Nat.lt_or_ge i k.sent.length
    · rw [List.getElem?_append_left hi] at hb
      exact h.sent i b hb
    · rw [List.getElem?_append_right hi,List.getElem?_singleton] at hb
      split at hb
      · rename_i hz
        obtain rfl := Option.some.inj hb
        have hin : i = n := by
          rw [← h.sent_length]
          omega
        rw [hin,hseq]
        exact hack
      · simp at hb

theorem Ready.written (h : T.Ready size T.packets.length k) : k.written = T.file := by
  have hstate : k.state = .file :=
    (congrArg Session.state h.session).trans T.last_state
  have hobuf := h.obuf (by
    rw [hstate]
    decide)
  have hload := congrArg Session.loaded h.session
  rw [KData.session,hobuf] at hload
  rwa [List.append_nil] at hload

-- A round of the loop takes the packet that is sent next, and the B packet ends the loop.
theorem Ready.round (h : T.Ready size n k) (hc : T.Clean gaps size) (hp : T.packets[n]? = some p)
    (fuel : Nat) (rest : List UInt8) : ∃ k', T.Ready size (n + 1) k' ∧
      KData.receiveLoop (fuel + 1) k (T.sent gaps n ++ rest) =
        if p.1 = 0x42 then .ok (.loaded k') else KData.receiveLoop fuel k' rest := by
  obtain ⟨k',hrec,hready⟩ := h.receive hc hp
  have hread := KData.readpkt_packet (hc.between k n) (hc.frame_printed hp) (hc.short n)
    (.inl rfl : CR = CR ∨ CR = LF) rest
  refine ⟨k',hready,?_⟩
  rw [KData.receiveLoop,Transfer.sent,hread]
  dsimp only
  rw [hrec,ok_bind]
  by_cases ht : p.1 = 0x42
  · rw [if_pos ht,if_pos ht]
  · rw [if_neg ht,if_neg ht]

theorem Ready.loads (hc : T.Clean gaps size) (rest : List UInt8) (m fuel : Nat)
    (h : T.Ready size n k) (hm : n + m + 1 = T.packets.length) (hfuel : m < fuel) :
    ∃ k', KData.receiveLoop fuel k (T.stream gaps n (m + 1) ++ rest) = .ok (.loaded k') ∧
      T.Ready size T.packets.length k' := by
  induction m generalizing n k fuel with
  | zero =>
    obtain ⟨p,hp⟩ := T.packet_of_lt (by omega : n < T.packets.length)
    obtain ⟨fuel,rfl⟩ := Nat.exists_eq_succ_of_ne_zero hfuel.ne'
    obtain ⟨k',hready,hround⟩ := h.round hc hp fuel (T.stream gaps (n + 1) 0 ++ rest)
    rw [if_pos ((T.ends n p hp).mpr hm)] at hround
    rw [stream_succ,List.append_assoc,← hm]
    exact ⟨k',hround,hready⟩
  | succ m ih =>
    obtain ⟨p,hp⟩ := T.packet_of_lt (by omega : n < T.packets.length)
    obtain ⟨fuel,rfl⟩ := Nat.exists_eq_succ_of_ne_zero (by omega : fuel ≠ 0)
    obtain ⟨k₁,hready,hround⟩ := h.round hc hp fuel (T.stream gaps (n + 1) (m + 1) ++ rest)
    have hmore : ¬ p.1 = 0x42 := by
      rw [T.ends n p hp]
      omega
    rw [if_neg hmore] at hround
    obtain ⟨k',hloop,hdone⟩ := ih fuel hready (by omega) (by omega)
    rw [stream_succ,List.append_assoc]
    exact ⟨k',hround.trans hloop,hdone⟩

theorem ready_init (T : Transfer) {ipktbuf : List UInt8} {ipktinfo : List Packet}
    (hinfo : ipktinfo ≠ []) : T.Ready ipktbuf.length 0 (.init ipktbuf ipktinfo) where
  session := T.starts.symm
  obuf := fun _ => rfl
  free := by
    obtain ⟨i,rest,rfl⟩ := List.exists_cons_of_ne_nil hinfo
    rfl
  room := rfl
  sent_length := rfl
  sent := by simp [KData.init]

theorem stream_length (T : Transfer) (gaps : Nat → List UInt8) (n m : Nat) :
    m ≤ (T.stream gaps n m).length := by
  induction m generalizing n with
  | zero => exact Nat.zero_le _
  | succ m ih =>
    have hlen := ih (n + 1)
    rw [stream_succ,List.length_append,sent]
    simp only [List.length_append,List.length_singleton]
    omega

theorem receive_kernel_ready (hc : T.Clean gaps size) {ipktbuf : List UInt8}
    {ipktinfo : List Packet} (hinfo : ipktinfo ≠ []) (hsize : ipktbuf.length = size)
    (rest : List UInt8) : ∃ k, receive_kernel ipktbuf ipktinfo
        (T.stream gaps 0 T.packets.length ++ rest) = .ok (.loaded k) ∧
      T.Ready size T.packets.length k := by
  subst hsize
  obtain ⟨m,hm⟩ := Nat.exists_eq_succ_of_ne_zero fun h => T.nonempty (List.length_eq_zero_iff.mp h)
  have hlen := T.stream_length gaps 0 T.packets.length
  obtain ⟨k,hloop,hready⟩ := (T.ready_init hinfo).loads hc rest m
    ((T.stream gaps 0 T.packets.length ++ rest).length + 1) (by omega) (by
      rw [List.length_append]
      omega)
  rw [receive_kernel]
  nth_rewrite 2 [hm]
  exact ⟨k,hloop,hready⟩

theorem hello_clean : hello.Clean (fun _ => [LF]) 100 where
  gap := fun _ => List.forall_mem_singleton.mpr (by decide)
  short := by
    intro i
    match i with
    | 0 | 1 | 2 | 3 | 4 => decide
    | n + 5 => exact Nat.zero_le _
  fits := by
    intro i
    match i with
    | 0 | 1 | 2 | 3 | 4 => decide
    | n + 5 => exact Nat.zero_le _
  printed := by
    intro i p hp
    match i with
    | 0 | 1 | 2 | 3 | 4 =>
      obtain rfl := Option.some.inj hp
      exact .of_all rfl
    | n + 5 => exact absurd hp (by simp [hello])
  sum := by
    intro i p hp htwo
    match i with
    | 0 | 1 | 2 | 3 | 4 =>
      obtain rfl := Option.some.inj hp
      exact absurd htwo (by decide)
    | n + 5 => exact absurd hp (by simp [hello])
  readable := by
    intro i d hp
    match i with
    | 0 | 1 | 2 | 3 | 4 => exact absurd hp (by simp [hello])
    | n + 5 => exact absurd hp (by simp [hello])

end Transfer
end Kermit
end RoscoM68k
