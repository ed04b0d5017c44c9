import RoscoM68k.Firmware.KermitSession
namespace RoscoM68k
namespace Kermit

namespace Session

section Parameters

def field (s : Session) (d : List UInt8) (n : Nat) (set : Session → UInt8 → Session) : Session :=
  match d[n - 1]? with
  | some b => set s b
  | none => s

def setPrefixes (s : Session) (f : Prefixes → Prefixes) : Session :=
  { s with prefixes := f s.prefixes }

def setCtlq (s : Session) (b : UInt8) : Session := s.setPrefixes fun x => { x with r_ctlq := b }

def setEbq (s : Session) (b : UInt8) : Session :=
  s.setPrefixes fun x =>
    if prefixable b then { x with
      ebq := b
      parity := if x.parity = 0 then 1 else x.parity }
    else if b = 0x59 ∧ x.parity ≠ 0 then { x with ebq := 0x26 }
    else { x with ebq := b }

def setBct (s : Session) (b : UInt8) : Session :=
  let bct : Int := (b.toNat : Int) - 0x30
  { s with bct := if bct < 1 ∨ 3 < bct then 1 else bct.toNat }

def setRptq (s : Session) (b : UInt8) : Session :=
  s.setPrefixes fun x => if prefixable b then { x with
    rptq := b
    rptflg := true } else x

-- What has been agreed on when the parameters of the sender have been answered.
def agreed (s : Session) (d : List UInt8) : Session :=
  ((((s.field d 6 setCtlq).field d 7 setEbq).field d 8 setBct).field d 9 setRptq).setPrefixes
    fun x => if x.ebq = 0x59 ∧ x.parity ≠ 0 then { x with ebq := 0x26 } else x

end Parameters

theorem field_keeps {α : Type} (proj : Session → α) {f : Session → UInt8 → Session}
    (hf : ∀ s b, proj (f s b) = proj s) (s : Session) (d : List UInt8) (n : Nat) :
    proj (s.field d n f) = proj s := by
  rw [field]
  split
  · exact hf _ _
  · rfl

-- Parameters are prefixes and the type of the checks.
theorem fields_keep {α : Type} (proj : Session → α) {s : Session} (d : List UInt8)
    (hx : ∀ (s : Session) f, proj (s.setPrefixes f) = proj s)
    (hb : ∀ s b, proj (setBct s b) = proj s) :
    proj ((((s.field d 6 setCtlq).field d 7 setEbq).field d 8 setBct).field d 9 setRptq) =
      proj s := by
  rw [field_keeps proj (f := setRptq) fun s b => hx s _,field_keeps proj hb,
    field_keeps proj (f := setEbq) fun s b => hx s _,
    field_keeps proj (f := setCtlq) fun s b => hx s _]

-- How a session goes on with the packet that it waits for.
inductive Takes (s : Session) : UInt8 → List UInt8 → Session → Prop
  | params (d : List UInt8) (hs : s.state = .wait) (hr : s.r_seq = 0) :
      Takes s 0x53 d { s.agreed d with
        state := .file
        r_seq := 1 }
  | name (d name : List UInt8) (hs : s.state = .file) (hd : Decodes s.prefixes d name)
      (hn : name.length < FN_MAX) : Takes s 0x46 d { s with
        state := .attr
        r_seq := (s.r_seq + 1) % 64 }
  | attributes (d : List UInt8) (hs : s.state = .attr) : Takes s 0x41 d { s with
        r_seq := (s.r_seq + 1) % 64 }
  | data (d out : List UInt8) (hs : s.state = .attr ∨ s.state = .data)
      (hd : Decodes s.prefixes d out) : Takes s 0x44 d { s with
        state := .data
        loaded := s.loaded ++ out
        r_seq := (s.r_seq + 1) % 64 }
  | eof (d : List UInt8) (hs : s.state = .data) : Takes s 0x5a d { s with
        state := .file
        r_seq := (s.r_seq + 1) % 64 }
  | eot (d : List UInt8) (hs : s.state = .file) : Takes s 0x42 d { s with
        r_seq := (s.r_seq + 1) % 64 }

namespace Takes

variable {s s' : Session} {t : UInt8} {d : List UInt8}

theorem typ (h : s.Takes t d s') :
    t ≠ 0 ∧ t ≠ 0x45 ∧ ¬ (t = 0x4e ∨ t = 0x59) ∧ (t = 0x53 ↔ s.state = .wait) := by
  cases h with
  | params d hs hr => exact ⟨by decide,by decide,by decide,iff_of_true rfl hs⟩
  | name d name hs hd hn =>
    rw [hs]
    decide
  | attributes d hs =>
    rw [hs]
    decide
  | data d out hs hd =>
    obtain hs | hs := hs
    · rw [hs]
      decide
    · rw [hs]
      decide
  | eof d hs =>
    rw [hs]
    decide
  | eot d hs =>
    rw [hs]
    decide

theorem typ_printed (h : s.Takes t d s') : ¬ t &&& 127 < 32 := by
  cases h with
  | params d hs hr => decide
  | name d name hs hd hn => decide
  | attributes d hs => decide
  | data d out hs hd => decide
  | eof d hs => decide
  | eot d hs => decide

theorem next (h : s.Takes t d s') : s'.r_seq = (s.r_seq + 1) % 64 ∧ s'.state ≠ .wait ∧
    (s.state ≠ .wait → s'.bct = s.bct) ∧ (t = 0x42 → s'.state = .file) := by
  cases h with
  | params d hs hr =>
    rw [hr]
    exact ⟨rfl,(by decide : RState.file ≠ .wait),fun hn => absurd hs hn,
      fun ht => absurd ht (by decide)⟩
  | name d name hs hd hn =>
    exact ⟨rfl,(by decide : RState.attr ≠ .wait),fun _ => rfl,fun ht => absurd ht (by decide)⟩
  | attributes d hs =>
    refine ⟨rfl,?_,fun _ => rfl,fun ht => absurd ht (by decide)⟩
    dsimp only
    rw [hs]
    decide
  | data d out hs hd =>
    exact ⟨rfl,(by decide : RState.data ≠ .wait),fun _ => rfl,fun ht => absurd ht (by decide)⟩
  | eof d hs =>
    exact ⟨rfl,(by decide : RState.file ≠ .wait),fun _ => rfl,fun ht => absurd ht (by decide)⟩
  | eot d hs =>
    refine ⟨rfl,?_,fun _ => rfl,fun _ => hs⟩
    dsimp only
    rw [hs]
    decide

theorem loaded_grows (h : s.Takes t d s') : s.loaded <+: s'.loaded := by
  cases h with
  | params d hs hr =>
    have hkeep : (s.agreed d).loaded = s.loaded :=
      fields_keep Session.loaded d (fun _ _ => rfl) fun _ _ => rfl
    rw [← hkeep]
  | name d name hs hd hn => exact List.prefix_refl _
  | attributes d hs => exact List.prefix_refl _
  | data d out hs hd => exact List.prefix_append _ _
  | eof d hs => exact List.prefix_refl _
  | eot d hs => exact List.prefix_refl _

end Takes
end Session

namespace KData

section Parameters

variable {k k' : KData} {d tail : List UInt8} {p n : Nat} {set : KData → UInt8 → KData}
  {g : Session → UInt8 → Session}

-- A change of parameters, which `g` is for the session.
structure Sets (set : KData → UInt8 → KData) (g : Session → UInt8 → Session) : Prop where
  session : ∀ k b, (set k b).session = g k.session b
  kept : ∀ k b, ((set k b).obuf,(set k b).sent,(set k b).opktbuf,(set k b).ipktbuf) =
    (k.obuf,k.sent,k.opktbuf,k.ipktbuf)

-- The parameters of `k₀` while they are being set, up to what the session is now.
structure Negotiating (k₀ k : KData) (s : Session) : Prop where
  session : k.session = s
  kept : (k.obuf,k.sent,k.opktbuf,k.ipktbuf) = (k₀.obuf,k₀.sent,k₀.opktbuf,k₀.ipktbuf)

theorem Negotiating.next {k₀ : KData} {s : Session} (hk : k₀.Negotiating k s) (hset : Sets set g)
    (hbuf : k₀.ipktbuf.drop p = d ++ tail)
    (h : k.sparField p d.length (n + 1 : Nat) set = .ok k') :
    k₀.Negotiating k' (s.field d (n + 1) g) := by
  have hkept := hk.kept
  simp only [Prod.mk.injEq] at hkept
  rw [← hkept.2.2.2] at hbuf
  rw [sparField] at h
  split at h
  · rename_i hle
    have hn : n < d.length := by omega
    have hcast : ((n + 1 : Nat) : Int) - 1 = (n : Nat) := by omega
    have hb : byteAt k.ipktbuf p (n : Nat) = .ok d[n] := byteAt_drop hbuf (by
      rw [List.getElem?_append_left hn,List.getElem?_eq_getElem hn])
    rw [hcast,hb,ok_bind] at h
    obtain rfl := Except.ok.inj h
    refine ⟨?_,(hset.kept k d[n]).trans hk.kept⟩
    rw [hset.session,hk.session,Session.field,Nat.add_sub_cancel,List.getElem?_eq_getElem hn]
  · rename_i hle
    have hn : d.length ≤ n := by omega
    obtain rfl := Except.ok.inj h
    refine ⟨?_,hk.kept⟩
    rw [hk.session,Session.field,Nat.add_sub_cancel,List.getElem?_eq_none hn]

theorem setCtlq_sets : Sets setCtlq Session.setCtlq where
  session := fun _ _ => rfl
  kept := fun _ _ => rfl

theorem setEbq_sets : Sets setEbq Session.setEbq where
  session := by
    intro k b
    have hp : k.session.prefixes.parity = k.parity := rfl
    rw [setEbq,Session.setEbq,Session.setPrefixes,hp]
    dsimp only
    split
    · rfl
    · split
      · rfl
      · rfl
  kept := by
    intro k b
    rw [setEbq]
    dsimp only
    split
    · rfl
    · split
      · rfl
      · rfl

theorem setBct_sets : Sets setBct Session.setBct where
  session := fun _ _ => rfl
  kept := fun _ _ => rfl

theorem setRptq_sets : Sets setRptq Session.setRptq where
  session := by
    intro k b
    rw [setRptq,Session.setRptq,Session.setPrefixes]
    split
    · rfl
    · rfl
  kept := by
    intro k b
    rw [setRptq]
    split
    · rfl
    · rfl

-- Changes of parameters that a session does not know.
theorem other_sets (set : KData → UInt8 → KData) (hs : ∀ k b, (set k b).session = k.session)
    (hk : ∀ k b, ((set k b).obuf,(set k b).sent,(set k b).opktbuf,(set k b).ipktbuf) =
      (k.obuf,k.sent,k.opktbuf,k.ipktbuf)) : Sets set fun s _ => s := ⟨hs,hk⟩

theorem field_other (s : Session) (d : List UInt8) (n : Nat) : s.field d n (fun s _ => s) = s := by
  rw [Session.field]
  split
  · rfl
  · rfl

theorem spar_negotiating (hbuf : k.ipktbuf.drop p = d ++ tail)
    (h : k.spar p d.length = .ok k') : k.Negotiating k'
      ((((k.session.field d 6 Session.setCtlq).field d 7 Session.setEbq).field d 8
        Session.setBct).field d 9 Session.setRptq) := by
  obtain ⟨k5,h5,h⟩ := bind_eq_ok.mp h
  obtain ⟨k6,h6,h⟩ := bind_eq_ok.mp h
  obtain ⟨k7,h7,h⟩ := bind_eq_ok.mp h
  obtain ⟨k8,h8,h⟩ := bind_eq_ok.mp h
  obtain ⟨k9,h9,h⟩ := bind_eq_ok.mp h
  obtain ⟨k10,h10,h⟩ := bind_eq_ok.mp h
  obtain ⟨y,-,h⟩ := bind_eq_ok.mp h
  have hn : k.Negotiating k k.session := ⟨rfl,rfl⟩
  have hn5 := hn.next (n := 4) (other_sets setEom (fun _ _ => rfl) fun _ _ => rfl) hbuf h5
  rw [field_other] at hn5
  have hn6 := hn5.next (n := 5) setCtlq_sets hbuf h6
  have hn7 := hn6.next (n := 6) setEbq_sets hbuf h7
  have hn8 := hn7.next (n := 7) setBct_sets hbuf h8
  have hn9 := hn8.next (n := 8) setRptq_sets hbuf h9
  have hn10 := hn9.next (n := 9) (other_sets setCapas (fun _ _ => rfl) fun _ _ => rfl) hbuf
    h10
  rw [field_other] at hn10
  split at h
  · obtain rfl := Except.ok.inj h
    exact hn10
  · have hw := hn10.next (n := y) (other_sets setWindow (fun _ _ => rfl) fun _ _ => rfl)
      hbuf h
    rwa [field_other] at hw

end Parameters

section Transitions

variable {k k' : KData} {d tail : List UInt8} {p slot : Nat} {t : UInt8} {st : Status}
  {s s' : Session}

-- The answer to a packet that is taken, and the state that it leaves.
structure Taken (k k' : KData) (s' : Session) : Prop where
  session : k'.session = s'
  obuf : k'.state ≠ .data → k'.obuf = []
  sent : ∃ a, IsAck k.r_seq a ∧ k'.sent = k.sent ++ [a] ∧ k'.opktbuf = a

theorem foldl_putObuf (k : KData) (out : List UInt8) :
    (out.foldl putObuf k).written ++ (out.foldl putObuf k).obuf = k.written ++ k.obuf ++ out ∧
      ((out.foldl putObuf k).state,(out.foldl putObuf k).r_seq,(out.foldl putObuf k).bct,
        (out.foldl putObuf k).prefixes,(out.foldl putObuf k).sent) =
        (k.state,k.r_seq,k.bct,k.prefixes,k.sent) := by
  induction out generalizing k with
  | nil => exact ⟨(List.append_nil _).symm,rfl⟩
  | cons a out ih =>
    have hput : (k.putObuf a).written ++ (k.putObuf a).obuf = k.written ++ k.obuf ++ [a] ∧
        ((k.putObuf a).state,(k.putObuf a).r_seq,(k.putObuf a).bct,(k.putObuf a).prefixes,
          (k.putObuf a).sent) = (k.state,k.r_seq,k.bct,k.prefixes,k.sent) := by
      rw [putObuf]
      split
      · exact ⟨by rw [List.append_nil,List.append_assoc],rfl⟩
      · exact ⟨by rw [List.append_assoc],rfl⟩
    rw [List.foldl_cons]
    obtain ⟨hload,hsame⟩ := ih (k.putObuf a)
    refine ⟨?_,hsame.trans hput.2⟩
    rw [hload,hput.1,List.append_assoc]
    rfl

theorem decode_session {out : List UInt8} (hbuf : k.ipktbuf.drop p = d ++ 0 :: tail)
    (hd : Decodes k.prefixes d out) (h : k.decode p = .ok k') :
    k'.session = { k.session with loaded := k.session.loaded ++ out } ∧ k'.sent = k.sent := by
  have hloop := hd.decodeLoop_eq (n := (d ++ 0 :: tail).length) (by simp) tail []
  rw [decode,hbuf] at h
  rw [hloop,ok_bind] at h
  obtain rfl := Except.ok.inj h
  obtain ⟨hload,hsame⟩ := k.foldl_putObuf ([] ++ out)
  simp only [Prod.mk.injEq] at hsame
  refine ⟨?_,hsame.2.2.2.2⟩
  rw [session,hload,hsame.1,hsame.2.1,hsame.2.2.1,hsame.2.2.2.1]
  rfl

theorem ack_taken {k₁ : KData} {seq : Nat} {text : List UInt8} {s₁ : Session}
    (hs : k₁.session = s₁) (hseq : seq = k.r_seq) (hsent : k₁.sent = k.sent)
    (h : k₁.ack seq text = .ok k') : k'.session = { s₁ with r_seq := (s₁.r_seq + 1) % 64 } ∧
      k'.obuf = k₁.obuf ∧ ∃ a, IsAck k.r_seq a ∧ k'.sent = k.sent ++ [a] ∧ k'.opktbuf = a := by
  obtain rfl := ack_eq_ok h
  rw [← hs]
  refine ⟨rfl,rfl,k₁.answer 0x59 seq text,?_,by rw [hsent],rfl⟩
  rw [← hseq]
  exact ⟨k₁.bct,text,k₁.s_eom,rfl⟩

theorem rpar_taken {k₁ : KData} {s₁ : Session} (hs : k₁.session = s₁) (hz : k.r_seq = 0)
    (hsent : k₁.sent = k.sent) (h : k₁.rpar = .ok k') :
    k'.session = { s₁.setPrefixes (fun x => if x.ebq = 0x59 ∧ x.parity ≠ 0 then
        { x with ebq := 0x26 } else x) with r_seq := (s₁.r_seq + 1) % 64 } ∧
      k'.obuf = k₁.obuf ∧ ∃ a, IsAck k.r_seq a ∧ k'.sent = k.sent ++ [a] ∧ k'.opktbuf = a := by
  rw [rpar] at h
  obtain ⟨k₂,hack,h⟩ := bind_eq_ok.mp h
  obtain rfl := Except.ok.inj h
  obtain rfl := ack_eq_ok hack
  rw [← hs,Session.setPrefixes,show k₁.session.prefixes = k₁.prefixes from rfl,prefixes]
  dsimp only
  split
  · refine ⟨rfl,rfl,_,?_,by rw [hsent],rfl⟩
    rw [hz]
    exact ⟨1,_,k₁.s_eom,rfl⟩
  · refine ⟨rfl,rfl,_,?_,by rw [hsent],rfl⟩
    rw [hz]
    exact ⟨1,_,k₁.s_eom,rfl⟩

theorem inWait_takes (hs : k.session = s) (hz : k.r_seq = 0) (hobuf : k.obuf = [])
    (hbuf : k.ipktbuf.drop p = d ++ tail) (h : k.inWait slot 0x53 p d.length = .ok (st,k')) :
    k.Taken k' { s.agreed d with
      state := .file
      r_seq := 1 } ∧ st = .ok := by
  rw [inWait,if_pos rfl] at h
  obtain ⟨k₁,hspar,h⟩ := bind_eq_ok.mp h
  obtain ⟨k₂,hrpar,h⟩ := bind_eq_ok.mp h
  obtain ⟨rfl,rfl⟩ := Prod.mk.inj (Except.ok.inj h)
  have hneg := spar_negotiating hbuf hspar
  have hkept := hneg.kept
  simp only [Prod.mk.injEq] at hkept
  obtain ⟨hsess,hob,hsent⟩ := rpar_taken (k := k) hneg.session hz hkept.2.1 hrpar
  have hseq : ((((k.session.field d 6 Session.setCtlq).field d 7 Session.setEbq).field d 8
      Session.setBct).field d 9 Session.setRptq).r_seq = 0 := by
    exact (Session.fields_keep Session.r_seq d (fun _ _ => rfl) fun _ _ => rfl).trans hz
  rw [hseq,hs] at hsess
  refine ⟨⟨?_,fun _ => hob.trans (hkept.1.trans hobuf),hsent⟩,rfl⟩
  exact congrArg (fun x : Session => { x with state := .file }) hsess

theorem inFile_takes (hs : k.session = s) (hobuf : k.obuf = [])
    (hbuf : k.ipktbuf.drop p = d ++ 0 :: tail) {name : List UInt8} (hd : Decodes k.prefixes d name)
    (h : k.inFile slot 0x46 p = .ok (st,k')) : k.Taken k' { s with
      state := .attr
      r_seq := (s.r_seq + 1) % 64 } ∧ st = .ok := by
  have hloop := hd.decodeLoop_eq (n := (d ++ 0 :: tail).length) (by simp) tail []
  rw [inFile,if_pos rfl] at h
  obtain ⟨k₁,hname,h⟩ := bind_eq_ok.mp h
  obtain ⟨k₂,hack,h⟩ := bind_eq_ok.mp h
  obtain ⟨rfl,rfl⟩ := Prod.mk.inj (Except.ok.inj h)
  rw [decodeFilename,hbuf] at hname
  rw [hloop,ok_bind] at hname
  split at hname
  · obtain rfl := Except.ok.inj hname
    have hk (x : Session) (hx : k.session = x) : ({ k with
        filename := [] ++ name
        state := .attr
        filedate := []
        filesize := 0
        sofar := 0 } : KData).session = { x with state := .attr } := by
      rw [← hx]
      rfl
    obtain ⟨hsess,hob,hsent⟩ := ack_taken (k := k) (hk s hs) rfl rfl hack
    exact ⟨⟨hsess,fun _ => hob.trans hobuf,hsent⟩,rfl⟩
  · simp at hname

theorem inFile_ends (hs : k.session = s) (hobuf : k.obuf = [])
    (h : k.inFile slot 0x42 p = .ok (st,k')) :
    k.Taken k' { s with r_seq := (s.r_seq + 1) % 64 } ∧ st = .done := by
  rw [inFile,if_neg (by decide),if_pos rfl] at h
  obtain ⟨k₁,hack,h⟩ := bind_eq_ok.mp h
  obtain ⟨rfl,rfl⟩ := Prod.mk.inj (Except.ok.inj h)
  have hfree := k.freerslot_settled slot
  obtain ⟨hsess,hob,hsent⟩ := ack_taken (k := k) (hfree.session.trans hs) rfl rfl hack
  exact ⟨⟨hsess,fun _ => hob.trans hobuf,hsent⟩,rfl⟩

theorem gattr_settled (h : k.gattr p = .ok k') : k.Settled k' := by
  obtain ⟨r,-,h⟩ := bind_eq_ok.mp h
  obtain rfl := Except.ok.inj h
  exact ⟨⟨rfl,rfl⟩,rfl,rfl⟩

theorem inAttr_attributes (hs : k.session = s) (hobuf : k.obuf = [])
    (h : k.inAttr slot 0x41 p = .ok (st,k')) :
    k.Taken k' { s with r_seq := (s.r_seq + 1) % 64 } ∧ st = .ok := by
  rw [inAttr,if_pos rfl] at h
  obtain ⟨k₁,hattr,h⟩ := bind_eq_ok.mp h
  obtain ⟨k₂,hack,h⟩ := bind_eq_ok.mp h
  obtain ⟨rfl,rfl⟩ := Prod.mk.inj (Except.ok.inj h)
  have hset := (gattr_settled hattr).trans (k₁.freerslot_settled slot)
  obtain ⟨hsess,hob,hsent⟩ := ack_taken (k := k) (hset.session.trans hs) hset.r_seq hset.sent hack
  exact ⟨⟨hsess,fun _ => hob.trans (hset.obuf.trans hobuf),hsent⟩,rfl⟩

-- The data of a packet and the answer to them, in either state.
theorem data_taken {k₀ k₁ : KData} {out : List UInt8} {s₁ : Session} (hs : k₀.session = s₁)
    (hseq : k₀.r_seq = k.r_seq) (hsent : k₀.sent = k.sent)
    (hbuf : k₀.ipktbuf.drop p = d ++ 0 :: tail) (hd : Decodes k₀.prefixes d out)
    (hdec : k₀.decode p = .ok k₁) (hack : (k₁.freerslot slot).ack k₁.r_seq [] = .ok k') :
    k'.session = { s₁ with
      loaded := s₁.loaded ++ out
      r_seq := (s₁.r_seq + 1) % 64 } ∧
      ∃ a, IsAck k.r_seq a ∧ k'.sent = k.sent ++ [a] ∧ k'.opktbuf = a := by
  obtain ⟨hsess,hsent₁⟩ := decode_session hbuf hd hdec
  rw [hs] at hsess
  have hfree := k₁.freerslot_settled slot
  have hr : k₁.r_seq = k.r_seq := by
    rw [← hseq]
    have hr₁ : k₁.session.r_seq = s₁.r_seq := by rw [hsess]
    have hr₀ : k₀.session.r_seq = s₁.r_seq := by rw [hs]
    exact hr₁.trans hr₀.symm
  obtain ⟨hdone,-,ha⟩ := ack_taken (k := k) (hfree.session.trans hsess) hr
    (hfree.sent.trans (hsent₁.trans hsent)) hack
  exact ⟨hdone,ha⟩

theorem inAttr_data (hs : k.session = s) (hobuf : k.obuf = [])
    (hbuf : k.ipktbuf.drop p = d ++ 0 :: tail) {out : List UInt8} (hd : Decodes k.prefixes d out)
    (h : k.inAttr slot 0x44 p = .ok (st,k')) : k.Taken k' { s with
      state := .data
      loaded := s.loaded ++ out
      r_seq := (s.r_seq + 1) % 64 } ∧ st = .ok := by
  rw [inAttr,if_neg (by decide),if_pos rfl] at h
  obtain ⟨k₁,hdec,h⟩ := bind_eq_ok.mp h
  obtain ⟨k₂,hack,h⟩ := bind_eq_ok.mp h
  obtain ⟨rfl,rfl⟩ := Prod.mk.inj (Except.ok.inj h)
  have hk : ({ k with
      obuf := []
      sofar := 0
      state := .data } : KData).session = { s with state := .data } := by
    rw [← hs,session,session,hobuf]
    rfl
  obtain ⟨hsess,hsent⟩ := data_taken (k := k) hk rfl rfl hbuf hd hdec hack
  refine ⟨⟨hsess,fun hne => absurd ?_ hne,hsent⟩,rfl⟩
  exact congrArg Session.state hsess

theorem inData_data (hs : k.session = s) (hbuf : k.ipktbuf.drop p = d ++ 0 :: tail)
    {out : List UInt8} (hd : Decodes k.prefixes d out) (hstate : k.state = .data)
    (h : k.inData slot 0x44 p = .ok (st,k')) : k.Taken k' { s with
      state := .data
      loaded := s.loaded ++ out
      r_seq := (s.r_seq + 1) % 64 } ∧ st = .ok := by
  rw [inData,if_pos rfl] at h
  obtain ⟨k₁,hdec,h⟩ := bind_eq_ok.mp h
  obtain ⟨k₂,hack,h⟩ := bind_eq_ok.mp h
  obtain ⟨rfl,rfl⟩ := Prod.mk.inj (Except.ok.inj h)
  have hk : k.session = { s with state := .data } := by
    rw [hs,← hstate,← hs]
    rfl
  obtain ⟨hsess,hsent⟩ := data_taken (k := k) hk rfl rfl hbuf hd hdec hack
  refine ⟨⟨hsess,fun hne => absurd ?_ hne,hsent⟩,rfl⟩
  exact congrArg Session.state hsess

theorem inData_ends (hs : k.session = s) (h : k.inData slot 0x5a p = .ok (st,k')) :
    k.Taken k' { s with
      state := .file
      r_seq := (s.r_seq + 1) % 64 } ∧ st = .ok := by
  rw [inData,if_neg (by decide),if_pos rfl] at h
  obtain ⟨k₂,hack,h⟩ := bind_eq_ok.mp h
  obtain ⟨rfl,rfl⟩ := Prod.mk.inj (Except.ok.inj h)
  have hk : (({ k.flush with state := .file } : KData).freerslot slot).session =
      { s with state := .file } := by
    rw [← hs]
    exact congrArg (fun l => (⟨.file,k.r_seq,k.bct,k.prefixes,l⟩ : Session))
      (List.append_nil (k.written ++ k.obuf))
  obtain ⟨hsess,hob,hsent⟩ := ack_taken (k := k) hk rfl rfl hack
  exact ⟨⟨hsess,fun _ => hob,hsent⟩,rfl⟩

-- The packet that is waited for.
theorem transition_takes (ht : s.Takes t d s') (hs : k.session = s)
    (hobuf : k.state ≠ .data → k.obuf = []) (hbuf : k.ipktbuf.drop p = d ++ 0 :: tail)
    (h : k.transition slot t p d.length = .ok (st,k')) :
    k.Taken k' s' ∧ st = if t = 0x42 then .done else .ok := by
  have hstate : k.state = s.state := congrArg Session.state hs
  have hpre : k.prefixes = s.prefixes := congrArg Session.prefixes hs
  have hseq : k.r_seq = s.r_seq := congrArg Session.r_seq hs
  rw [transition,hstate] at h
  rw [hstate] at hobuf
  cases ht with
  | params d hw hr =>
    rw [hw] at h hobuf
    exact inWait_takes hs (hseq.trans hr) (hobuf (by decide)) hbuf h
  | name d name hw hd hn =>
    rw [hw] at h hobuf
    exact inFile_takes hs (hobuf (by decide)) hbuf (hpre ▸ hd) h
  | attributes d hw =>
    rw [hw] at h hobuf
    exact inAttr_attributes hs (hobuf (by decide)) h
  | data d out hw hd =>
    obtain hw | hw := hw
    · rw [hw] at h hobuf
      exact inAttr_data hs (hobuf (by decide)) hbuf (hpre ▸ hd) h
    · rw [hw] at h
      exact inData_data hs hbuf (hpre ▸ hd) (hstate.trans hw) h
  | eof d hw =>
    rw [hw] at h
    exact inData_ends hs h
  | eot d hw =>
    rw [hw] at h hobuf
    exact inFile_ends hs (hobuf (by decide)) h

end Transitions
end KData
end Kermit
end RoscoM68k
