import RoscoM68k.Firmware.KermitAttributes
import RoscoM68k.Firmware.KermitFields

namespace RoscoM68k
namespace Kermit
namespace Session

-- A session that goes on with one packet after the other.
inductive Path : Session → List (UInt8 × List UInt8) → Session → Prop
  | nil (s : Session) : Path s [] s
  | cons {s s' s'' : Session} {p : UInt8 × List UInt8} {ps : List (UInt8 × List UInt8)}
      (h : s.Takes p.1 p.2 s') (hs : Path s' ps s'') : Path s (p :: ps) s''

namespace Path

variable {s s' s'' : Session} {ps qs : List (UInt8 × List UInt8)} {t : UInt8} {d : List UInt8}

theorem append (h : Path s ps s') (h' : Path s' qs s'') : Path s (ps ++ qs) s'' := by
  induction h with
  | nil s => exact h'
  | cons ht _ ih => exact .cons ht (ih h')

theorem one (h : s.Takes t d s') : Path s [(t,d)] s' := .cons h (.nil s')

theorem bct_eq (h : Path s ps s') (hs : s.state ≠ .wait) : s'.bct = s.bct := by
  induction h with
  | nil s => rfl
  | cons ht _ ih => exact (ih ht.next.2.1).trans (ht.next.2.2.1 hs)

-- The session before each of the packets. Their checks are of the type that is agreed on.
theorem sessions (h : Path s ps s') : ∃ f : Nat → Session, f 0 = s ∧ f ps.length = s' ∧
    ∀ (i : Nat) (p : UInt8 × List UInt8), ps[i]? = some p → (f i).Takes p.1 p.2 (f (i + 1)) ∧
      checkType (f i).bct p.1 = checkType s'.bct p.1 := by
  induction h with
  | nil s => exact ⟨fun _ => s,rfl,rfl,by simp⟩
  | @cons s s₁ s' p ps ht hs ih =>
    obtain ⟨f,hfirst,hlast,hall⟩ := ih
    refine ⟨fun n => n.casesOn s f,rfl,hlast,fun i q hq => ?_⟩
    cases i with
    | zero =>
      obtain rfl := Option.some.inj hq
      rw [← hfirst] at ht
      refine ⟨ht,?_⟩
      rw [hfirst] at ht
      rw [checkType,checkType]
      split
      · rfl
      · rename_i hn
        have hstate : s.state ≠ .wait := fun hw => hn (ht.typ.2.2.2.mpr hw)
        exact ((hs.bct_eq ht.next.2.1).trans (ht.next.2.2.1 hstate)).symm
    | succ i => exact hall i q hq

-- A session in which attributes are told.
theorem attributes (hs : s.state = .attr) (attrs : List (List UInt8)) :
    ∃ r, Path s (attrs.map (Prod.mk 0x41)) { s with r_seq := r } := by
  induction attrs generalizing s with
  | nil => exact ⟨s.r_seq,.nil s⟩
  | cons d attrs ih =>
    obtain ⟨r,hpath⟩ := ih (s := { s with r_seq := (s.r_seq + 1) % 64 }) hs
    exact ⟨r,.cons (.attributes d hs) hpath⟩

theorem data_more {x : Prefixes} {fields outs : List (List UInt8)} (hs : s.state = .data)
    (hx : s.prefixes = x) (h : List.Forall₂ (Decodes x) fields outs) :
    ∃ r, Path s (fields.map (Prod.mk 0x44))
      { s with
        state := .data
        loaded := s.loaded ++ outs.flatten
        r_seq := r } := by
  induction h generalizing s with
  | nil =>
    refine ⟨s.r_seq,?_⟩
    rw [List.flatten_nil,List.append_nil,← hs]
    exact .nil s
  | @cons d out fields outs hd hall ih =>
    obtain ⟨r,hpath⟩ := ih (s := { s with
      state := .data
      loaded := s.loaded ++ out
      r_seq := (s.r_seq + 1) % 64 }) rfl hx
    refine ⟨r,.cons (.data d out (.inr hs) (hx ▸ hd)) ?_⟩
    rw [List.flatten_cons,← List.append_assoc]
    exact hpath

-- The data of a file, which has some.
theorem data_all {fields outs : List (List UInt8)} (hs : s.state = .attr) (hne : fields ≠ [])
    (h : List.Forall₂ (Decodes s.prefixes) fields outs) : ∃ r, Path s (fields.map (Prod.mk 0x44))
      { s with
        state := .data
        loaded := s.loaded ++ outs.flatten
        r_seq := r } := by
  cases h with
  | nil => exact absurd rfl hne
  | @cons d out fields outs hd hall =>
    obtain ⟨r,hpath⟩ := data_more (s := { s with
      state := .data
      loaded := s.loaded ++ out
      r_seq := (s.r_seq + 1) % 64 }) rfl rfl hall
    refine ⟨r,.cons (.data d out (.inl hs) hd) ?_⟩
    rw [List.flatten_cons,← List.append_assoc]
    exact hpath

end Path
end Session

-- The packets of one file.
def filePackets (params name : List UInt8) (attrs fields : List (List UInt8)) :
    List (UInt8 × List UInt8) :=
  [(0x53,params),(0x46,name)] ++ (attrs.map (Prod.mk 0x41) ++ (fields.map (Prod.mk 0x44) ++
    [(0x5a,[]),(0x42,[])]))

section Files

variable {params name out : List UInt8} {attrs fields outs : List (List UInt8)}

theorem agreed_keeps (params : List UInt8) : (Session.start.agreed params).loaded = [] :=
  Session.fields_keep Session.loaded params (fun _ _ => rfl) fun _ _ => rfl

theorem agreed_bct (params : List UInt8) :
    1 ≤ (Session.start.agreed params).bct ∧ (Session.start.agreed params).bct ≤ 3 := by
  have hkept := Session.field_keeps Session.bct (f := Session.setRptq) (fun _ _ => rfl)
    (((Session.start.field params 6 Session.setCtlq).field params 7 Session.setEbq).field params 8
      Session.setBct) params 9
  have hfirst : ((Session.start.field params 6 Session.setCtlq).field params 7
      Session.setEbq).bct = 3 := by
    rw [Session.field_keeps Session.bct (f := Session.setEbq) fun _ _ => rfl,
      Session.field_keeps Session.bct (f := Session.setCtlq) fun _ _ => rfl]
    rfl
  rw [Session.agreed,Session.setPrefixes]
  dsimp only
  rw [hkept,Session.field]
  split
  · rw [Session.setBct]
    dsimp only
    split
    · omega
    · omega
  · rw [hfirst]
    decide

theorem file_path (hname : Decodes (Session.start.agreed params).prefixes name out)
    (hlen : out.length < FN_MAX) (hne : fields ≠ [])
    (hdata : List.Forall₂ (Decodes (Session.start.agreed params).prefixes) fields outs)
    (attrs : List (List UInt8)) : ∃ s, Session.start.Path (filePackets params name attrs fields) s ∧
      s.bct = (Session.start.agreed params).bct ∧ s.loaded = outs.flatten := by
  have hparams : Session.start.Takes 0x53 params _ := .params params rfl rfl
  have hopen := Session.Takes.name (s := { Session.start.agreed params with
    state := .file
    r_seq := 1 }) name out rfl hname hlen
  obtain ⟨r₁,hattr⟩ := Session.Path.attributes (s := { Session.start.agreed params with
    state := .attr
    r_seq := 2 }) rfl attrs
  obtain ⟨r₂,hall⟩ := Session.Path.data_all (s := { Session.start.agreed params with
    state := .attr
    r_seq := r₁ }) rfl hne hdata
  have heof := Session.Takes.eof (s := { Session.start.agreed params with
    state := .data
    loaded := (Session.start.agreed params).loaded ++ outs.flatten
    r_seq := r₂ }) [] rfl
  have heot := Session.Takes.eot (s := { Session.start.agreed params with
    state := .file
    loaded := (Session.start.agreed params).loaded ++ outs.flatten
    r_seq := (r₂ + 1) % 64 }) [] rfl
  refine ⟨_,(Session.Path.cons hparams (.one hopen)).append (hattr.append (hall.append
    (.cons heof (.one heot)))),rfl,?_⟩
  dsimp only
  rw [agreed_keeps,List.nil_append]

-- Packets that follow each other in a session, each short enough, are a transfer.
theorem Session.Path.transfer {ps : List (UInt8 × List UInt8)} {s : Session}
    (h : Session.start.Path ps s) (hne : ps ≠ []) (hb : 1 ≤ s.bct ∧ s.bct ≤ 3)
    (hfits : ∀ p ∈ ps, Printed p.2 ∧ p.2.length < 9000 ∧ (p.1 = 0x53 → p.2.length + 3 ≤ 94))
    (hends : ∀ (i : Nat) (p : UInt8 × List UInt8), ps[i]? = some p →
      (p.1 = 0x42 ↔ i + 1 = ps.length)) :
    ∃ T : Transfer, T.packets = ps ∧ T.file = s.loaded ∧
      ∀ (i : Nat) (p : UInt8 × List UInt8), ps[i]? = some p →
        T.check i p = checkType s.bct p.1 := by
  obtain ⟨f,hfirst,hlast,hall⟩ := h.sessions
  have hsend (i : Nat) (p : UInt8 × List UInt8) (hp : ps[i]? = some p) :
      Sendable (checkType (f i).bct p.1) p.1 (i % 64) p.2 := by
    obtain ⟨ht,hcheck⟩ := hall i p hp
    obtain ⟨hprint,hlen,hshort⟩ := hfits p (List.mem_of_getElem? hp)
    have hbound : 1 ≤ checkType s.bct p.1 ∧ checkType s.bct p.1 ≤ 3 := by
      rw [checkType]
      split
      · decide
      · exact hb
    rw [hcheck]
    refine ⟨hbound.1,hbound.2,by omega,ht.typ.1,by omega,fun hs => ⟨?_,hshort hs⟩,hprint.no_nul⟩
    rw [checkType,if_pos hs]
  refine ⟨⟨ps,f,hne,hfirst,fun i p hp => (hall i p hp).1,hsend,hends⟩,rfl,?_,?_⟩
  · exact congrArg Session.loaded hlast
  · exact fun i p hp => (hall i p hp).2

-- Packets as they are sent one after the other, with a check of type `b`.
def wire (b : Nat) (packets : List (UInt8 × List UInt8)) : List UInt8 :=
  packets.zipIdx.flatMap fun p =>
    [SOH] ++ frame (checkType b p.1.1) p.1.1 (p.2 % 64) p.1.2 ++ [CR]

theorem Transfer.stream_eq (T : Transfer) {b : Nat}
    (hcheck : ∀ (i : Nat) (p : UInt8 × List UInt8), T.packets[i]? = some p →
      T.check i p = checkType b p.1) :
    T.stream (fun _ => []) 0 T.packets.length = wire b T.packets := by
  have hfrom (ps : List (UInt8 × List UInt8)) (i : Nat)
      (hps : ∀ (j : Nat) (p : UInt8 × List UInt8), ps[j]? = some p → T.packets[i + j]? = some p) :
      T.stream (fun _ => []) i ps.length = (ps.zipIdx i).flatMap fun p =>
        [SOH] ++ Kermit.frame (checkType b p.1.1) p.1.1 (p.2 % 64) p.1.2 ++ [CR] := by
    induction ps generalizing i with
    | nil => rfl
    | cons p ps ih =>
      have hp : T.packets[i]? = some p := hps 0 p rfl
      have hrest := ih (i + 1) fun j q hq => by
        rw [Nat.add_assoc,Nat.add_comm 1]
        exact hps (j + 1) q hq
      rw [List.length_cons,stream_succ,hrest,List.zipIdx_cons,List.flatMap_cons,sent,
        Transfer.frame_eq hp,hcheck i p hp]
      rfl
  exact hfrom T.packets 0 fun j p hp => by rwa [Nat.zero_add]

theorem filePackets_forall {P : UInt8 × List UInt8 → Prop} (hparams : P (0x53,params))
    (hname : P (0x46,name)) (hattrs : ∀ d ∈ attrs, P (0x41,d)) (hfields : ∀ d ∈ fields, P (0x44,d))
    (heof : P (0x5a,[])) (heot : P (0x42,[])) :
    ∀ p ∈ filePackets params name attrs fields, P p := by
  intro p hp
  simp only [filePackets,List.mem_append,List.mem_cons,List.not_mem_nil,or_false,List.mem_map] at hp
  obtain (rfl | rfl) | ⟨d,hd,rfl⟩ | ⟨d,hd,rfl⟩ | rfl | rfl := hp
  · exact hparams
  · exact hname
  · exact hattrs d hd
  · exact hfields d hd
  · exact heof
  · exact heot

-- The B packet is the last one, and the only one.
theorem filePackets_ends (i : Nat) (p : UInt8 × List UInt8)
    (hp : (filePackets params name attrs fields)[i]? = some p) :
    p.1 = 0x42 ↔ i + 1 = (filePackets params name attrs fields).length := by
  have hsplit : filePackets params name attrs fields = [(0x53,params),(0x46,name)] ++
      attrs.map (Prod.mk 0x41) ++ fields.map (Prod.mk 0x44) ++ [(0x5a,[])] ++ [(0x42,[])] := by
    simp only [filePackets,List.append_assoc,List.cons_append,List.nil_append]
  have hfront : ∀ q ∈ [(0x53,params),(0x46,name)] ++ attrs.map (Prod.mk 0x41) ++
      fields.map (Prod.mk 0x44) ++ [((0x5a : UInt8),([] : List UInt8))], q.1 ≠ 0x42 := by
    intro q hq
    simp only [List.mem_append,List.mem_cons,List.not_mem_nil,or_false,List.mem_map] at hq
    obtain (((rfl | rfl) | ⟨d,hd,rfl⟩) | ⟨d,hd,rfl⟩) | rfl := hq
    · exact (by decide : (0x53 : UInt8) ≠ 0x42)
    · exact (by decide : (0x46 : UInt8) ≠ 0x42)
    · exact (by decide : (0x41 : UInt8) ≠ 0x42)
    · exact (by decide : (0x44 : UInt8) ≠ 0x42)
    · exact (by decide : (0x5a : UInt8) ≠ 0x42)
  rw [hsplit] at hp ⊢
  generalize [(0x53,params),(0x46,name)] ++ attrs.map (Prod.mk 0x41) ++
      fields.map (Prod.mk 0x44) ++ [((0x5a : UInt8),([] : List UInt8))] = front at hp hfront ⊢
  rw [List.length_append,List.length_singleton]
  obtain hi | hi := Nat.lt_or_ge i front.length
  · rw [List.getElem?_append_left hi] at hp
    exact iff_of_false (hfront p (List.mem_of_getElem? hp)) (by omega)
  · rw [List.getElem?_append_right hi,List.getElem?_singleton] at hp
    split at hp
    · rename_i hz
      obtain rfl := Option.some.inj hp
      exact iff_of_true rfl (by omega)
    · simp at hp

end Files
end Kermit
end RoscoM68k
