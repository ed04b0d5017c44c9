import RoscoM68k.Base.Window
import RoscoM68k.Firmware.KermitTransfers

namespace RoscoM68k
namespace Kermit

-- A packet on the line, or bytes that readpkt makes one of without there being any.
inductive Item where
  | packet (i : Nat)
  | noise (stored : List UInt8) (n : Nat)

def Item.number : Item → Option Nat
  | .packet i => some i
  | .noise _ _ => none

-- What readpkt stores and what it returns.
def Item.bytes (T : Transfer) : Item → List UInt8 × Nat
  | .packet i => (T.frame i,(T.frame i).length)
  | .noise stored n => (stored,n)

-- The receiver, a sender that has sent `base` packets and takes `acked` of them to have arrived,
-- and what is on the line between them.
structure Line where
  rx : KData
  status : Status
  base : Nat
  acked : Nat
  data : List Item
  answers : List (List UInt8)

namespace Line

def start (ipktbuf : List UInt8) (ipktinfo : List Packet) : Line where
  rx := .init ipktbuf ipktinfo
  status := .ok
  base := 0
  acked := 0
  data := []
  answers := []

-- The sender may send each packet of its window as often as it likes, and takes an ACK to be about
-- all packets up to the one with its number. Anything may be lost, and noise be added that no
-- check fits.
inductive Step (T : Transfer) (w : Nat) (l : Line) : Line → Prop
  | send (i : Nat) (hi : i < T.packets.length) (hlow : l.acked ≤ i) (hbase : i ≤ l.base)
      (hw : i < l.acked + w) (hopen : 0 < i → 0 < l.acked) : Step T w l { l with
        base := max l.base (i + 1)
        data := l.data ++ [.packet i] }
  | lose (xs ys : List Item) (d : Item) (h : l.data = xs ++ d :: ys) :
      Step T w l { l with data := xs ++ ys }
  | disturb (xs ys : List Item) (stored : List UInt8) (n : Nat) (h : l.data = xs ++ ys) :
      Step T w l { l with data := xs ++ .noise stored n :: ys }
  | arrive (d : Item) (rest : List Item) (rx : KData) (st : Status) (ans : List (List UInt8))
      (h : l.data = d :: rest) (hok : l.status = .ok)
      (hnoise : d.number = none → l.rx.Rejects (d.bytes T).1 (d.bytes T).2)
      (hrx : l.rx.receive (d.bytes T).1 (d.bytes T).2 = .ok (st,rx))
      (hans : rx.sent = l.rx.sent ++ ans) : Step T w l { l with
        rx := rx
        status := st
        data := rest
        answers := l.answers ++ ans }
  | loseAnswer (xs ys : List (List UInt8)) (a : List UInt8) (h : l.answers = xs ++ a :: ys) :
      Step T w l { l with answers := xs ++ ys }
  | hear (a : List UInt8) (rest : List (List UInt8)) (i acked : Nat) (h : l.answers = a :: rest)
      (ha : IsAck (i % 64) a) (hlow : l.acked ≤ i) (hbase : i < l.base) (hle : l.acked ≤ acked)
      (hle' : acked ≤ i + 1) : Step T w l { l with
        acked := acked
        answers := rest }
  | ignore (a : List UInt8) (rest : List (List UInt8)) (h : l.answers = a :: rest) :
      Step T w l { l with answers := rest }

-- What an answer says.
def Says : Option Nat → List UInt8 → Prop
  | some n, a => IsAck (n % 64) a
  | none, a => NoAck a

-- The line is one of packets with numbers modulo 64, of which `s.recv` have been taken.
structure Shows (T : Transfer) (l : Line) (s : Window.Net) : Prop where
  base : s.base = l.base
  acked : s.acked = l.acked
  data : s.data = l.data.map Item.number
  acks : List.Forall₂ Says s.acks l.answers
  recv_le : s.recv ≤ T.packets.length
  data_lt : ∀ i, some i ∈ s.data → i < T.packets.length
  loaded : l.rx.written ++ l.rx.obuf = (T.session s.recv).loaded
  session : l.status ≠ .error → l.rx.session = T.session s.recv
  obuf : l.status ≠ .error → l.rx.state ≠ .data → l.rx.obuf = []
  held : l.status ≠ .error → l.rx.opktbuf = [] ∨ ∃ o, Says o l.rx.opktbuf ∧
    ∀ n, o = some n → n + 1 = s.recv
  done : l.status = .done ↔ s.recv = T.packets.length

theorem answer_fields (bct : Nat) (typ : UInt8) (seq : Nat) (data : List UInt8) (eom : UInt8) :
    ∃ x rest, [SOH] ++ frame bct typ seq data ++ [eom] =
      SOH :: tochar x :: tochar seq :: typ :: rest := by
  obtain ⟨x,rest,hfields,-⟩ := header_fields bct typ seq data.length
  rw [frame,body,hfields]
  exact ⟨x,_,rfl⟩

theorem Says.number {n : Nat} {o : Option Nat} {a : List UInt8} (h : Says o a)
    (ha : IsAck (n % 64) a) : ∃ m, o = some m ∧ m % 64 = n % 64 := by
  obtain ⟨bct,text,eom,rfl⟩ := ha
  obtain ⟨x,rest,hfields⟩ := answer_fields bct 0x59 (n % 64) text eom
  rw [hfields] at h
  cases o with
  | none =>
    obtain ⟨bct',typ,seq,data,eom',htyp,ha⟩ := h
    obtain ⟨x',rest',hfields'⟩ := answer_fields bct' typ seq data eom'
    rw [hfields'] at ha
    simp only [List.cons.injEq] at ha
    exact absurd ha.2.2.2.1.symm htyp
  | some m =>
    obtain ⟨bct',text',eom',ha⟩ := h
    obtain ⟨x',rest',hfields'⟩ := answer_fields bct' 0x59 (m % 64) text' eom'
    rw [hfields'] at ha
    simp only [List.cons.injEq] at ha
    have hseq := congrArg xunchar ha.2.2.1
    rw [xunchar_tochar (by omega),xunchar_tochar (by omega)] at hseq
    exact ⟨m,rfl,hseq.symm⟩

theorem said_all {r : Nat} (ans : List (List UInt8))
    (h : ∀ a ∈ ans, ∃ o, Says o a ∧ ∀ n, o = some n → n + 1 = r) :
    ∃ os, List.Forall₂ Says os ans ∧ ∀ n, some n ∈ os → n + 1 = r := by
  induction ans with
  | nil => exact ⟨[],.nil,by simp⟩
  | cons a ans ih =>
    obtain ⟨o,ho,hn⟩ := h a List.mem_cons_self
    obtain ⟨os,hos,hns⟩ := ih fun b hb => h b (List.mem_cons_of_mem a hb)
    refine ⟨o :: os,.cons ho hos,fun n hmem => ?_⟩
    obtain heq | hmem := List.mem_cons.mp hmem
    · exact hn n heq.symm
    · exact hns n hmem

section Steps

variable {T : Transfer} {w : Nat} {l l' : Line} {s : Window.Net}

-- What is done about a packet that is not taken.
theorem Shows.skip {d : Item} {rest : List Item} {rx : KData} {st : Status}
    {ans : List (List UInt8)} (h : l.Shows T s) (hd : l.data = d :: rest) (hok : l.status = .ok)
    (hst : st ≠ .done)
    (hsent : ∃ ans, rx.sent = l.rx.sent ++ ans ∧ ∀ a ∈ ans, NoAck a ∨ a = l.rx.opktbuf ∧ a ≠ [])
    (hload : rx.written ++ rx.obuf = l.rx.written ++ l.rx.obuf)
    (hrx : st ≠ .error → l.rx.Ignores rx) (hans : rx.sent = l.rx.sent ++ ans) :
    ∃ s', Window.Step w 64 s s' ∧ Shows T { l with
      rx := rx
      status := st
      data := rest
      answers := l.answers ++ ans } s' := by
  have hne : l.status ≠ .error := by
    rw [hok]
    decide
  obtain ⟨ans',hsent,hall⟩ := hsent
  have hansEq : ans' = ans := List.append_cancel_left (hsent.symm.trans hans)
  subst hansEq
  obtain ⟨os,hos,hns⟩ := said_all (r := s.recv) ans' (by
    intro a ha
    obtain hno | ⟨rfl,hnil⟩ := hall a ha
    · exact ⟨none,hno,fun n hn => absurd hn.symm (Option.some_ne_none n)⟩
    · exact (h.held hne).resolve_left hnil)
  have hdata : s.data = d.number :: rest.map Item.number := by
    rw [h.data,hd,List.map_cons]
  refine ⟨_,.skip d.number (rest.map Item.number) os hdata hns,?_⟩
  constructor
  · exact h.base
  · exact h.acked
  · rfl
  · exact List.rel_append h.acks hos
  · exact h.recv_le
  · intro i hi
    apply h.data_lt i
    rw [hdata]
    exact List.mem_cons_of_mem _ hi
  · exact hload.trans h.loaded
  · exact fun hs => (hrx hs).session.trans (h.session hne)
  · intro hs hstate
    have hign := hrx hs
    exact hign.obuf.trans (h.obuf hne (hign.state ▸ hstate))
  · intro hs
    obtain heq | hno := (hrx hs).held
    · dsimp only
      rw [heq]
      exact h.held hne
    · exact .inr ⟨none,hno,fun n hn => absurd hn.symm (Option.some_ne_none n)⟩
  · refine iff_of_false hst fun hr => ?_
    have hdone := h.done.mpr hr
    rw [hok] at hdone
    exact absurd hdone (by decide)

-- What is done about the packet that is waited for.
theorem Shows.take {rest : List Item} {rx : KData} {st : Status} {ans : List (List UInt8)}
    {p : UInt8 × List UInt8} {k : KData} (h : l.Shows T s) (hd : l.data = .packet s.recv :: rest)
    (hp : T.packets[s.recv]? = some p) (hk : l.rx.Settled k)
    (htaken : k.Taken rx (T.session (s.recv + 1))) (hst : st = if p.1 = 0x42 then .done else .ok)
    (hans : rx.sent = l.rx.sent ++ ans) (hok : l.status = .ok) :
    ∃ s', Window.Step w 64 s s' ∧ Shows T { l with
      rx := rx
      status := st
      data := rest
      answers := l.answers ++ ans } s' := by
  obtain ⟨a,hack,hsent,hheld⟩ := htaken.sent
  have hlt : s.recv < T.packets.length := (List.getElem?_eq_some_iff.mp hp).1
  have hseq : k.r_seq = s.recv % 64 := by
    rw [hk.r_seq,← T.r_seq hlt.le]
    refine congrArg Session.r_seq (h.session ?_)
    rw [hok]
    decide
  have hansEq : ans = [a] := by
    rw [hk.sent,hans] at hsent
    exact List.append_cancel_left hsent
  subst hansEq
  have hsaid : Says (some s.recv) a := by
    rw [hseq] at hack
    exact hack
  have hdata : s.data = some s.recv :: rest.map Item.number := by
    rw [h.data,hd]
    rfl
  refine ⟨_,.take s.recv (rest.map Item.number) [some s.recv] hdata rfl (by simp),?_⟩
  constructor
  · exact h.base
  · exact h.acked
  · rfl
  · exact List.rel_append h.acks (.cons hsaid .nil)
  · exact hlt
  · intro i hi
    apply h.data_lt i
    rw [hdata]
    exact List.mem_cons_of_mem _ hi
  · exact congrArg Session.loaded htaken.session
  · exact fun _ => htaken.session
  · exact fun _ hstate => htaken.obuf hstate
  · intro _
    refine .inr ⟨_,?_,fun n hn => congrArg (· + 1) (Option.some.inj hn).symm⟩
    dsimp only
    rw [hheld]
    exact hsaid
  · rw [hst,← T.ends s.recv p hp]
    split
    · rename_i ht
      exact iff_of_true rfl ht
    · rename_i ht
      exact iff_of_false (by decide : Status.ok ≠ .done) ht

-- A packet that comes in is one that is waited for, or it changes nothing.
theorem Shows.arrive {d : Item} {rest : List Item} {rx : KData} {st : Status}
    {ans : List (List UInt8)} (h : l.Shows T s) (hinv : Window.Inv w s) (hw : w < 64)
    (hd : l.data = d :: rest) (hok : l.status = .ok)
    (hnoise : d.number = none → l.rx.Rejects (d.bytes T).1 (d.bytes T).2)
    (hrx : l.rx.receive (d.bytes T).1 (d.bytes T).2 = .ok (st,rx))
    (hans : rx.sent = l.rx.sent ++ ans) : ∃ s', Window.Step w 64 s s' ∧ Shows T { l with
      rx := rx
      status := st
      data := rest
      answers := l.answers ++ ans } s' := by
  cases d with
  | noise stored n =>
    obtain ⟨hign,hst⟩ := KData.receive_rejected (hnoise rfl) hrx
    exact h.skip hd hok hst hign.sent hign.loaded (fun _ => hign) hans
  | packet i =>
    have hne : l.status ≠ .error := by
      rw [hok]
      decide
    have hmem : some i ∈ s.data := by
      rw [h.data,hd]
      exact List.mem_cons_self
    have hlt := h.data_lt i hmem
    obtain ⟨p,hp⟩ := T.packet_of_lt hlt
    have hsend : Sendable (T.check i p) p.1 (i % 64) p.2 := T.sendable i p hp
    have htyp := (T.takes i p hp).typ
    have hbct : checkType l.rx.bct p.1 = T.check i p := by
      rw [show l.rx.bct = (T.session s.recv).bct from congrArg Session.bct (h.session hne)]
      exact T.check_eq hp h.recv_le (hinv.data_open i hmem)
    have hframe : T.frame i = frame (T.check i p) p.1 (i % 64) p.2 := by
      rw [Transfer.frame,hp]
    have hlen : 4 ≤ (T.frame i).length := by
      rw [hframe]
      exact hsend.frame_length
    rw [Item.bytes,hframe] at hrx
    rw [hframe] at hlen
    obtain ⟨hign,hst⟩ | ⟨rfl,hgive⟩ | ⟨k,slot,pos,tail,hseq,hset,hbuf,htrans⟩ :=
      KData.receive_frame hsend hbct ⟨htyp.2.1,htyp.2.2.1⟩ hlen hrx
    · exact h.skip hd hok hst hign.sent hign.loaded (fun _ => hign) hans
    · exact h.skip hd hok (by decide) hgive.sent hgive.loaded (fun hs => absurd rfl hs) hans
    · have hrecv : l.rx.r_seq = s.recv % 64 := by
        rw [← T.r_seq h.recv_le]
        exact congrArg Session.r_seq (h.session hne)
      obtain rfl : i = s.recv := hinv.taken hw hmem (hseq.trans hrecv)
      have hobuf : k.state ≠ .data → k.obuf = [] := by
        intro hstate
        exact hset.obuf.trans (h.obuf hne (hset.state ▸ hstate))
      obtain ⟨htaken,hst⟩ := KData.transition_takes (T.takes s.recv p hp)
        (hset.session.trans (h.session hne)) hobuf hbuf htrans
      exact h.take hd hp hset htaken hst hans hok

theorem Shows.hear {a : List UInt8} {rest : List (List UInt8)} {i acked : Nat} (h : l.Shows T s)
    (hx : l.answers = a :: rest) (ha : IsAck (i % 64) a) (hlow : l.acked ≤ i) (hbase : i < l.base)
    (hle : l.acked ≤ acked) (hle' : acked ≤ i + 1) : ∃ s', Window.Step w 64 s s' ∧ Shows T { l with
      acked := acked
      answers := rest } s' := by
  have hacks := h.acks
  rw [hx] at hacks
  obtain ⟨o,os,hsaid,hrest,hs⟩ := List.forall₂_cons_right_iff.mp hacks
  obtain ⟨m,rfl,hm⟩ := hsaid.number ha
  rw [← h.acked] at hlow hle
  rw [← h.base] at hbase
  exact ⟨_,.hear m i acked os hs hlow hbase hm.symm hle hle',
    ⟨h.base,rfl,h.data,hrest,h.recv_le,h.data_lt,h.loaded,h.session,h.obuf,h.held,h.done⟩⟩

theorem Shows.loseAnswer {xs ys : List (List UInt8)} {a : List UInt8} (h : l.Shows T s)
    (hx : l.answers = xs ++ a :: ys) : ∃ s', Window.Step w 64 s s' ∧ Shows T { l with
      answers := xs ++ ys } s' := by
  have hacks := h.acks
  rw [hx] at hacks
  have hxs := List.forall₂_take_append s.acks xs (a :: ys) hacks
  obtain ⟨o,os,-,hys,hdrop⟩ :=
    List.forall₂_cons_right_iff.mp (List.forall₂_drop_append s.acks xs (a :: ys) hacks)
  have hs : s.acks = s.acks.take xs.length ++ o :: os := by
    rw [← hdrop,List.take_append_drop]
  exact ⟨_,.loseAck _ os o hs,⟨h.base,h.acked,h.data,List.rel_append hxs hys,h.recv_le,h.data_lt,
    h.loaded,h.session,h.obuf,h.held,h.done⟩⟩

theorem Shows.step (h : l.Shows T s) (hinv : Window.Inv w s) (hw : w < 64) (hs : l.Step T w l') :
    ∃ s', Window.Step w 64 s s' ∧ l'.Shows T s' := by
  cases hs with
  | send i hi hlow hbase hwin hopen =>
    rw [← h.acked] at hlow hwin hopen
    rw [← h.base] at hbase
    refine ⟨_,.send i hlow hbase hwin hopen,?_⟩
    constructor
    · exact congrArg (max · (i + 1)) h.base
    · exact h.acked
    · dsimp only
      rw [h.data,List.map_append]
      rfl
    · exact h.acks
    · exact h.recv_le
    · intro j hj
      obtain hj | hj := List.mem_append.mp hj
      · exact h.data_lt j hj
      · obtain rfl := Option.some.inj (List.mem_singleton.mp hj)
        exact hi
    · exact h.loaded
    · exact h.session
    · exact h.obuf
    · exact h.held
    · exact h.done
  | lose xs ys d hx =>
    have hs : s.data = xs.map Item.number ++ d.number :: ys.map Item.number := by
      rw [h.data,hx,List.map_append,List.map_cons]
    refine ⟨_,.lose _ _ _ hs,⟨h.base,h.acked,?_,h.acks,h.recv_le,?_,h.loaded,h.session,h.obuf,
      h.held,h.done⟩⟩
    · exact List.map_append.symm
    · intro j hj
      apply h.data_lt j
      rw [hs]
      exact ((List.Sublist.refl _).append (List.sublist_cons_self _ _)).subset hj
  | disturb xs ys stored n hx =>
    have hs : s.data = xs.map Item.number ++ ys.map Item.number := by
      rw [h.data,hx,List.map_append]
    refine ⟨_,.disturb _ _ hs,⟨h.base,h.acked,?_,h.acks,h.recv_le,?_,h.loaded,h.session,h.obuf,
      h.held,h.done⟩⟩
    · dsimp only
      rw [List.map_append]
      rfl
    · intro j hj
      apply h.data_lt j
      rw [hs]
      simp only [List.mem_append,List.mem_cons] at hj ⊢
      obtain hj | hj | hj := hj
      · exact .inl hj
      · exact absurd hj (Option.some_ne_none j)
      · exact .inr hj
  | arrive d rest rx st ans hd hok hnoise hrx hans => exact h.arrive hinv hw hd hok hnoise hrx hans
  | loseAnswer xs ys a hx => exact h.loseAnswer hx
  | hear a rest i acked hx ha hlow hbase hle hle' => exact h.hear hx ha hlow hbase hle hle'
  | ignore a rest hx => exact h.loseAnswer (show l.answers = [] ++ a :: rest from hx)

theorem start_shows (ipktbuf : List UInt8) (ipktinfo : List Packet) :
    (start ipktbuf ipktinfo).Shows T Window.start where
  base := rfl
  acked := rfl
  data := rfl
  acks := .nil
  recv_le := Nat.zero_le _
  data_lt := by simp [Window.start]
  loaded := by
    rw [show Window.start.recv = 0 from rfl,T.starts]
    rfl
  session := fun _ => T.starts.symm
  obuf := fun _ _ => rfl
  held := fun _ => .inl rfl
  done := iff_of_false (by decide : Status.ok ≠ .done) fun h =>
    T.nonempty (List.length_eq_zero_iff.mp h.symm)

-- A run of the line is a run of the numbers.
theorem run_shows {ipktbuf : List UInt8} {ipktinfo : List Packet} (hw : w < 64)
    (h : Relation.ReflTransGen (Step T w) (start ipktbuf ipktinfo) l) :
    ∃ s, Window.Inv w s ∧ l.Shows T s := by
  induction h with
  | refl => exact ⟨_,.of_start,start_shows ipktbuf ipktinfo⟩
  | tail _ hs ih =>
    obtain ⟨s,hinv,hshows⟩ := ih
    obtain ⟨s',hstep,hshows'⟩ := hshows.step hinv hw hs
    exact ⟨s',hinv.step hw hstep,hshows'⟩

end Steps
end Line
end Kermit
end RoscoM68k
