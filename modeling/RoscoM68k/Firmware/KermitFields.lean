import RoscoM68k.Firmware.KermitData
namespace RoscoM68k
namespace Kermit
namespace Sender

section Packets

variable {k k' : Sender} {x : Prefixes} {out : List UInt8}

-- What is still to be read: the run that is being counted, and the input.
def unread (k : Sender) : List UInt8 :=
  match k.c with
  | some c => List.replicate k.s_rpt c ++ c :: k.input
  | none => []

-- A packet that is being filled, with what its data mean so far.
structure Filling (k : Sender) (x : Prefixes) (out : List UInt8) : Prop where
  agreed : k.Matches x
  bct_pos : 1 ≤ k.bct
  rpt_lt : k.s_rpt < 94
  rpt_off : k.rptflg = false → k.s_rpt = 0
  xdata : Decodes x k.xdata out
  printed : Printed k.xdata

-- The state that a packet leaves behind: its data mean `out`, and `rest` is still to come.
structure Holds (k : Sender) (x : Prefixes) (out rest : List UInt8) : Prop
    extends k.Filling x out where
  ended : (k.s_first = 0 ∧ ∃ c, k.c = some c) ∨ k.s_first = -1 ∧ k.c = none
  remains : ∃ r, Decodes x k.s_remain r ∧ rest = r ++ k.unread
  remain_printed : Printed k.s_remain
  remain_length : k.s_remain.length < REMAINL

-- How full a packet is after the loop.
structure Filled (k k' : Sender) : Prop where
  s_maxlen : k'.s_maxlen = k.s_maxlen
  bct : k'.bct = k.bct
  ebqflg : k'.ebqflg = k.ebqflg
  nonempty : k.xdata ≠ [] ∨ k.bct + 8 ≤ k.s_maxlen → k'.xdata ≠ []
  length_le : (k'.xdata.length : Int) ≤ max (k.xdata.length : Int) (k.s_maxlen - 4)

-- The next packet takes what is too much.
theorem saved_eq {front back : List UInt8} {xs : List UInt8} (hx : k.xdata = xs ++ front ++ back)
    (hos : k.osize = xs.length + front.length) :
    k.saved = if back.length < REMAINL then .ok { k with
      s_remain := back
      xdata := xs ++ front } else .error .access := by
  have hlen : k.osize = (xs ++ front).length := by rw [hos,List.length_append]
  rw [saved,hx,hlen,List.drop_left,List.take_left]

theorem Matches.same (h : k.Matches x)
    (hk : (k'.s_ctlq,k'.ebq,k'.ebqflg,k'.rptq,k'.rptflg) =
      (k.s_ctlq,k.ebq,k.ebqflg,k.rptq,k.rptflg)) : k'.Matches x := by
  simp only [Prod.mk.injEq] at hk
  obtain ⟨hc,he,hef,hr,hrf⟩ := hk
  constructor
  · rw [hc,h.ctlq]
  · rw [he,h.ebq]
  · rw [hr,h.rptq]
  · rw [hrf,h.rptflg]
  · rw [hef,h.parity]
  · rw [hc]
    exact h.ctlq_prefixable
  · rw [he,hef,hc]
    exact h.ebq_prefixable
  · rw [hr,hrf,hc]
    exact h.rptq_prefixable
  · rw [he,hef,hr,hrf]
    exact h.apart

-- The last character that has been read, and the input behind it.
def Ahead (k : Sender) : List UInt8 → Prop
  | [] => k.s_first = -1 ∧ k.c = none
  | c :: s => k.s_first = 0 ∧ k.c = some c ∧ k.input = s

theorem Ahead.same {rest : List UInt8} (h : k.Ahead rest)
    (hk : (k'.s_first,k'.c,k'.input) = (k.s_first,k.c,k.input)) : k'.Ahead rest := by
  simp only [Prod.mk.injEq] at hk
  obtain ⟨hf,hc,hi⟩ := hk
  cases rest with
  | nil => exact ⟨hf.trans h.1,hc.trans h.2⟩
  | cons c s => exact ⟨hf.trans h.1,hc.trans h.2.1,hi.trans h.2.2⟩

theorem Ahead.unread_eq {rest : List UInt8} {a : UInt8} (h : k.Ahead rest)
    (hrun : k.s_rpt = 0 ∨ rest.head? = some a) :
    k.unread = List.replicate k.s_rpt a ++ rest := by
  cases rest with
  | nil =>
    have hz : k.s_rpt = 0 := hrun.resolve_right (by simp)
    rw [unread,h.2,hz]
    rfl
  | cons c s =>
    rw [unread,h.2.1,h.2.2]
    obtain hz | hc := hrun
    · rw [hz]
      rfl
    · rw [List.head?_cons] at hc
      rw [Option.some.inj hc]

theorem Ahead.ended {rest : List UInt8} (h : k.Ahead rest) :
    (k.s_first = 0 ∧ ∃ c, k.c = some c) ∨ k.s_first = -1 ∧ k.c = none := by
  cases rest with
  | nil => exact .inr h
  | cons c s => exact .inl ⟨h.1,c,h.2.1⟩

-- After one call of encode for `a`, with `rest` behind it: `xs` stays in the packet in any case.
structure Stepped (k k' : Sender) (x : Prefixes) (out rest : List UInt8) (a : UInt8)
    (xs back : List UInt8) : Prop where
  filling : ∃ out₁ out₂, k'.Filling x (out₁ ++ out₂) ∧ Decodes x xs out₁ ∧ Decodes x back out₂ ∧
    out₁ ++ out₂ ++ k'.unread = out ++ (List.replicate k.s_rpt a ++ a :: rest)
  xdata : k'.xdata = xs ++ back
  osize : k'.osize = xs.length
  ahead : k'.Ahead rest
  same : (k'.s_maxlen,k'.bct,k'.ebqflg) = (k.s_maxlen,k.bct,k.ebqflg)
  s_remain : k'.s_remain = k.s_remain
  grows : k.xdata.length ≤ xs.length
  emits : rest = [] → back ≠ []
  remains : k.ebqflg = false → back.length < REMAINL
  stays : (k.bct : Int) + 8 ≤ k.s_maxlen → xs = [] → (back.length : Int) ≤ k'.maxlen
  length_le : (xs.length : Int) ≤ max (k.xdata.length : Int) (k.s_maxlen - 4)

theorem Filling.encode (h : k.Filling x out) (rest : List UInt8) (hrest : k.Ahead rest)
    (hos : k.osize = k.xdata.length) (a : UInt8) :
    ∃ xs back, k.Stepped (k.encode a rest.head?) x out rest a xs back := by
  obtain ⟨hnext,hf,hlt,he⟩ | ⟨front,back,hem,he⟩ :=
    h.agreed.encode_cases h.rpt_lt h.rpt_off hos a rest.head?
  · obtain ⟨s,rfl⟩ := List.head?_eq_some_iff.mp hnext
    rw [he]
    refine ⟨k.xdata,[],?_⟩
    constructor
    · refine ⟨out,[],?_,h.xdata,.nil,?_⟩
      · rw [List.append_nil]
        exact ⟨h.agreed.same rfl,h.bct_pos,hlt,fun hn => absurd (hf.symm.trans hn) (by decide),
          h.xdata,h.printed⟩
      · have hahead : ({ k with s_rpt := k.s_rpt + 1 } : Sender).Ahead (a :: s) := hrest.same rfl
        have hun := hahead.unread_eq (.inr hnext)
        rw [List.append_nil,hun,List.replicate_succ',List.append_assoc]
        rfl
    · exact (List.append_nil _).symm
    · exact hos
    · exact hrest.same rfl
    · rfl
    · rfl
    · exact le_rfl
    · exact fun hs => absurd hs (List.cons_ne_nil a s)
    · exact fun _ => by decide
    · intro hlen hxs
      rw [maxlen,List.length_nil]
      push_cast
      omega
    · exact le_max_left _ _
  · obtain ⟨m,n,hmn,hfront,hback⟩ := hem.decodes
    have hone := h.xdata.append hfront
    rw [he]
    refine ⟨k.xdata ++ front,back,?_⟩
    constructor
    · refine ⟨_,_,?_,hone,hback,?_⟩
      · refine ⟨h.agreed.same rfl,h.bct_pos,Nat.succ_pos 93,fun _ => rfl,hone.append hback,?_⟩
        rw [List.append_assoc]
        exact h.printed.append hem.printed
      · have hahead : ({ k with
          s_rpt := 0
          xdata := k.xdata ++ front ++ back
          osize := k.xdata.length + front.length } : Sender).Ahead rest := hrest.same rfl
        have hun := hahead.unread_eq (a := a) (.inl rfl)
        rw [hun,List.append_assoc out,← List.replicate_add,hmn,List.replicate_succ',
          List.append_assoc,List.append_assoc]
        rfl
    · rfl
    · exact (List.length_append).symm
    · exact hrest.same rfl
    · rfl
    · rfl
    · rw [List.length_append]
      exact Nat.le_add_right _ _
    · exact fun _ => hem.back_ne
    · exact hem.remains
    · intro hlen hxs
      have hnil := List.append_eq_nil_iff.mp hxs
      have hst := hem.starts
      rw [hnil.1,hnil.2] at hst
      have hmax : (k.encode a rest.head?).maxlen = k.s_maxlen - k.bct - 3 := by
        rw [he]
        rfl
      rw [← he,hmax]
      simp only [ne_eq,not_true_eq_false,false_or,List.length_nil] at hst
      omega
    · have hfit := hem.front_fits
      rw [List.length_append]
      push_cast
      obtain rfl | hfit := hfit
      · rw [List.length_nil]
        omega
      · omega

-- A step that ends the packet, with what is too much taken back or without.
theorem Stepped.saved {rest xs back : List UInt8} {a : UInt8} {k'' : Sender}
    (h : k.Stepped k' x out rest a xs back) (hs : k'.saved = .ok k'') :
    ∃ out' rest', k''.Holds x out' rest' ∧
      out' ++ rest' = out ++ (List.replicate k.s_rpt a ++ a :: rest) ∧ k''.xdata = xs ∧
      (k''.s_maxlen,k''.bct,k''.ebqflg) = (k.s_maxlen,k.bct,k.ebqflg) := by
  obtain ⟨out₁,out₂,hfill,hxs,hback,hun⟩ := h.filling
  have hx : k'.xdata = xs ++ [] ++ back := by rw [h.xdata,List.append_nil]
  rw [saved_eq hx h.osize] at hs
  split at hs
  · rename_i hlen
    obtain rfl := Except.ok.inj hs
    have hprint := hfill.printed
    rw [h.xdata] at hprint
    refine ⟨out₁,out₂ ++ k'.unread,?_,?_,List.append_nil xs,?_⟩
    · rw [List.append_nil]
      exact {
        agreed := hfill.agreed.same rfl
        bct_pos := hfill.bct_pos
        rpt_lt := hfill.rpt_lt
        rpt_off := hfill.rpt_off
        xdata := hxs
        printed := hprint.left
        ended := h.ahead.ended
        remains := ⟨out₂,hback,rfl⟩
        remain_printed := hprint.right
        remain_length := hlen }
    · rw [← List.append_assoc,hun]
    · exact h.same
  · simp at hs

theorem Stepped.whole {rest xs back : List UInt8} {a : UInt8}
    (h : k.Stepped k' x out rest a xs back) (hrem : k.s_remain = []) :
    ∃ out' rest', k'.Holds x out' rest' ∧
      out' ++ rest' = out ++ (List.replicate k.s_rpt a ++ a :: rest) := by
  obtain ⟨out₁,out₂,hfill,-,-,hun⟩ := h.filling
  have hnil : k'.s_remain = [] := h.s_remain.trans hrem
  refine ⟨out₁ ++ out₂,k'.unread,?_,hun⟩
  constructor
  · exact hfill
  · exact h.ahead.ended
  · rw [hnil]
    exact ⟨[],.nil,rfl⟩
  · rw [hnil]
    exact .nil
  · rw [hnil]
    decide

-- The end of a packet, however it comes about.
theorem Stepped.filled {rest xs back : List UInt8} {a : UInt8} {k'' : Sender}
    (h : k.Stepped k' x out rest a xs back) (hpos : 1 ≤ k.bct)
    (hend : k'' = k' ∧ ((k'.xdata.length : Int) = k'.maxlen ∨
        rest = [] ∧ (k'.xdata.length : Int) ≤ k'.maxlen) ∨
      k''.xdata = xs ∧ k'.maxlen < (k'.xdata.length : Int) ∧
        (k''.s_maxlen,k''.bct,k''.ebqflg) = (k.s_maxlen,k.bct,k.ebqflg)) : k.Filled k'' := by
  have hxlen : k'.xdata.length = xs.length + back.length := by rw [h.xdata,List.length_append]
  have hsame := h.same
  have hgrows := h.grows
  have hle := h.length_le
  simp only [Prod.mk.injEq] at hsame
  have hmax : k'.maxlen = k.s_maxlen - k.bct - 3 := by rw [maxlen,hsame.1,hsame.2.1]
  have hkept (hne : k.xdata ≠ []) : 0 < xs.length := by
    have hpos := List.length_pos_of_ne_nil hne
    omega
  obtain ⟨rfl,hlen⟩ | ⟨hx,hover,hs⟩ := hend
  · constructor
    · exact hsame.1
    · exact hsame.2.1
    · exact hsame.2.2
    · rintro (hne | hroom) hnil
      · have hlt := hkept hne
        rw [hnil,List.length_nil] at hxlen
        omega
      · rw [hnil,List.length_nil] at hxlen hlen
        obtain hfull | ⟨hr,-⟩ := hlen
        · rw [hmax] at hfull
          push_cast at hfull
          omega
        · have hb := List.length_pos_of_ne_nil (h.emits hr)
          omega
    · obtain hlen | hlen := hlen
      · rw [hlen,hmax]
        omega
      · rw [hmax] at hlen
        omega
  · simp only [Prod.mk.injEq] at hs
    constructor
    · exact hs.1
    · exact hs.2.1
    · exact hs.2.2
    · rintro (hne | hroom) hnil
      · have hlt := hkept hne
        rw [← hx,hnil,List.length_nil] at hlt
        omega
      · rw [hx] at hnil
        have hstays := h.stays hroom hnil
        rw [hxlen,hnil,List.length_nil] at hover
        push_cast at hover
        omega
    · rw [hx]
      exact hle

theorem Filling.same (h : k.Filling x out)
    (hk : (k'.s_ctlq,k'.ebq,k'.ebqflg,k'.rptq,k'.rptflg) =
      (k.s_ctlq,k.ebq,k.ebqflg,k.rptq,k.rptflg))
    (hk' : (k'.bct,k'.s_rpt,k'.xdata) = (k.bct,k.s_rpt,k.xdata)) : k'.Filling x out := by
  have hf : k'.rptflg = k.rptflg := congrArg (·.2.2.2.2) hk
  simp only [Prod.mk.injEq] at hk'
  obtain ⟨hb,hr,hx⟩ := hk'
  constructor
  · exact h.agreed.same hk
  · rw [hb]
    exact h.bct_pos
  · rw [hr]
    exact h.rpt_lt
  · rw [hf,hr]
    exact h.rpt_off
  · rw [hx]
    exact h.xdata
  · rw [hx]
    exact h.printed

theorem Filled.left {k₀ : Sender} (h : k.Filled k') (hk :
    (k.s_maxlen,k.bct,k.ebqflg,k.xdata) = (k₀.s_maxlen,k₀.bct,k₀.ebqflg,k₀.xdata)) :
    k₀.Filled k' := by
  simp only [Prod.mk.injEq] at hk
  obtain ⟨hm,hb,he,hx⟩ := hk
  exact ⟨h.s_maxlen.trans hm,h.bct.trans hb,h.ebqflg.trans he,
    by rw [← hx,← hb,← hm]; exact h.nonempty,
    by rw [← hx,← hm]; exact h.length_le⟩

theorem Filled.trans {rest xs back : List UInt8} {a : UInt8} {k'' : Sender} (hf : k'.Filled k'')
    (h : k.Stepped k' x out rest a xs back) (hroom : (k'.xdata.length : Int) ≤ k'.maxlen)
    (hpos : 1 ≤ k.bct) : k.Filled k'' := by
  have hsame := h.same
  have hgrows := h.grows
  have hlen := hf.length_le
  have hxlen : k'.xdata.length = xs.length + back.length := by rw [h.xdata,List.length_append]
  simp only [Prod.mk.injEq] at hsame
  rw [maxlen,hsame.1,hsame.2.1] at hroom
  rw [hsame.1] at hlen
  constructor
  · exact hf.s_maxlen.trans hsame.1
  · exact hf.bct.trans hsame.2.1
  · exact hf.ebqflg.trans hsame.2.2
  · intro hk
    apply hf.nonempty
    rw [hsame.1,hsame.2.1]
    apply hk.imp_left
    intro hne hnil
    have hkpos := List.length_pos_of_ne_nil hne
    rw [hnil,List.length_nil] at hxlen
    omega
  · omega

theorem getpktLoop_spec {c : UInt8} {input : List UInt8} (h : k.Filling x out)
    (hrem : k.s_remain = []) (hfirst : k.s_first = 0) (hr : k.getpktLoop c input = .ok k') :
    (∃ out' rest', k'.Holds x out' rest' ∧
      out' ++ rest' = out ++ (List.replicate k.s_rpt c ++ c :: input)) ∧ k.Filled k' := by
  induction input generalizing k c out with
  | nil =>
    let k₁ : Sender := { k with
      s_first := -1
      osize := k.xdata.length
      c := none
      input := [] }
    have hfill : k₁.Filling x out := h.same rfl rfl
    obtain ⟨xs,back,hstep⟩ := hfill.encode [] ⟨rfl,rfl⟩ rfl c
    rw [List.head?_nil] at hstep
    rw [getpktLoop] at hr
    change (if (k₁.encode c none).maxlen < ((k₁.encode c none).xdata.length : Int) then
      (k₁.encode c none).saved else .ok (k₁.encode c none)) = .ok k' at hr
    split at hr
    · rename_i hover
      obtain ⟨out',rest',hholds,hout,hx,hsame⟩ := hstep.saved hr
      have hf := hstep.filled h.bct_pos (.inr ⟨hx,hover,hsame⟩)
      exact ⟨⟨out',rest',hholds,hout⟩,hf.left rfl⟩
    · rename_i hover
      obtain rfl := Except.ok.inj hr
      obtain ⟨out',rest',hholds,hout⟩ := hstep.whole hrem
      have hf := hstep.filled h.bct_pos (.inl ⟨rfl,.inr ⟨rfl,not_lt.mp hover⟩⟩)
      exact ⟨⟨out',rest',hholds,hout⟩,hf.left rfl⟩
  | cons next input ih =>
    let k₁ : Sender := { k with
      osize := k.xdata.length
      c := some next
      input := input }
    have hfill : k₁.Filling x out := h.same rfl rfl
    obtain ⟨xs,back,hstep⟩ := hfill.encode (next :: input) ⟨hfirst,rfl,rfl⟩ rfl c
    rw [List.head?_cons] at hstep
    rw [getpktLoop] at hr
    change (if ((k₁.encode c (some next)).xdata.length : Int) =
        (k₁.encode c (some next)).maxlen then
        .ok (k₁.encode c (some next))
      else if (k₁.encode c (some next)).maxlen < ((k₁.encode c (some next)).xdata.length : Int) then
        (k₁.encode c (some next)).saved
      else getpktLoop (k₁.encode c (some next)) next input) = .ok k' at hr
    split at hr
    · rename_i hfull
      obtain rfl := Except.ok.inj hr
      obtain ⟨out',rest',hholds,hout⟩ := hstep.whole hrem
      have hf := hstep.filled h.bct_pos (.inl ⟨rfl,.inl hfull⟩)
      exact ⟨⟨out',rest',hholds,hout⟩,hf.left rfl⟩
    · split at hr
      · rename_i hover
        obtain ⟨out',rest',hholds,hout,hx,hsame⟩ := hstep.saved hr
        have hf := hstep.filled h.bct_pos (.inr ⟨hx,hover,hsame⟩)
        exact ⟨⟨out',rest',hholds,hout⟩,hf.left rfl⟩
      · rename_i hover
        obtain ⟨out₁,out₂,hfill',-,-,hun⟩ := hstep.filling
        have hsame := hstep.same
        simp only [Prod.mk.injEq] at hsame
        obtain ⟨⟨out',rest',hholds,hout⟩,hf⟩ :=
          ih hfill' (hstep.s_remain.trans hrem) hstep.ahead.1 hr
        have hread : (k₁.encode c (some next)).unread =
            List.replicate (k₁.encode c (some next)).s_rpt next ++ next :: input := by
          rw [unread,hstep.ahead.2.1,hstep.ahead.2.2]
        refine ⟨⟨out',rest',hholds,?_⟩,?_⟩
        · rw [hout,← hread]
          exact hun
        · exact (hf.trans hstep (not_lt.mp hover) h.bct_pos).left rfl

theorem getpktLoop_ok {c : UInt8} {input : List UInt8} (h : k.Filling x out)
    (hfirst : k.s_first = 0) (hoff : k.ebqflg = false) : ∃ k', k.getpktLoop c input = .ok k' := by
  induction input generalizing k c out with
  | nil =>
    have hfill : ({ k with
      s_first := -1
      osize := k.xdata.length
      c := none
      input := [] } : Sender).Filling x out := h.same rfl rfl
    obtain ⟨xs,back,hstep⟩ := hfill.encode [] ⟨rfl,rfl⟩ rfl c
    rw [List.head?_nil] at hstep
    rw [getpktLoop]
    split
    · have hx := hstep.xdata
      rw [← List.append_nil xs] at hx
      rw [saved_eq hx hstep.osize,if_pos (hstep.remains hoff)]
      exact ⟨_,rfl⟩
    · exact ⟨_,rfl⟩
  | cons next input ih =>
    have hfill : ({ k with
      osize := k.xdata.length
      c := some next
      input := input } : Sender).Filling x out := h.same rfl rfl
    obtain ⟨xs,back,hstep⟩ := hfill.encode (next :: input) ⟨hfirst,rfl,rfl⟩ rfl c
    rw [List.head?_cons] at hstep
    rw [getpktLoop]
    split
    · exact ⟨_,rfl⟩
    · split
      · have hx := hstep.xdata
        rw [← List.append_nil xs] at hx
        rw [saved_eq hx hstep.osize,if_pos (hstep.remains hoff)]
        exact ⟨_,rfl⟩
      · obtain ⟨out₁,out₂,hfill',-⟩ := hstep.filling
        have hsame := hstep.same
        simp only [Prod.mk.injEq] at hsame
        exact ih hfill' hstep.ahead.1 (hsame.2.2.trans hoff)

-- Before a packet, `rest` of the file has not been sent.
inductive Awaits (k : Sender) (x : Prefixes) : List UInt8 → Prop
  | first (ha : k.Matches x) (hb : 1 ≤ k.bct) (hf : k.s_first = 1) (hr : k.s_rpt = 0) :
      Awaits k x k.input
  | later {out rest : List UInt8} (h : k.Holds x out rest) : Awaits k x rest

-- The packet before it is filled, with the remains of the one before.
def refilled (k : Sender) : Sender :=
  { k with
    xdata := k.s_remain
    s_remain := [] }

theorem Awaits.bct_pos {rest : List UInt8} (h : k.Awaits x rest) : 1 ≤ k.bct := by
  cases h with
  | first ha hb hf hz => exact hb
  | later hh => exact hh.bct_pos

theorem getpktFill_eq {c : UInt8} (hf : k.s_first = 0) (hc : k.c = some c) :
    k.getpktFill = k.refilled.getpktLoop c k.input := by
  have hne : ¬ k.refilled.s_first = -1 := by
    rw [show k.refilled.s_first = k.s_first from rfl,hf]
    decide
  have hc' : k.refilled.c = some c := hc
  change (if k.refilled.s_first = -1 then .ok k.refilled
    else match k.refilled.c with
      | some c => k.refilled.getpktLoop c k.refilled.input
      | none => .ok k.refilled) = _
  rw [if_neg hne,hc']
  rfl

theorem getpktFill_spec {c : UInt8} {r : List UInt8} (h : k.refilled.Filling x r)
    (hf : k.s_first = 0) (hc : k.c = some c) (hr : k.getpktFill = .ok k') :
    (∃ out' rest', k'.Holds x out' rest' ∧ out' ++ rest' = r ++ k.unread) ∧
      k.refilled.Filled k' := by
  rw [getpktFill_eq hf hc] at hr
  obtain ⟨⟨out',rest',hholds,hout⟩,hfilled⟩ := getpktLoop_spec h rfl hf hr
  refine ⟨⟨out',rest',hholds,?_⟩,hfilled⟩
  rw [hout,unread,hc]
  rfl

structure Packed (k k' : Sender) (x : Prefixes) (rest : List UInt8) : Prop where
  next : ∃ out rest', k'.Awaits x rest' ∧ Decodes x k'.xdata out ∧ out ++ rest' = rest
  printed : Printed k'.xdata
  same : (k'.s_maxlen,k'.bct,k'.ebqflg) = (k.s_maxlen,k.bct,k.ebqflg)
  length_le : (k'.xdata.length : Int) ≤ max 5 (k.s_maxlen - 4)
  more : k.bct + 8 ≤ k.s_maxlen → k'.xdata = [] → rest = []

theorem Holds.nothing {out rest : List UInt8} (h : k.Holds x out rest) (hc : k.c = none) :
    Decodes x k.s_remain rest := by
  obtain ⟨r,hr,rfl⟩ := h.remains
  rw [unread,hc,List.append_nil]
  exact hr

theorem Holds.refill {out rest : List UInt8} (h : k.Holds x out rest) :
    ∃ r, k.refilled.Filling x r ∧ rest = r ++ k.unread := by
  obtain ⟨r,hr,hrest⟩ := h.remains
  exact ⟨r,⟨h.agreed.same rfl,h.bct_pos,h.rpt_lt,h.rpt_off,hr,h.remain_printed⟩,hrest⟩

theorem Filled.packed {out' rest' rest : List UInt8} (h : k.refilled.Filled k')
    (hlen : k.s_remain.length < REMAINL) (hholds : k'.Holds x out' rest')
    (hout : out' ++ rest' = rest) : k.Packed k' x rest where
  next := ⟨out',rest',.later hholds,hholds.xdata,hout⟩
  printed := hholds.printed
  same := by
    rw [h.s_maxlen,h.bct,h.ebqflg]
    rfl
  length_le := by
    have hle := h.length_le
    have hr : REMAINL = 6 := rfl
    have hx : k.refilled.xdata = k.s_remain := rfl
    have hm : k.refilled.s_maxlen = k.s_maxlen := rfl
    rw [hx,hm] at hle
    omega
  more := fun hroom hnil => absurd hnil (h.nonempty (.inr hroom))

theorem nothing_remains : ([] : List UInt8).length < REMAINL := by decide

theorem getpkt_spec {rest : List UInt8} (h : k.Awaits x rest) (hr : k.getpkt = .ok k') :
    k.Packed k' x rest := by
  rw [getpkt] at hr
  cases h with
  | first ha hb hf hz =>
    have hlt : k.s_rpt < 94 := by omega
    rw [if_pos hf] at hr
    split at hr
    · rename_i hin
      obtain rfl := Except.ok.inj hr
      rw [hin]
      constructor
      · refine ⟨[],[],.later (?_ : Holds _ x [] []),.nil,rfl⟩
        exact ⟨⟨ha.same rfl,hb,hlt,fun _ => hz,.nil,.nil⟩,.inr ⟨rfl,rfl⟩,⟨[],.nil,rfl⟩,.nil,
          nothing_remains⟩
      · exact .nil
      · rfl
      · exact le_max_of_le_left (by norm_num)
      · exact fun _ _ => rfl
    · rename_i c input hin
      let k₀ : Sender := { k with
        s_first := 0
        s_remain := []
        c := some c
        input := input }
      have hfill : k₀.refilled.Filling x [] := ⟨ha.same rfl,hb,hlt,fun _ => hz,.nil,.nil⟩
      obtain ⟨⟨out',rest',hholds,hout⟩,hfilled⟩ := getpktFill_spec hfill rfl rfl hr
      have hunread : [] ++ k₀.unread = k.input := by
        rw [hin,unread,show k₀.s_rpt = 0 from hz]
        rfl
      have hp := hfilled.packed nothing_remains hholds (hout.trans hunread)
      exact ⟨hp.next,hp.printed,hp.same,hp.length_le,hp.more⟩
  | later hh =>
    obtain ⟨hf,c,hc⟩ | ⟨hf,hc⟩ := hh.ended
    · rw [if_neg (by omega),if_neg (by omega)] at hr
      obtain ⟨r,hfill,hrest⟩ := hh.refill
      obtain ⟨⟨out',rest',hholds,hout⟩,hfilled⟩ := getpktFill_spec hfill hf hc hr
      exact hfilled.packed hh.remain_length hholds (hout.trans hrest.symm)
    · have hnothing := hh.nothing hc
      have hlen := hh.remain_length
      have hr6 : REMAINL = 6 := rfl
      rw [if_neg (by omega)] at hr
      -- What remains is all of the packet.
      have hend : k' = { k with
          xdata := k.s_remain
          s_remain := [] } := by
        split at hr
        · rename_i hnil
          rw [← Except.ok.inj hr,hnil.2]
        · rw [getpktFill] at hr
          dsimp only at hr
          rw [if_pos hf] at hr
          exact (Except.ok.inj hr).symm
      subst hend
      constructor
      · refine ⟨rest,[],.later (?_ : Holds _ x rest []),hnothing,List.append_nil rest⟩
        exact ⟨⟨hh.agreed.same rfl,hh.bct_pos,hh.rpt_lt,hh.rpt_off,hnothing,hh.remain_printed⟩,
          .inr ⟨hf,hc⟩,⟨[],.nil,by rw [unread,hc]; rfl⟩,.nil,nothing_remains⟩
      · exact hh.remain_printed
      · rfl
      · dsimp only
        omega
      · intro hroom hnil
        dsimp only at hnil
        rw [hnil] at hnothing
        cases hnothing with
        | nil => rfl

theorem getpkt_ok {rest : List UInt8} (h : k.Awaits x rest) (hoff : k.ebqflg = false) :
    ∃ k', k.getpkt = .ok k' := by
  have hfilled {k : Sender} {r : List UInt8} {c : UInt8} (hfill : k.refilled.Filling x r)
      (hf : k.s_first = 0) (hc : k.c = some c) (hoff : k.ebqflg = false) :
      ∃ k', k.getpktFill = .ok k' := by
    rw [getpktFill_eq hf hc]
    exact getpktLoop_ok hfill hf hoff
  rw [getpkt]
  cases h with
  | first ha hb hf hz =>
    rw [if_pos hf]
    split
    · exact ⟨_,rfl⟩
    · exact hfilled (r := []) ⟨ha.same rfl,hb,(by omega : k.s_rpt < 94),fun _ => hz,.nil,.nil⟩
        rfl rfl hoff
  | later hh =>
    obtain ⟨r,hfill,-⟩ := hh.refill
    obtain ⟨hf,c,hc⟩ | ⟨hf,hc⟩ := hh.ended
    · rw [if_neg (by omega),if_neg (by omega)]
      exact hfilled hfill hf hc hoff
    · rw [if_neg (by omega)]
      split
      · exact ⟨_,rfl⟩
      · rw [getpktFill]
        dsimp only
        rw [if_pos hf]
        exact ⟨_,rfl⟩

-- A data field that reads back as `out`, and is neither empty nor too long.
structure Field (k : Sender) (x : Prefixes) (d out : List UInt8) : Prop where
  decodes : Decodes x d out
  printed : Printed d
  nonempty : d ≠ []
  length_le : (d.length : Int) ≤ k.s_maxlen - 4

theorem sdata_spec {rest : List UInt8} {n : Nat} {fields : List (List UInt8)} (h : k.Awaits x rest)
    (hroom : (k.bct : Int) + 8 ≤ k.s_maxlen) (hn : rest.length < n) (hr : sdata n k = .ok fields) :
    ∃ outs, outs.flatten = rest ∧ List.Forall₂ (k.Field x) fields outs := by
  induction n generalizing k rest fields with
  | zero => exact absurd hn (Nat.not_lt_zero _)
  | succ n ih =>
    rw [sdata] at hr
    obtain ⟨k',hpkt,hr⟩ := bind_eq_ok.mp hr
    have hp := getpkt_spec h hpkt
    obtain ⟨out,rest',hnext,hdec,hout⟩ := hp.next
    split at hr
    · rename_i hnil
      obtain rfl := Except.ok.inj hr
      exact ⟨[],(hp.more hroom hnil).symm,.nil⟩
    · rename_i hne
      obtain ⟨fs,hfs,hr⟩ := bind_eq_ok.mp hr
      obtain rfl := Except.ok.inj hr
      have hsame := hp.same
      simp only [Prod.mk.injEq] at hsame
      have hone := List.length_pos_of_ne_nil (hdec.nonempty hne)
      have hlen : rest'.length < n := by
        rw [← hout,List.length_append] at hn
        omega
      obtain ⟨outs,hflat,hall⟩ := ih hnext (by rw [hsame.1,hsame.2.1]; exact hroom) hlen hfs
      refine ⟨out :: outs,?_,.cons ?_ (hall.imp ?_)⟩
      · rw [List.flatten_cons,hflat,hout]
      · have hle := hp.length_le
        have hb := h.bct_pos
        exact ⟨hdec,hp.printed,hne,by omega⟩
      · intro d o hd
        have hle := hd.length_le
        rw [hsame.1] at hle
        exact ⟨hd.decodes,hd.printed,hd.nonempty,hle⟩

theorem sdata_ok {rest : List UInt8} (h : k.Awaits x rest) (hoff : k.ebqflg = false) (n : Nat) :
    ∃ fields, sdata n k = .ok fields := by
  induction n generalizing k rest with
  | zero => exact ⟨[],rfl⟩
  | succ n ih =>
    obtain ⟨k',hpkt⟩ := getpkt_ok h hoff
    have hp := getpkt_spec h hpkt
    obtain ⟨out,rest',hnext,-,-⟩ := hp.next
    have hsame := hp.same
    simp only [Prod.mk.injEq] at hsame
    rw [sdata,hpkt,ok_bind]
    split
    · exact ⟨[],rfl⟩
    · obtain ⟨fs,hfs⟩ := ih hnext (hsame.2.2.trans hoff)
      rw [hfs]
      exact ⟨_,rfl⟩

end Packets

section RoundTrip

variable {k : Sender} {x : Prefixes} {d out : List UInt8}

-- As K_RUN reads it, with the NUL behind the data and whatever else is in the buffer.
theorem Field.read (h : k.Field x d out) (rest : List UInt8) :
    x.decodeLoop (d ++ 0 :: rest).length (d ++ 0 :: rest) [] = .ok out := by
  rw [h.decodes.decodeLoop_eq (by simp) rest [],List.nil_append]

def hashes : Sender where
  s_maxlen := 11
  bct := 3
  s_ctlq := 0x23
  ebq := 0x59
  ebqflg := false
  rptq := 0x7e
  rptflg := true
  s_rpt := 0
  s_first := 1
  s_remain := []
  xdata := []
  osize := 0
  c := none
  input := [0x23,0x23,1,0,0,0,0]

end RoundTrip
end Sender
end Kermit
end RoscoM68k
