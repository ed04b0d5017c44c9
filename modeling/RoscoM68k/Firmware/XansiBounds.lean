import RoscoM68k.Firmware.XansiParser

namespace RoscoM68k

namespace Screen

variable {s : Screen}

-- What indexes the fonts.
abbrev fonts (s : Screen) : List Nat × Nat := (s.tileCtrl,s.curFont)

structure Fonts (s : Screen) : Prop where
  four : s.tileCtrl.length = 4
  chosen : s.curFont < 4

theorem Fonts.of_eq {s' : Screen} (h : s.Fonts) (he : s'.fonts = s.fonts) : s'.Fonts := by
  obtain ⟨ht,hc⟩ := Prod.ext_iff.mp he
  exact ⟨by rw [show s'.tileCtrl = s.tileCtrl from ht]; exact h.four,
    by rw [show s'.curFont = s.curFont from hc]; exact h.chosen⟩

theorem fonts_ite {c : Prop} [Decidable c] {s' : Screen} {f : List Nat × Nat} (h : s.fonts = f)
    (h' : s'.fonts = f) : (if c then s else s').fonts = f := by
  by_cases hc : c
  · rw [if_pos hc,h]
  · rw [if_neg hc,h']

@[simp] theorem fonts_emit (op : ScreenOp) : (s.emit op).fonts = s.fonts := rfl

@[simp] theorem fonts_calcCurAddr : s.calcCurAddr.fonts = s.fonts := rfl

@[simp] theorem fonts_putCell (c : UInt8) : (s.putCell c).fonts = s.fonts := rfl

@[simp] theorem fonts_returnCarriage : s.returnCarriage.fonts = s.fonts := by
  cases s
  rfl

@[simp] theorem fonts_clear (a b : Nat) : (s.clear a b).fonts = s.fonts := fonts_ite rfl rfl

@[simp] theorem fonts_checkLcf : s.checkLcf.fonts = s.fonts := by
  cases s
  exact fonts_ite (fonts_ite rfl rfl) rfl

@[simp] theorem fonts_endOfLine : s.endOfLine.fonts = s.fonts := by
  cases s
  exact fonts_ite (fonts_ite rfl rfl) rfl

@[simp] theorem fonts_drawchar (c : UInt8) : (s.drawchar c).fonts = s.fonts := by
  rw [drawchar,fonts_endOfLine,fonts_putCell,fonts_checkLcf]

@[simp] theorem fonts_clearMore (n : Nat) : (s.clearMore n).fonts = s.fonts :=
  fonts_ite (fonts_clear _ _) rfl

@[simp] theorem fonts_cls : s.cls.fonts = s.fonts := fonts_clear _ _

@[simp] theorem fonts_eraseCursor : s.eraseCursor.fonts = s.fonts := fonts_ite rfl rfl

@[simp] theorem fonts_afterCtrl : s.afterCtrl.fonts = s.fonts := by
  cases s
  exact fonts_ite rfl rfl

theorem fonts_backspace : s.backspace.fonts = s.fonts := by
  cases s
  exact fonts_ite rfl rfl

theorem fonts_tab : s.tab.fonts = s.fonts := by
  cases s
  exact fonts_ite rfl rfl

theorem fonts_lineFeed : s.lineFeed.fonts = s.fonts := by
  cases s
  exact fonts_ite rfl rfl

theorem fonts_verticalTab : s.verticalTab.fonts = s.fonts := by
  cases s
  exact fonts_ite rfl rfl

theorem fonts_ctrl (c : Ctrl) : (s.ctrl c).fonts = s.fonts := by
  cases c with
  | bel => rfl
  | bs => exact fonts_backspace
  | ht => rw [ctrl,fonts_afterCtrl,fonts_tab]
  | lf => rw [ctrl,fonts_afterCtrl,fonts_lineFeed]
  | vt => rw [ctrl,fonts_afterCtrl,fonts_verticalTab]
  | ff => exact fonts_cls
  | cr => rw [ctrl,fonts_afterCtrl,fonts_returnCarriage]
  | other => rfl

theorem reset_some (b : Bool) (h : s.Fonts) : ∃ s', s.reset b = some s' ∧ s'.fonts = s.fonts := by
  have hlt : s.curFont < s.tileCtrl.length := by
    rw [h.four]
    exact h.chosen
  rw [reset,List.getElem?_eq_getElem hlt]
  refine ⟨_,rfl,?_⟩
  rw [fonts_calcCurAddr,fonts_clearMore]
  exact fonts_ite rfl rfl

theorem processchar_some (c : UInt8) (h : s.Fonts) :
    ∃ s', s.processchar c = some s' ∧ s'.Fonts := by
  rw [processchar]
  split
  · exact ⟨_,rfl,h.of_eq (fonts_drawchar c)⟩
  rw [processctrl,detectMode]
  split
  · obtain ⟨s',hs',hf⟩ := reset_some false h
    rw [hs']
    exact ⟨_,rfl,h.of_eq ((fonts_ctrl _).trans hf)⟩
  · exact ⟨_,rfl,h.of_eq (fonts_ctrl _)⟩

theorem videoMode_some (R : Reconfig) (on : Bool) (h : s.Fonts) :
    ∃ s', s.videoMode R on = some s' ∧ s'.Fonts := by
  rw [videoMode]
  generalize (if on = true then 848 else 640) = res
  dsimp only
  split
  · have h' : ({ s with xosera := R (if res = 640 then 0 else 1) s.xosera } : Screen).Fonts :=
      h.of_eq rfl
    obtain ⟨s',hs',hf⟩ := reset_some true h'
    rw [hs']
    exact ⟨_,rfl,h.of_eq (fonts_cls.trans (hf.trans rfl))⟩
  · exact ⟨_,rfl,h⟩

theorem mode_some (R : Reconfig) (question on : Bool) (num : Nat) (h : s.Fonts) :
    ∃ s', s.mode R question on num = some s' ∧ s'.Fonts := by
  rw [mode]
  split
  · split
    · exact videoMode_some R on h
    split
    · exact ⟨_,rfl,h.of_eq rfl⟩
    split
    · exact ⟨_,rfl,h.of_eq fonts_checkLcf⟩
    split
    · exact ⟨_,rfl,h.of_eq rfl⟩
    split
    · exact ⟨_,rfl,h.of_eq rfl⟩
    · exact ⟨_,rfl,h⟩
  · split
    · exact ⟨_,rfl,h.of_eq rfl⟩
    · exact ⟨_,rfl,h⟩

theorem fonts_cursorDown : s.cursorDown.fonts = s.fonts := by
  rw [cursorDown]
  exact fonts_ite (fonts_emit _) rfl

theorem fonts_reverseIndex : s.reverseIndex.fonts = s.fonts := by
  rw [reverseIndex]
  exact fonts_ite (fonts_emit _) rfl

theorem fonts_nextLine : s.nextLine.fonts = s.fonts := by
  rw [nextLine]
  exact fonts_ite (fonts_emit _) rfl

theorem fonts_sgrCode (code : Nat) (col : UInt8) : (s.sgrCode code col).fonts = s.fonts := by
  rw [sgrCode]
  repeat refine fonts_ite rfl ?_
  rfl

end Screen

-- There are four fonts to choose from.
def EscFinal.Chosen : EscFinal → Prop
  | .font n => n < 4
  | _ => True

theorem EscFinal.chosen (c : UInt8) : (ofByte c).Chosen := by
  have hand : c &&& 0x03 ≤ 0x03 := UInt8.and_le_right
  rw [ofByte]
  iterate 4 refine iteInduction (fun _ => trivial) (fun _ => ?_)
  refine iteInduction (fun _ => Nat.lt_succ_of_le hand) (fun _ => ?_)
  iterate 5 refine iteInduction (fun _ => trivial) (fun _ => ?_)
  exact trivial

namespace Xansi

variable {td : Xansi}

-- What is left of a reply: `stop` is its NUL, and the next char is before it.
def Reading (td : Xansi) : Prop :=
  ∃ i stop : Nat, td.sendIndex = i ∧ i < stop ∧ td.sendBuffer[stop]? = some 0 ∧
    ∀ j < stop, td.sendBuffer[j]? ≠ some 0

structure InBounds (td : Xansi) : Prop where
  state : td.state = TSTATE_NORMAL ∨ td.state = TSTATE_ILLEGAL ∨ td.state = TSTATE_ESC ∨
    td.state = TSTATE_CSI
  parms : td.csiParms.length = MAX_CSI_PARMS
  num : td.numParms ≤ MAX_CSI_PARMS
  open_num : td.state = TSTATE_CSI → td.numParms < MAX_CSI_PARMS
  fonts : td.screen.Fonts
  buffer : td.sendBuffer.length = MAX_QUERY_LEN
  reply : td.sendIndex = -1 ∨ td.Reading

-- No index was outside an array, and the bounds hold afterwards.
def Runs (o : Option Xansi) : Prop := ∃ td, o = some td ∧ td.InBounds

theorem runs_some (h : td.InBounds) : Runs (some td) := ⟨td,rfl,h⟩

theorem runs_ite {c : Prop} [Decidable c] {o o' : Option Xansi} (h : c → Runs o)
    (h' : ¬ c → Runs o') : Runs (if c then o else o') := iteInduction h h'

theorem Runs.bind {o : Option Xansi} {f : Xansi → Option Xansi} (h : Runs o)
    (hf : ∀ td, td.InBounds → Runs (f td)) : Runs (o >>= f) := by
  obtain ⟨td,rfl,hb⟩ := h
  exact hf td hb

namespace InBounds

theorem onScreen (h : td.InBounds) {s : Screen} (hs : s.Fonts) : (td.onScreen s).InBounds :=
  { h with fonts := hs }

theorem same (h : td.InBounds) {s : Screen} (hs : s.fonts = td.screen.fonts) :
    (td.onScreen s).InBounds := h.onScreen (h.fonts.of_eq hs)

theorem toNormal (h : td.InBounds) : td.toNormal.InBounds :=
  { h with
    state := .inl rfl
    open_num := fun hs => absurd hs (by simp [Xansi.toNormal,TSTATE_NORMAL,TSTATE_CSI]) }

theorem toIllegal (h : td.InBounds) : td.toIllegal.InBounds :=
  { h with
    state := .inr (.inl rfl)
    open_num := fun hs => absurd hs (by simp [Xansi.toIllegal,TSTATE_ILLEGAL,TSTATE_CSI]) }

theorem beginCsiOrEsc (h : td.InBounds) (c : UInt8) : (td.beginCsiOrEsc c).InBounds where
  state := by
    simp only [Xansi.beginCsiOrEsc]
    split
    · exact .inr (.inr (.inl rfl))
    · exact .inr (.inr (.inr rfl))
  parms := List.length_replicate
  num := Nat.zero_le _
  open_num _ := by
    show 0 < MAX_CSI_PARMS
    decide
  fonts := h.fonts
  buffer := h.buffer
  reply := h.reply

theorem parm_some (h : td.InBounds) {i : Nat} (hi : i < MAX_CSI_PARMS) :
    ∃ v, td.parm i = some v := by
  have hlt : i < td.csiParms.length := by
    rw [h.parms]
    exact hi
  exact ⟨_,List.getElem?_eq_getElem hlt⟩

end InBounds

section Reply

-- The chars go where they belong, and nothing else of the buffer changes.
theorem writeChars_some {buf cs : List UInt8} {i : Nat} (h : i + cs.length ≤ buf.length) :
    ∃ buf', writeChars buf i cs = some buf' ∧ buf'.length = buf.length ∧
      (∀ j < i, buf'[j]? = buf[j]?) ∧ ∀ j < cs.length, buf'[i + j]? = cs[j]? := by
  induction cs generalizing buf i with
  | nil => exact ⟨buf,rfl,rfl,fun _ _ => rfl,fun j hj => absurd hj (Nat.not_lt_zero j)⟩
  | cons c cs ih =>
    rw [List.length_cons] at h
    have hroom : i + 1 + cs.length ≤ (buf.set i c).length := by
      rw [List.length_set]
      omega
    obtain ⟨buf',he,hlen,hlow,hcs⟩ := ih hroom
    rw [List.length_set] at hlen
    refine ⟨buf',by rw [writeChars,if_pos (by omega)]; exact he,hlen,fun j hj => ?_,fun j hj => ?_⟩
    · rw [hlow j (by omega),List.getElem?_set_ne (by omega)]
    · rcases Nat.eq_zero_or_pos j with rfl | hpos
      · rw [Nat.add_zero,hlow i (by omega),List.getElem?_set_self (by omega)]
        rfl
      · obtain ⟨k,rfl⟩ := Nat.exists_eq_add_of_lt hpos
        rw [Nat.zero_add,List.length_cons] at hj
        have hk := hcs k (by omega)
        rw [Nat.zero_add,List.getElem?_cons_succ,← hk]
        congr 1
        omega

-- The first NUL of a text that ends with one.
theorem first_nul (bs : List UInt8) : ∃ stop ≤ bs.length, (bs ++ [0])[stop]? = some 0 ∧
    ∀ j < stop, (bs ++ [0])[j]? ≠ some 0 := by
  induction bs with
  | nil => exact ⟨0,le_rfl,rfl,fun j hj => absurd hj (Nat.not_lt_zero j)⟩
  | cons b bs ih =>
    by_cases hb : b = 0
    · exact ⟨0,Nat.zero_le _,by rw [hb]; rfl,fun j hj => absurd hj (Nat.not_lt_zero j)⟩
    · obtain ⟨stop,hle,hnul,hbefore⟩ := ih
      refine ⟨stop + 1,Nat.succ_le_succ hle,hnul,fun j hj => ?_⟩
      cases j with
      | zero => exact fun hq => hb (Option.some.inj hq)
      | succ j => exact hbefore j (by omega)

-- A reply of at most 15 chars fits, and its first char is read before its NUL.
theorem InBounds.sendReply_runs (h : td.InBounds) {bs : List UInt8} {c : UInt8} (hc : c ≠ 0)
    (hlen : bs.length < 15) : Runs (td.sendReply (c :: bs)) := by
  have hroom : 0 + (c :: bs ++ [0]).length ≤ td.sendBuffer.length := by
    rw [h.buffer]
    simp only [List.length_append,List.length_cons,List.length_nil,MAX_QUERY_LEN]
    omega
  obtain ⟨buf,he,hbuf,-,hcs⟩ := writeChars_some hroom
  obtain ⟨stop,hle,hnul,hbefore⟩ := first_nul (c :: bs)
  have hat : ∀ j ≤ stop, buf[j]? = (c :: bs ++ [0])[j]? := by
    intro j hj
    have := hcs j (by
      simp only [List.length_append,List.length_cons,List.length_nil] at hle ⊢
      omega)
    rwa [Nat.zero_add] at this
  have hpos : 0 < stop := by
    rcases Nat.eq_zero_or_pos stop with h0 | hpos
    · rw [h0] at hnul
      exact absurd (Option.some.inj hnul) hc
    · exact hpos
  rw [Xansi.sendReply,he]
  refine ⟨_,rfl,{ h with buffer := hbuf.trans h.buffer, reply := .inr ?_ }⟩
  exact ⟨0,stop,rfl,hpos,(hat stop le_rfl).trans hnul,
    fun j hj => by rw [hat j hj.le]; exact hbefore j hj⟩

-- RECVQUERY reads a char of the reply before its NUL, and then the one behind it.
theorem InBounds.recvquery_some (h : td.InBounds) :
    ∃ c td', td.recvquery = some (c,td') ∧ td'.InBounds ∧ (td.sendIndex ≠ -1 → c ≠ 0) := by
  rw [Xansi.recvquery]
  rcases h.reply with hnone | ⟨i,stop,hi,hlt,hnul,hbefore⟩
  · rw [if_neg (by omega)]
    exact ⟨0,td,rfl,h,fun hne => absurd hnone hne⟩
  · obtain ⟨hstop,-⟩ := List.getElem?_eq_some_iff.mp hnul
    rw [if_pos (by omega),hi]
    have hread : td.sendBuffer[(i : Int).toNat]? = some td.sendBuffer[i] :=
      List.getElem?_eq_getElem (by omega)
    have hnext : td.sendBuffer[((i : Int) + 1).toNat]? = some td.sendBuffer[i + 1] :=
      List.getElem?_eq_getElem (by omega)
    have hc : td.sendBuffer[i] ≠ 0 := fun hq => hbefore i hlt (by rw [← hq]; exact hread)
    rw [hread,hnext]
    refine ⟨_,_,rfl,{ h with reply := ?_ },fun _ => hc⟩
    by_cases hend : td.sendBuffer[i + 1] = 0
    · exact .inl (if_pos hend)
    · refine .inr ⟨i + 1,stop,(if_neg hend).trans (by push_cast; rfl),?_,hnul,hbefore⟩
      by_contra hno
      have hs : stop = i + 1 := by omega
      subst hs
      exact hend (Option.some.inj (hnext.symm.trans hnul))

theorem length_strDec (n : Nat) : (strDec n).length ≤ 3 := by
  simp only [strDec,List.length_append]
  split
  · split
    · simp
    · simp
  · split
    · simp
    · simp

end Reply

section Parser

variable {R : Reconfig} {i : Nat}

theorem Fonts.set {s : Screen} (h : s.Fonts) (n v : Nat) :
    ({ s with tileCtrl := s.tileCtrl.set n v } : Screen).Fonts where
  four := List.length_set.trans h.four
  chosen := h.chosen

namespace InBounds

theorem processEsc_runs (h : td.InBounds) (c : UInt8) : Runs (td.processEsc c) := by
  have hn := h.toNormal
  rw [Xansi.processEsc]
  cases hc : EscFinal.ofByte c with
  | csi => exact runs_some (hn.beginCsiOrEsc c)
  | ris =>
    have hcleared : (td.toNormal.screen.setFlags {}).Fonts := hn.fonts.of_eq rfl
    obtain ⟨s,hs,hf⟩ := Screen.reset_some true hcleared
    dsimp only
    rw [hs]
    exact runs_some (hn.same (Screen.fonts_cls.trans (hf.trans rfl)))
  | decsc => exact runs_some (hn.same rfl)
  | decrc => exact runs_some (hn.same rfl)
  | font n =>
    have hfont : ({ td.toNormal.screen with curFont := n } : Screen).Fonts :=
      ⟨hn.fonts.four,by have := EscFinal.chosen c; rwa [hc] at this⟩
    obtain ⟨s,hs,hf⟩ := Screen.reset_some false hfont
    dsimp only
    rw [hs]
    exact runs_some (hn.onScreen (hfont.of_eq hf))
  | ind => exact runs_some (hn.same Screen.fonts_cursorDown)
  | ri => exact runs_some (hn.same Screen.fonts_reverseIndex)
  | nel => exact runs_some (hn.same Screen.fonts_nextLine)
  | id => exact hn.sendReply_runs (by decide) (by decide)
  | del =>
    refine runs_some { hn with state := .inr (.inr (.inl rfl)), open_num := fun hs => ?_ }
    exact absurd hs (by simp [TSTATE_ESC,TSTATE_CSI])
  | other => exact runs_some hn

theorem roscoCmd_runs (h : td.InBounds) (i : Nat) : Runs (td.roscoCmd i) := by
  refine runs_ite (fun hi => ?_) (fun _ => runs_some h)
  have hnum := h.num
  obtain ⟨cmd,hcmd⟩ := h.parm_some (i := i + 1) (by omega)
  obtain ⟨n,hn⟩ := h.parm_some (i := i + 2) (by omega)
  obtain ⟨p,hp⟩ := h.parm_some (i := i + 3) (by omega)
  rw [hcmd,hn,hp]
  refine runs_ite (fun _ => runs_some (h.same ?_)) (fun _ => ?_)
  · exact Screen.fonts_ite rfl (Screen.fonts_ite rfl (Screen.fonts_ite rfl rfl))
  refine runs_ite (fun _ => runs_ite (fun hb => ?_) (fun _ => runs_some h)) (fun _ => ?_)
  · obtain ⟨g,hg⟩ := h.parm_some (i := i + 4) (by omega)
    obtain ⟨b,hb⟩ := h.parm_some (i := i + 5) (by omega)
    rw [hg,hb]
    exact runs_some (h.same rfl)
  refine runs_ite (fun _ => runs_ite (fun hfont => ?_) (fun _ => runs_some h)) (fun _ => ?_)
  · rw [if_pos (by rw [h.fonts.four]; exact hfont)]
    exact runs_some (h.onScreen (Fonts.set h.fonts n p))
  refine runs_ite (fun _ => runs_some (h.same (Screen.fonts_ite rfl rfl))) (fun _ => ?_)
  refine runs_ite (fun _ => runs_some (h.same ?_)) (fun _ => runs_some h)
  exact Screen.fonts_ite rfl (Screen.fonts_ite rfl rfl)

theorem colorParm_some (h : td.InBounds) (hi : i < MAX_CSI_PARMS) (code : Nat) :
    ∃ c, td.colorParm i code = some c := by
  rw [Xansi.colorParm]
  split
  · exact ⟨_,rfl⟩
  · have hnum := h.num
    obtain ⟨m,hm⟩ := h.parm_some (i := i + 1) (by omega)
    obtain ⟨n,hn⟩ := h.parm_some (i := i + 2) (by omega)
    rw [hm,hn]
    show ∃ c, (if m ≠ 5 then _ else _) = some c
    split
    · exact ⟨_,rfl⟩
    · exact ⟨_,rfl⟩

-- Only colors below 8 index the table.
theorem vgaColor_some (code : Nat) (col : UInt8) : ∃ r, vgaColor code col = some r := by
  rw [vgaColor]
  split
  · rename_i h
    have hlt : col.toNat < ansiToVgaColor.length := h.2
    rw [List.getElem?_eq_getElem hlt]
    exact ⟨_,rfl⟩
  · exact ⟨_,rfl⟩

theorem sgrSwitch_runs (h : td.InBounds) (i code : Nat) (col : UInt8) :
    Runs (td.sgrSwitch i code col) := by
  rw [Xansi.sgrSwitch]
  split
  · exact h.roscoCmd_runs i
  · exact runs_some (h.same (Screen.fonts_sgrCode _ _))

theorem sgrParm_runs (h : td.InBounds) (hi : i < MAX_CSI_PARMS) :
    ∃ stop td', td.sgrParm i = some (stop,td') ∧ td'.InBounds := by
  obtain ⟨code,hcode⟩ := h.parm_some hi
  obtain ⟨col,hcol⟩ := h.colorParm_some hi code
  obtain ⟨⟨code',col'⟩,hvga⟩ := vgaColor_some code col
  obtain ⟨td',htd,hb⟩ := h.sgrSwitch_runs i code' col'
  rw [Xansi.sgrParm,hcode]
  simp only [Option.bind_eq_bind,Option.bind_some,hcol,hvga,htd]
  exact ⟨_,_,rfl,hb.same rfl⟩

-- By induction on the number of parameters left.
theorem sgrLoop_runs (h : td.InBounds) {k : Nat} (hk : i + k ≤ MAX_CSI_PARMS) :
    Runs (td.sgrLoop i k) := by
  induction k generalizing td i with
  | zero => exact runs_some h
  | succ k ih =>
    obtain ⟨stop,td',he,hb⟩ := h.sgrParm_runs (i := i) (by omega)
    rw [Xansi.sgrLoop,he]
    show Runs (if stop = true then some td' else td'.sgrLoop (i + 1) k)
    split
    · exact runs_some hb
    · exact ih hb (by omega)

theorem sgr_runs (h : td.InBounds) : Runs td.sgr := by
  rw [Xansi.sgr]
  by_cases h0 : td.numParms = 0
  · rw [if_pos h0]
    have hb : ({ td with numParms := 1 } : Xansi).InBounds :=
      { h with
        num := (by decide : 1 ≤ MAX_CSI_PARMS)
        open_num := fun _ => (by decide : 1 < MAX_CSI_PARMS) }
    exact hb.sgrLoop_runs (by decide : 0 + 1 ≤ MAX_CSI_PARMS)
  · rw [if_neg h0]
    exact h.sgrLoop_runs (by rw [Nat.zero_add]; exact h.num)

theorem reportStatus_runs (h : td.InBounds) (num : Nat) : Runs (td.reportStatus num) := by
  rw [Xansi.reportStatus]
  split
  · exact h.sendReply_runs (by decide) (by decide)
  split
  · refine h.sendReply_runs (by decide) ?_
    have hy := length_strDec (td.screen.y + 1)
    have hx := length_strDec (td.screen.x + 1)
    simp only [List.length_append,List.length_cons,List.length_nil,List.append_eq]
    omega
  · exact runs_some h

theorem identify_runs (h : td.InBounds) (num : Nat) : Runs (td.identify num) := by
  rw [Xansi.identify]
  split
  · split
    · exact h.sendReply_runs (by decide) (by decide)
    split
    · refine h.sendReply_runs (by decide) ?_
      have h1 := length_strDec 68
      have h2 : (strDec XANSI_TERMINAL_REVISION).length = 1 := rfl
      simp only [List.length_append,List.length_cons,List.length_nil,List.append_eq,h2]
      omega
    · exact runs_some h
  · exact runs_some h

theorem csiFinal_runs (h : td.InBounds) (numZ : Nat) (f : CsiFinal) :
    Runs (td.csiFinal R numZ f) := by
  cases f with
  | cuu => exact runs_some (h.same rfl)
  | cud => exact runs_some (h.same rfl)
  | cuf => exact runs_some (h.same rfl)
  | cub => exact runs_some (h.same rfl)
  | cup =>
    obtain ⟨col,hcol⟩ := h.parm_some (i := 1) (by decide)
    obtain ⟨row,hrow⟩ := h.parm_some (i := 0) (by decide)
    rw [Xansi.csiFinal,hcol,hrow]
    exact runs_some (h.same rfl)
  | mode on =>
    obtain ⟨s,hs,hf⟩ := Screen.mode_some R (td.intermediateChar = 0x3f) on
      (if numZ = 0 then 1 else numZ) h.fonts
    rw [Xansi.csiFinal,hs]
    exact runs_some (h.onScreen hf)
  | dsr => exact h.reportStatus_runs numZ
  | da => exact h.identify_runs numZ
  | scp => exact runs_some (h.same rfl)
  | rcp => exact runs_some (h.same rfl)
  | ed =>
    refine runs_some (h.same (Screen.fonts_ite (Screen.fonts_clear _ _) ?_))
    exact Screen.fonts_ite (Screen.fonts_clear _ _) (Screen.fonts_ite (Screen.fonts_clear _ _) rfl)
  | el =>
    refine runs_some (h.same (Screen.fonts_ite (Screen.fonts_clear _ _) ?_))
    exact Screen.fonts_ite (Screen.fonts_clear _ _) (Screen.fonts_ite (Screen.fonts_clear _ _) rfl)
  | sgr => exact h.sgr_runs
  | other => exact runs_some h

theorem processCsi_runs (h : td.InBounds) (c : UInt8) : Runs (td.processCsi R c) := by
  obtain ⟨numZ,hz⟩ := h.toNormal.parm_some (i := 0) (by decide)
  obtain ⟨td',he,hb⟩ := h.toNormal.csiFinal_runs (R := R) numZ (.ofByte c)
  rw [Xansi.processCsi,hz]
  simp only [Option.bind_eq_bind,Option.bind_some,he]
  exact runs_some (hb.same rfl)

theorem digit_runs (h : td.InBounds) (hs : td.state = TSTATE_CSI) (d : Nat) :
    Runs (td.digit d) := by
  have hopen := h.open_num hs
  have hset : ∀ {n v : Nat}, n < MAX_CSI_PARMS → n ≠ 0 →
      Runs (({ td with numParms := n } : Xansi).setParm (n - 1) v) := by
    intro n v hn h0
    rw [Xansi.setParm,if_pos (by rw [h.parms]; omega)]
    exact runs_some { h with
      parms := List.length_set.trans h.parms
      num := hn.le
      open_num := fun _ => hn }
  rw [Xansi.digit]
  by_cases h0 : td.numParms = 0
  · obtain ⟨v,hv⟩ := h.parm_some (i := 0) (by decide)
    rw [if_pos h0]
    show Runs (td.parm 0 >>= _)
    rw [hv]
    exact hset (by decide : 1 < MAX_CSI_PARMS) one_ne_zero
  · obtain ⟨v,hv⟩ := h.parm_some (i := td.numParms - 1) (by omega)
    rw [if_neg h0,hv]
    exact hset hopen h0

theorem semicolon_runs (h : td.InBounds) (hs : td.state = TSTATE_CSI) : td.semicolon.InBounds := by
  have hopen := h.open_num hs
  have hnum : (td.numParms + 1) % 256 = td.numParms + 1 := by
    simp only [MAX_CSI_PARMS] at hopen
    omega
  simp only [Xansi.semicolon,hnum]
  split
  · have hb : ({ td.toIllegal with numParms := td.numParms + 1 } : Xansi).InBounds :=
      { h.toIllegal with
        num := hopen
        open_num := fun hq => absurd hq (by simp [Xansi.toIllegal,TSTATE_ILLEGAL,TSTATE_CSI]) }
    exact hb
  · rename_i hlt
    exact { h with
      num := hopen
      open_num := fun _ => not_le.mp hlt }

theorem parseCsi_runs (h : td.InBounds) (hs : td.state = TSTATE_CSI) (c : UInt8) :
    Runs (td.parseCsi R c) := by
  rw [Xansi.parseCsi]
  split
  · exact runs_some h
  split
  · exact runs_some { h with }
  split
  · split
    · exact h.digit_runs hs _
    split
    · exact runs_some (h.semicolon_runs hs)
    split
    · exact runs_some h.toIllegal
    · exact runs_some { h with }
  split
  · exact h.processCsi_runs c
  · exact runs_some h.toIllegal

theorem byState_runs (h : td.InBounds) (c : UInt8) : Runs (td.byState R c) := by
  rw [Xansi.byState]
  split
  · obtain ⟨s,hs,hf⟩ := Screen.processchar_some c h.fonts
    rw [hs]
    exact runs_some (h.onScreen hf)
  split
  · exact runs_some h.toNormal
  split
  · exact h.processEsc_runs c
  split
  · exact h.parseCsi_runs (by assumption) c
  split
  · split
    · exact runs_some h.toNormal
    · exact runs_some h
  · exact runs_some h

theorem next_runs (h : td.InBounds) (c : UInt8) : Runs (td.next R c) := by
  rw [Xansi.next]
  split
  · split
    · exact h.toNormal.byState_runs c
    · exact runs_some (h.beginCsiOrEsc c)
  · exact h.byState_runs c

theorem printLoop_runs (h : td.InBounds) (str : List UInt8) : Runs (td.printLoop R str) := by
  induction str generalizing td with
  | nil => exact runs_some h
  | cons c cs ih =>
    rw [Xansi.printLoop]
    split
    · exact runs_some h
    · exact (h.next_runs c).bind (fun _ hb => ih hb)

theorem print_runs (h : td.InBounds) (str : List UInt8) : Runs (td.print R str) :=
  (h.same Screen.fonts_eraseCursor).printLoop_runs str

theorem printchar_runs (h : td.InBounds) (c : UInt8) : Runs (td.printchar R c) := by
  have he := h.same Screen.fonts_eraseCursor
  rw [Xansi.printchar]
  split
  · exact h.print_runs _
  dsimp only
  split
  · exact runs_some (he.same (Screen.fonts_drawchar 0))
  · exact runs_some he

theorem call_runs (h : td.InBounds) (q : TermCall) : Runs (q.run R td) := by
  cases q with
  | print str => exact h.print_runs str
  | printchar c => exact h.printchar_runs c
  | recvquery =>
    obtain ⟨c,td',he,hb,-⟩ := h.recvquery_some
    rw [TermCall.run,he]
    exact runs_some hb

theorem termCalls_runs (h : td.InBounds) (qs : List TermCall) : Runs (termCalls R td qs) := by
  induction qs generalizing td with
  | nil => exact runs_some h
  | cons q qs ih => exact (h.call_runs q).bind (fun _ hb => ih hb)

end InBounds

theorem xansiCleared_fonts (d : Xosera) : (xansiCleared d).Fonts := ⟨rfl,(by decide : 0 < 4)⟩

theorem xansiInit_runs (d : Xosera) (v : UInt8 × UInt8 × UInt8) : Runs (xansiInit R d v) := by
  rw [xansiInit]
  obtain ⟨s,hs,hf⟩ := Screen.reset_some true (xansiCleared_fonts (R 1 d))
  rw [hs]
  exact runs_some
    { state := .inl rfl
      parms := List.length_replicate
      num := Nat.zero_le _
      open_num := fun _ => (by decide : 0 < MAX_CSI_PARMS)
      fonts := (xansiCleared_fonts _).of_eq hf
      buffer := List.length_replicate
      reply := .inl rfl }

end Parser

end Xansi

end RoscoM68k
