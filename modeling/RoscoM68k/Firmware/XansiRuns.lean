import RoscoM68k.Firmware.XansiCursor

namespace RoscoM68k

-- The codes that SGR acts on: it leaves out what follows 38, 48 and 68.
def actedCodes : List Nat → List Nat
  | [] => []
  | p :: ps => if Xansi.setsDefault p ∨ p = 68 then [p] else p :: actedCodes ps

def TermCall.bytes : TermCall → List UInt8
  | .print str => str
  | .printchar cdata => [cdata]
  | .recvquery => []

namespace Screen

def SaveKept (s : Screen) : Prop := s.saveX < s.cols ∧ s.saveY < s.rows

def RowKept (s : Screen) : Prop := s.y + 1 < s.rows ∨ s.cols ≤ s.rows

instance (s : Screen) : Decidable s.SaveKept := inferInstanceAs (Decidable (_ ∧ _))

instance (s : Screen) : Decidable s.RowKept := inferInstanceAs (Decidable (_ ∨ _))

end Screen

namespace Xansi

-- The byte ends an SGR 68 command.
def Extension (td : Xansi) (c : UInt8) : Prop :=
  td.state = TSTATE_CSI ∧ CsiFinal.ofByte c = .sgr ∧
    68 ∈ actedCodes (td.csiParms.take (max td.numParms 1))

-- The byte keeps the cursor on the screen and its address with it.
structure Keeps (td : Xansi) (c : UInt8) : Prop where
  ctrl : td.state = TSTATE_NORMAL → c < 0x20 → td.screen.flags.passthru = false →
    ∀ s ∈ td.screen.detectMode, s.CtrlKeeps (.ofByte c)
  decrc : td.state = TSTATE_ESC → EscFinal.ofByte c = .decrc → td.screen.SaveKept
  nel : td.state = TSTATE_ESC → EscFinal.ofByte c = .nel → td.screen.RowKept
  rcp : td.state = TSTATE_CSI → CsiFinal.ofByte c = .rcp → td.screen.SaveKept

instance (td : Xansi) (c : UInt8) : Decidable (td.Extension c) :=
  inferInstanceAs (Decidable (_ ∧ _))

instance (td : Xansi) (c : UInt8) : Decidable (td.Keeps c) :=
  decidable_of_iff ((td.state = TSTATE_NORMAL → c < 0x20 → td.screen.flags.passthru = false →
      ∀ s ∈ td.screen.detectMode, s.CtrlKeeps (.ofByte c)) ∧
    (td.state = TSTATE_ESC → EscFinal.ofByte c = .decrc → td.screen.SaveKept) ∧
    (td.state = TSTATE_ESC → EscFinal.ofByte c = .nel → td.screen.RowKept) ∧
    (td.state = TSTATE_CSI → CsiFinal.ofByte c = .rcp → td.screen.SaveKept))
    ⟨fun ⟨h1,h2,h3,h4⟩ => ⟨h1,h2,h3,h4⟩,fun ⟨h1,h2,h3,h4⟩ => ⟨h1,h2,h3,h4⟩⟩

section Runs

variable (P : Xansi → UInt8 → Prop) (R : Reconfig)

-- Every byte that is printed has the property in the state it is printed in.
def EachByte (td : Xansi) : List UInt8 → Prop
  | [] => True
  | c :: cs => c = 0 ∨ P td c ∧ ∀ td' ∈ td.next R c, EachByte td' cs

def EachCall (td : Xansi) : List TermCall → Prop
  | [] => True
  | q :: qs => EachByte P R (td.onScreen td.screen.eraseCursor) q.bytes ∧
      ∀ td' ∈ q.run R td, EachCall td' qs

end Runs

section Decide

variable {P : Xansi → UInt8 → Prop} {R : Reconfig} [∀ td c, Decidable (P td c)]

instance decidableEachByte : (td : Xansi) → (cs : List UInt8) → Decidable (EachByte P R td cs)
  | _, [] => isTrue trivial
  | td, c :: cs =>
    have (td' : Xansi) : Decidable (EachByte P R td' cs) := decidableEachByte td' cs
    inferInstanceAs (Decidable (c = 0 ∨ P td c ∧ ∀ td' ∈ td.next R c, EachByte P R td' cs))

instance decidableEachCall : (td : Xansi) → (qs : List TermCall) → Decidable (EachCall P R td qs)
  | _, [] => isTrue trivial
  | td, q :: qs =>
    have (td' : Xansi) : Decidable (EachCall P R td' qs) := decidableEachCall td' qs
    inferInstanceAs (Decidable (EachByte P R (td.onScreen td.screen.eraseCursor) q.bytes ∧
      ∀ td' ∈ q.run R td, EachCall P R td' qs))

end Decide

section Step

variable {td : Xansi} {R : Reconfig}

-- The cursor is kept, whatever the result is.
def Leaves (o : Option Xansi) : Prop := ∀ td ∈ o, td.screen.Inv

theorem leaves_some (h : td.screen.Inv) : Leaves (some td) := by
  intro td' htd
  cases htd
  exact h

theorem leaves_none : Leaves none := fun _ htd => nomatch htd

theorem leaves_bind {α : Type} {o : Option α} {f : α → Option Xansi}
    (h : ∀ a, o = some a → Leaves (f a)) : Leaves (o >>= f) := by
  cases o with
  | none => exact leaves_none
  | some a => exact h a rfl

theorem leaves_ite {c : Prop} [Decidable c] {o o' : Option Xansi} (h : c → Leaves o)
    (h' : ¬ c → Leaves o') : Leaves (if c then o else o') := iteInduction h h'

theorem sendReply_leaves (h : td.screen.Inv) (bs : List UInt8) : Leaves (td.sendReply bs) :=
  leaves_bind (fun _ _ => leaves_some h)

theorem processEsc_leaves (h : td.screen.Inv) {c : UInt8} (hs : td.state = TSTATE_ESC)
    (hk : td.Keeps c) : Leaves (td.processEsc c) := by
  have hp := h.toPlaced
  rw [Xansi.processEsc]
  cases hc : EscFinal.ofByte c with
  | csi => exact leaves_some h
  | ris =>
    refine leaves_bind (fun s hs => leaves_some ?_)
    have hauto : (td.screen.setFlags {}).Auto := { h.toAuto with }
    obtain ⟨s',hs',h'⟩ := hauto.reset true
    cases hs.symm.trans hs'
    exact h'.toPlaced.cls
  | decsc => exact leaves_some { h with }
  | decrc =>
    obtain ⟨hx,hy⟩ := hk.decrc hs hc
    exact leaves_some (hp.restoreCursor hx hy).calcCurAddr
  | font n =>
    have hn : n < 4 := by
      have hchosen := EscFinal.chosen c
      rwa [hc] at hchosen
    refine leaves_bind (fun s hs => leaves_some ?_)
    have hauto : ({ td.screen with curFont := n } : Screen).Auto := { h.toAuto with font := hn }
    obtain ⟨s',hs',h'⟩ := hauto.reset false
    cases hs.symm.trans hs'
    exact h'
  | ind => exact leaves_some hp.cursorDown.calcCurAddr
  | ri => exact leaves_some hp.reverseIndex.calcCurAddr
  | nel => exact leaves_some (hp.nextLine (hk.nel hs hc)).calcCurAddr
  | id =>
    have hid : td.toNormal.screen.Inv := h
    exact sendReply_leaves hid _
  | del => exact leaves_some h
  | other => exact leaves_some h

section Sgr

theorem inv_sgrCode {s : Screen} (h : s.Inv) (code : Nat) (col : UInt8) :
    (s.sgrCode code col).Inv := by
  rw [Screen.sgrCode]
  iterate 11 refine iteInduction (fun _ => { h with }) (fun _ => ?_)
  exact h

theorem vgaColor_ne {code code' : Nat} {col col' : UInt8} (h : code ≠ 68)
    (he : vgaColor code col = some (code',col')) : code' ≠ 68 := by
  rw [vgaColor] at he
  split at he
  · obtain ⟨c,-,hc⟩ := Option.bind_eq_some_iff.mp he
    have h1 := congrArg Prod.fst (Option.some.inj hc)
    dsimp only at h1
    split at h1
    · split at h1
      · omega
      · omega
    · omega
  · cases he
    exact h

-- Codes other than 68 are about the colors of the screen.
theorem sgrParm_onScreen {i code : Nat} (hc : td.parm i = some code) (h68 : code ≠ 68)
    {stop : Bool} {td' : Xansi} (he : td.sgrParm i = some (stop,td')) :
    (∃ code' col', td' = td.onScreen (td.screen.sgrCode code' col').effectiveColor) ∧
      (stop = false → setsDefault code = false) := by
  obtain ⟨code0,hc0,he⟩ := Option.bind_eq_some_iff.mp he
  cases hc.symm.trans hc0
  obtain ⟨col,-,he⟩ := Option.bind_eq_some_iff.mp he
  obtain ⟨⟨code',col'⟩,hvga,he⟩ := Option.bind_eq_some_iff.mp he
  have hne := vgaColor_ne h68 hvga
  dsimp only at he
  rw [Xansi.sgrSwitch,if_neg hne] at he
  cases he
  exact ⟨⟨code',col',rfl⟩,fun hst => (Bool.or_eq_false_iff.mp hst).1⟩

variable {P : Screen → Prop}

-- What a code keeps, the loop keeps, by induction on the number of parameters left.
theorem sgrLoop_keeps (hP : ∀ s code col, P s → P (s.sgrCode code col).effectiveColor)
    (h : P td.screen) {i k : Nat} (h68 : 68 ∉ actedCodes ((td.csiParms.drop i).take k)) :
    ∀ td' ∈ td.sgrLoop i k, td'.state = td.state ∧ P td'.screen := by
  induction k generalizing td i with
  | zero =>
    intro td' he
    cases he
    exact ⟨rfl,h⟩
  | succ k ih =>
    intro td' he
    obtain ⟨⟨stop,td1⟩,hr,he⟩ := Option.bind_eq_some_iff.mp he
    obtain ⟨code,hc,-⟩ := Option.bind_eq_some_iff.mp hr
    obtain ⟨hlt,hat⟩ := List.getElem?_eq_some_iff.mp hc
    rw [List.drop_eq_getElem_cons hlt,hat,List.take_succ_cons,actedCodes] at h68
    have hne : code ≠ 68 := by
      rintro rfl
      simp at h68
    obtain ⟨⟨code',col',h1⟩,hstop⟩ := sgrParm_onScreen hc hne hr
    have hstate : td1.state = td.state := by
      rw [h1]
      rfl
    have hparms : td1.csiParms = td.csiParms := by
      rw [h1]
      rfl
    have hP1 : P td1.screen := by
      rw [h1]
      exact hP td.screen code' col' h
    cases stop with
    | true =>
      cases he
      exact ⟨hstate,hP1⟩
    | false =>
      rw [if_neg (by simp [hstop rfl,hne])] at h68
      rw [← hstate]
      refine ih hP1 ?_ td' he
      rw [hparms]
      exact fun hin => h68 (List.mem_cons_of_mem _ hin)

theorem sgr_keeps (hP : ∀ s code col, P s → P (s.sgrCode code col).effectiveColor)
    (h : P td.screen) (h68 : 68 ∉ actedCodes (td.csiParms.take (max td.numParms 1))) :
    ∀ td' ∈ td.sgr, td'.state = td.state ∧ P td'.screen := by
  rw [Xansi.sgr]
  by_cases h0 : td.numParms = 0
  · rw [if_pos h0]
    rw [h0] at h68
    have hone : P ({ td with numParms := 1 } : Xansi).screen := h
    exact sgrLoop_keeps (i := 0) hP hone h68
  · rw [if_neg h0]
    rw [Nat.max_eq_left (by omega)] at h68
    exact sgrLoop_keeps (i := 0) hP h h68

theorem sgr_leaves (h : td.screen.Inv)
    (h68 : 68 ∉ actedCodes (td.csiParms.take (max td.numParms 1))) : Leaves td.sgr := by
  have hP (s : Screen) (code : Nat) (col : UInt8) (hs : s.Inv) :
      (s.sgrCode code col).effectiveColor.Inv := { inv_sgrCode hs code col with }
  exact fun td' he => (sgr_keeps hP h h68 td' he).2

end Sgr

theorem csiFinal_leaves (h : td.screen.Inv) (numZ : Nat) {f : CsiFinal}
    (hrcp : f = .rcp → td.screen.SaveKept)
    (h68 : f = .sgr → 68 ∉ actedCodes (td.csiParms.take (max td.numParms 1))) :
    ∀ td' ∈ td.csiFinal R numZ f, td'.screen.Placed := by
  have hp := h.toPlaced
  have hsome : ∀ {td1 : Xansi}, td1.screen.Placed → ∀ td' ∈ some td1, td'.screen.Placed := by
    intro td1 h1 td' htd
    cases htd
    exact h1
  have hreply : ∀ {bs : List UInt8}, ∀ td' ∈ td.sendReply bs, td'.screen.Placed :=
    fun td' htd => (sendReply_leaves h _ td' htd).toPlaced
  cases f with
  | cuu => exact hsome (hp.cursorUp _)
  | cud => exact hsome (hp.cursorDownBy _)
  | cuf => exact hsome (hp.cursorRight _)
  | cub => exact hsome (hp.cursorLeft _)
  | cup =>
    intro td' htd
    obtain ⟨col,-,htd⟩ := Option.bind_eq_some_iff.mp htd
    obtain ⟨row,-,htd⟩ := Option.bind_eq_some_iff.mp htd
    exact hsome (hp.cursorPosition row col) td' htd
  | mode on =>
    intro td' htd
    obtain ⟨s,hs,htd⟩ := Option.bind_eq_some_iff.mp htd
    obtain ⟨s',hs',h'⟩ := h.mode R (td.intermediateChar = 0x3f) on (if numZ = 0 then 1 else numZ)
    cases hs.symm.trans hs'
    exact hsome h'.toPlaced td' htd
  | dsr =>
    rw [Xansi.csiFinal,Xansi.reportStatus]
    split
    · exact hreply
    split
    · exact hreply
    · exact hsome hp
  | da =>
    rw [Xansi.csiFinal,Xansi.identify]
    split
    · split
      · exact hreply
      split
      · exact hreply
      · exact hsome hp
    · exact hsome hp
  | scp => exact hsome hp.saveCursor
  | rcp => exact hsome (hp.restoreCursor (hrcp rfl).1 (hrcp rfl).2)
  | ed => exact hsome (hp.eraseDisplay numZ)
  | el => exact hsome (hp.eraseLine numZ)
  | sgr => exact fun td' htd => (sgr_leaves h (h68 rfl) td' htd).toPlaced
  | other => exact hsome hp

theorem processCsi_leaves (h : td.screen.Inv) {c : UInt8} (hs : td.state = TSTATE_CSI)
    (hk : td.Keeps c) (hx : ¬ td.Extension c) : Leaves (td.processCsi R c) := by
  refine leaves_bind (fun numZ _ => leaves_bind (fun td' htd => leaves_some ?_))
  have hn : td.toNormal.screen.Inv := h
  have hplaced := csiFinal_leaves (R := R) hn numZ (f := .ofByte c) (fun hf => hk.rcp hs hf)
    (fun hf hin => hx ⟨hs,hf,hin⟩) td' htd
  exact hplaced.calcCurAddr

theorem parseCsi_leaves (h : td.screen.Inv) {c : UInt8} (hs : td.state = TSTATE_CSI)
    (hk : td.Keeps c) (hx : ¬ td.Extension c) : Leaves (td.parseCsi R c) := by
  rw [Xansi.parseCsi]
  refine leaves_ite (fun _ => leaves_some h) (fun _ => leaves_ite (fun _ => leaves_some h) ?_)
  refine fun _ => leaves_ite (fun _ => leaves_ite (fun _ => ?_) (fun _ => ?_)) (fun _ => ?_)
  · rw [Xansi.digit]
    refine leaves_bind (fun v _ => ?_)
    rw [Xansi.setParm]
    refine leaves_ite (fun _ => leaves_some ?_) (fun _ => leaves_none)
    show (if td.numParms = 0 then { td with numParms := 1 } else td).screen.Inv
    split
    · exact h
    · exact h
  · refine leaves_ite (fun _ => leaves_some ?_) (fun _ => ?_)
    · rw [Xansi.semicolon]
      dsimp only
      split
      · exact h
      · exact h
    · exact leaves_ite (fun _ => leaves_some h) (fun _ => leaves_some h)
  · exact leaves_ite (fun _ => processCsi_leaves h hs hk hx) (fun _ => leaves_some h)

theorem processchar_leaves (h : td.screen.Inv) {c : UInt8} (hs : td.state = TSTATE_NORMAL)
    (hk : td.Keeps c) : ∀ s ∈ td.screen.processchar c, s.Inv := by
  intro s hin
  rw [Screen.processchar] at hin
  by_cases hprint : c ≥ 0x20 ∨ td.screen.flags.passthru = true
  · rw [if_pos hprint] at hin
    cases hin
    exact h.drawchar c
  · rw [if_neg hprint,Screen.processctrl] at hin
    obtain ⟨s1,hs1,hctrl⟩ := Option.bind_eq_some_iff.mp hin
    obtain ⟨s2,hs2,h2⟩ := h.detectMode
    cases hs1.symm.trans hs2
    cases hctrl
    rw [not_or] at hprint
    have hlow : c < 0x20 := by
      by_contra hge
      exact hprint.1 (UInt8.not_lt.mp hge)
    exact h2.ctrl (hk.ctrl hs hlow (Bool.not_eq_true _ ▸ hprint.2) s1 hs1)

theorem byState_leaves (h : td.screen.Inv) {c : UInt8} (hk : td.Keeps c) (hx : ¬ td.Extension c) :
    Leaves (td.byState R c) := by
  rw [Xansi.byState]
  refine leaves_ite (fun hs => ?_) (fun _ => leaves_ite (fun _ => leaves_some h) (fun _ => ?_))
  · refine leaves_bind (fun s hin => leaves_some ?_)
    exact processchar_leaves h hs hk s hin
  refine leaves_ite (fun hs => processEsc_leaves h hs hk) (fun _ => ?_)
  refine leaves_ite (fun hs => parseCsi_leaves h hs hk hx) (fun _ => ?_)
  refine leaves_ite (fun _ => ?_) (fun _ => leaves_some h)
  exact leaves_ite (fun _ => leaves_some h) (fun _ => leaves_some h)

-- What one byte does. An escape that is let through is drawn.
theorem next_leaves (h : td.screen.Inv) {c : UInt8} (hk : td.Keeps c) (hx : ¬ td.Extension c) :
    Leaves (td.next R c) := by
  rw [Xansi.next]
  refine leaves_ite (fun _ => leaves_ite (fun hpass => ?_) (fun _ => leaves_some h)) ?_
  · have hn : td.toNormal.screen.Inv := h
    have hthru : td.screen.flags.passthru = true := hpass.2
    refine byState_leaves hn ⟨fun _ _ hno => ?_,fun hq => ?_,fun hq => ?_,fun hq => ?_⟩ ?_
    · exact absurd (hthru.symm.trans hno) (by decide)
    · exact absurd hq (by decide : TSTATE_NORMAL ≠ TSTATE_ESC)
    · exact absurd hq (by decide : TSTATE_NORMAL ≠ TSTATE_ESC)
    · exact absurd hq (by decide : TSTATE_NORMAL ≠ TSTATE_CSI)
    · exact fun hq => absurd hq.1 (by decide : TSTATE_NORMAL ≠ TSTATE_CSI)
  · exact fun _ => byState_leaves h hk hx

section Exact

theorem else_of_ne {α : Type} {p : Prop} [Decidable p] {a b x : α}
    (h : (if p then a else b) = x) (hne : a ≠ x) : b = x := by
  by_cases hp : p
  · exact absurd ((if_pos hp).symm.trans h) hne
  · exact (if_neg hp).symm.trans h

theorem decrc_byte {c : UInt8} (h : EscFinal.ofByte c = .decrc) : c = 0x38 := by
  iterate 3 replace h := else_of_ne h (by nofun)
  by_contra hc
  rw [if_neg hc] at h
  iterate 6 replace h := else_of_ne h (by nofun)
  cases h

theorem nel_byte {c : UInt8} (h : EscFinal.ofByte c = .nel) : c = 0x45 := by
  iterate 7 replace h := else_of_ne h (by nofun)
  by_contra hc
  rw [if_neg hc] at h
  iterate 2 replace h := else_of_ne h (by nofun)
  cases h

theorem rcp_byte {c : UInt8} (h : CsiFinal.ofByte c = .rcp) : c = 0x75 := by
  iterate 10 replace h := else_of_ne h (by nofun)
  by_contra hc
  rw [if_neg hc] at h
  iterate 3 replace h := else_of_ne h (by nofun)
  cases h

theorem escape_other {c : UInt8} (h : c &&& 0x7f = 0x1b) : Ctrl.ofByte c = .other := by
  rw [Ctrl.ofByte]
  iterate 7
    refine (if_neg ?_).trans ?_
    · rintro rfl
      exact absurd h (by decide)
  rfl

theorem restored_valid {s : Screen} (h : s.restoreCursor.calcCurAddr.CursorValid) : s.SaveKept :=
  ⟨h.x_lt,h.y_lt⟩

theorem nextLine_valid {s : Screen} (hs : s.Placed) (h : s.nextLine.calcCurAddr.CursorValid) :
    s.RowKept := by
  have hy := hs.y_lt
  have hr := hs.rows_le
  have hyu : u16 (s.y + 1) = s.y + 1 := u16_of_lt (by omega)
  rw [Screen.nextLine,hyu] at h
  by_cases hcols : s.y + 1 ≥ s.cols
  · exact .inr (by omega)
  · rw [if_neg hcols] at h
    exact .inl h.y_lt

theorem next_keeps {td' : Xansi} (h : td.screen.Inv) {c : UInt8} (hn : td.next R c = some td')
    (hv : td'.screen.CursorValid) : td.Keeps c := by
  rw [Xansi.next] at hn
  refine ⟨fun hs hlow hpass s hin => ?_,fun hs hc => ?_,fun hs hc => ?_,fun hs hc => ?_⟩
  · by_cases hesc : c &&& 0x7f = 0x1b
    · rw [escape_other hesc]
      trivial
    have hno : ¬ (c ≥ 0x20 ∨ td.screen.flags.passthru = true) := by
      rintro (hge | hp)
      · exact absurd hge (UInt8.not_le.mpr hlow)
      · exact absurd (hp.symm.trans hpass) (by decide)
    obtain ⟨s',hs',h'⟩ := h.detectMode
    cases hin.symm.trans hs'
    rw [if_neg hesc,Xansi.byState,if_pos hs,Screen.processchar,if_neg hno,Screen.processctrl,
      hin] at hn
    cases hn
    exact (h'.ctrl_iff _).mp hv
  · obtain rfl := decrc_byte hc
    rw [if_neg (by decide),Xansi.byState,hs,if_neg (by decide),if_neg (by decide),if_pos rfl,
      Xansi.processEsc,hc] at hn
    cases hn
    exact restored_valid hv
  · obtain rfl := nel_byte hc
    rw [if_neg (by decide),Xansi.byState,hs,if_neg (by decide),if_neg (by decide),if_pos rfl,
      Xansi.processEsc,hc] at hn
    cases hn
    exact nextLine_valid h.toPlaced hv
  · obtain rfl := rcp_byte hc
    rw [if_neg (by decide),Xansi.byState,hs,if_neg (by decide),if_neg (by decide),
      if_neg (by decide),if_pos rfl,Xansi.parseCsi,if_neg (by decide),if_neg (by decide),
      if_neg (by decide),if_pos (by decide),Xansi.processCsi] at hn
    obtain ⟨numZ,-,hn⟩ := Option.bind_eq_some_iff.mp hn
    cases hn
    exact restored_valid hv

-- The bytes that do not keep the cursor are just those after which it is not valid.
theorem next_valid_iff (h : td.screen.Inv) {c : UInt8} (hx : ¬ td.Extension c) {td' : Xansi}
    (hn : td.next R c = some td') : td'.screen.CursorValid ↔ td.Keeps c :=
  ⟨next_keeps h hn,fun hk => (next_leaves h hk hx td' hn).valid⟩

end Exact

theorem inv_eraseCursor {s : Screen} (h : s.Inv) : s.eraseCursor.Inv := by
  rw [Screen.eraseCursor]
  split
  · refine Screen.Inv.emit ?_ trivial
    exact { h with }
  · exact h

-- By induction on the bytes.
theorem printLoop_leaves {str : List UInt8} (h : td.screen.Inv)
    (hk : EachByte Keeps R td str) (hx : EachByte (fun td c => ¬ td.Extension c) R td str) :
    Leaves (td.printLoop R str) := by
  induction str generalizing td with
  | nil => exact leaves_some h
  | cons c cs ih =>
    rw [Xansi.printLoop]
    refine leaves_ite (fun _ => leaves_some h) (fun h0 => leaves_bind (fun td' htd => ?_))
    obtain ⟨hkc,hks⟩ := hk.resolve_left h0
    obtain ⟨hxc,hxs⟩ := hx.resolve_left h0
    exact ih (next_leaves h hkc hxc td' htd) (hks td' htd) (hxs td' htd)

theorem call_leaves {q : TermCall} (h : td.screen.Inv)
    (hk : EachByte Keeps R (td.onScreen td.screen.eraseCursor) q.bytes)
    (hx : EachByte (fun td c => ¬ td.Extension c) R (td.onScreen td.screen.eraseCursor) q.bytes) :
    Leaves (q.run R td) := by
  have he : (td.onScreen td.screen.eraseCursor).screen.Inv := inv_eraseCursor h
  cases q with
  | print str => exact printLoop_leaves he hk hx
  | printchar c =>
    rw [TermCall.run,Xansi.printchar]
    refine leaves_ite (fun h0 => printLoop_leaves he ?_ ?_) (fun _ => ?_)
    · obtain ⟨hkc,-⟩ := hk.resolve_left h0
      exact .inr ⟨hkc,fun _ _ => .inl rfl⟩
    · obtain ⟨hxc,-⟩ := hx.resolve_left h0
      exact .inr ⟨hxc,fun _ _ => .inl rfl⟩
    · exact leaves_ite (fun _ => leaves_some (he.drawchar 0)) (fun _ => leaves_some he)
  | recvquery =>
    intro td' htd
    obtain ⟨⟨c,td1⟩,hr,rfl⟩ := Option.map_eq_some_iff.mp htd
    rw [Xansi.recvquery] at hr
    split at hr
    · obtain ⟨c,-,hr⟩ := Option.bind_eq_some_iff.mp hr
      obtain ⟨n,-,hr⟩ := Option.bind_eq_some_iff.mp hr
      cases hr
      exact h
    · cases hr
      exact h

theorem termCalls_leaves {qs : List TermCall} (h : td.screen.Inv) (hk : EachCall Keeps R td qs)
    (hx : EachCall (fun td c => ¬ td.Extension c) R td qs) : Leaves (termCalls R td qs) := by
  induction qs generalizing td with
  | nil => exact leaves_some h
  | cons q qs ih =>
    refine leaves_bind (fun td' htd => ?_)
    exact ih (call_leaves h hk.1 hx.1 td' htd) (hk.2 td' htd) (hx.2 td' htd)

theorem xansiInit_leaves (R : Reconfig) (d : Xosera) (v : UInt8 × UInt8 × UInt8) :
    Leaves (xansiInit R d v) := by
  have hauto : (xansiCleared (R 1 d)).Auto :=
    { base := rfl
      lineLen := rfl
      linesHigh := rfl
      gfxCtrl := rfl
      tiles := rfl
      font := (by decide : 0 < 4)
      cells := fun _ hop => nomatch hop }
  refine leaves_bind (fun s hs => leaves_some ?_)
  obtain ⟨s',hs',h'⟩ := hauto.reset true
  cases hs.symm.trans hs'
  exact h'

end Step

end Xansi

-- A session from INIT on, and what holds of each of its bytes.
def session (R : Reconfig) (d : Xosera) (v : UInt8 × UInt8 × UInt8) (qs : List TermCall) :
    Option Xansi := do
  let td ← xansiInit R d v
  termCalls R td qs

def EachInput (P : Xansi → UInt8 → Prop) (R : Reconfig) (d : Xosera) (v : UInt8 × UInt8 × UInt8)
    (qs : List TermCall) : Prop := ∀ td ∈ xansiInit R d v, Xansi.EachCall P R td qs

instance (P : Xansi → UInt8 → Prop) [∀ td c, Decidable (P td c)] (R : Reconfig) (d : Xosera)
    (v : UInt8 × UInt8 × UInt8) (qs : List TermCall) : Decidable (EachInput P R d v qs) :=
  inferInstanceAs (Decidable (∀ td ∈ _, Xansi.EachCall P R td qs))

-- A device that does as it is told.
def plainXosera : Xosera := ⟨true,0,0⟩

def plainReconfig : Reconfig := fun config d =>
  { d with
    monres848 := config = 1
    paHvFscale := 0 }

-- The last cell of the screen, and then a new line with one more.
def fullScreen : List TermCall :=
  [.print [0x1b,0x5b,0x33,0x30,0x3b,0x31,0x30,0x36,0x48,0x78],.print [0x0d,0x0a],.printchar 0x79]

-- The carriage return forgets the pending wrap and leaves the address behind the screen.
theorem xansi_cursor_lost : ¬ ∀ (R : Reconfig) (d : Xosera) (v : UInt8 × UInt8 × UInt8)
    (qs : List TermCall), EachInput (fun td c => ¬ td.Extension c) R d v qs →
    ∃ td, session R d v qs = some td ∧ td.screen.CursorValid ∧
      ∀ op ∈ td.screen.ops, op.OnScreen := by
  intro h
  have hx : EachInput (fun td c => ¬ td.Extension c) plainReconfig plainXosera (0x30,0x30,0x30)
      fullScreen := by decide +kernel
  obtain ⟨td,hs,hvalid,-⟩ := h plainReconfig plainXosera (0x30,0x30,0x30) fullScreen hx
  have hend : (session plainReconfig plainXosera (0x30,0x30,0x30) fullScreen).map
      (fun td => (td.screen.curAddr,td.screen.vramBase,td.screen.x,td.screen.y,td.screen.cols,
        td.screen.lcf)) = some (3181,0,1,29,106,false) := by decide +kernel
  rw [hs] at hend
  have hf := Option.some.inj hend
  simp only [Prod.mk.injEq] at hf
  obtain ⟨ha,hb,hx,hy,hc,hl⟩ := hf
  rcases hvalid.addr with haddr | ⟨hlcf,-⟩
  · rw [ha,hb,hx,hy,hc] at haddr
    omega
  · rw [hl] at hlcf
    cases hlcf

-- While every byte keeps the cursor, it is valid after each of them, and no cell has been drawn
-- outside the screen.
theorem xansi_cursor_valid (R : Reconfig) (d : Xosera) (v : UInt8 × UInt8 × UInt8)
    (qs : List TermCall) (hx : EachInput (fun td c => ¬ td.Extension c) R d v qs)
    (hk : EachInput Xansi.Keeps R d v qs) :
    ∃ td, session R d v qs = some td ∧ td.screen.CursorValid ∧
      ∀ op ∈ td.screen.ops, op.OnScreen := by
  obtain ⟨td0,he,hb⟩ := Xansi.xansiInit_runs (R := R) d v
  obtain ⟨td,hrun,-⟩ := hb.termCalls_runs (R := R) qs
  have h0 := Xansi.xansiInit_leaves R d v td0 he
  have h := Xansi.termCalls_leaves h0 (hk td0 he) (hx td0 he) td hrun
  refine ⟨td,?_,h.valid,h.cells⟩
  rw [session,he]
  exact hrun

-- Two lines, a tab and another video mode.
theorem xansi_cursor_valid_two : ∃ td, session plainReconfig plainXosera (0x30,0x30,0x30)
      [.print [0x41,0x0d,0x0a,0x09,0x42],.print [0x1b,0x5b,0x3f,0x33,0x6c],.printchar 0x43] =
      some td ∧ td.screen.CursorValid ∧ ∀ op ∈ td.screen.ops, op.OnScreen :=
  xansi_cursor_valid _ _ _ _ (by decide +kernel) (by decide +kernel)

end RoscoM68k
