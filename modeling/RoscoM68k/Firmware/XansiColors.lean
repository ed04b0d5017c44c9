import RoscoM68k.Firmware.XansiMoves

namespace RoscoM68k

-- An operation without its colour.
def ScreenOp.plain : ScreenOp → ScreenOp
  | .cell addr base limit _ data => .cell addr base limit 0 data
  | .clear start stop _ => .clear start stop 0
  | op => op

namespace Screen

-- The screen without its colours and the attributes that lead to them.
def plain (s : Screen) : Screen :=
  { s with
    defColor := 0
    curColor := 0
    color := 0
    flags := { s.flags with
      bright := false
      dim := false
      reverse := false
      passthru := false }
    ops := s.ops.map ScreenOp.plain }

def drawText (s : Screen) (str : List UInt8) : Screen := str.foldl drawchar s

-- What has been written and scrolled, and where the cursor is, but for the colours.
def SameText (s s' : Screen) : Prop :=
  s.ops.map ScreenOp.plain = s'.ops.map ScreenOp.plain ∧ s.x = s'.x ∧ s.y = s'.y

-- A wrap is pending that the next character scrolls for.
def Scrolls (s : Screen) : Prop := s.lcf = true ∧ s.vramSize ≤ sub16 s.curAddr s.vramBase

-- The address is that of the cursor, or makes no difference because both make it scroll.
def AddrKept (s : Screen) : Prop :=
  s.curAddr = s.calcAddr s.x s.y ∨ s.Scrolls ∧ s.calcCurAddr.Scrolls

variable {s s' : Screen} {str : List UInt8} {c : UInt8}

section Plain

theorem plain_emit (s : Screen) (op : ScreenOp) : (s.emit op).plain = s.plain.emit op.plain := by
  unfold emit plain
  simp

theorem plain_ite {p : Prop} [Decidable p] (s s' : Screen) :
    (if p then s else s').plain = if p then s.plain else s'.plain := apply_ite plain p s s'

theorem plain_checkLcf (s : Screen) : s.checkLcf.plain = s.plain.checkLcf := by
  unfold checkLcf
  rw [plain_ite,plain_ite,plain_emit]
  rfl

theorem plain_drawchar (s : Screen) (c : UInt8) : (s.drawchar c).plain = s.plain.drawchar c := by
  have hput (s : Screen) : (s.putCell c).plain = s.plain.putCell c := by
    unfold putCell
    rw [plain_emit]
    rfl
  have hend (s : Screen) : s.endOfLine.plain = s.plain.endOfLine := by
    unfold endOfLine
    rw [plain_ite,plain_ite]
    rfl
  rw [drawchar,drawchar,hend,hput,plain_checkLcf]

theorem plain_drawText (s : Screen) (str : List UInt8) :
    (s.drawText str).plain = s.plain.drawText str := by
  induction str generalizing s with
  | nil => rfl
  | cons c cs ih =>
    change ((s.drawchar c).drawText cs).plain = (s.plain.drawchar c).drawText cs
    rw [ih,plain_drawchar]

theorem plain_ite_eq {p : Prop} [Decidable p] {t : Screen} (h : s.plain = t.plain)
    (h' : s'.plain = t.plain) : (if p then s else s').plain = t.plain := by
  rw [plain_ite,h,h',ite_self]

theorem plain_sgr (s : Screen) (code : Nat) (col : UInt8) :
    (s.sgrCode code col).effectiveColor.plain = s.plain := by
  change (s.sgrCode code col).plain = s.plain
  rw [sgrCode]
  repeat refine plain_ite_eq rfl ?_
  rfl

theorem sameText_iff : SameText s s' ↔ s.plain.ops = s'.plain.ops ∧ s.plain.x = s'.plain.x ∧
    s.plain.y = s'.plain.y := Iff.rfl

end Plain

section Address

-- The first thing that drawing a character does.
def firstOp (s : Screen) (c : UInt8) : ScreenOp :=
  if s.lcf = true ∧ s.vramSize ≤ sub16 s.curAddr s.vramBase then .scrollUp
  else .cell s.curAddr s.vramBase s.vramEnd s.color c

theorem ops_endOfLine (s : Screen) : s.endOfLine.ops = s.ops := by
  unfold endOfLine
  split_ifs <;> rfl

theorem ops_drawchar (s : Screen) (c : UInt8) :
    ∃ l, (s.drawchar c).ops = s.ops ++ s.firstOp c :: l := by
  rw [drawchar,ops_endOfLine]
  unfold checkLcf firstOp
  by_cases hl : s.lcf = true
  · by_cases ha : s.vramSize ≤ sub16 s.curAddr s.vramBase
    · rw [if_pos hl,if_pos ha,if_pos ⟨hl,ha⟩]
      exact ⟨_,List.append_assoc ..⟩
    · rw [if_pos hl,if_neg ha,if_neg (fun h => ha h.2)]
      exact ⟨[],rfl⟩
  · rw [if_neg hl,if_neg (fun h => hl h.1)]
    exact ⟨[],rfl⟩

theorem ops_drawText (s : Screen) (str : List UInt8) : ∃ l, (s.drawText str).ops = s.ops ++ l := by
  induction str generalizing s with
  | nil => exact ⟨[],(List.append_nil _).symm⟩
  | cons c cs ih =>
    obtain ⟨l,hl⟩ := ih (s.drawchar c)
    obtain ⟨l',hl'⟩ := s.ops_drawchar c
    rw [hl',List.append_assoc] at hl
    exact ⟨_,hl⟩

theorem ops_drawText_cons (s : Screen) (c : UInt8) (cs : List UInt8) :
    ∃ l, (s.drawText (c :: cs)).ops = s.ops ++ s.firstOp c :: l := by
  obtain ⟨l,hl⟩ := (s.drawchar c).ops_drawText cs
  obtain ⟨l',hl'⟩ := s.ops_drawchar c
  rw [hl',List.append_assoc] at hl
  exact ⟨_,hl⟩

theorem calcCurAddr_drawchar (h : s.Scrolls) (h' : s.calcCurAddr.Scrolls) (c : UInt8) :
    s.calcCurAddr.drawchar c = s.drawchar c := by
  have hcheck : s.calcCurAddr.checkLcf = s.checkLcf := by
    rw [checkLcf,checkLcf,if_pos h.1,if_pos h'.1,if_pos h.2,if_pos h'.2]
    rfl
  rw [drawchar,hcheck]
  rfl

theorem AddrKept.drawText (h : s.AddrKept) (c : UInt8) (cs : List UInt8) :
    s.calcCurAddr.drawText (c :: cs) = s.drawText (c :: cs) := by
  rcases h with h | ⟨h1,h2⟩
  · have hsame : s.calcCurAddr = s := by
      unfold calcCurAddr
      rw [← h]
    rw [hsame]
  · have hdraw := calcCurAddr_drawchar h1 h2 c
    change (s.calcCurAddr.drawchar c).drawText cs = _
    rw [hdraw]
    rfl

-- Working the address out anew shows in the text unless it is kept.
theorem addrKept_of_drawText (h : (s.drawText (c :: str)).ops =
    (s.calcCurAddr.drawText (c :: str)).ops) : s.AddrKept := by
  obtain ⟨l,hl⟩ := s.ops_drawText_cons c str
  obtain ⟨l',hl'⟩ := s.calcCurAddr.ops_drawText_cons c str
  rw [hl,hl'] at h
  have hfirst : s.firstOp c = s.calcCurAddr.firstOp c :=
    (List.cons.inj (List.append_cancel_left h)).1
  unfold firstOp at hfirst
  split_ifs at hfirst with h1 h2
  · exact .inr ⟨h1,h2⟩
  · injection hfirst with ha
    exact .inl ha

theorem sameText_drawText (hp : s'.plain = s.calcCurAddr.plain) (str : List UInt8) :
    SameText (s.drawText str) (s'.drawText str) ↔ str = [] ∨ s.AddrKept := by
  have hkept : s.plain.AddrKept ↔ s.AddrKept := Iff.rfl
  rw [sameText_iff,plain_drawText,plain_drawText,hp,← hkept]
  cases str with
  | nil => exact iff_of_true ⟨rfl,rfl,rfl⟩ (.inl rfl)
  | cons c cs =>
    rw [or_iff_right (List.cons_ne_nil c cs)]
    constructor
    · exact fun h => addrKept_of_drawText h.1
    · intro h
      have hsame := h.drawText c cs
      change _ = (s.plain.calcCurAddr.drawText (c :: cs)).ops ∧
        _ = (s.plain.calcCurAddr.drawText (c :: cs)).x ∧
        _ = (s.plain.calcCurAddr.drawText (c :: cs)).y
      rw [hsame]
      exact ⟨rfl,rfl,rfl⟩

theorem addrKept_eraseCursor (s : Screen) : s.eraseCursor.AddrKept ↔ s.AddrKept := by
  unfold eraseCursor
  split <;> rfl

end Address
end Screen

def IsText (str : List UInt8) : Prop := ∀ c ∈ str, 0x20 ≤ c ∧ c ≤ 0x7e

namespace Xansi

open Screen

variable {R : Reconfig} {td : Xansi} {intro params rest str : List UInt8} {c : UInt8} {n : Nat}
  {L : List Nat}

section Text

structure TextByte (c : UInt8) : Prop where
  nonzero : c ≠ 0
  plain : c &&& 0x7f ≠ 0x1b
  shown : c ≥ 0x20

theorem text_byte (h : 0x20 ≤ c ∧ c ≤ 0x7e) : TextByte c := by
  have hall : ∀ c : UInt8, 0x20 ≤ c ∧ c ≤ 0x7e → (c ≠ 0 ∧ c &&& 0x7f ≠ 0x1b) :=
    byte_all (by decide +kernel)
  obtain ⟨h0,hesc⟩ := hall c h
  exact ⟨h0,hesc,h.1⟩

theorem printLoop_text (hs : td.state = TSTATE_NORMAL) (ht : IsText str) :
    td.printLoop R str = some (td.onScreen (td.screen.drawText str)) := by
  induction str generalizing td with
  | nil => rfl
  | cons c cs ih =>
    have hb := text_byte (ht c List.mem_cons_self)
    have hnext : td.next R c = some (td.onScreen (td.screen.drawchar c)) := by
      rw [next,if_neg hb.plain,byState,if_pos hs,processchar,if_pos (.inl hb.shown)]
      rfl
    rw [printLoop_cons hb.nonzero hnext]
    have hs' : (td.onScreen (td.screen.drawchar c)).state = TSTATE_NORMAL := hs
    exact ih hs' (fun c hc => ht c (List.mem_cons_of_mem _ hc))

end Text

section Illegal

theorem printLoop_illegal (hp : IsParms params) :
    td.toIllegal.printLoop R (params ++ rest) = td.toIllegal.printLoop R rest := by
  induction params with
  | nil => rfl
  | cons c cs ih =>
    have hall : ∀ c : UInt8, (0x30 ≤ c ∧ c ≤ 0x39) ∨ c = 0x3b →
        c ≠ 0 ∧ c &&& 0x7f ≠ 0x1b ∧ ¬ (c = 0x18 ∨ c = 0x1a) ∧ ¬ (0x40 ≤ c ∧ c < 0x80) :=
      byte_all (by decide +kernel)
    obtain ⟨h0,hesc,hcan,hend⟩ := hall c (hp c List.mem_cons_self)
    have hst : td.toIllegal.state = TSTATE_ILLEGAL := rfl
    have hnext : td.toIllegal.next R c = some td.toIllegal := by
      rw [next,if_neg hesc,byState,hst,if_neg (by decide),if_neg hcan,if_neg (by decide),
        if_neg (by decide),if_pos rfl,if_neg hend]
    rw [List.cons_append,printLoop_cons h0 hnext]
    exact ih (fun c hc => hp c (List.mem_cons_of_mem _ hc))

theorem isParms_intercalate {fs : List (List UInt8)} (h : ∀ f ∈ fs, IsDigits f) :
    IsParms ([(0x3b : UInt8)].intercalate fs) := by
  induction fs with
  | nil => exact fun c hc => nomatch hc
  | cons f fs ih =>
    have hf := h f List.mem_cons_self
    have hfs := ih (fun f hf => h f (List.mem_cons_of_mem _ hf))
    cases fs with
    | nil =>
      rw [List.intercalate_singleton]
      exact fun c hc => .inl (hf c hc)
    | cons g fs =>
      rw [List.intercalate_cons_cons]
      intro c hc
      rcases List.mem_append.mp hc with hc | hc
      · rcases List.mem_append.mp hc with hc | hc
        · exact .inl (hf c hc)
        · exact .inr (List.mem_singleton.mp hc)
      · exact hfs c hc

-- The sixteenth field is one too many.
theorem printLoop_overlong (R : Reconfig) (rest : List UInt8) (hs : td.state = TSTATE_NORMAL)
    (hi : intro ∈ csiIntro) (hp : IsParms params)
    (hlen : 16 ≤ (countedFields (parmFields params)).length) :
    ∃ L, td.printLoop R (intro ++ params ++ rest) =
      (td.reading 16 L).toIllegal.printLoop R rest := by
  obtain ⟨fs,hfs⟩ : ∃ fs, fs = countedFields (parmFields params) := ⟨_,rfl⟩
  have hf : ∀ f ∈ fs, IsDigits f := hfs ▸ countedFields_digits hp.fields
  rw [← hfs] at hlen
  have hne : fs ≠ [] := List.ne_nil_of_length_pos (by omega)
  have htake : (fs.take 15).length = 15 := by
    rw [List.length_take]
    omega
  have hdrop : 0 < (fs.drop 15).length := by
    rw [List.length_drop]
    omega
  have hfirst := printLoop_fields R td []
    ((0x3b :: [(0x3b : UInt8)].intercalate (fs.drop 15)) ++ rest)
    (List.ne_nil_of_length_pos (by omega) : fs.take 15 ≠ [])
    (fun f hm => hf f (List.mem_of_mem_take hm)) (by rw [htake]; decide)
  have hjoin : [(0x3b : UInt8)].intercalate fs = [(0x3b : UInt8)].intercalate (fs.take 15) ++
      (0x3b :: [(0x3b : UInt8)].intercalate (fs.drop 15)) := by
    conv_lhs => rw [← List.take_append_drop 15 fs]
    exact intercalate_append (List.ne_nil_of_length_pos (by omega))
      (List.ne_nil_of_length_pos hdrop)
  refine ⟨(fs.take 15).map fieldValue ++ zeros 1,?_⟩
  rw [printLoop_counted R rest hs hi hp hfs hne,hjoin,List.append_assoc]
  refine hfirst.trans ?_
  rw [htake]
  exact (printLoop_cons (by decide) rfl).trans
    (printLoop_illegal (isParms_intercalate fun f hm => hf f (List.mem_of_mem_drop hm)))

end Illegal

section Colors

-- The codes of a sequence without the 68 extension.
def PlainCodes (params : List UInt8) : Prop :=
  68 ∉ actedCodes ((countedFields (parmFields params)).map fieldValue)

theorem InBounds.reading (h : td.InBounds) (hn : n ≤ 15) (hL : L.length = 16) :
    (td.reading n L).InBounds where
  state := .inr (.inr (.inr rfl))
  parms := hL
  num := (Nat.le_succ_of_le hn : n ≤ 16)
  open_num _ := (Nat.lt_succ_of_le hn : n < 16)
  fonts := h.fonts
  buffer := h.buffer
  reply := h.reply

-- SGR leaves the text as it is but for the colours, and works the address out anew.
theorem next_sgr (R : Reconfig) (h : (td.reading n L).InBounds)
    (h68 : 68 ∉ actedCodes (L.take (max n 1))) :
    ∃ td', (td.reading n L).next R 0x6d = some td' ∧ td'.state = TSTATE_NORMAL ∧
      td'.screen.plain = td.screen.calcCurAddr.plain := by
  obtain ⟨td1,hsgr,-⟩ := h.toNormal.sgr_runs
  have hplain (s : Screen) (code : Nat) (col : UInt8) (hs : s.plain = td.screen.plain) :
      (s.sgrCode code col).effectiveColor.plain = td.screen.plain := (plain_sgr s code col).trans hs
  have hself : (td.reading n L).toNormal.screen.plain = td.screen.plain := rfl
  obtain ⟨hstate,hscreen⟩ := sgr_keeps hplain hself h68 td1 hsgr
  obtain ⟨v,hv⟩ := h.toNormal.parm_some (by decide : 0 < MAX_CSI_PARMS)
  refine ⟨td1.onScreen td1.screen.calcCurAddr,?_,hstate,?_⟩
  · rw [next_final (by decide),processCsi,hv]
    change (td.reading n L).toNormal.sgr.bind _ = _
    rw [hsgr]
    rfl
  · exact congrArg calcCurAddr hscreen

theorem take_codes {fs : List Nat} (h : 68 ∉ actedCodes fs) :
    68 ∉ actedCodes ((fs ++ zeros (16 - fs.length)).take (max fs.length 1)) := by
  cases fs with
  | nil => decide
  | cons f fs =>
    have hmax : max (f :: fs).length 1 = (f :: fs).length := Nat.max_eq_left (Nat.succ_pos _)
    rwa [hmax,List.take_left]

-- The sequence is given up, or it has changed colours only.
theorem printLoop_sgr (R : Reconfig) (rest : List UInt8) (h : td.InBounds)
    (hs : td.state = TSTATE_NORMAL) (hi : intro ∈ csiIntro) (hp : IsParms params)
    (h68 : PlainCodes params) :
    ∃ td' : Xansi, td.printLoop R (intro ++ params ++ [0x6d] ++ rest) = td'.printLoop R rest ∧
      td'.state = TSTATE_NORMAL ∧
      (16 ≤ (countedFields (parmFields params)).length → td'.screen = td.screen) ∧
      ((countedFields (parmFields params)).length < 16 →
        td'.screen.plain = td.screen.calcCurAddr.plain) := by
  rw [List.append_assoc _ [0x6d]]
  by_cases hlen : 16 ≤ (countedFields (parmFields params)).length
  · obtain ⟨L,hloop⟩ := printLoop_overlong R ([0x6d] ++ rest) hs hi hp hlen
    refine ⟨(td.reading 16 L).toNormal,?_,rfl,fun _ => rfl,fun hlt => absurd hlen (by omega)⟩
    rw [hloop]
    exact printLoop_cons (by decide) rfl
  · obtain ⟨fs,hfs⟩ : ∃ fs, fs = countedFields (parmFields params) := ⟨_,rfl⟩
    rw [PlainCodes,← hfs] at h68
    rw [← hfs] at hlen ⊢
    have hloop := printLoop_parms R ([0x6d] ++ rest) hs hi hp hfs (by omega)
    have hmap : fs.length = (fs.map fieldValue).length := (List.length_map _).symm
    rw [hmap] at hloop
    have hL : (fs.map fieldValue ++ zeros (16 - (fs.map fieldValue).length)).length = 16 := by
      rw [List.length_append,zeros,List.length_replicate,← hmap]
      omega
    have hb := h.reading (by omega : (fs.map fieldValue).length ≤ 15) hL
    obtain ⟨td',hnext,hstate,hplain⟩ := next_sgr R hb (take_codes h68)
    refine ⟨td',?_,hstate,fun hge => absurd hge hlen,fun _ => hplain⟩
    rw [hloop]
    exact printLoop_cons (by decide) hnext

end Colors
end Xansi

open Xansi

theorem xansi_colors {R : Reconfig} {td : Xansi} {intro params str : List UInt8}
    (h : td.InBounds) (hs : td.state = TSTATE_NORMAL) (hi : intro ∈ csiIntro)
    (hp : IsParms params) (h68 : PlainCodes params) (ht : IsText str) :
    ∃ td1 td2, td.print R str = some td1 ∧
      td.print R (intro ++ params ++ [0x6d] ++ str) = some td2 ∧
      (td1.screen.SameText td2.screen ↔ str = [] ∨
        16 ≤ (countedFields (parmFields params)).length ∨ td.screen.AddrKept) := by
  have h0 := h.same (Screen.fonts_eraseCursor (s := td.screen))
  have hs0 : (td.onScreen td.screen.eraseCursor).state = TSTATE_NORMAL := hs
  obtain ⟨td',hloop,hs',hover,hcolors⟩ := printLoop_sgr R str h0 hs0 hi hp h68
  refine ⟨_,_,printLoop_text hs0 ht,hloop.trans (printLoop_text hs' ht),?_⟩
  change Screen.SameText (td.screen.eraseCursor.drawText str) (td'.screen.drawText str) ↔ _
  by_cases hlen : 16 ≤ (countedFields (parmFields params)).length
  · have hscreen : td'.screen = td.screen.eraseCursor := hover hlen
    rw [hscreen]
    exact iff_of_true ⟨rfl,rfl,rfl⟩ (.inr (.inl hlen))
  · have hplain : td'.screen.plain = td.screen.eraseCursor.calcCurAddr.plain :=
      hcolors (by omega)
    rw [Screen.sameText_drawText hplain,Screen.addrKept_eraseCursor,or_iff_right hlen]

theorem idle_inBounds {s : Screen} (h : s.Fonts) : (Xansi.idle s).InBounds where
  state := .inl rfl
  parms := rfl
  num := Nat.zero_le _
  open_num _ := (by decide : 0 < MAX_CSI_PARMS)
  fonts := h
  buffer := rfl
  reply := .inl rfl

-- Bold and red, and two characters.
theorem xansi_colors_two : ∃ td1 td2, (Xansi.idle homeScreen).print plainReconfig [0x48,0x69] =
      some td1 ∧ (Xansi.idle homeScreen).print plainReconfig
        ([0x1b,0x5b] ++ [0x31,0x3b,0x33,0x31] ++ [0x6d] ++ [0x48,0x69]) = some td2 ∧
      td1.screen.SameText td2.screen := by
  have hs : (Xansi.idle homeScreen).state = TSTATE_NORMAL := rfl
  have hp : IsParms [0x31,0x3b,0x33,0x31] := by
    simp [IsParms]
  have h68 : PlainCodes [0x31,0x3b,0x33,0x31] := by
    unfold PlainCodes
    decide +kernel
  have ht : IsText [0x48,0x69] := by
    simp [IsText]
  obtain ⟨td1,td2,h1,h2,hsame⟩ := xansi_colors (R := plainReconfig)
    (idle_inBounds ⟨rfl,(by decide : 0 < 4)⟩) hs (by decide : [0x1b,0x5b] ∈ csiIntro) hp h68 ht
  exact ⟨td1,td2,h1,h2,hsame.mpr (.inr (.inr (.inl (by decide))))⟩

-- The last cell of the screen.
def lastCell : List TermCall := [.print [0x1b,0x5b,0x33,0x30,0x3b,0x31,0x30,0x36,0x48,0x78]]

-- Behind it a character scrolls the screen, and behind it and CSI m it does not.
theorem xansi_colors_unscrolled : ∃ td td1 td2,
    session plainReconfig plainXosera (0x30,0x30,0x30) lastCell = some td ∧
      td.state = TSTATE_NORMAL ∧ td.print plainReconfig [0x79] = some td1 ∧
      td.print plainReconfig ([0x1b,0x5b] ++ [] ++ [0x6d] ++ [0x79]) = some td2 ∧
      ¬ td1.screen.SameText td2.screen := by
  have hrun : ((session plainReconfig plainXosera (0x30,0x30,0x30) lastCell).bind fun td =>
      (td.print plainReconfig [0x79]).bind fun td1 =>
        (td.print plainReconfig ([0x1b,0x5b] ++ [] ++ [0x6d] ++ [0x79])).map fun td2 =>
          (td.state,td1.screen.ops.length - td2.screen.ops.length)) = some (0,1) := by
    decide +kernel
  obtain ⟨td,hs,hrun⟩ := Option.bind_eq_some_iff.mp hrun
  obtain ⟨td1,h1,hrun⟩ := Option.bind_eq_some_iff.mp hrun
  obtain ⟨td2,h2,hlen⟩ := Option.map_eq_some_iff.mp hrun
  have hf := Prod.mk.inj hlen
  refine ⟨td,td1,td2,hs,hf.1,h1,h2,fun hsame => ?_⟩
  have hops := congrArg List.length hsame.1
  rw [List.length_map,List.length_map] at hops
  omega

end RoscoM68k
