import RoscoM68k.Firmware.XansiBounds

namespace RoscoM68k

theorem u16_of_lt {n : Nat} (h : n < 65536) : u16 n = n := Nat.mod_eq_of_lt h

theorem sub16_of_le {a b : Nat} (ha : a < 65536) (h : b ≤ a) : sub16 a b = a - b := by
  rw [sub16,u16]
  omega

-- Below zero it is the top of the range.
theorem sub16_of_lt {a b : Nat} (hb : b < 65536) (h : a < b) : sub16 a b = a + 65536 - b := by
  rw [sub16,u16]
  omega

theorem clip_lt {v n : Nat} (h : 0 < n) (hn : n < 65536) : Screen.clip v n < n := by
  rw [Screen.clip]
  split
  · rw [sub16_of_le hn h]
    omega
  · omega

def ScreenOp.OnScreen : ScreenOp → Prop
  | .cell addr base limit _ _ => base ≤ addr ∧ addr < limit
  | _ => True

namespace Screen

variable {s : Screen}

-- The cursor is on the screen and its address belongs to it. It may be a row behind while a wrap
-- is pending.
structure CursorValid (s : Screen) : Prop where
  x_lt : s.x < s.cols
  y_lt : s.y < s.rows
  addr : s.curAddr = s.vramBase + s.y * s.cols + s.x ∨
    s.lcf = true ∧ s.curAddr = s.vramBase + (s.y + 1) * s.cols + s.x

-- The mode as INIT sets it, without what a user could have changed by SGR 68.
structure Auto (s : Screen) : Prop where
  base : s.vramBase = 0
  lineLen : s.lineLen = 0
  linesHigh : s.linesHigh = 0
  gfxCtrl : s.gfxCtrl = 0
  tiles : s.tileCtrl = [0x000f,0x0807,0x0c07,0x1007]
  font : s.curFont < 4
  cells : ∀ op ∈ s.ops, op.OnScreen

-- The cursor is somewhere on a screen of a size that the device can have.
structure Placed (s : Screen) : Prop extends Auto s where
  cols_pos : 0 < s.cols
  cols_le : s.cols ≤ 106
  rows_le : s.rows ≤ 60
  size : s.vramSize = s.rows * s.cols
  limit : s.vramEnd = s.rows * s.cols
  x_lt : s.x < s.cols
  y_lt : s.y < s.rows

-- Behind the last row the address stays at the end of the screen until the next cell.
structure Inv (s : Screen) : Prop extends Placed s where
  addr : s.curAddr = s.y * s.cols + s.x ∨
    s.lcf = true ∧ s.x = 0 ∧ s.y + 1 = s.rows ∧ s.curAddr = s.rows * s.cols

theorem Auto.fonts (h : s.Auto) : s.Fonts := ⟨by rw [h.tiles]; rfl,h.font⟩

theorem Inv.valid (h : s.Inv) : s.CursorValid := by
  refine ⟨h.x_lt,h.y_lt,?_⟩
  rw [h.base]
  rcases h.addr with ha | ⟨hl,hx,hy,ha⟩
  · exact .inl (by omega)
  · exact .inr ⟨hl,by rw [ha,hy,hx]; omega⟩

theorem Auto.emit (h : s.Auto) {op : ScreenOp} (ho : op.OnScreen) : (s.emit op).Auto :=
  { h with
    cells := fun op' ho' => by
      rcases List.mem_append.mp ho' with hin | hin
      · exact h.cells op' hin
      · rw [List.mem_singleton.mp hin]
        exact ho }

theorem Placed.emit (h : s.Placed) {op : ScreenOp} (ho : op.OnScreen) : (s.emit op).Placed :=
  { h with toAuto := h.toAuto.emit ho }

theorem Inv.emit (h : s.Inv) {op : ScreenOp} (ho : op.OnScreen) : (s.emit op).Inv :=
  { h with toPlaced := h.toPlaced.emit ho }

section Address

-- A row ends before the screen does.
theorem row_end {y : Nat} (hy : y < s.rows) : y * s.cols + s.cols ≤ s.rows * s.cols := by
  rw [← Nat.succ_mul]
  exact Nat.mul_le_mul_right _ hy

theorem Placed.size_le (h : s.Placed) : s.rows * s.cols ≤ 6360 :=
  Nat.mul_le_mul h.rows_le h.cols_le

theorem Placed.calcAddr_eq (h : s.Placed) {x y : Nat} (hx : x < s.cols) (hy : y < s.rows) :
    s.calcAddr x y = y * s.cols + x := by
  have hrow := row_end hy
  have hsize := h.size_le
  have hin : u16 (y * s.cols) = y * s.cols := u16_of_lt (by omega)
  rw [calcAddr,h.base,hin,u16_of_lt (by omega)]
  omega

-- Where the cursor is placed, its address is computed from that.
theorem Placed.calcCurAddr (h : s.Placed) : s.calcCurAddr.Inv :=
  { h with addr := .inl (h.calcAddr_eq h.x_lt h.y_lt) }

end Address

section Draw

theorem Inv.checkLcf (h : s.Inv) : s.checkLcf.Inv ∧ s.checkLcf.lcf = false := by
  have hsize := h.size_le
  have hrow := row_end h.y_lt
  rw [Screen.checkLcf]
  by_cases hl : s.lcf = true
  · rw [if_pos hl]
    rcases h.addr with ha | ⟨-,hx,hy,ha⟩
    · have hin : ¬ sub16 s.curAddr s.vramBase ≥ s.vramSize := by
        have hx := h.x_lt
        rw [ha,h.base,h.size,sub16_of_le (by omega) (Nat.zero_le _)]
        omega
      rw [if_neg hin]
      exact ⟨{ h with addr := .inl ha },rfl⟩
    · have hout : sub16 s.curAddr s.vramBase ≥ s.vramSize := by
        rw [ha,h.base,h.size,sub16_of_le (by omega) (Nat.zero_le _)]
        omega
      have hlast : s.rows * s.cols = s.y * s.cols + s.cols := by
        rw [← hy,Nat.succ_mul]
      rw [if_pos hout]
      have hstart : u16 (s.vramBase + sub16 s.vramSize s.cols) = s.y * s.cols + s.x := by
        rw [h.size,h.base,sub16_of_le (by omega) (by omega),u16_of_lt (by omega)]
        omega
      refine ⟨Inv.emit ?_ trivial,rfl⟩
      exact { h with addr := .inl hstart }
  · rw [if_neg hl]
    exact ⟨h,Bool.not_eq_true _ ▸ hl⟩

-- The cursor goes on after a cell, at the end of a line to the next one.
theorem Placed.endOfLine (h : s.Placed) :
    ({ s with
      curAddr := s.y * s.cols + s.x + 1
      x := s.x + 1 } : Screen).endOfLine.Inv := by
  have hsize := h.size_le
  have hrow := row_end h.y_lt
  have hx := h.x_lt
  have hc := h.cols_le
  have hr := h.rows_le
  have hy := h.y_lt
  rw [Screen.endOfLine]
  by_cases hend : s.x + 1 ≥ s.cols
  · rw [if_pos hend]
    by_cases hw : s.flags.noAutowrap = true
    · have hback : sub16 (s.y * s.cols + s.x + 1) 1 = s.y * s.cols + s.x := by
        rw [sub16_of_le (by omega) (by omega)]
        omega
      have hlast : sub16 s.cols 1 = s.x := by
        rw [sub16_of_le (by omega) (by omega)]
        omega
      rw [if_pos hw,hback,hlast]
      exact { h with addr := .inl rfl }
    · rw [if_neg hw]
      have hyu : u16 (s.y + 1) = s.y + 1 := u16_of_lt (by omega)
      by_cases hbot : s.y + 1 ≥ s.rows
      · have hlast : sub16 s.rows 1 = s.y := by
          rw [sub16_of_le (by omega) (by omega)]
          omega
        have hfull : s.rows * s.cols = s.y * s.cols + s.cols := by
          rw [show s.rows = s.y + 1 by omega,Nat.succ_mul]
        rw [hyu,if_pos hbot,hlast]
        exact { h with
          x_lt := h.cols_pos
          addr := .inr ⟨rfl,rfl,by show s.y + 1 = s.rows; omega,by
            show s.y * s.cols + s.x + 1 = s.rows * s.cols
            omega⟩ }
      · rw [hyu,if_neg hbot]
        exact { h with
          x_lt := h.cols_pos
          y_lt := by show s.y + 1 < s.rows; omega
          addr := .inl (by
            show s.y * s.cols + s.x + 1 = (s.y + 1) * s.cols + 0
            rw [Nat.succ_mul]
            omega) }
  · rw [if_neg hend]
    exact { h with
      x_lt := by show s.x + 1 < s.cols; omega
      addr := .inl rfl }

theorem Inv.drawchar (h : s.Inv) (c : UInt8) : (s.drawchar c).Inv := by
  obtain ⟨h1,hl⟩ := h.checkLcf
  rw [Screen.drawchar]
  generalize s.checkLcf = s1 at h1 hl
  have hsize := h1.size_le
  have hrow := row_end h1.y_lt
  have hx := h1.x_lt
  have hc := h1.cols_le
  have ha : s1.curAddr = s1.y * s1.cols + s1.x := by
    rcases h1.addr with ha | ⟨hno,-⟩
    · exact ha
    · rw [hl] at hno
      cases hno
  have hcell : (ScreenOp.cell s1.curAddr s1.vramBase s1.vramEnd s1.color c).OnScreen := by
    show s1.vramBase ≤ s1.curAddr ∧ s1.curAddr < s1.vramEnd
    rw [h1.base,h1.limit]
    omega
  have hxu : u16 (s1.x + 1) = s1.x + 1 := u16_of_lt (by omega)
  have hau : u16 (s1.curAddr + 1) = s1.y * s1.cols + s1.x + 1 := by
    rw [ha,u16_of_lt (by omega)]
  rw [putCell,hxu,hau]
  exact (h1.toPlaced.emit hcell).endOfLine

end Draw

-- The address is a row behind the cursor.
def Wrapped (s : Screen) : Prop := s.lcf = true ∧ s.curAddr ≠ s.calcAddr s.x s.y

instance (s : Screen) : Decidable s.Wrapped := inferInstanceAs (Decidable (_ ∧ _))

-- The control characters that keep the address that of the cursor.
def CtrlKeeps (s : Screen) : Ctrl → Prop
  | .ht => ¬ s.Wrapped ∧ s.x / 8 * 8 + 8 ≤ s.cols
  | .lf => ¬ s.Wrapped
  | .vt => ¬ s.Wrapped
  | .cr => ¬ s.Wrapped
  | _ => True

instance (s : Screen) : (c : Ctrl) → Decidable (s.CtrlKeeps c)
  | .ht => inferInstanceAs (Decidable (_ ∧ _))
  | .lf => inferInstanceAs (Decidable (¬ _))
  | .vt => inferInstanceAs (Decidable (¬ _))
  | .cr => inferInstanceAs (Decidable (¬ _))
  | .bel => isTrue trivial
  | .bs => isTrue trivial
  | .ff => isTrue trivial
  | .other => isTrue trivial

section Control

theorem Inv.addr_of_not_wrapped (h : s.Inv) (hw : ¬ s.Wrapped) :
    s.curAddr = s.y * s.cols + s.x := by
  rcases h.addr with ha | ⟨hl,-⟩
  · exact ha
  · by_contra hne
    refine hw ⟨hl,fun hq => hne ?_⟩
    rw [hq,h.calcAddr_eq h.x_lt h.y_lt]

-- Where the row has become one too many, the screen has scrolled.
theorem Placed.afterCtrl (h : s.Placed) {a x y : Nat} (hx : x < s.cols) (hy : y ≤ s.rows)
    (ha : a = y * s.cols + x) :
    ({ s with
      curAddr := a
      x := x
      y := y } : Screen).afterCtrl.Inv := by
  have hsize := h.size_le
  have hr := h.rows_le
  have hc := h.cols_le
  rw [Screen.afterCtrl]
  by_cases hend : y ≥ s.rows
  · have hpos : 0 < s.rows := (Nat.zero_le _).trans_lt h.y_lt
    have hprev : y * s.cols = (y - 1) * s.cols + s.cols := by
      rw [← Nat.succ_mul,Nat.succ_eq_add_one,Nat.sub_add_cancel (by omega)]
    have hyr : y * s.cols = s.rows * s.cols := by
      rw [show y = s.rows by omega]
    have hyu : sub16 y 1 = y - 1 := sub16_of_le (by omega) (by omega)
    have hau : sub16 a s.cols = (y - 1) * s.cols + x := by
      rw [sub16_of_le (by omega) (by omega)]
      omega
    rw [if_pos hend,hau,hyu]
    refine Inv.emit ?_ trivial
    exact { h with
      x_lt := hx
      y_lt := by show y - 1 < s.rows; omega
      addr := .inl rfl }
  · rw [if_neg hend]
    exact { h with
      x_lt := hx
      y_lt := by show y < s.rows; omega
      addr := .inl ha }

theorem Inv.backspace (h : s.Inv) : s.backspace.Inv := by
  have hsize := h.size_le
  have hrow := row_end h.y_lt
  have hx := h.x_lt
  rw [Screen.backspace]
  by_cases hpos : s.x > 0
  · have ha : s.curAddr = s.y * s.cols + s.x := by
      rcases h.addr with ha | ⟨-,h0,-⟩
      · exact ha
      · omega
    have hau : sub16 s.curAddr 1 = s.y * s.cols + (s.x - 1) := by
      rw [ha,sub16_of_le (by omega) (by omega)]
      omega
    rw [if_pos hpos,hau]
    exact { h with
      x_lt := by show s.x - 1 < s.cols; omega
      addr := .inl rfl }
  · rw [if_neg hpos]
    exact h

theorem Inv.tab (h : s.Inv) (hw : ¬ s.Wrapped) (hfit : s.x / 8 * 8 + 8 ≤ s.cols) :
    s.tab.afterCtrl.Inv := by
  have hsize := h.size_le
  have hrow := row_end h.y_lt
  have hx := h.x_lt
  have hy := h.y_lt
  have hc := h.cols_le
  have ha := h.addr_of_not_wrapped hw
  have hnx : u16 (s.x / 8 * 8 + 8) = s.x / 8 * 8 + 8 := u16_of_lt (by omega)
  have hleft : sub16 s.cols (s.x / 8 * 8 + 8) = s.cols - (s.x / 8 * 8 + 8) :=
    sub16_of_le (by omega) hfit
  rw [Screen.tab,hnx,hleft]
  by_cases hroom : s.cols - (s.x / 8 * 8 + 8) ≥ 8
  · rw [if_pos hroom]
    refine h.toPlaced.afterCtrl (x := s.x / 8 * 8 + 8) (y := s.y) (by omega) hy.le ?_
    rw [ha,sub16_of_le (by omega) (by omega),u16_of_lt (by omega)]
    omega
  · rw [if_neg hroom,show u16 (s.y + 1) = s.y + 1 from u16_of_lt (by have := h.rows_le; omega)]
    refine h.toPlaced.afterCtrl (x := 0) (y := s.y + 1) h.cols_pos hy ?_
    rw [ha,sub16_of_le (by omega) (by omega),u16_of_lt (by omega),Nat.succ_mul]
    omega

theorem Inv.returnCarriage (h : s.Inv) (hw : ¬ s.Wrapped) : s.returnCarriage.afterCtrl.Inv := by
  have hsize := h.size_le
  have hrow := row_end h.y_lt
  have hx := h.x_lt
  refine h.toPlaced.afterCtrl (x := 0) (y := s.y) h.cols_pos h.y_lt.le ?_
  rw [h.addr_of_not_wrapped hw,sub16_of_le (by omega) (by omega)]
  omega

theorem Inv.lineFeed (h : s.Inv) (hw : ¬ s.Wrapped) : s.lineFeed.afterCtrl.Inv := by
  have hsize := h.size_le
  have hrow := row_end h.y_lt
  have hx := h.x_lt
  have hc := h.cols_le
  have hau : u16 (s.curAddr + s.cols) = (s.y + 1) * s.cols + s.x := by
    rw [h.addr_of_not_wrapped hw,u16_of_lt (by omega),Nat.succ_mul]
    omega
  have hyu : u16 (s.y + 1) = s.y + 1 :=
    u16_of_lt (by have := h.rows_le; have := h.y_lt; omega)
  rw [Screen.lineFeed,hau,hyu]
  dsimp only
  by_cases hn : s.flags.newline = true
  · rw [if_pos hn]
    refine h.toPlaced.afterCtrl (x := 0) (y := s.y + 1) h.cols_pos h.y_lt ?_
    dsimp only
    rw [Nat.succ_mul,sub16_of_le (by omega) (by omega)]
    omega
  · rw [if_neg hn]
    exact h.toPlaced.afterCtrl h.x_lt h.y_lt rfl

theorem Inv.verticalTab (h : s.Inv) (hw : ¬ s.Wrapped) : s.verticalTab.afterCtrl.Inv := by
  have hsize := h.size_le
  have hrow := row_end h.y_lt
  have hx := h.x_lt
  have hc := h.cols_le
  have hr := h.rows_le
  have hy := h.y_lt
  have ha := h.addr_of_not_wrapped hw
  rw [Screen.verticalTab]
  dsimp only
  rcases Nat.eq_zero_or_pos s.y with h0 | hpos
  · -- The row comes back from below zero.
    have hyu : sub16 s.y 1 = 65535 := by
      rw [h0]
      rfl
    have hback : u16 (sub16 s.curAddr s.cols + s.cols) = s.y * s.cols + s.x := by
      rw [ha,h0,sub16_of_lt (by omega) (by omega),u16]
      omega
    rw [hyu,if_pos (by omega),hback,show u16 (65535 + 1) = s.y by rw [h0]; rfl]
    have hscroll : (s.emit .scrollDown).Placed := h.toPlaced.emit trivial
    exact hscroll.afterCtrl h.x_lt h.y_lt.le rfl
  · have hprev : s.y * s.cols = (s.y - 1) * s.cols + s.cols := by
      rw [← Nat.succ_mul,Nat.succ_eq_add_one,Nat.sub_add_cancel hpos]
    have hyu : sub16 s.y 1 = s.y - 1 := sub16_of_le (by omega) hpos
    rw [hyu,if_neg (by omega)]
    refine h.toPlaced.afterCtrl (x := s.x) (y := s.y - 1) h.x_lt (by omega) ?_
    rw [ha,sub16_of_le (by omega) (by omega)]
    omega

theorem Placed.cls (h : s.Placed) : s.cls.Inv := by
  have hclear : (s.clear s.vramBase s.vramEnd).Placed := by
    rw [clear]
    split
    · exact h.emit trivial
    · exact h.emit trivial
  have hbase := h.base
  rw [Screen.cls]
  exact { hclear with
    x_lt := hclear.cols_pos
    y_lt := (Nat.zero_le _).trans_lt hclear.y_lt
    addr := .inl (by
      show s.vramBase = _
      rw [hbase]
      simp) }

theorem Inv.ctrl (h : s.Inv) {c : Ctrl} (hk : s.CtrlKeeps c) : (s.ctrl c).Inv := by
  cases c with
  | bel => exact h.emit trivial
  | bs => exact h.backspace
  | ht => exact h.tab hk.1 hk.2
  | lf => exact h.lineFeed hk
  | vt => exact h.verticalTab hk
  | ff => exact h.toPlaced.cls
  | cr => exact h.returnCarriage hk
  | other => exact h

end Control

section Lost

-- The address of a wrapped cursor is the end of the screen.
theorem Inv.wrapped (h : s.Inv) (hw : s.Wrapped) :
    s.lcf = true ∧ s.x = 0 ∧ s.y + 1 = s.rows ∧ s.curAddr = s.y * s.cols + s.cols := by
  rcases h.addr with ha | ⟨hl,hx,hy,ha⟩
  · exact absurd (ha.trans (h.calcAddr_eq h.x_lt h.y_lt).symm) hw.2
  · refine ⟨hl,hx,hy,?_⟩
    rw [ha,← hy,Nat.succ_mul]

-- With the address a row or more behind and nothing pending, the cursor is lost.
theorem lost (hb : s.vramBase = 0) (hpos : 0 < s.cols) (hl : s.lcf = false)
    (ha : s.y * s.cols + s.x + s.cols ≤ s.curAddr) : ¬ s.CursorValid := by
  intro hv
  rcases hv.addr with haddr | ⟨hlcf,-⟩
  · rw [hb] at haddr
    omega
  · rw [hl] at hlcf
    cases hlcf

theorem Placed.lost_afterCtrl (h : s.Placed) {a x y : Nat} (hy : y ≤ s.rows) (ha : a < 65536)
    (hle : y * s.cols + x + s.cols ≤ a) :
    ¬ ({ s with
      curAddr := a
      x := x
      y := y } : Screen).afterCtrl.CursorValid := by
  have hr := h.rows_le
  have hpos := h.y_lt
  have hcols := h.cols_pos
  rw [Screen.afterCtrl]
  by_cases hend : y ≥ s.rows
  · have hprev : y * s.cols = (y - 1) * s.cols + s.cols := by
      rw [← Nat.succ_mul,Nat.succ_eq_add_one,Nat.sub_add_cancel (by omega)]
    have hyu : sub16 y 1 = y - 1 := sub16_of_le (by omega) (by omega)
    have hau : sub16 a s.cols = a - s.cols := sub16_of_le (by omega) (by omega)
    rw [if_pos hend,hau,hyu]
    refine lost h.base hcols rfl ?_
    show (y - 1) * s.cols + x + s.cols ≤ a - s.cols
    omega
  · rw [if_neg hend]
    exact lost h.base hcols rfl hle

theorem Inv.lost_tab (h : s.Inv) (hk : ¬ s.CtrlKeeps .ht) : ¬ s.tab.afterCtrl.CursorValid := by
  have hsize := h.size_le
  have hrow := row_end h.y_lt
  have hx := h.x_lt
  have hy := h.y_lt
  have hc := h.cols_le
  have hr := h.rows_le
  have hnx : u16 (s.x / 8 * 8 + 8) = s.x / 8 * 8 + 8 := u16_of_lt (by omega)
  have hyu : u16 (s.y + 1) = s.y + 1 := u16_of_lt (by omega)
  rw [Screen.tab,hnx,hyu]
  by_cases hfit : s.x / 8 * 8 + 8 ≤ s.cols
  · have hw : s.Wrapped := by
      by_contra hno
      exact hk ⟨hno,hfit⟩
    obtain ⟨-,h0,hlast,ha⟩ := h.wrapped hw
    have hgo : u16 (s.curAddr + sub16 (s.x / 8 * 8 + 8) s.x) = s.y * s.cols + s.cols + 8 := by
      rw [h0,ha,sub16_of_le (by omega) (by omega),u16_of_lt (by omega)]
    have hdown : u16 (sub16 s.curAddr s.x + s.cols) = s.y * s.cols + s.cols + s.cols := by
      rw [h0,ha,sub16_of_le (by omega) (by omega),u16_of_lt (by omega)]
      omega
    rw [hgo,hdown]
    split
    · refine h.toPlaced.lost_afterCtrl hy.le (by omega) ?_
      omega
    · refine h.toPlaced.lost_afterCtrl (y := s.y + 1) hy (by omega) ?_
      rw [Nat.succ_mul]
      omega
  · -- The next stop is behind the last column.
    have hleft : sub16 s.cols (s.x / 8 * 8 + 8) ≥ 8 := by
      rw [sub16_of_lt (by omega) (by omega)]
      omega
    rw [if_pos hleft,Screen.afterCtrl,if_neg (by show ¬ s.y ≥ s.rows; omega)]
    intro hv
    exact hfit hv.x_lt.le

theorem Inv.lost_ctrl (h : s.Inv) {c : Ctrl} (hk : ¬ s.CtrlKeeps c) : ¬ (s.ctrl c).CursorValid := by
  have hsize := h.size_le
  have hrow := row_end h.y_lt
  have hy := h.y_lt
  have hc := h.cols_le
  have hr := h.rows_le
  have hpos := h.cols_pos
  cases c with
  | bel => exact absurd trivial hk
  | bs => exact absurd trivial hk
  | ff => exact absurd trivial hk
  | other => exact absurd trivial hk
  | ht => exact h.lost_tab hk
  | cr =>
    obtain ⟨-,h0,hlast,ha⟩ := h.wrapped (of_not_not hk)
    refine h.toPlaced.lost_afterCtrl (x := 0) (y := s.y) hy.le ?_ ?_
    · rw [h0,ha,sub16_of_le (by omega) (by omega)]
      omega
    · rw [h0,ha,sub16_of_le (by omega) (by omega)]
      omega
  | lf =>
    obtain ⟨-,h0,hlast,ha⟩ := h.wrapped (of_not_not hk)
    have hau : u16 (s.curAddr + s.cols) = s.y * s.cols + s.cols + s.cols := by
      rw [ha,u16_of_lt (by omega)]
    have hyu : u16 (s.y + 1) = s.y + 1 := u16_of_lt (by omega)
    rw [Screen.ctrl,Screen.lineFeed,hau,hyu]
    dsimp only
    split
    · refine h.toPlaced.lost_afterCtrl (x := 0) (y := s.y + 1) hy ?_ ?_
      · dsimp only
        rw [h0,sub16_of_le (by omega) (by omega)]
        omega
      · dsimp only
        rw [h0,sub16_of_le (by omega) (by omega),Nat.succ_mul]
        omega
    · refine h.toPlaced.lost_afterCtrl (y := s.y + 1) hy (by omega) ?_
      rw [h0,Nat.succ_mul]
      omega
  | vt =>
    obtain ⟨-,h0,hlast,ha⟩ := h.wrapped (of_not_not hk)
    rw [Screen.ctrl,Screen.verticalTab]
    rcases Nat.eq_zero_or_pos s.y with hy0 | hypos
    · have hyu : sub16 s.y 1 = 65535 := by
        rw [hy0]
        rfl
      have hback : u16 (sub16 s.curAddr s.cols + s.cols) = s.y * s.cols + s.cols := by
        rw [ha,sub16_of_le (by omega) (by omega),u16_of_lt (by omega)]
        omega
      rw [hyu,if_pos (by show 65535 ≥ s.rows; omega)]
      dsimp only
      rw [hback,show u16 (65535 + 1) = s.y by rw [hy0]; rfl]
      have hlt : s.y * s.cols + s.cols < 65536 := by omega
      have hle : s.y * s.cols + s.x + s.cols ≤ s.y * s.cols + s.cols := by omega
      have hscroll : (s.emit .scrollDown).Placed := h.toPlaced.emit trivial
      exact hscroll.lost_afterCtrl hy.le hlt hle
    · have hprev : s.y * s.cols = (s.y - 1) * s.cols + s.cols := by
        rw [← Nat.succ_mul,Nat.succ_eq_add_one,Nat.sub_add_cancel hypos]
      have hyu : sub16 s.y 1 = s.y - 1 := sub16_of_le (by omega) hypos
      have hau : sub16 s.curAddr s.cols = s.y * s.cols := by
        rw [ha,sub16_of_le (by omega) (by omega)]
        omega
      rw [hyu,hau,if_neg (by show ¬ s.y - 1 ≥ s.rows; omega)]
      refine h.toPlaced.lost_afterCtrl (x := s.x) (y := s.y - 1) (by omega) (by omega) ?_
      omega

-- The control characters that lose a cursor are just the ones that are left out.
theorem Inv.ctrl_iff (h : s.Inv) (c : Ctrl) : (s.ctrl c).CursorValid ↔ s.CtrlKeeps c := by
  constructor
  · intro hv
    by_contra hk
    exact h.lost_ctrl hk hv
  · exact fun hk => (h.ctrl hk).valid

end Lost

section Mode

-- A fraction never takes more than half.
theorem scaled_bounds (n f : Nat) : n / 2 ≤ scaled n f ∧ scaled n f ≤ n := by
  rw [scaled]
  split
  · have hle : n / (f + 1) ≤ n / 2 := Nat.div_le_div_left (by omega) (by omega)
    generalize n / (f + 1) = q at hle ⊢
    omega
  · omega

theorem textLen_bounds {user size tile : Nat} (hu : user = 0) (htile : tile = 8 ∨ tile = 16)
    (hlo : 240 ≤ size) : 0 < textLen user size tile ∧ textLen user size tile ≤ size / 8 := by
  rw [textLen,if_pos hu]
  rcases htile with rfl | rfl
  · omega
  · omega

theorem Auto.tileH (h : s.Auto) {n : Nat} (hn : s.tileCtrl[s.curFont]? = some n) :
    tileH s.gfxCtrl n = 8 ∨ tileH s.gfxCtrl n = 16 := by
  have hfont := h.font
  rw [h.tiles] at hn
  rw [h.gfxCtrl]
  interval_cases s.curFont
  · cases hn
    exact .inr rfl
  · cases hn
    exact .inl rfl
  · cases hn
    exact .inl rfl
  · cases hn
    exact .inl rfl

theorem Auto.setMode (h : s.Auto) {n : Nat} (hn : s.tileCtrl[s.curFont]? = some n) :
    (s.setMode n).Placed := by
  have hw : s.xosera.vidWidth = 848 ∨ s.xosera.vidWidth = 640 := by
    rw [Xosera.vidWidth]
    split
    · exact .inl rfl
    · exact .inr rfl
  have hh : s.xosera.vidHeight = 480 := rfl
  have htw : tileW s.gfxCtrl = 8 := by
    rw [h.gfxCtrl]
    rfl
  obtain ⟨hh1,hh2⟩ := scaled_bounds s.xosera.vidWidth ((s.xosera.paHvFscale &&& 0x0700) >>> 8)
  obtain ⟨hv1,hv2⟩ := scaled_bounds s.xosera.vidHeight (s.xosera.paHvFscale &&& 0x7)
  obtain ⟨hc1,hc2⟩ := textLen_bounds h.lineLen (.inl htw) (show 240 ≤ scaled s.xosera.vidWidth
    ((s.xosera.paHvFscale &&& 0x0700) >>> 8) by omega)
  obtain ⟨hr1,hr2⟩ := textLen_bounds h.linesHigh (h.tileH hn) (show 240 ≤ scaled s.xosera.vidHeight
    (s.xosera.paHvFscale &&& 0x7) by omega)
  rw [Screen.setMode]
  dsimp only
  generalize textLen s.lineLen _ (tileW s.gfxCtrl) = cols at hc1 hc2 ⊢
  generalize textLen s.linesHigh _ (Screen.tileH s.gfxCtrl n) = rows at hr1 hr2 ⊢
  have hsize : u16 (cols * rows) = rows * cols := by
    have hle : cols * rows ≤ 106 * 60 := Nat.mul_le_mul (by omega) (by omega)
    rw [u16_of_lt (by omega),Nat.mul_comm]
  have hlimit : u16 (s.vramBase + rows * cols) = rows * cols := by
    have hle : rows * cols ≤ 60 * 106 := Nat.mul_le_mul (by omega) (by omega)
    rw [h.base,Nat.zero_add,u16_of_lt (by omega)]
  rw [hsize,hlimit]
  refine Placed.emit ?_ trivial
  exact { h with
    cols_pos := hc1
    cols_le := by show cols ≤ 106; omega
    rows_le := by show rows ≤ 60; omega
    size := rfl
    limit := rfl
    x_lt := clip_lt hc1 (by omega)
    y_lt := clip_lt hr1 (by omega) }

theorem Placed.clear (h : s.Placed) (a b : Nat) : (s.clear a b).Placed := by
  rw [Screen.clear]
  split
  · exact h.emit trivial
  · exact h.emit trivial

theorem Placed.clearMore (h : s.Placed) (n : Nat) : (s.clearMore n).Placed := by
  rw [Screen.clearMore]
  split
  · exact { h.clear s.vramMemend n with }
  · exact h

theorem Auto.reset (h : s.Auto) (b : Bool) : ∃ s', s.reset b = some s' ∧ s'.Inv := by
  have hlt : s.curFont < s.tileCtrl.length := by
    rw [h.fonts.four]
    exact h.font
  have hat := List.getElem?_eq_getElem hlt
  have hmode := h.setMode hat
  rw [Screen.reset,hat]
  refine ⟨_,rfl,(Placed.clearMore ?_ _).calcCurAddr⟩
  split
  · exact hmode.emit trivial
  · exact hmode

theorem Inv.detectMode (h : s.Inv) : ∃ s', s.detectMode = some s' ∧ s'.Inv := by
  rw [Screen.detectMode]
  split
  · exact h.toAuto.reset false
  · exact ⟨s,rfl,h⟩

theorem Inv.videoMode (h : s.Inv) (R : Reconfig) (on : Bool) :
    ∃ s', s.videoMode R on = some s' ∧ s'.Inv := by
  rw [Screen.videoMode]
  generalize (if on = true then 848 else 640) = res
  dsimp only
  split
  · have hauto : ({ s with xosera := R (if res = 640 then 0 else 1) s.xosera } : Screen).Auto :=
      { h.toAuto with }
    obtain ⟨s',hs,h'⟩ := hauto.reset true
    rw [hs]
    exact ⟨_,rfl,h'.toPlaced.cls⟩
  · exact ⟨_,rfl,h⟩

end Mode

section Sequences

theorem Inv.screenReverse (h : s.Inv) : s.screenReverse.Inv := by
  rw [Screen.screenReverse]
  refine Inv.emit ?_ trivial
  exact { h with }

theorem Inv.mode (h : s.Inv) (R : Reconfig) (question on : Bool) (num : Nat) :
    ∃ s', s.mode R question on num = some s' ∧ s'.Inv := by
  have hflags : ∀ (s : Screen), s.Inv → ∀ f, (s.setFlags f).Inv := fun s h f => { h with }
  rw [Screen.mode]
  split
  · split
    · exact h.videoMode R on
    split
    · exact ⟨_,rfl,h.screenReverse⟩
    split
    · exact ⟨_,rfl,hflags _ h.checkLcf.1 _⟩
    split
    · exact ⟨_,rfl,hflags _ h _⟩
    split
    · exact ⟨_,rfl,hflags _ h _⟩
    · exact ⟨_,rfl,h⟩
  · split
    · exact ⟨_,rfl,hflags _ h _⟩
    · exact ⟨_,rfl,h⟩

theorem Placed.saveCursor (h : s.Placed) : s.saveCursor.Placed := { h with }

theorem Placed.restoreCursor (h : s.Placed) (hx : s.saveX < s.cols) (hy : s.saveY < s.rows) :
    s.restoreCursor.Placed :=
  { h with
    x_lt := hx
    y_lt := hy }

theorem Placed.cursorDown (h : s.Placed) : s.cursorDown.Placed := by
  have hy := h.y_lt
  have hr := h.rows_le
  have hyu : u16 (s.y + 1) = s.y + 1 := u16_of_lt (by omega)
  rw [Screen.cursorDown,hyu]
  split
  · rw [sub16_of_le (by omega) (by omega),Nat.add_sub_cancel]
    exact Placed.emit { h with } trivial
  · exact { h with y_lt := by show s.y + 1 < s.rows; omega }

theorem Placed.reverseIndex (h : s.Placed) : s.reverseIndex.Placed := by
  have hy := h.y_lt
  have hr := h.rows_le
  rw [Screen.reverseIndex]
  rcases Nat.eq_zero_or_pos s.y with h0 | hpos
  · have hyu : sub16 s.y 1 = 65535 := by
      rw [h0]
      rfl
    rw [hyu,if_pos (by omega)]
    refine Placed.emit ?_ trivial
    exact { h with y_lt := by show 0 < s.rows; omega }
  · rw [sub16_of_le (by omega) hpos,if_neg (by omega)]
    exact { h with y_lt := by show s.y - 1 < s.rows; omega }

-- The row of the next line is on the screen, or the wrong limit keeps it there.
theorem Placed.nextLine (h : s.Placed) (hk : s.y + 1 < s.rows ∨ s.cols ≤ s.rows) :
    s.nextLine.Placed := by
  have hy := h.y_lt
  have hr := h.rows_le
  have hc := h.cols_le
  have hpos := h.cols_pos
  have hyu : u16 (s.y + 1) = s.y + 1 := u16_of_lt (by omega)
  rw [Screen.nextLine,hyu]
  by_cases hend : s.y + 1 ≥ s.cols
  · rw [if_pos hend,sub16_of_le (by omega) hpos]
    refine Placed.emit ?_ trivial
    exact { h with
      x_lt := hpos
      y_lt := by show s.cols - 1 < s.rows; omega }
  · rw [if_neg hend]
    exact { h with
      x_lt := hpos
      y_lt := by show s.y + 1 < s.rows; omega }

theorem Placed.cursorUp (h : s.Placed) (n : Nat) : (s.cursorUp n).Placed := by
  have hy := h.y_lt
  refine { h with y_lt := ?_ }
  show (if sub16 s.y n ≥ s.rows then 0 else sub16 s.y n) < s.rows
  split
  · omega
  · omega

theorem Placed.cursorDownBy (h : s.Placed) (n : Nat) : (s.cursorDownBy n).Placed :=
  { h with y_lt := clip_lt ((Nat.zero_le _).trans_lt h.y_lt) (by have := h.rows_le; omega) }

theorem Placed.cursorRight (h : s.Placed) (n : Nat) : (s.cursorRight n).Placed :=
  { h with
    x_lt := clip_lt h.cols_pos (by have := h.cols_le; omega) }

theorem Placed.cursorLeft (h : s.Placed) (n : Nat) : (s.cursorLeft n).Placed := by
  have hx := h.x_lt
  have hc := h.cols_le
  refine { h with x_lt := ?_ }
  show (if sub16 s.x n ≥ s.cols then 0 else sub16 s.x n) < s.cols
  split
  · omega
  · omega

theorem Placed.cursorPosition (h : s.Placed) (row col : Nat) :
    (s.cursorPosition row col).Placed :=
  { h with
    x_lt := clip_lt h.cols_pos (by have := h.cols_le; omega)
    y_lt := clip_lt ((Nat.zero_le _).trans_lt h.y_lt) (by have := h.rows_le; omega) }

theorem Placed.eraseDisplay (h : s.Placed) (n : Nat) : (s.eraseDisplay n).Placed := by
  rw [Screen.eraseDisplay]
  split
  · exact h.clear _ _
  split
  · exact h.clear _ _
  split
  · exact h.clear _ _
  · exact h

theorem Placed.eraseLine (h : s.Placed) (n : Nat) : (s.eraseLine n).Placed := by
  rw [Screen.eraseLine]
  split
  · exact h.clear _ _
  split
  · exact h.clear _ _
  split
  · exact h.clear _ _
  · exact h

end Sequences

end Screen
end RoscoM68k
