import RoscoM68k.Firmware.XansiParams

namespace RoscoM68k

inductive Move where
  | up
  | down
  | right
  | left

-- The final character of CUU, CUD, CUF or CUB.
def Move.byte : Move → UInt8
  | .up => 0x41
  | .down => 0x42
  | .right => 0x43
  | .left => 0x44

-- What the sequence is for: as far as the edge of the screen allows.
def Move.Exact (s : Screen) (num : Nat) (s' : Screen) : Move → Prop
  | .up => s'.x = s.x ∧ s'.y = s.y - min num s.y
  | .down => s'.x = s.x ∧ s'.y = s.y + min num (s.rows - 1 - s.y)
  | .right => s'.x = s.x + min num (s.cols - 1 - s.x) ∧ s'.y = s.y
  | .left => s'.x = s.x - min num s.x ∧ s'.y = s.y

-- The 16-bit sum does not wrap, or the difference wraps to where there is no screen.
def Move.InRange (s : Screen) (num : Nat) : Move → Prop
  | .up => num ≤ s.y ∨ num + s.rows ≤ 65536 + s.y
  | .down => s.y + num < 65536
  | .right => s.x + num < 65536
  | .left => num ≤ s.x ∨ num + s.cols ≤ 65536 + s.x

def Move.run (s : Screen) (num : Nat) : Move → Screen
  | .up => s.cursorUp num
  | .down => s.cursorDownBy num
  | .right => s.cursorRight num
  | .left => s.cursorLeft num

section Cursor

variable {v n num : Nat}

-- Subtract, and take what is past the edge for an underflow.
theorem back_exact (hv : v < n) (hn : n < 65536) (hnum : num < 65536) :
    (if sub16 v num ≥ n then 0 else sub16 v num) = v - min num v ↔
      num ≤ v ∨ num + n ≤ 65536 + v := by
  by_cases h : num ≤ v
  · rw [sub16_of_le (by omega) h,if_neg (by omega),Nat.min_eq_left h]
    exact ⟨fun _ => .inl h,fun _ => rfl⟩
  · rw [sub16_of_lt hnum (by omega),Nat.min_eq_right (by omega)]
    split <;> omega

theorem ahead_exact (hv : v < n) (hn : n < 65536) (hnum : num < 65536) :
    Screen.clip (u16 (v + num)) n = v + min num (n - 1 - v) ↔ v + num < 65536 := by
  have hlast : sub16 n 1 = n - 1 := sub16_of_le hn (by omega)
  unfold Screen.clip
  rw [hlast]
  by_cases h : v + num < 65536
  · rw [u16_of_lt h]
    refine ⟨fun _ => h,fun _ => ?_⟩
    split <;> omega
  · have hw : u16 (v + num) = v + num - 65536 := by
      unfold u16
      omega
    rw [hw,if_neg (by omega)]
    omega

theorem Move.run_exact {s : Screen} (m : Move) (hx : s.x < s.cols) (hy : s.y < s.rows)
    (hc : s.cols < 65536) (hr : s.rows < 65536) (hnum : num < 65536) :
    m.Exact s num (m.run s num).calcCurAddr ↔ m.InRange s num := by
  cases m with
  | up => exact (and_iff_right rfl).trans (back_exact hy hr hnum)
  | down => exact (and_iff_right rfl).trans (ahead_exact hy hr hnum)
  | right => exact (and_iff_left rfl).trans (ahead_exact hx hc hnum)
  | left => exact (and_iff_left rfl).trans (back_exact hx hc hnum)

end Cursor

namespace Xansi

variable {R : Reconfig} {td : Xansi} {intro field : List UInt8} {c : UInt8}

-- A sequence with one parameter, which may be left out.
theorem printLoop_single (R : Reconfig) (rest : List UInt8) (hs : td.state = TSTATE_NORMAL)
    (hi : intro ∈ csiIntro) (hf : IsDigits field) :
    ∃ n, td.printLoop R (intro ++ field ++ rest) =
      (td.reading n (fieldValue field :: zeros 15)).printLoop R rest := by
  have hp : IsParms field := fun c hc => .inl (hf c hc)
  have hone : parmFields field = [field] := by
    refine List.splitOnP_eq_singleton (fun c hc => beq_false_of_ne ?_)
    rintro rfl
    exact absurd (hf _ hc).2 (by decide)
  have hlen : (countedFields (parmFields field)).length ≤ 15 := by
    refine (countedFields_length _).trans ?_
    rw [hone,List.length_singleton]
    omega
  have hloop := printLoop_parms R rest hs hi hp rfl hlen
  rw [hone] at hloop
  cases field with
  | nil => exact ⟨0,hloop⟩
  | cons c cs => exact ⟨1,hloop⟩

theorem fieldValue_small (hf : IsDigits field) (h : decimal (digits field) ≤ 65535) :
    fieldValue field = decimal (digits field) := by
  have he := (fieldValue_eq hf).mpr (.inl h)
  omega

-- The final character gets the parameter, and the address of the cursor is worked out anew.
theorem printLoop_one (hs : td.state = TSTATE_NORMAL) (hi : intro ∈ csiIntro) (hf : IsDigits field)
    (h : decimal (digits field) ≤ 65535) (hc : 0x40 ≤ c ∧ c ≤ 0x7e) :
    ∃ n, td.printLoop R (intro ++ field ++ [c]) =
      ((td.reading n (decimal (digits field) :: zeros 15)).toNormal.csiFinal R
        (decimal (digits field)) (.ofByte c)).map
          (fun td => td.onScreen td.screen.calcCurAddr) := by
  obtain ⟨n,hloop⟩ := printLoop_single R [c] hs hi hf
  refine ⟨n,?_⟩
  rw [hloop,fieldValue_small hf h,printLoop,if_neg (final_byte hc).nonzero,next_final hc]
  change ((td.reading n (decimal (digits field) :: zeros 15)).processCsi R c).bind some = _
  rw [Option.bind_fun_some,processCsi]
  exact Option.map_eq_bind.symm

end Xansi

open Xansi

def moveCount (field : List UInt8) : Nat :=
  if decimal (digits field) = 0 then 1 else decimal (digits field)

theorem xansi_moves {R : Reconfig} {td : Xansi} {intro field : List UInt8} (m : Move)
    (hs : td.state = TSTATE_NORMAL) (hi : intro ∈ csiIntro) (hf : IsDigits field)
    (hn : decimal (digits field) ≤ 65535) (hx : td.screen.x < td.screen.cols)
    (hy : td.screen.y < td.screen.rows) (hc : td.screen.cols < 65536)
    (hr : td.screen.rows < 65536) :
    ∃ td', td.printLoop R (intro ++ field ++ [m.byte]) = some td' ∧
      (m.Exact td.screen (moveCount field) td'.screen ↔
        m.InRange td.screen (moveCount field)) := by
  have hbyte : 0x40 ≤ m.byte ∧ m.byte ≤ 0x7e := by
    cases m <;> decide
  have hcount : moveCount field < 65536 := by
    unfold moveCount
    split <;> omega
  obtain ⟨n,hrun⟩ := printLoop_one (R := R) hs hi hf hn hbyte
  have hfin : ∃ td', td.printLoop R (intro ++ field ++ [m.byte]) = some td' ∧
      td'.screen = (m.run td.screen (moveCount field)).calcCurAddr := by
    rw [hrun]
    cases m with
    | up => exact ⟨_,rfl,rfl⟩
    | down => exact ⟨_,rfl,rfl⟩
    | right => exact ⟨_,rfl,rfl⟩
    | left => exact ⟨_,rfl,rfl⟩
  obtain ⟨td',he,hscreen⟩ := hfin
  refine ⟨td',he,?_⟩
  rw [hscreen]
  exact m.run_exact hx hy hc hr hcount

-- A screen of 106 by 30 characters with the cursor at its upper left corner.
def homeScreen : Screen :=
  { xansiCleared plainXosera with
    cols := 106
    rows := 30
    vramSize := 3180
    vramEnd := 3180 }

theorem xansi_moves_right : ∃ td', (Xansi.idle homeScreen).printLoop plainReconfig
    ([0x1b,0x5b] ++ [0x35] ++ [0x43]) = some td' ∧ td'.screen.x = 5 := by
  have hf : IsDigits [0x35] := by
    simp [IsDigits]
  have hs : (Xansi.idle homeScreen).state = TSTATE_NORMAL := rfl
  obtain ⟨td',he,hiff⟩ := xansi_moves (R := plainReconfig) .right hs
    (by decide : [0x1b,0x5b] ∈ csiIntro) hf (by decide) (by decide) (by decide) (by decide)
    (by decide)
  have hin : Move.InRange homeScreen (moveCount [0x35]) .right :=
    (by decide : homeScreen.x + moveCount [0x35] < 65536)
  exact ⟨td',he,(hiff.mpr hin).1⟩

-- Right after the start, CSI 65535 A leads to the second row.
theorem xansi_moves_wrapped : ∃ td td', session plainReconfig plainXosera (0x30,0x30,0x30) [] =
      some td ∧ td.printLoop plainReconfig
        ([0x1b,0x5b] ++ [0x36,0x35,0x35,0x33,0x35] ++ [0x41]) = some td' ∧
      td'.screen.y = 1 ∧ ¬ Move.Exact td.screen 65535 td'.screen .up := by
  have hrun : ((session plainReconfig plainXosera (0x30,0x30,0x30) []).bind fun td =>
      (td.printLoop plainReconfig ([0x1b,0x5b] ++ [0x36,0x35,0x35,0x33,0x35] ++ [0x41])).map
        fun td' => (td.screen.y,td'.screen.y)) = some (0,1) := by
    decide +kernel
  obtain ⟨td,hs,hrun⟩ := Option.bind_eq_some_iff.mp hrun
  obtain ⟨td',he,hf⟩ := Option.map_eq_some_iff.mp hrun
  obtain ⟨hy,hy'⟩ := Prod.mk.inj hf
  refine ⟨td,td',hs,he,hy',fun hex => ?_⟩
  have hup : td'.screen.y = td.screen.y - min 65535 td.screen.y := hex.2
  omega

end RoscoM68k
