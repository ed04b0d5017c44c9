import RoscoM68k.Firmware.XansiMoves

namespace RoscoM68k

-- A word of video memory is a colour and a character.
abbrev Vram := Nat → UInt8 × UInt8

def Vram.write (vram : Vram) (addr : Nat) (word : UInt8 × UInt8) : Vram :=
  fun w => if w = addr then word else vram w

-- One word more than the count says, with the address going round after the last word.
def Vram.fill (vram : Vram) (addr : Nat) (word : UInt8 × UInt8) : Nat → Vram
  | 0 => vram.write addr word
  | count + 1 => Vram.fill (vram.write addr word) (u16 (addr + 1)) word count

-- What the blitter, or the loop in its place, makes of a start and an end in order.
def Vram.clear (vram : Vram) (start stop : Nat) (color : UInt8) : Vram :=
  vram.fill start (color,0x20) (sub16 (sub16 stop start) 1)

section Words

variable {a b c n w addr : Nat}

-- As many words from an address on.
def Span (addr n w : Nat) : Prop := ∃ k < n, w = u16 (addr + k)

theorem span_succ : Span addr (n + 2) w ↔ w = u16 addr ∨ Span (u16 (addr + 1)) (n + 1) w := by
  constructor
  · rintro ⟨k,hk,hw⟩
    cases k with
    | zero => exact .inl hw
    | succ k =>
      refine .inr ⟨k,by omega,?_⟩
      rw [hw]
      unfold u16
      omega
  · rintro (hw | ⟨k,hk,hw⟩)
    · exact ⟨0,by omega,hw⟩
    · refine ⟨k + 1,by omega,?_⟩
      rw [hw]
      unfold u16
      omega

theorem span_one (h : addr < 65536) : Span addr 1 w ↔ w = addr := by
  constructor
  · rintro ⟨k,hk,hw⟩
    obtain rfl : k = 0 := by omega
    rwa [Nat.add_zero,u16_of_lt h] at hw
  · rintro rfl
    exact ⟨0,Nat.one_pos,(u16_of_lt h).symm⟩

open Classical in
theorem fill_eq (word : UInt8 × UInt8) (count : Nat) : ∀ (vram : Vram) (addr : Nat), addr < 65536 →
    vram.fill addr word count w = if Span addr (count + 1) w then word else vram w := by
  induction count with
  | zero =>
    intro vram addr h
    simp only [span_one h]
    rfl
  | succ count ih =>
    intro vram addr h
    have hnext := ih (vram.write addr word) (u16 (addr + 1)) (Nat.mod_lt _ (by decide))
    rw [Vram.fill,hnext]
    simp only [span_succ,u16_of_lt h]
    unfold Vram.write
    split_ifs <;> simp_all

-- A start at the end takes the count round to the whole memory.
def Filled (start stop w : Nat) : Prop := start = stop ∨ start ≤ w ∧ w < stop

instance (start stop w : Nat) : Decidable (Filled start stop w) :=
  inferInstanceAs (Decidable (_ ∨ _))

theorem filled_iff (hab : a ≤ b) (hb : b < 65536) (hw : w < 65536) :
    Span a (sub16 (sub16 b a) 1 + 1) w ↔ Filled a b w := by
  unfold Span Filled sub16 u16
  constructor
  · rintro ⟨k,hk,hw⟩
    omega
  · rintro (rfl | h)
    · exact ⟨(w + 65536 - a) % 65536,by omega,by omega⟩
    · exact ⟨w - a,by omega,by omega⟩

theorem span_first (h : c < 65536) (hn : 0 < n) : Span c n c := ⟨0,hn,(u16_of_lt h).symm⟩

theorem span_all (h : ∀ w < 65536, Span c n w) : 65536 ≤ n := by
  obtain ⟨k,hk,he⟩ := h (u16 (c + 65535)) (Nat.mod_lt _ (by decide))
  unfold u16 at he
  omega

theorem all_span (hn : 65536 ≤ n) (hw : w < 65536) : Span c n w := by
  refine ⟨(w + 65536 - c % 65536) % 65536,by omega,?_⟩
  unfold u16
  omega

-- Words that do not go round have the span's start and end at their own.
theorem range_span (hab : a < b) (hb : b < 65536) (hc : c < 65536) (hn : 0 < n) :
    (∀ w < 65536, a ≤ w ∧ w < b ↔ Span c n w) ↔ c = a ∧ c + n = b := by
  constructor
  · intro h
    have hfirst := (h c hc).mpr (span_first hc hn)
    obtain ⟨k,hk,ha⟩ := (h a (by omega)).mp ⟨le_rfl,hab⟩
    have hout : ¬ Span c n b := fun hs => absurd ((h b hb).mpr hs).2 (lt_irrefl b)
    have hle : n ≤ b - c := by
      by_contra hlt
      refine hout ⟨b - c,by omega,?_⟩
      rw [u16_of_lt (by omega)]
      omega
    obtain ⟨j,hj,hlast⟩ := (h (b - 1) (by omega)).mp ⟨by omega,by omega⟩
    rw [u16_of_lt (by omega)] at ha hlast
    omega
  · rintro ⟨rfl,rfl⟩ w hw
    constructor
    · rintro ⟨hcw,hwb⟩
      refine ⟨w - c,by omega,?_⟩
      rw [u16_of_lt (by omega)]
      omega
    · rintro ⟨k,hk,rfl⟩
      rw [u16_of_lt (by omega)]
      omega

-- The words cleared are those wanted: all of them, or from the lower address to the higher.
theorem filled_span (ha : a < 65536) (hb : b < 65536) (hc : c < 65536) (hn : 0 < n) :
    (∀ w < 65536, Filled (min a b) (max a b) w ↔ Span c n w) ↔
      a = b ∧ 65536 ≤ n ∨ a ≠ b ∧ c = min a b ∧ c + n = max a b := by
  by_cases hab : a = b
  · have hall : min a b = max a b := by omega
    have hone : ¬ (a ≠ b ∧ c = min a b ∧ c + n = max a b) := fun h => h.1 hab
    rw [or_iff_left hone,and_iff_right hab]
    constructor
    · exact fun h => span_all fun w hw => (h w hw).mp (.inl hall)
    · exact fun h w hw => iff_of_true (.inl hall) (all_span h hw)
  · have hlt : min a b < max a b := by omega
    have hrange : ∀ w, Filled (min a b) (max a b) w ↔ min a b ≤ w ∧ w < max a b :=
      fun w => or_iff_right (by omega)
    have hone : ¬ (a = b ∧ 65536 ≤ n) := fun h => hab h.1
    simp only [hrange]
    rw [or_iff_right hone,and_iff_right hab]
    exact range_span hlt (by omega) hc hn

end Words

section Lines

variable {s : Screen} {w : Nat}

-- The cells of some lines, and of a part of one line.
theorem lines_span {first stop : Nat} (hc : 0 < s.cols) :
    (∃ x y, x < s.cols ∧ first ≤ y ∧ y < stop ∧ w = s.calcAddr x y) ↔
      Span (s.calcAddr 0 first) ((stop - first) * s.cols) w := by
  have haddr (y x : Nat) : u16 (s.calcAddr 0 first + (y * s.cols + x)) =
      s.calcAddr x (first + y) := by
    have hmul : (first + y) * s.cols = first * s.cols + y * s.cols := Nat.add_mul ..
    unfold Screen.calcAddr u16
    rw [hmul]
    omega
  constructor
  · rintro ⟨x,y,hx,hfirst,hstop,rfl⟩
    obtain ⟨j,rfl⟩ := Nat.exists_eq_add_of_le hfirst
    refine ⟨j * s.cols + x,?_,(haddr j x).symm⟩
    calc
      j * s.cols + x < (j + 1) * s.cols := by
        rw [Nat.succ_mul]
        omega
      _ ≤ (stop - first) * s.cols := Nat.mul_le_mul_right _ (by omega)
  · rintro ⟨k,hk,rfl⟩
    have hdiv : k / s.cols < stop - first := (Nat.div_lt_iff_lt_mul hc).mpr hk
    refine ⟨k % s.cols,first + k / s.cols,Nat.mod_lt _ hc,Nat.le_add_right _ _,?_,?_⟩
    · exact Nat.add_lt_of_lt_sub' hdiv
    · rw [← haddr,Nat.div_add_mod']

theorem line_span {first stop y : Nat} :
    (∃ x, first ≤ x ∧ x < stop ∧ w = s.calcAddr x y) ↔
      Span (s.calcAddr first y) (stop - first) w := by
  have haddr (k : Nat) : u16 (s.calcAddr first y + k) = s.calcAddr (first + k) y := by
    unfold Screen.calcAddr u16
    omega
  constructor
  · rintro ⟨x,hfirst,hstop,rfl⟩
    obtain ⟨k,rfl⟩ := Nat.exists_eq_add_of_le hfirst
    exact ⟨k,by omega,(haddr k).symm⟩
  · rintro ⟨k,hk,rfl⟩
    exact ⟨first + k,by omega,by omega,haddr k⟩

end Lines

inductive Erase where
  | down
  | up
  | all
  | toEnd
  | toStart
  | line

namespace Erase

-- The final character of ED or EL, and the parameter.
def byte : Erase → UInt8
  | .down | .up | .all => 0x4a
  | .toEnd | .toStart | .line => 0x4b

def num : Erase → Nat
  | .down | .toEnd => 0
  | .up | .toStart => 1
  | .all | .line => 2

-- The cells in the comments of the two functions.
def Covers (s : Screen) (x y : Nat) : Erase → Prop
  | .down => s.y ≤ y
  | .up => y ≤ s.y
  | .all => True
  | .toEnd => y = s.y ∧ s.x ≤ x
  | .toStart => y = s.y ∧ x ≤ s.x
  | .line => y = s.y

def Names (e : Erase) (s : Screen) (w : Nat) : Prop :=
  ∃ x y, x < s.cols ∧ y < s.rows ∧ e.Covers s x y ∧ w = s.calcAddr x y

-- One clear, which leaves blanks in the cells named and every other word as it was.
def Exact (e : Erase) (s s' : Screen) : Prop :=
  ∃ start stop, s'.ops = s.ops ++ [.clear start stop s.color] ∧ ∀ (vram : Vram), ∀ w < 65536,
    (e.Names s w → vram.clear start stop s.color w = (s.color,0x20)) ∧
      (¬ e.Names s w → vram.clear start stop s.color w = vram w)

-- The first of the cells, and how many there are.
def first (s : Screen) : Erase → Nat
  | .down | .toStart | .line => s.calcAddr 0 s.y
  | .up | .all => s.vramBase
  | .toEnd => s.calcAddr s.x s.y

def count (s : Screen) : Erase → Nat
  | .down => (s.rows - s.y) * s.cols
  | .up => (s.y + 1) * s.cols
  | .all => s.rows * s.cols
  | .toEnd => s.cols - s.x
  | .toStart => s.x + 1
  | .line => s.cols

-- The arguments of xansi_clear.
def start (s : Screen) : Erase → Nat
  | .down | .toStart | .line => s.calcAddr 0 s.y
  | .up | .all => s.vramBase
  | .toEnd => s.curAddr

def stop (s : Screen) : Erase → Nat
  | .down | .all => s.vramEnd
  | .up | .toEnd | .line => s.calcAddr (sub16 s.cols 1) s.y
  | .toStart => s.curAddr

-- The end given is the address behind the cells, or they fill the memory.
def Kept (s : Screen) : Erase → Prop
  | .down => s.calcAddr 0 s.y + (s.rows - s.y) * s.cols = s.vramEnd ∨
      s.calcAddr 0 s.y = s.vramEnd ∧ 65536 ≤ (s.rows - s.y) * s.cols
  | .up => 65536 < (s.y + 1) * s.cols ∧ (s.y + 1) * s.cols % 65536 = 1
  | .all => s.vramBase + s.rows * s.cols = s.vramEnd ∨
      s.vramBase = s.vramEnd ∧ 65536 ≤ s.rows * s.cols
  | .toEnd => s.x + 1 = s.cols ∧ s.curAddr = s.calcAddr s.x s.y + 1
  | .toStart => s.curAddr = s.calcAddr 0 s.y + (s.x + 1)
  | .line => False

-- Registers and variables of 16 bits, and a cursor on the screen.
structure OnScreen (s : Screen) : Prop where
  x : s.x < s.cols
  y : s.y < s.rows
  cols : s.cols < 65536
  rows : s.rows < 65536
  base : s.vramBase < 65536
  vramEnd : s.vramEnd < 65536
  addr : s.curAddr < 65536

def run (s : Screen) (e : Erase) : Screen := s.clear (e.start s) (e.stop s)

variable {s : Screen} {w : Nat}

theorem calcAddr_lt (x y : Nat) : s.calcAddr x y < 65536 := Nat.mod_lt _ (by decide)

theorem calcAddr_zero (h : s.vramBase < 65536) : s.calcAddr 0 0 = s.vramBase := by
  unfold Screen.calcAddr u16
  omega

theorem names_lines {e : Erase} (first stop : Nat) (hc : 0 < s.cols)
    (h : ∀ x y, y < s.rows ∧ e.Covers s x y ↔ first ≤ y ∧ y < stop) :
    e.Names s w ↔ Span (s.calcAddr 0 first) ((stop - first) * s.cols) w := by
  rw [← lines_span hc]
  refine exists₂_congr fun x y => and_congr_right fun _ => ?_
  rw [← and_assoc,h,and_assoc]

theorem names_line {e : Erase} (first stop : Nat)
    (h : ∀ x y, x < s.cols ∧ y < s.rows ∧ e.Covers s x y ↔ y = s.y ∧ first ≤ x ∧ x < stop) :
    e.Names s w ↔ Span (s.calcAddr first s.y) (stop - first) w := by
  rw [← line_span]
  constructor
  · rintro ⟨x,y,hx,hy,hc,hw⟩
    obtain ⟨rfl,hr⟩ := (h x y).mp ⟨hx,hy,hc⟩
    exact ⟨x,hr.1,hr.2,hw⟩
  · rintro ⟨x,hfirst,hstop,hw⟩
    obtain ⟨hx,hy,hc⟩ := (h x s.y).mpr ⟨rfl,hfirst,hstop⟩
    exact ⟨x,s.y,hx,hy,hc,hw⟩

theorem names_iff (h : OnScreen s) (e : Erase) : e.Names s w ↔ Span (e.first s) (e.count s) w := by
  have hx := h.x
  have hy := h.y
  have hc : 0 < s.cols := by omega
  have hbase := calcAddr_zero h.base
  cases e with
  | down =>
    refine names_lines s.y s.rows hc fun _ _ => ?_
    exact and_comm
  | up =>
    have hl := names_lines (w := w) (e := .up) 0 (s.y + 1) hc fun x y => by
      unfold Covers
      omega
    rwa [hbase] at hl
  | all =>
    have hl := names_lines (w := w) (e := .all) 0 s.rows hc fun x y => by
      simp [Covers]
    rwa [hbase] at hl
  | toEnd =>
    refine names_line s.x s.cols fun x y => ?_
    unfold Covers
    omega
  | toStart =>
    refine names_line 0 (s.x + 1) fun x y => ?_
    unfold Covers
    omega
  | line =>
    refine names_line 0 s.cols fun x y => ?_
    unfold Covers
    omega

theorem count_pos (h : OnScreen s) (e : Erase) : 0 < e.count s := by
  have hx := h.x
  have hy := h.y
  cases e with
  | down => exact Nat.mul_pos (by omega) (by omega)
  | up => exact Nat.mul_pos (by omega) (by omega)
  | all => exact Nat.mul_pos (by omega) (by omega)
  | toEnd => exact Nat.sub_pos_of_lt hx
  | toStart => exact Nat.succ_pos _
  | line => exact Nat.zero_lt_of_lt hx

theorem bounds (h : OnScreen s) (e : Erase) :
    e.start s < 65536 ∧ e.stop s < 65536 ∧ e.first s < 65536 := by
  cases e with
  | down => exact ⟨calcAddr_lt _ _,h.vramEnd,calcAddr_lt _ _⟩
  | up => exact ⟨h.base,calcAddr_lt _ _,h.base⟩
  | all => exact ⟨h.base,h.vramEnd,h.base⟩
  | toEnd => exact ⟨h.addr,calcAddr_lt _ _,calcAddr_lt _ _⟩
  | toStart => exact ⟨calcAddr_lt _ _,h.addr,calcAddr_lt _ _⟩
  | line => exact ⟨calcAddr_lt _ _,calcAddr_lt _ _,calcAddr_lt _ _⟩

-- The address of the last cell of a line or of some lines.
theorem last_addr (h : OnScreen s) :
    s.calcAddr (sub16 s.cols 1) s.y = u16 (s.vramBase + (s.y + 1) * s.cols - 1) ∧
    s.calcAddr (sub16 s.cols 1) s.y = u16 (s.calcAddr 0 s.y + s.cols - 1) ∧
    s.calcAddr (sub16 s.cols 1) s.y = u16 (s.calcAddr s.x s.y + (s.cols - s.x) - 1) := by
  have hx := h.x
  have hc := h.cols
  have hm : (s.y + 1) * s.cols = s.y * s.cols + s.cols := Nat.succ_mul ..
  unfold Screen.calcAddr u16
  rw [hm,sub16_of_le hc (by omega)]
  omega

-- The words between the two arguments are the cells named.
theorem kept_iff (h : OnScreen s) (e : Erase) :
    e.start s = e.stop s ∧ 65536 ≤ e.count s ∨ e.start s ≠ e.stop s ∧
      e.first s = min (e.start s) (e.stop s) ∧
      e.first s + e.count s = max (e.start s) (e.stop s) ↔ e.Kept s := by
  have hx := h.x
  have hc := h.cols
  obtain ⟨hl0,hl1,hl2⟩ := last_addr h
  have hpos := count_pos h e
  obtain ⟨ha,hb,hf⟩ := bounds h e
  cases e <;> simp only [start,stop,first,count,Kept] at *
  case down => omega
  case up =>
    unfold u16 at hl0
    omega
  case all => omega
  case toEnd =>
    unfold u16 at hl2
    omega
  case toStart => omega
  case line =>
    unfold u16 at hl1
    rw [iff_false]
    omega

theorem run_eq (s : Screen) (e : Erase) : e.run s =
    s.emit (.clear (min (e.start s) (e.stop s)) (max (e.start s) (e.stop s)) s.color) := by
  unfold run Screen.clear
  split
  · rw [Nat.min_eq_right (by omega),Nat.max_eq_left (by omega)]
  · rw [Nat.min_eq_left (by omega),Nat.max_eq_right (by omega)]

theorem clear_eq {a b : Nat} (hab : a ≤ b) (hb : b < 65536) (hw : w < 65536) (vram : Vram)
    (color : UInt8) : (Filled a b w → vram.clear a b color w = (color,0x20)) ∧
      (¬ Filled a b w → vram.clear a b color w = vram w) := by
  classical
  have hfill := fill_eq (w := w) (color,0x20) (sub16 (sub16 b a) 1) vram
    a (Nat.lt_of_le_of_lt hab hb)
  simp only [filled_iff hab hb hw] at hfill
  exact ⟨fun h => hfill.trans (if_pos h),fun h => hfill.trans (if_neg h)⟩

theorem run_exact (h : OnScreen s) (e : Erase) : e.Exact s (e.run s).calcCurAddr ↔ e.Kept s := by
  obtain ⟨ha,hb,hf⟩ := bounds h e
  have hle : min (e.start s) (e.stop s) ≤ max (e.start s) (e.stop s) := by omega
  have hmax : max (e.start s) (e.stop s) < 65536 := by omega
  rw [← kept_iff h e,← filled_span ha hb hf (count_pos h e)]
  have hops : (e.run s).calcCurAddr.ops = s.ops ++
      [.clear (min (e.start s) (e.stop s)) (max (e.start s) (e.stop s)) s.color] := by
    rw [run_eq]
    rfl
  constructor
  · rintro ⟨start,stop,he,hex⟩ w hw
    rw [hops] at he
    obtain ⟨rfl,rfl⟩ : _ = start ∧ _ = stop := by simpa using he
    rw [← names_iff h]
    -- Memory without blanks in this colour shows what is cleared.
    obtain ⟨hc,hnc⟩ := clear_eq hle hmax hw (fun _ => (s.color,0)) s.color
    obtain ⟨hn,hnn⟩ := hex (fun _ => (s.color,0)) w hw
    have hne : (s.color,(0x20 : UInt8)) ≠ (s.color,0) := by simp
    constructor
    · intro hcl
      by_contra hname
      exact hne ((hc hcl).symm.trans (hnn hname))
    · intro hname
      by_contra hcl
      exact hne ((hn hname).symm.trans (hnc hcl))
  · intro hcl
    refine ⟨_,_,hops,fun vram w hw => ?_⟩
    have hiff := (names_iff (w := w) h e).trans (hcl w hw).symm
    rw [hiff]
    exact clear_eq hle hmax hw vram s.color

end Erase

open Xansi

theorem csiFinal_erase (R : Reconfig) (td : Xansi) (e : Erase) :
    td.csiFinal R e.num (.ofByte e.byte) = some (td.onScreen (e.run td.screen)) := by
  cases e with
  | down | up | all =>
    refine congrArg (fun s => some (td.onScreen s)) (?_ : td.screen.eraseDisplay _ = _)
    simp only [Screen.eraseDisplay,Erase.num,Erase.run,Erase.start,Erase.stop,reduceIte,
      OfNat.ofNat_ne_zero,one_ne_zero,OfNat.ofNat_ne_one]
  | toEnd | toStart | line =>
    refine congrArg (fun s => some (td.onScreen s)) (?_ : td.screen.eraseLine _ = _)
    simp only [Screen.eraseLine,Erase.num,Erase.run,Erase.start,Erase.stop,reduceIte,
      OfNat.ofNat_ne_zero,one_ne_zero,OfNat.ofNat_ne_one]

theorem printLoop_erase {R : Reconfig} {td : Xansi} {intro field : List UInt8} (e : Erase)
    (hs : td.state = TSTATE_NORMAL) (hi : intro ∈ csiIntro) (hf : IsDigits field)
    (hn : decimal (digits field) = e.num) :
    ∃ td', td.printLoop R (intro ++ field ++ [e.byte]) = some td' ∧
      td'.screen = (e.run td.screen).calcCurAddr := by
  have hbyte : 0x40 ≤ e.byte ∧ e.byte ≤ 0x7e := by
    cases e <;> decide
  have hsmall : decimal (digits field) ≤ 65535 := by
    rw [hn]
    cases e <;> decide
  obtain ⟨n,hrun⟩ := printLoop_one (R := R) hs hi hf hsmall hbyte
  rw [hrun,hn,csiFinal_erase]
  exact ⟨_,rfl,rfl⟩

theorem xansi_erases {R : Reconfig} {td : Xansi} {intro field : List UInt8} (e : Erase)
    (hs : td.state = TSTATE_NORMAL) (hi : intro ∈ csiIntro) (hf : IsDigits field)
    (hn : decimal (digits field) = e.num) (h : Erase.OnScreen td.screen) :
    ∃ td', td.printLoop R (intro ++ field ++ [e.byte]) = some td' ∧
      (e.Exact td.screen td'.screen ↔ e.Kept td.screen) := by
  obtain ⟨td',he,hscreen⟩ := printLoop_erase (R := R) e hs hi hf hn
  refine ⟨td',he,?_⟩
  rw [hscreen]
  exact Erase.run_exact h e

theorem home_onScreen : Erase.OnScreen homeScreen := by
  constructor <;> decide

theorem isDigits_nil : IsDigits [] := fun _ hc => nomatch hc

-- CSI J with the cursor at home clears the whole screen.
theorem xansi_erases_down : ∃ td', (Xansi.idle homeScreen).printLoop plainReconfig
    ([0x1b,0x5b] ++ [] ++ [0x4a]) = some td' ∧ Erase.Exact .down homeScreen td'.screen := by
  have hs : (Xansi.idle homeScreen).state = TSTATE_NORMAL := rfl
  obtain ⟨td',he,hiff⟩ := xansi_erases (R := plainReconfig) .down hs
    (by decide : [0x1b,0x5b] ∈ csiIntro) isDigits_nil rfl home_onScreen
  exact ⟨td',he,hiff.mpr (.inl (by decide))⟩

-- Right after the start, CSI K leaves the last column of the first line as it was.
theorem xansi_erases_short : ∃ td td', session plainReconfig plainXosera (0x30,0x30,0x30) [] =
      some td ∧ td.printLoop plainReconfig ([0x1b,0x5b] ++ [] ++ [0x4b]) = some td' ∧
      ¬ Erase.Exact .toEnd td.screen td'.screen := by
  have hrun : (session plainReconfig plainXosera (0x30,0x30,0x30) []).map (fun td =>
      [td.state,td.screen.x,td.screen.y,td.screen.cols,td.screen.rows,td.screen.vramBase,
        td.screen.vramEnd,td.screen.curAddr]) = some [0,0,0,106,30,0,3180,0] := by
    decide +kernel
  obtain ⟨td,hsession,hf⟩ := Option.map_eq_some_iff.mp hrun
  simp only [List.cons.injEq] at hf
  obtain ⟨hs,hx,hy,hc,hr,hb,he,ha,-⟩ := hf
  have hon : Erase.OnScreen td.screen := by
    constructor <;> omega
  obtain ⟨td',hprint,hscreen⟩ := printLoop_erase (R := plainReconfig) .toEnd hs
    (by decide : [0x1b,0x5b] ∈ csiIntro) isDigits_nil rfl
  refine ⟨td,td',hsession,hprint,?_⟩
  rw [hscreen]
  intro hex
  have hkept : td.screen.x + 1 = td.screen.cols := ((Erase.run_exact hon .toEnd).mp hex).1
  omega

end RoscoM68k
