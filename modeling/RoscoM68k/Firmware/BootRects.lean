import RoscoM68k.Firmware.XoseraBlit

namespace RoscoM68k
open Function

abbrev PIXELS_PER_WORD : Nat := 4
def LW_MASK_SHIFT : Nat := 8

-- The resolution that the menu is built for, the page that it draws to, and the current colour, one
-- of the sixteen of BACKEND_COLOR. The page lies in video memory.
structure BootView where
  hres : Nat
  vres : Nat
  page : Nat
  color : BitVec 4
  hres_words : hres % PIXELS_PER_WORD = 0
  hres_lt : hres < 32768
  vres_lt : vres < 32768
  page_le : page + hres / PIXELS_PER_WORD * vres ≤ 65536

structure BootRect where
  x : Int
  y : Int
  w : Int
  h : Int

def BLIT_COLOR (c : Nat) : Nat := c <<< 12 ||| c <<< 8 ||| c <<< 4 ||| c

def fwMask (i : Nat) : BitVec 8 := [0xf0#8,0x70#8,0x30#8,0x10#8].getD i 0#8

def lwMask (i : Nat) : BitVec 8 := [0x0f#8,0x08#8,0x0c#8,0x0e#8].getD i 0#8

def toInt16 (n : Int) : Int := (BitVec.ofInt 16 n).toInt

namespace BootView

-- What the registers get, if anything is to be drawn. An `int` and a mask of two bits make a
-- remainder.
def fillRegs (V : BootView) (x y w h : Int) : Option BlitRegs :=
  let c := BitVec.ofNat 16 (BLIT_COLOR V.color.toNat)
  let h := toInt16 (h - 1)
  if w < 1 ∨ h < 0 then none
  else
    let va := BitVec.ofInt 16 (V.page + y * (V.hres / PIXELS_PER_WORD : Nat) + x.tdiv 4)
    let ww := BitVec.ofInt 16 ((w + x % 4 + 3).tdiv 4)
    let mod := BitVec.ofInt 16 ((V.hres / PIXELS_PER_WORD : Nat) - ww.toNat)
    let mask := (fwMask (x % 4).toNat ||| lwMask ((x + w) % 4).toNat).setWidth 16 <<< LW_MASK_SHIFT
    some {
      ctrl := 1
      andc := 0
      xor := 0
      modS := 0
      srcS := c
      modD := mod
      dstD := va
      shift := mask
      lines := BitVec.ofInt 16 h
      words := BitVec.ofInt 16 (ww.toNat - 1) }

def fillRectV (V : BootView) (x y w h : Int) (vram : Nat → BitVec 16) : Nat → BitVec 16 :=
  match V.fillRegs (toInt16 x) (toInt16 y) (toInt16 w) (toInt16 h) with
  | none => vram
  | some R => R.run vram

def fillRect (V : BootView) (r : BootRect) (vram : Nat → BitVec 16) : Nat → BitVec 16 :=
  V.fillRectV r.x r.y r.w r.h vram

-- The left, the right, the top and the bottom line.
def drawRect (V : BootView) (r : BootRect) (vram : Nat → BitVec 16) : Nat → BitVec 16 :=
  let vram := V.fillRectV r.x r.y 1 r.h vram
  let vram := V.fillRectV (r.x + r.w - 1) r.y 1 r.h vram
  let vram := V.fillRectV r.x r.y r.w 1 vram
  V.fillRectV r.x (r.y + r.h - 1) r.w 1 vram

-- The word that holds a pixel.
def word (V : BootView) (px py : Nat) : Nat :=
  V.page + py * (V.hres / PIXELS_PER_WORD) + px / PIXELS_PER_WORD

def pixel (V : BootView) (vram : Nat → BitVec 16) (px py : Nat) : BitVec 4 :=
  nibble (vram (V.word px py)) (px % PIXELS_PER_WORD)

-- The pixels of `A` get the current colour, and nothing else changes in the whole memory.
structure Paints (V : BootView) (A : Nat → Nat → Prop) (vram vram' : Nat → BitVec 16) : Prop where
  inside : ∀ px < V.hres, ∀ py < V.vres, A px py → V.pixel vram' px py = V.color
  outside : ∀ px < V.hres, ∀ py < V.vres, ¬A px py → V.pixel vram' px py = V.pixel vram px py
  off : ∀ a, (∀ px < V.hres, ∀ py < V.vres, V.word px py ≠ a) → vram' a = vram a

end BootView

def BootRect.Within (r : BootRect) (V : BootView) : Prop :=
  0 ≤ r.x ∧ 0 ≤ r.y ∧ 1 ≤ r.w ∧ 1 ≤ r.h ∧ r.x + r.w ≤ V.hres ∧ r.y + r.h ≤ V.vres

def BootRect.Holds (r : BootRect) (px py : Nat) : Prop :=
  r.x ≤ px ∧ px < r.x + r.w ∧ r.y ≤ py ∧ py < r.y + r.h

def BootRect.Outline (r : BootRect) (px py : Nat) : Prop :=
  r.Holds px py ∧ (px = r.x ∨ px = r.x + r.w - 1 ∨ py = r.y ∨ py = r.y + r.h - 1)

section Masks

theorem color_nibble : ∀ (c : BitVec 4) (k : Fin 4),
    nibble (BitVec.ofNat 16 (BLIT_COLOR c.toNat)) k = c := by
  decide

theorem mask_bits : ∀ i j k : Fin 4,
    let shift := (fwMask i ||| lwMask j).setWidth 16 <<< LW_MASK_SHIFT
    (shift.extractLsb' 12 4).getLsbD (3 - k) = decide (i ≤ k) ∧
      (shift.extractLsb' 8 4).getLsbD (3 - k) = decide (j = 0 ∨ k < j) := by
  decide

end Masks

section Fill

variable {V : BootView} {X Y W H : Nat} {vram : Nat → BitVec 16}

-- The words of a line, with those that the edges cut.
def lineWords (X W : Nat) : Nat := (W + X % 4 + 3) / 4

-- The registers of a rectangle in the screen.
def BootView.regs (V : BootView) (X Y W H : Nat) : BlitRegs where
  ctrl := 1
  andc := 0
  xor := 0
  modS := 0
  srcS := BitVec.ofNat 16 (BLIT_COLOR V.color.toNat)
  modD := BitVec.ofNat 16 (V.hres / 4 - lineWords X W)
  dstD := BitVec.ofNat 16 (V.word X Y)
  shift := (fwMask (X % 4) ||| lwMask ((X + W) % 4)).setWidth 16 <<< LW_MASK_SHIFT
  lines := BitVec.ofNat 16 (H - 1)
  words := BitVec.ofNat 16 (lineWords X W - 1)

theorem toInt16_natCast {n : Nat} (h : n < 32768) : toInt16 n = n := by
  rw [toInt16,BitVec.ofInt_natCast,BitVec.toInt_ofNat']
  exact Int.bmod_eq_of_le (by omega) (by omega)

-- The words of a line end in the line.
theorem lineWords_le (hx : X + W ≤ V.hres) : X / 4 + lineWords X W ≤ V.hres / 4 := by
  have h4 : V.hres % 4 = 0 := V.hres_words
  unfold lineWords
  omega

theorem hres_lt (V : BootView) : V.hres / 4 < 65536 := by
  have := V.hres_lt
  omega

theorem fillRegs_eq (hW : 1 ≤ W) (hH : 1 ≤ H) (hx : X + W ≤ V.hres) (hy : Y + H ≤ V.vres) :
    V.fillRegs X Y W H = some (V.regs X Y W H) := by
  have hle := lineWords_le (X := X) (W := W) hx
  have hlt := hres_lt V
  have hv := V.vres_lt
  have hh : (H : Int) - 1 = (H - 1 : Nat) := by omega
  have hmod : (X : Int) % 4 = (X % 4 : Nat) := by omega
  have hsum : ((X : Int) + W) % 4 = ((X + W) % 4 : Nat) := by omega
  have hdiv : (X : Int).tdiv 4 = (X / 4 : Nat) := by
    rw [Int.tdiv_eq_ediv_of_nonneg (by omega)]
    omega
  have hww : ((W : Int) + (X % 4 : Nat) + 3).tdiv 4 = (lineWords X W : Nat) := by
    rw [Int.tdiv_eq_ediv_of_nonneg (by omega),lineWords]
    omega
  have hneg : ¬((W : Int) < 1 ∨ ((H - 1 : Nat) : Int) < 0) := by omega
  have hwt : (BitVec.ofNat 16 (lineWords X W)).toNat = lineWords X W := by
    rw [BitVec.toNat_ofNat]
    exact Nat.mod_eq_of_lt (by omega)
  have hone : 1 ≤ lineWords X W := by
    unfold lineWords
    omega
  have hm : ((V.hres / 4 : Nat) : Int) - (lineWords X W : Nat) =
      (V.hres / 4 - lineWords X W : Nat) := by omega
  have hw1 : ((lineWords X W : Nat) : Int) - 1 = (lineWords X W - 1 : Nat) := by omega
  have hva : (V.page : Int) + Y * (V.hres / 4 : Nat) + (X / 4 : Nat) = (V.word X Y : Nat) := by
    simp [BootView.word]
  rw [BootView.fillRegs,hh,toInt16_natCast (by omega),if_neg hneg]
  simp only [hdiv,hmod,hsum,hww,hva,BitVec.ofInt_natCast,hwt,hm,hw1,Int.toNat_natCast]
  rfl

theorem same_place {a b c d S : Nat} (h : a * S + b = c * S + d) (hb : b < S) (hd : d < S) :
    a = c ∧ b = d := by
  have h1 := congrArg (· / S) h
  have h2 := congrArg (· % S) h
  simp only [Nat.mul_comm _ S,Nat.mul_add_div (by omega : 0 < S),Nat.mul_add_mod,
    Nat.div_eq_of_lt hb,Nat.div_eq_of_lt hd,Nat.mod_eq_of_lt hb,Nat.mod_eq_of_lt hd,
    Nat.add_zero] at h1 h2
  exact ⟨h1,h2⟩

-- A rectangle in the screen, with the operation that its registers start.
structure Filling (V : BootView) (X Y W H : Nat) (B : Blit (BitVec 16)) : Prop where
  w_pos : 1 ≤ W
  h_pos : 1 ≤ H
  right : X + W ≤ V.hres
  bottom : Y + H ≤ V.vres
  op : B = (V.regs X Y W H).op
  words : B.words + 1 = lineWords X W
  lines : B.lines + 1 = H
  dst : B.dst = V.word X Y
  modD : B.words + 1 + B.modD = V.hres / 4

theorem filling (hW : 1 ≤ W) (hH : 1 ≤ H) (hx : X + W ≤ V.hres) (hy : Y + H ≤ V.vres) :
    Filling V X Y W H (V.regs X Y W H).op := by
  have hle := lineWords_le (X := X) (W := W) hx
  have hlt := hres_lt V
  have hv := V.vres_lt
  have hpage := V.page_le
  have hone : 1 ≤ lineWords X W := by
    unfold lineWords
    omega
  have hwords : (V.regs X Y W H).op.words = lineWords X W - 1 := by
    change (BitVec.ofNat 16 (lineWords X W - 1)).toNat = _
    rw [BitVec.toNat_ofNat]
    exact Nat.mod_eq_of_lt (by omega)
  have hlines : (V.regs X Y W H).op.lines = H - 1 := by
    change (BitVec.ofNat 16 (H - 1)).toNat = _
    rw [BitVec.toNat_ofNat]
    exact Nat.mod_eq_of_lt (by omega)
  have hmod : (V.regs X Y W H).op.modD = V.hres / 4 - lineWords X W := by
    change (BitVec.ofNat 16 (V.hres / 4 - lineWords X W)).toNat = _
    rw [BitVec.toNat_ofNat]
    exact Nat.mod_eq_of_lt (by omega)
  have hdst : (V.regs X Y W H).op.dst = V.word X Y := by
    change (BitVec.ofNat 16 (V.word X Y)).toNat = _
    rw [BitVec.toNat_ofNat]
    refine Nat.mod_eq_of_lt (lt_of_lt_of_le ?_ hpage)
    have hrow : (Y + 1) * (V.hres / 4) ≤ V.vres * (V.hres / 4) := Nat.mul_le_mul_right _ (by omega)
    rw [Nat.add_mul,Nat.one_mul,Nat.mul_comm V.vres] at hrow
    change V.page + Y * (V.hres / 4) + X / 4 < _
    change _ < V.page + V.hres / 4 * V.vres
    omega
  exact ⟨hW,hH,hx,hy,rfl,by omega,by omega,hdst,by omega⟩

namespace Filling

variable {B : Blit (BitVec 16)}

theorem place_eq (h : Filling V X Y W H B) (i : Nat) :
    B.place B.dst B.modD i =
      V.page + ((Y + i / (B.words + 1)) * (V.hres / 4) + (X / 4 + i % (B.words + 1))) := by
  rw [Blit.place,h.modD,h.dst,BootView.word,Nat.add_mul]
  change V.page + Y * (V.hres / 4) + X / 4 + _ + _ = _
  omega

theorem col_lt (h : Filling V X Y W H B) {o : Nat} (ho : o ≤ B.words) :
    X / 4 + o < V.hres / 4 := by
  have hle := lineWords_le (X := X) (W := W) h.right
  have hw := h.words
  omega

theorem row_lt (h : Filling V X Y W H B) {i : Nat} (hi : i < (B.lines + 1) * (B.words + 1)) :
    Y + i / (B.words + 1) < V.vres := by
  have hq : i / (B.words + 1) < B.lines + 1 := (Nat.div_lt_iff_lt_mul (by omega)).mpr hi
  have hl := h.lines
  have hb := h.bottom
  omega

-- The words of the operation are words of the screen.
theorem place_lt (h : Filling V X Y W H B) {i : Nat} (hi : i < (B.lines + 1) * (B.words + 1)) :
    B.place B.dst B.modD i < 65536 := by
  have hc := h.col_lt (Nat.le_of_lt_succ (Nat.mod_lt i B.words.succ_pos))
  have hr := h.row_lt hi
  have hpage : V.page + V.hres / 4 * V.vres ≤ 65536 := V.page_le
  rw [h.place_eq]
  refine lt_of_lt_of_le ?_ hpage
  have hrow : (Y + i / (B.words + 1) + 1) * (V.hres / 4) ≤ V.vres * (V.hres / 4) :=
    Nat.mul_le_mul_right _ hr
  rw [Nat.add_mul _ 1,Nat.one_mul,Nat.mul_comm V.vres] at hrow
  have hsucc : B.words.succ = B.words + 1 := rfl
  rw [hsucc] at hc
  omega

-- The masks leave out just what the edges cut off.
theorem mask_bit (h : Filling V X Y W H B) {o k : Nat} (ho : o ≤ B.words) (hk : k < 4) :
    ((V.regs X Y W H).mask (o = 0) (o = B.words)).getLsbD (3 - k) =
      decide (X ≤ 4 * (X / 4 + o) + k ∧ 4 * (X / 4 + o) + k < X + W) := by
  have hw := h.words
  have hlast : B.words + 1 = (W + X % 4 + 3) / 4 := hw
  obtain ⟨hfirst,hend⟩ := mask_bits ⟨X % 4,by omega⟩ ⟨(X + W) % 4,by omega⟩ ⟨k,hk⟩
  have hf : ((V.regs X Y W H).shift.extractLsb' 12 4).getLsbD (3 - k) = decide (X % 4 ≤ k) := by
    refine hfirst.trans (decide_eq_decide.mpr Iff.rfl)
  have hl : ((V.regs X Y W H).shift.extractLsb' 8 4).getLsbD (3 - k) =
      decide ((X + W) % 4 = 0 ∨ k < (X + W) % 4) := by
    refine hend.trans (decide_eq_decide.mpr (or_congr ?_ Iff.rfl))
    exact Fin.ext_iff
  have hones : (0xf#4).getLsbD (3 - k) = true := by
    interval_cases k <;> rfl
  have hpos := h.w_pos
  rw [BlitRegs.mask,BitVec.getLsbD_and]
  by_cases h0 : o = 0 <;> by_cases h1 : o = B.words
  · rw [decide_eq_true h0,decide_eq_true h1,if_pos rfl,if_pos rfl,hf,hl,← Bool.decide_and]
    exact decide_eq_decide.mpr (by omega)
  · rw [decide_eq_true h0,decide_eq_false h1,if_pos rfl,if_neg Bool.false_ne_true,hf,hones,
      Bool.and_true]
    exact decide_eq_decide.mpr (by omega)
  · rw [decide_eq_false h0,decide_eq_true h1,if_neg Bool.false_ne_true,if_pos rfl,hl,hones,
      Bool.true_and]
    exact decide_eq_decide.mpr (by omega)
  · have hin : X ≤ 4 * (X / 4 + o) + k ∧ 4 * (X / 4 + o) + k < X + W := by omega
    rw [decide_eq_false h0,decide_eq_false h1,if_neg Bool.false_ne_true,
      if_neg Bool.false_ne_true,hones,decide_eq_true hin]
    rfl

theorem run_at (h : Filling V X Y W H B) {i : Nat} (hi : i < (B.lines + 1) * (B.words + 1)) :
    B.run 65536 vram (B.place B.dst B.modD i) =
      B.merge (i % (B.words + 1) = 0) (i % (B.words + 1) = B.words)
        (vram (B.place B.dst B.modD i)) (V.regs X Y W H).srcS := by
  have hfixed : B.fixed = some (V.regs X Y W H).srcS := by
    rw [h.op]
    have hconst : (1 : BitVec 16).getLsbD 0 = true := by decide
    exact if_pos hconst
  exact Blit.fill_at hfixed rfl hi (h.place_lt (by omega))

theorem merge_eq (h : Filling V X Y W H B) (first last : Bool) (old s : BitVec 16) :
    B.merge first last old s = s &&& spread ((V.regs X Y W H).mask first last) |||
      old &&& ~~~spread ((V.regs X Y W H).mask first last) := by
  have hs : (s &&& ~~~0#16) ^^^ 0#16 = s := by
    have hones : ~~~0#16 = BitVec.allOnes 16 := rfl
    rw [hones,BitVec.and_allOnes,BitVec.xor_zero]
  rw [h.op]
  change ((s &&& ~~~0#16) ^^^ 0#16) &&& _ ||| _ = _
  rw [hs]

theorem run_off (h : Filling V X Y W H B) {a : Nat}
    (ha : ∀ i < (B.lines + 1) * (B.words + 1), B.place B.dst B.modD i ≠ a) :
    B.run 65536 vram a = vram a :=
  Blit.fill_off rfl
    (h.place_lt (Nat.sub_lt (Nat.mul_pos B.lines.succ_pos B.words.succ_pos) Nat.one_pos)) ha

-- A pixel in one of the words that the operation writes.
theorem pixel_in (h : Filling V X Y W H B) {px py : Nat} (hy : Y ≤ py) (hy' : py < Y + H)
    (hx : X / 4 ≤ px / 4) (hx' : px / 4 ≤ X / 4 + B.words) :
    V.pixel (B.run 65536 vram) px py =
      if X ≤ px ∧ px < X + W then V.color else V.pixel vram px py := by
  obtain ⟨o,ho⟩ : ∃ o, px / 4 = X / 4 + o := ⟨px / 4 - X / 4,by omega⟩
  obtain ⟨j,hj⟩ : ∃ j, py = Y + j := ⟨py - Y,by omega⟩
  have hol : o ≤ B.words := by omega
  have hdiv : (j * (B.words + 1) + o) / (B.words + 1) = j := by
    rw [Nat.mul_comm,Nat.mul_add_div (by omega),Nat.div_eq_of_lt (by omega),Nat.add_zero]
  have hmod : (j * (B.words + 1) + o) % (B.words + 1) = o := by
    rw [Nat.mul_comm,Nat.mul_add_mod,Nat.mod_eq_of_lt (by omega)]
  have hi : j * (B.words + 1) + o < (B.lines + 1) * (B.words + 1) := by
    have hl := h.lines
    have hle : (j + 1) * (B.words + 1) ≤ (B.lines + 1) * (B.words + 1) :=
      Nat.mul_le_mul_right _ (by omega)
    rw [Nat.add_mul j,Nat.one_mul] at hle
    omega
  have hword : B.place B.dst B.modD (j * (B.words + 1) + o) = V.word px py := by
    rw [h.place_eq,hdiv,hmod,BootView.word,hj]
    change _ = V.page + (Y + j) * (V.hres / 4) + px / 4
    omega
  have hrun : B.run 65536 vram _ = _ := h.run_at hi
  rw [hword,hmod] at hrun
  have hk : px % 4 < 4 := Nat.mod_lt px (by decide)
  have hpx : 4 * (X / 4 + o) + px % 4 = px := by omega
  have hmask := h.mask_bit hol hk
  rw [hpx] at hmask
  have hcolor : nibble (V.regs X Y W H).srcS (px % 4) = V.color := color_nibble V.color ⟨px % 4,hk⟩
  rw [BootView.pixel,hrun,h.merge_eq,nibble_merge _ _ _ hk,hmask,hcolor]
  by_cases hin : X ≤ px ∧ px < X + W
  · rw [decide_eq_true hin,if_pos rfl,if_pos hin]
  · rw [decide_eq_false hin,if_neg Bool.false_ne_true,if_neg hin]
    rfl

-- All other words stay as they are.
theorem word_off (h : Filling V X Y W H B) {px py : Nat} (hp : px < V.hres)
    (hout : ¬(Y ≤ py ∧ py < Y + H ∧ X / 4 ≤ px / 4 ∧ px / 4 ≤ X / 4 + B.words)) :
    B.run 65536 vram (V.word px py) = vram (V.word px py) := by
  have h4 : V.hres % 4 = 0 := V.hres_words
  refine h.run_off (fun i hi he => hout ?_)
  have ho : i % (B.words + 1) ≤ B.words := Nat.le_of_lt_succ (Nat.mod_lt i B.words.succ_pos)
  have hq : i / (B.words + 1) < B.lines + 1 := (Nat.div_lt_iff_lt_mul (by omega)).mpr hi
  have hl := h.lines
  rw [h.place_eq,BootView.word,Nat.add_assoc] at he
  generalize i / (B.words + 1) = q at he hq
  obtain ⟨hrow,hcol⟩ := same_place (Nat.add_left_cancel he) (h.col_lt ho)
    (by change px / 4 < V.hres / 4; omega)
  change _ = px / 4 at hcol
  omega

theorem paints (h : Filling V X Y W H B) :
    V.Paints (fun px py => X ≤ px ∧ px < X + W ∧ Y ≤ py ∧ py < Y + H) vram (B.run 65536 vram) where
  inside px hp py hy hin := by
    have hw : B.words + 1 = (W + X % 4 + 3) / 4 := h.words
    rw [h.pixel_in hin.2.2.1 hin.2.2.2 (by omega) (by omega),if_pos ⟨hin.1,hin.2.1⟩]
  outside px hp py hy hout := by
    by_cases hwin : Y ≤ py ∧ py < Y + H ∧ X / 4 ≤ px / 4 ∧ px / 4 ≤ X / 4 + B.words
    · obtain ⟨h1,h2,h3,h4⟩ := hwin
      rw [h.pixel_in h1 h2 h3 h4,if_neg (fun hx => hout ⟨hx.1,hx.2,h1,h2⟩)]
    · rw [BootView.pixel,h.word_off hp hwin]
      rfl
  off a ha := by
    refine h.run_off (fun i hi he => ?_)
    have h4 : V.hres % 4 = 0 := V.hres_words
    have hc := h.col_lt (Nat.le_of_lt_succ (Nat.mod_lt i B.words.succ_pos))
    refine ha (4 * (X / 4 + i % B.words.succ)) (by omega) _ (h.row_lt hi) ?_
    rw [← he,h.place_eq,BootView.word]
    change V.page + _ * (V.hres / 4) + 4 * _ / 4 = _
    rw [Nat.mul_div_cancel_left _ (by decide),Nat.add_assoc]

end Filling

end Fill

section Rects

variable {V : BootView} {vram vram' vram'' : Nat → BitVec 16} {A A' : Nat → Nat → Prop}

namespace BootView.Paints

theorem trans (h : V.Paints A vram vram') (h' : V.Paints A' vram' vram'') :
    V.Paints (fun px py => A px py ∨ A' px py) vram vram'' where
  inside px hp py hy hin := by
    by_cases hA : A' px py
    · exact h'.inside px hp py hy hA
    · rw [h'.outside px hp py hy hA]
      exact h.inside px hp py hy (hin.resolve_right hA)
  outside px hp py hy hout := by
    rw [h'.outside px hp py hy (fun hA => hout (.inr hA))]
    exact h.outside px hp py hy (fun hA => hout (.inl hA))
  off a ha := (h'.off a ha).trans (h.off a ha)

theorem congr (h : V.Paints A vram vram') (hA : ∀ px py, A' px py ↔ A px py) :
    V.Paints A' vram vram' where
  inside px hp py hy hin := h.inside px hp py hy ((hA px py).mp hin)
  outside px hp py hy hout := h.outside px hp py hy (fun hin => hout ((hA px py).mpr hin))
  off := h.off

end BootView.Paints

theorem paints_fillRectV {X Y W H : Nat} (hW : 1 ≤ W) (hH : 1 ≤ H) (hx : X + W ≤ V.hres)
    (hy : Y + H ≤ V.vres) (vram : Nat → BitVec 16) :
    V.Paints (fun px py => X ≤ px ∧ px < X + W ∧ Y ≤ py ∧ py < Y + H) vram
      (V.fillRectV X Y W H vram) := by
  have hh := V.hres_lt
  have hv := V.vres_lt
  rw [BootView.fillRectV,toInt16_natCast (by omega),toInt16_natCast (by omega),
    toInt16_natCast (by omega),toInt16_natCast (by omega),fillRegs_eq hW hH hx hy]
  exact (filling hW hH hx hy).paints

-- The four lines, a pixel wide.
theorem paints_drawRect {X Y W H : Nat} (hW : 1 ≤ W) (hH : 1 ≤ H) (hx : X + W ≤ V.hres)
    (hy : Y + H ≤ V.vres) (vram : Nat → BitVec 16) :
    V.Paints (⟨X,Y,W,H⟩ : BootRect).Outline vram (V.drawRect ⟨X,Y,W,H⟩ vram) := by
  have hright : (X : Int) + W - 1 = (X + W - 1 : Nat) := by omega
  have hbottom : (Y : Int) + H - 1 = (Y + H - 1 : Nat) := by omega
  obtain ⟨v1,h1⟩ : ∃ v, v = V.fillRectV X Y 1 H vram := ⟨_,rfl⟩
  obtain ⟨v2,h2⟩ : ∃ v, v = V.fillRectV (X + W - 1 : Nat) Y 1 H v1 := ⟨_,rfl⟩
  obtain ⟨v3,h3⟩ : ∃ v, v = V.fillRectV X Y W 1 v2 := ⟨_,rfl⟩
  have he : V.drawRect ⟨X,Y,W,H⟩ vram = V.fillRectV X (Y + H - 1 : Nat) W 1 v3 := by
    rw [BootView.drawRect]
    simp only [hright,hbottom]
    rw [h3,h2,h1]
  have hleft := paints_fillRectV (V := V) (X := X) (W := 1) le_rfl hH (by omega) hy vram
  have hr := paints_fillRectV (V := V) (X := X + W - 1) (W := 1) le_rfl hH (by omega) hy v1
  have htop := paints_fillRectV (V := V) (Y := Y) (H := 1) hW le_rfl hx (by omega) v2
  have hb := paints_fillRectV (V := V) (Y := Y + H - 1) (H := 1) hW le_rfl hx (by omega) v3
  rw [Nat.cast_one,← h1] at hleft
  rw [Nat.cast_one,← h2] at hr
  rw [Nat.cast_one,← h3] at htop
  rw [Nat.cast_one,← he] at hb
  refine (((hleft.trans hr).trans htop).trans hb).congr ?_
  intro px py
  simp only [BootRect.Outline,BootRect.Holds]
  omega

theorem rects_painted (V : BootView) (r : BootRect) (vram : Nat → BitVec 16) (hr : r.Within V) :
    V.Paints r.Holds vram (V.fillRect r vram) ∧ V.Paints r.Outline vram (V.drawRect r vram) := by
  obtain ⟨x,y,w,h⟩ := r
  obtain ⟨hx,hy,hw,hh,hright,hbottom⟩ := hr
  obtain ⟨X,rfl⟩ := Int.eq_ofNat_of_zero_le hx
  obtain ⟨Y,rfl⟩ := Int.eq_ofNat_of_zero_le hy
  obtain ⟨W,rfl⟩ := Int.eq_ofNat_of_zero_le (Int.le_trans (by decide) hw)
  obtain ⟨H,rfl⟩ := Int.eq_ofNat_of_zero_le (Int.le_trans (by decide) hh)
  simp only at hw hh hright hbottom
  constructor
  · refine (paints_fillRectV (by omega) (by omega) (by omega) (by omega) vram).congr ?_
    intro px py
    simp only [BootRect.Holds]
    omega
  · exact paints_drawRect (by omega) (by omega) (by omega) (by omega) vram

-- The menu at 424 by 240, with the second page.
def bootView424 : BootView where
  hres := 424
  vres := 240
  page := 0x6360
  color := 5
  hres_words := by decide
  hres_lt := by decide
  vres_lt := by decide
  page_le := by decide

-- Video memory that holds one word throughout.
def plainVram (_ : Nat) : BitVec 16 := 0x1234#16

theorem rects_painted_424 :
    bootView424.pixel (bootView424.fillRect ⟨421,3,2,2⟩ plainVram) 422 4 = 5 ∧
      bootView424.pixel (bootView424.drawRect ⟨1,1,9,5⟩ plainVram) 4 3 =
        bootView424.pixel plainVram 4 3 := by
  have hfill := (rects_painted bootView424 ⟨421,3,2,2⟩ plainVram
    (by unfold BootRect.Within; decide)).1
  have hdraw := (rects_painted bootView424 ⟨1,1,9,5⟩ plainVram
    (by unfold BootRect.Within; decide)).2
  refine ⟨hfill.inside 422 (by decide) 4 (by decide) (by unfold BootRect.Holds; decide),?_⟩
  exact hdraw.outside 4 (by decide) 3 (by decide)
    (by unfold BootRect.Outline BootRect.Holds; decide)

end Rects

end RoscoM68k
