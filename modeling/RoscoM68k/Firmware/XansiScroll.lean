import RoscoM68k.Firmware.Xansi
import RoscoM68k.Firmware.XoseraBlit
import RoscoM68k.Firmware.XansiMoves

namespace RoscoM68k
open Function

-- The registers through which the CPU reads and writes video memory, and the high byte of DATA.
-- The words of video memory have a mark that tells which of them were written.
structure XmPort where
  vram : Nat → BitVec 16 × Bool
  rdAddr : Nat
  rdIncr : Nat
  wrAddr : Nat
  wrIncr : Nat
  high : BitVec 8

namespace XmPort

def getw (p : XmPort) : BitVec 16 × XmPort :=
  (unmark p.vram p.rdAddr,{ p with rdAddr := u16 (p.rdAddr + p.rdIncr) })

def setw (p : XmPort) (w : BitVec 16) : XmPort :=
  { p with
    vram := update p.vram p.wrAddr (w,true)
    wrAddr := u16 (p.wrAddr + p.wrIncr) }

def setbh (p : XmPort) (b : BitVec 8) : XmPort := { p with high := b }

-- The low byte goes out with the high byte that was set before.
def setbl (p : XmPort) (b : BitVec 8) : XmPort := p.setw (p.high ++ b)

def copyw (p : XmPort) : XmPort :=
  let (w,p) := p.getw
  p.setw w

-- A long is two words, the high word first.
def copyl (p : XmPort) : XmPort :=
  let (h,p) := p.getw
  let (l,p) := p.getw
  (p.setw h).setw l

end XmPort

namespace Screen

-- Blocks of eight longs as long as there are 16 words, then longs, then a word; then the new line.
def doScroll (s : Screen) (p : XmPort) : XmPort :=
  let i := sub16 s.vramSize s.cols
  let p := (XmPort.copyl^[8])^[i / 16] p
  let p := XmPort.copyl^[i % 16 / 2] p
  let p := if i % 2 ≠ 0 then p.copyw else p
  let p := p.setbh s.color.toBitVec
  (fun p => p.setbl 0x20)^[s.cols] p

-- The blank in the current colour.
def blank (s : Screen) : BitVec 16 := s.color.toBitVec ++ 0x20#8

def upRegs (s : Screen) : BlitRegs where
  ctrl := 0
  andc := 0
  xor := 0
  modS := 0
  srcS := BitVec.ofNat 16 (s.vramBase + s.cols)
  modD := 0
  dstD := BitVec.ofNat 16 s.vramBase
  shift := 0xff00
  lines := 0
  words := BitVec.ofNat 16 (sub16 (sub16 s.vramSize s.cols) 1)

-- The line that gets free is filled with a second operation.
def clearRegs (s : Screen) (R : BlitRegs) (daddr : Nat) : BlitRegs :=
  { R with
    ctrl := 1
    srcS := s.blank
    dstD := BitVec.ofNat 16 daddr
    words := BitVec.ofNat 16 (sub16 s.cols 1) }

-- xansi_scroll_up with or without a blitter; `p` are the other registers of the port.
def xansiScrollUp (blitter : Bool) (s : Screen) (p : XmPort) :
    Nat → BitVec 16 × Bool :=
  if blitter then
    let vram := s.upRegs.runMarked p.vram
    (s.clearRegs s.upRegs (sub16 (u16 (s.vramBase + s.vramSize)) s.cols)).runMarked vram
  else
    (s.doScroll { p with
      wrIncr := 1
      rdIncr := 1
      wrAddr := s.vramBase
      rdAddr := u16 (s.vramBase + s.cols) }).vram

def downRegs (s : Screen) : BlitRegs where
  ctrl := 0
  andc := 0
  xor := 0
  modS := BitVec.ofInt 16 (-(s.cols * 2))
  srcS := BitVec.ofNat 16 (sub16 (sub16 (sub16 s.vramEnd s.cols) 1) s.cols)
  modD := BitVec.ofInt 16 (-(s.cols * 2))
  dstD := BitVec.ofNat 16 (sub16 (sub16 s.vramEnd s.cols) 1)
  shift := 0xff00
  lines := BitVec.ofNat 16 (sub16 s.rows 1)
  words := BitVec.ofNat 16 (sub16 s.cols 1)

def xansiScrollDown (blitter : Bool) (s : Screen) (p : XmPort) :
    Nat → BitVec 16 × Bool :=
  if blitter then
    let vram := s.downRegs.runMarked p.vram
    (s.clearRegs s.downRegs s.vramBase).runMarked vram
  else
    (s.doScroll { p with
      wrIncr := 65535
      rdIncr := 65535
      wrAddr := sub16 s.vramEnd 1
      rdAddr := sub16 (sub16 s.vramEnd 1) s.cols }).vram

-- The screen lies in video memory, and its size and its end are what the mode set.
structure Fits (s : Screen) : Prop where
  cols : 1 ≤ s.cols
  rows : 2 ≤ s.rows
  rows_lt : s.rows < 65536
  size : s.vramSize = u16 (s.cols * s.rows)
  stop : s.vramEnd = u16 (s.vramBase + s.vramSize)
  inside : s.vramBase + s.cols * s.rows ≤ 65536

-- Every row a line up, or down, and the line that gets free blank.
def scrolledUp (s : Screen) (vram : Nat → BitVec 16) : Nat → BitVec 16 := fun x =>
  if s.vramBase ≤ x ∧ x < s.vramBase + s.cols * s.rows then
    if x + s.cols < s.vramBase + s.cols * s.rows then vram (x + s.cols) else s.blank
  else vram x

def scrolledDown (s : Screen) (vram : Nat → BitVec 16) : Nat → BitVec 16 := fun x =>
  if s.vramBase ≤ x ∧ x < s.vramBase + s.cols * s.rows then
    if s.vramBase + s.cols ≤ x then vram (x - s.cols) else s.blank
  else vram x

-- Video memory is what is asked for, and no word but those of the screen was written.
structure Written (s : Screen) (want : Nat → BitVec 16) (r : Nat → BitVec 16 × Bool) : Prop where
  words : unmark r = want
  inside : ∀ x, (r x).2 = true → s.vramBase ≤ x ∧ x < s.vramBase + s.cols * s.rows

end Screen

-- No word is written yet.
def XmPort.load (p : XmPort) (vram : Nat → BitVec 16) : XmPort :=
  { p with vram := fun x => (vram x,false) }

section Numbers

variable {s : Screen}

namespace Screen.Fits

theorem two_lines (h : s.Fits) : 2 * s.cols ≤ s.cols * s.rows := by
  rw [Nat.mul_comm 2]
  exact Nat.mul_le_mul_left _ h.rows

theorem count (h : s.Fits) : sub16 s.vramSize s.cols = s.cols * s.rows - s.cols := by
  have h2 := h.two_lines
  have hin := h.inside
  have hc := h.cols
  rw [h.size]
  unfold sub16 u16
  omega

-- The last word.
theorem last (h : s.Fits) : sub16 s.vramEnd 1 = s.vramBase + s.cols * s.rows - 1 := by
  have h2 := h.two_lines
  have hin := h.inside
  have hc := h.cols
  rw [h.stop,h.size]
  unfold sub16 u16
  omega

theorem below (h : s.Fits) : sub16 (sub16 s.vramEnd s.cols) 1 =
    s.vramBase + s.cols * s.rows - s.cols - 1 := by
  have h2 := h.two_lines
  have hin := h.inside
  have hc := h.cols
  rw [h.stop,h.size]
  unfold sub16 u16
  omega

end Screen.Fits
end Numbers

section Port

variable {p : XmPort} {n : Nat}

namespace XmPort

theorem copyw_run (hrd : p.rdAddr < 65536) (hwr : p.wrAddr < 65536) : copyw^[n] p =
    { p with
      vram := writes (fun i => u16 (p.wrAddr + i * p.wrIncr))
        (fun i m => (unmark m (u16 (p.rdAddr + i * p.rdIncr)),true)) n p.vram
      rdAddr := u16 (p.rdAddr + n * p.rdIncr)
      wrAddr := u16 (p.wrAddr + n * p.wrIncr) } := by
  have hnext (a d n : Nat) : u16 (u16 (a + n * d) + d) = u16 (a + (n + 1) * d) := by
    rw [Nat.add_mul,Nat.one_mul,← Nat.add_assoc]
    exact Nat.mod_add_mod _ _ _
  induction n with
  | zero =>
    have hr : u16 p.rdAddr = p.rdAddr := Nat.mod_eq_of_lt hrd
    have hw : u16 p.wrAddr = p.wrAddr := Nat.mod_eq_of_lt hwr
    simp only [iterate_zero,id_eq,Nat.zero_mul,Nat.add_zero,hr,hw,writes]
  | succ n ih =>
    rw [iterate_succ_apply',ih]
    simp only [copyw,getw,setw,hnext,writes]

theorem setbl_run (b : BitVec 8) (hwr : p.wrAddr < 65536) : (fun p => setbl p b)^[n] p =
    { p with
      vram := writes (fun i => u16 (p.wrAddr + i * p.wrIncr)) (fun _ _ => (p.high ++ b,true)) n
        p.vram
      wrAddr := u16 (p.wrAddr + n * p.wrIncr) } := by
  induction n with
  | zero =>
    have hw : u16 p.wrAddr = p.wrAddr := Nat.mod_eq_of_lt hwr
    simp only [iterate_zero,id_eq,Nat.zero_mul,Nat.add_zero,hw,writes]
  | succ n ih =>
    have hnext (a d n : Nat) : u16 (u16 (a + n * d) + d) = u16 (a + (n + 1) * d) := by
      rw [Nat.add_mul,Nat.one_mul,← Nat.add_assoc]
      exact Nat.mod_add_mod _ _ _
    rw [iterate_succ_apply',ih]
    simp only [setbl,setw,hnext,writes]

-- What is written next is not what is read after that.
structure Apart (p : XmPort) : Prop where
  incr : p.rdIncr = p.wrIncr
  ne : u16 (p.rdAddr + p.rdIncr) ≠ u16 p.wrAddr
  wr : p.wrAddr < 65536

theorem Apart.copyw (h : p.Apart) : p.copyw.Apart := by
  refine ⟨h.incr,fun he => h.ne ?_,Nat.mod_lt _ (by decide)⟩
  have he : u16 (u16 (p.rdAddr + p.rdIncr) + p.rdIncr) = u16 (u16 (p.wrAddr + p.wrIncr)) := he
  rw [← h.incr] at he
  unfold u16 at he ⊢
  omega

theorem Apart.copyl (h : p.Apart) : p.copyl = p.copyw.copyw := by
  have hne : u16 (p.rdAddr + p.rdIncr) ≠ p.wrAddr := by
    have hne := h.ne
    rwa [show u16 p.wrAddr = p.wrAddr from Nat.mod_eq_of_lt h.wr] at hne
  have hread : unmark (update p.vram p.wrAddr (unmark p.vram p.rdAddr,true))
      (u16 (p.rdAddr + p.rdIncr)) = unmark p.vram (u16 (p.rdAddr + p.rdIncr)) := by
    rw [unmark,update_of_ne hne]
    rfl
  simp only [XmPort.copyl,XmPort.copyw,getw,setw,hread]

theorem Apart.copyw_run (h : p.Apart) (n : Nat) : (XmPort.copyw^[n] p).Apart := by
  induction n with
  | zero => exact h
  | succ n ih =>
    rw [iterate_succ_apply']
    exact ih.copyw

theorem Apart.copyl_run (h : p.Apart) (n : Nat) : XmPort.copyl^[n] p = XmPort.copyw^[2 * n] p := by
  induction n with
  | zero => rfl
  | succ n ih =>
    have hn : 2 * (n + 1) = 2 * n + 1 + 1 := by omega
    rw [iterate_succ_apply',ih,(h.copyw_run _).copyl,hn,iterate_succ_apply',iterate_succ_apply']

end XmPort

-- Longs and blocks of them make no difference.
theorem doScroll_eq {s : Screen} (h : p.Apart) : s.doScroll p =
    (fun p => XmPort.setbl p 0x20)^[s.cols]
      ((XmPort.copyw^[sub16 s.vramSize s.cols] p).setbh s.color.toBitVec) := by
  obtain ⟨i,hi⟩ : ∃ i, i = sub16 s.vramSize s.cols := ⟨_,rfl⟩
  have hcopies : (if i % 2 ≠ 0 then
      (XmPort.copyl^[i % 16 / 2] ((XmPort.copyl^[8])^[i / 16] p)).copyw
      else XmPort.copyl^[i % 16 / 2] ((XmPort.copyl^[8])^[i / 16] p)) = XmPort.copyw^[i] p := by
    rw [← iterate_mul,← iterate_add_apply,h.copyl_run]
    split
    · next hodd =>
      exact (iterate_succ_apply' XmPort.copyw _ p).symm.trans
        (congrArg (fun n => XmPort.copyw^[n] p) (by omega))
    · next heven => exact congrArg (fun n => XmPort.copyw^[n] p) (by omega)
  rw [← hi,← hcopies,hi]
  rfl

theorem doScroll_vram {s : Screen} (h : p.Apart) (hrd : p.rdAddr < 65536)
    (hn : n = sub16 s.vramSize s.cols) : (s.doScroll p).vram =
    writes (fun j => u16 (u16 (p.wrAddr + n * p.wrIncr) + j * p.wrIncr)) (fun _ _ => (s.blank,true))
      s.cols (writes (fun i => u16 (p.wrAddr + i * p.wrIncr))
        (fun i m => (unmark m (u16 (p.rdAddr + i * p.rdIncr)),true)) n p.vram) := by
  rw [doScroll_eq h,← hn,XmPort.copyw_run hrd h.wr,XmPort.setbl_run _ (Nat.mod_lt _ (by decide))]
  rfl

end Port

section Written

variable {s : Screen} {p q p' : Nat → Nat} {n n' : Nat} {v : BitVec 16}
  {want vram : Nat → BitVec 16}

-- Words that are copied, and words that are filled after that.
theorem written_of (hp : ∀ i < n, ∀ j < i, p j ≠ p i) (hq : ∀ i < n, ∀ j < i, p j ≠ q i)
    (hcopy : ∀ i < n, s.vramBase ≤ p i ∧ p i < s.vramBase + s.cols * s.rows ∧
      want (p i) = vram (q i))
    (hfill : ∀ j < n', s.vramBase ≤ p' j ∧ p' j < s.vramBase + s.cols * s.rows ∧ want (p' j) = v)
    (hrest : ∀ x, (∀ i < n, p i ≠ x) → (∀ j < n', p' j ≠ x) → want x = vram x) :
    s.Written want (writes p' (fun _ _ => (v,true)) n'
      (writes p (fun i m => (unmark m (q i),true)) n (fun x => (vram x,false)))) := by
  refine ⟨funext (fun x => ?_),fun x hx => ?_⟩
  · rw [writes_fst (g := fun _ _ => v),writes_const,writes_fst (g := fun i m => m (q i))]
    split
    · next h =>
      obtain ⟨j,hj,rfl⟩ := h
      exact (hfill j hj).2.2.symm
    · next h =>
      by_cases hi : ∃ i < n, p i = x
      · obtain ⟨i,hi,rfl⟩ := hi
        exact (copies_at p q hp hq hi).trans (hcopy i hi).2.2.symm
      · have hoff : ∀ i < n, p i ≠ x := fun i hin he => hi ⟨i,hin,he⟩
        exact (writes_off hoff).trans (hrest x hoff (fun j hj he => h ⟨j,hj,he⟩)).symm
  · rcases (writes_snd (g := fun _ _ => v) _ x).mp hx with hx | ⟨j,hj,rfl⟩
    · rcases (writes_snd (g := fun i m => unmark m (q i)) _ x).mp hx with hx | ⟨i,hi,rfl⟩
      · exact absurd hx Bool.false_ne_true
      · exact ⟨(hcopy i hi).1,(hcopy i hi).2.1⟩
    · exact ⟨(hfill j hj).1,(hfill j hj).2.1⟩

end Written

section Up

variable {s : Screen}

-- The words of a scroll up, whoever does it.
theorem written_up (h : s.Fits) {p q p' : Nat → Nat} {n : Nat} (hn : n = s.cols * s.rows - s.cols)
    (hp : ∀ i < n, p i = s.vramBase + i) (hq : ∀ i < n, q i = s.vramBase + s.cols + i)
    (hp' : ∀ j < s.cols, p' j = s.vramBase + n + j) (vram : Nat → BitVec 16) :
    s.Written (s.scrolledUp vram) (writes p' (fun _ _ => (s.blank,true)) s.cols
      (writes p (fun i m => (unmark m (q i),true)) n (fun x => (vram x,false)))) := by
  have h2 := h.two_lines
  have hc := h.cols
  refine written_of (fun i hi j hj => ?_) (fun i hi j hj => ?_) (fun i hi => ?_)
    (fun j hj => ?_) (fun x hx hx' => ?_)
  · rw [hp i hi,hp j (hj.trans hi)]
    omega
  · rw [hq i hi,hp j (hj.trans hi)]
    omega
  · rw [hp i hi,hq i hi,Screen.scrolledUp,if_pos (by omega),if_pos (by omega)]
    refine ⟨by omega,by omega,congrArg vram (by omega)⟩
  · rw [hp' j hj,Screen.scrolledUp,if_pos (by omega),if_neg (by omega)]
    exact ⟨by omega,by omega,rfl⟩
  · rw [Screen.scrolledUp,if_neg (fun hin => ?_)]
    rcases Nat.lt_or_ge x (s.vramBase + n) with hlt | hge
    · exact hx (x - s.vramBase) (by omega) ((hp _ (by omega)).trans (by omega))
    · exact hx' (x - (s.vramBase + n)) (by omega) ((hp' _ (by omega)).trans (by omega))

theorem upRegs_plain (s : Screen) : s.upRegs.Plain := ⟨rfl,rfl,rfl⟩

theorem toNat_ofNat16 {n : Nat} (h : n < 65536) : (BitVec.ofNat 16 n).toNat = n := by
  rw [BitVec.toNat_ofNat]
  exact Nat.mod_eq_of_lt h

-- The number of words of a line.
theorem words_succ {R : BlitRegs} {n : Nat} (hR : R.words = BitVec.ofNat 16 (sub16 n 1))
    (hn : 0 < n) (hle : n ≤ 65536) : R.words.toNat + 1 = n := by
  have hlt : sub16 n 1 < 65536 := Nat.mod_lt _ (by decide)
  rw [hR,toNat_ofNat16 hlt]
  unfold sub16 u16
  omega

theorem scroll_up_blit (h : s.Fits) (p : XmPort) (vram : Nat → BitVec 16) :
    s.Written (s.scrolledUp vram) (s.xansiScrollUp true (p.load vram)) := by
  have h2 := h.two_lines
  have hin := h.inside
  have hc := h.cols
  obtain ⟨n,hn⟩ : ∃ n, n = s.cols * s.rows - s.cols := ⟨_,rfl⟩
  obtain ⟨R,hR⟩ : ∃ R, R = s.clearRegs s.upRegs (sub16 (u16 (s.vramBase + s.vramSize)) s.cols) :=
    ⟨_,rfl⟩
  have hwords : s.upRegs.words.toNat + 1 = n := by
    refine words_succ ?_ (by omega) (by omega)
    rw [hn,← h.count]
    rfl
  have htotal : s.upRegs.total = n := by
    rw [BlitRegs.total,hwords]
    exact Nat.one_mul n
  have hwordsR : R.words.toNat + 1 = s.cols := words_succ (hR ▸ rfl) hc (by omega)
  have htotalR : R.total = s.cols := by
    have hlines : R.lines.toNat = 0 := by rw [hR]; rfl
    rw [BlitRegs.total,hlines,hwordsR,Nat.zero_add,Nat.one_mul]
  have hdst : R.dstD = BitVec.ofNat 16 (s.vramBase + n) := by
    rw [hR]
    refine congrArg (BitVec.ofNat 16) ?_
    rw [h.size]
    unfold sub16 u16
    omega
  have hplain : R.Plain := hR ▸ ⟨rfl,rfl,rfl⟩
  rw [Screen.xansiScrollUp,if_pos rfl]
  dsimp only
  rw [← hR,hplain.runMarked_fill (hR ▸ rfl),(upRegs_plain s).runMarked_copy rfl,htotal,htotalR,
    show R.srcS = s.blank from hR ▸ rfl]
  refine written_up h hn (fun i hi => ?_) (fun i hi => ?_) (fun j hj => ?_) vram
  · exact BlitRegs.place_line _ (by omega) (by omega)
  · exact BlitRegs.place_line _ (by omega) (by omega)
  · rw [hdst]
    exact BlitRegs.place_line _ (by omega) (by omega)

theorem scroll_up_cpu (h : s.Fits) (p : XmPort) (vram : Nat → BitVec 16) :
    s.Written (s.scrolledUp vram) (s.xansiScrollUp false (p.load vram)) := by
  have h2 := h.two_lines
  have hin := h.inside
  have hc := h.cols
  obtain ⟨P,hP⟩ : ∃ P : XmPort, P = { p.load vram with
      wrIncr := 1
      rdIncr := 1
      wrAddr := s.vramBase
      rdAddr := u16 (s.vramBase + s.cols) } := ⟨_,rfl⟩
  have hrd : P.rdAddr = u16 (s.vramBase + s.cols) := hP ▸ rfl
  have hwr : P.wrAddr = s.vramBase := hP ▸ rfl
  have hrdi : P.rdIncr = 1 := hP ▸ rfl
  have hwri : P.wrIncr = 1 := hP ▸ rfl
  have hapart : P.Apart := by
    refine ⟨hrdi.trans hwri.symm,?_,by omega⟩
    rw [hrd,hrdi,hwr]
    unfold u16
    omega
  rw [Screen.xansiScrollUp,if_neg Bool.false_ne_true,← hP,
    doScroll_vram hapart (hrd ▸ Nat.mod_lt _ (by decide)) h.count.symm,hrd,hwr,hrdi,hwri,
    show P.vram = fun x => (vram x,false) from hP ▸ rfl]
  refine written_up h rfl (fun i hi => ?_) (fun i hi => ?_) (fun j hj => ?_) vram
  all_goals
    unfold u16
    omega

end Up

section Down

variable {s : Screen}

theorem scroll_down_cpu (h : s.Fits) (p : XmPort) (vram : Nat → BitVec 16) :
    s.Written (s.scrolledDown vram) (s.xansiScrollDown false (p.load vram)) := by
  have h2 := h.two_lines
  have hin := h.inside
  have hc := h.cols
  obtain ⟨n,hn⟩ : ∃ n, n = sub16 s.vramSize s.cols := ⟨_,rfl⟩
  have hcount := hn.trans h.count
  obtain ⟨e,he⟩ : ∃ e, e = sub16 s.vramEnd 1 := ⟨_,rfl⟩
  have hlast := he.trans h.last
  obtain ⟨P,hP⟩ : ∃ P : XmPort, P = { p.load vram with
      wrIncr := 65535
      rdIncr := 65535
      wrAddr := e
      rdAddr := sub16 e s.cols } := ⟨_,rfl⟩
  have hrd : P.rdAddr = sub16 e s.cols := hP ▸ rfl
  have hwr : P.wrAddr = e := hP ▸ rfl
  have hrdi : P.rdIncr = 65535 := hP ▸ rfl
  have hwri : P.wrIncr = 65535 := hP ▸ rfl
  have hapart : P.Apart := by
    refine ⟨hrdi.trans hwri.symm,?_,by omega⟩
    rw [hrd,hrdi,hwr]
    unfold sub16 u16
    omega
  rw [Screen.xansiScrollDown,if_neg Bool.false_ne_true,← he,← hP,
    doScroll_vram hapart (hrd ▸ Nat.mod_lt _ (by decide)) hn,hrd,hwr,hrdi,hwri,
    show P.vram = fun x => (vram x,false) from hP ▸ rfl]
  have hp (i : Nat) (hi : i < n) : u16 (e + i * 65535) = e - i := by
    unfold u16
    omega
  have hq (i : Nat) (hi : i < n) : u16 (sub16 e s.cols + i * 65535) = e - s.cols - i := by
    unfold sub16 u16
    omega
  have hp' (j : Nat) (hj : j < s.cols) :
      u16 (u16 (e + n * 65535) + j * 65535) = s.vramBase + s.cols - 1 - j := by
    unfold u16
    omega
  refine written_of (fun i hi j hj => ?_) (fun i hi j hj => ?_) (fun i hi => ?_)
    (fun j hj => ?_) (fun x hx hx' => ?_)
  · rw [hp i hi,hp j (hj.trans hi)]
    omega
  · rw [hq i hi,hp j (hj.trans hi)]
    omega
  · rw [hp i hi,hq i hi,Screen.scrolledDown,if_pos (by omega),if_pos (by omega)]
    refine ⟨by omega,by omega,congrArg vram (by omega)⟩
  · rw [hp' j hj,Screen.scrolledDown,if_pos (by omega),if_neg (by omega)]
    exact ⟨by omega,by omega,rfl⟩
  · rw [Screen.scrolledDown,if_neg (fun hin => ?_)]
    rcases Nat.lt_or_ge x (s.vramBase + s.cols) with hlt | hge
    · exact hx' (s.vramBase + s.cols - 1 - x) (by omega) ((hp' _ (by omega)).trans (by omega))
    · exact hx (e - x) (by omega) ((hp _ (by omega)).trans (by omega))

-- A word in its line.
theorem line_of {C : Nat} (i : Nat) (hC : 0 < C) :
    ∃ t o, i / C * C = t ∧ i % C = o ∧ t + o = i ∧ o < C :=
  ⟨_,_,rfl,rfl,Nat.div_add_mod' i C,Nat.mod_lt i hC⟩

theorem line_mk {C j o : Nat} (ho : o < C) :
    (j * C + o) / C * C = j * C ∧ (j * C + o) % C = o := by
  constructor
  · rw [Nat.mul_comm j,Nat.mul_add_div (by omega),Nat.div_eq_of_lt ho,Nat.add_zero]
    exact Nat.mul_comm j C ▸ rfl
  · rw [Nat.mul_comm j,Nat.mul_add_mod,Nat.mod_eq_of_lt ho]

theorem line_lt {C i i' : Nat} (h : i' < i) : i' / C * C = i / C * C ∨
    i' / C * C + C ≤ i / C * C := by
  rcases Nat.eq_or_lt_of_le (Nat.div_le_div_right h.le (c := C)) with he | hlt
  · exact Or.inl (by rw [he])
  · right
    have hle := Nat.mul_le_mul_right C (Nat.succ_le_of_lt hlt)
    rwa [Nat.succ_mul] at hle

theorem line_le {C R i : Nat} (hi : i < C * R) : i / C * C + C ≤ C * R := by
  have hlt : i / C < R := Nat.div_lt_of_lt_mul hi
  rw [← Nat.succ_mul,Nat.mul_comm C]
  exact Nat.mul_le_mul_right _ hlt

-- Lines that go up: every one begins a row before the one before it.
theorem place_up {R : BlitRegs} {mod : BitVec 16} {C a i : Nat} (hw : R.words.toNat + 1 = C)
    (hm : mod.toNat + 2 * C = 65536) (ha : a < 65536) (hi : i ≤ 65536) :
    R.place (BitVec.ofNat 16 a) mod i = u16 (a + 65536 - i / C * C + i % C) := by
  change ((BitVec.ofNat 16 a).toNat + i / (R.words.toNat + 1) * (R.words.toNat + 1 + mod.toNat) +
    i % (R.words.toNat + 1)) % 65536 = _
  have hback : i / C * (C + mod.toNat) + i / C * C = i / C * 65536 := by
    rw [← Nat.mul_add]
    exact congrArg (i / C * ·) (by omega)
  have hle : i / C * C ≤ i := Nat.div_mul_le_self i C
  rw [hw,toNat_ofNat16 ha]
  unfold u16
  generalize i / C = j at *
  generalize i % C = o at *
  generalize j * C = t at *
  omega

theorem downRegs_plain (s : Screen) : s.downRegs.Plain := ⟨rfl,rfl,rfl⟩

-- The words of a scroll down that its second operation fills: from the first line up as many lines
-- as the first operation had.
def Screen.Cleared (s : Screen) (x : Nat) : Prop :=
  ∃ k < s.cols * s.rows, u16 (s.vramBase + s.cols + 65535 - k) = x

instance (s : Screen) : DecidablePred s.Cleared := fun x =>
  inferInstanceAs (Decidable (∃ k < s.cols * s.rows, _ = x))

-- Both operations of a scroll down have this shape.
structure DownLines (s : Screen) (R : BlitRegs) : Prop where
  words : R.words.toNat + 1 = s.cols
  lines : R.lines.toNat + 1 = s.rows
  modS : R.modS.toNat + 2 * s.cols = 65536
  modD : R.modD.toNat + 2 * s.cols = 65536

theorem downRegs_lines (h : s.Fits) : DownLines s s.downRegs := by
  have h2 := h.two_lines
  have hin := h.inside
  have hc := h.cols
  have hr := h.rows
  have hrlt := h.rows_lt
  have hmod : (BitVec.ofInt 16 (-(s.cols * 2))).toNat + 2 * s.cols = 65536 := by
    rw [BitVec.toNat_ofInt]
    omega
  refine ⟨words_succ rfl hc (by omega),?_,hmod,hmod⟩
  have hlt : sub16 s.rows 1 < 65536 := Nat.mod_lt _ (by decide)
  change (BitVec.ofNat 16 (sub16 s.rows 1)).toNat + 1 = s.rows
  rw [toNat_ofNat16 hlt]
  unfold sub16 u16
  omega

namespace DownLines

variable {R : BlitRegs}

theorem total (hR : DownLines s R) : R.total = s.cols * s.rows := by
  rw [BlitRegs.total,hR.words,hR.lines,Nat.mul_comm]

theorem cleared (hR : DownLines s R) (h : s.Fits) (hd : R.dstD = BitVec.ofNat 16 s.vramBase)
    (x : Nat) : (∃ i < R.total, R.place R.dstD R.modD i = x) ↔ s.Cleared x := by
  have h2 := h.two_lines
  have hin := h.inside
  have hc := h.cols
  have hplace {i : Nat} (hi : i < s.cols * s.rows) : R.place R.dstD R.modD i =
      u16 (s.vramBase + 65536 - i / s.cols * s.cols + i % s.cols) := by
    rw [hd]
    exact place_up hR.words hR.modD (by omega) (by omega)
  rw [hR.total]
  -- The lines are filled from the left, the words counted from the right.
  constructor
  · rintro ⟨i,hi,rfl⟩
    obtain ⟨t,o,ht,ho,hto,hlt⟩ := line_of i hc
    have hle := line_le hi
    rw [hplace hi]
    rw [ht] at hle
    refine ⟨t + (s.cols - 1 - o),by omega,congrArg u16 ?_⟩
    rw [ht,ho]
    omega
  · rintro ⟨k,hk,rfl⟩
    obtain ⟨t,o,ht,ho,hto,hlt⟩ := line_of k hc
    have hle := line_le hk
    obtain ⟨hq,hm⟩ := line_mk (C := s.cols) (j := k / s.cols) (o := s.cols - 1 - o) (by omega)
    rw [ht] at hle hq hm
    have hi : t + (s.cols - 1 - o) < s.cols * s.rows := by omega
    refine ⟨t + (s.cols - 1 - o),hi,?_⟩
    rw [hplace hi,hq,hm]
    refine congrArg u16 ?_
    omega

end DownLines

-- The words of the first operation, from the last but one of the screen on.
theorem down_dst (h : s.Fits) {i : Nat} (hi : i < s.cols * s.rows) :
    s.downRegs.place s.downRegs.dstD s.downRegs.modD i =
      u16 (s.vramBase + s.cols * s.rows + 65535 - s.cols - i / s.cols * s.cols + i % s.cols) := by
  have h2 := h.two_lines
  have hin := h.inside
  have hl := downRegs_lines h
  have hle := line_le hi
  have hlt : sub16 (sub16 s.vramEnd s.cols) 1 < 65536 := Nat.mod_lt _ (by decide)
  have hdst : s.downRegs.dstD = BitVec.ofNat 16 (sub16 (sub16 s.vramEnd s.cols) 1) := rfl
  rw [hdst,place_up hl.words hl.modD hlt (by omega),h.below]
  generalize i / s.cols * s.cols = t at *
  generalize i % s.cols = o at *
  exact congrArg u16 (by omega)

theorem down_src (h : s.Fits) {i : Nat} (hi : i < s.cols * s.rows) :
    s.downRegs.place s.downRegs.srcS s.downRegs.modS i =
      u16 (s.downRegs.place s.downRegs.dstD s.downRegs.modD i + 65536 - s.cols) := by
  have h2 := h.two_lines
  have hin := h.inside
  have hl := downRegs_lines h
  have hle := line_le hi
  have hlt : sub16 (sub16 (sub16 s.vramEnd s.cols) 1) s.cols < 65536 := Nat.mod_lt _ (by decide)
  have hsrc : s.downRegs.srcS =
      BitVec.ofNat 16 (sub16 (sub16 (sub16 s.vramEnd s.cols) 1) s.cols) := rfl
  rw [down_dst h hi,hsrc,place_up hl.words hl.modS hlt (by omega),h.below]
  generalize i / s.cols * s.cols = t at *
  generalize i % s.cols = o at *
  unfold sub16 u16
  omega

-- All lines but the last lie in the screen.
theorem down_body (h : s.Fits) {i : Nat} (hi : i < s.cols * s.rows - s.cols) :
    s.downRegs.place s.downRegs.dstD s.downRegs.modD i + i / s.cols * s.cols + s.cols + 1 =
        s.vramBase + s.cols * s.rows + i % s.cols ∧
      i / s.cols * s.cols + 2 * s.cols ≤ s.cols * s.rows := by
  have hin := h.inside
  have hlt := Nat.mod_lt i h.cols
  have hm : s.cols * s.rows - s.cols = s.cols * (s.rows - 1) := by rw [Nat.mul_sub_one]
  have hle : i / s.cols * s.cols + s.cols ≤ s.cols * s.rows - s.cols := hm ▸ line_le (hm ▸ hi)
  rw [down_dst h (by omega)]
  generalize i / s.cols * s.cols = t at *
  generalize i % s.cols = o at *
  unfold u16
  omega

theorem down_apart (h : s.Fits) {i j : Nat} (hi : i < s.cols * s.rows - s.cols) (hj : j < i) :
    s.downRegs.place s.downRegs.dstD s.downRegs.modD j ≠
        s.downRegs.place s.downRegs.dstD s.downRegs.modD i ∧
      s.downRegs.place s.downRegs.dstD s.downRegs.modD j ≠
        s.downRegs.place s.downRegs.srcS s.downRegs.modS i := by
  have hin := h.inside
  have hcase := line_lt (C := s.cols) hj
  obtain ⟨hpj,htj⟩ := down_body h (hj.trans hi)
  obtain ⟨hpi,hti⟩ := down_body h hi
  rw [down_src h (by omega)]
  have hlj := Nat.mod_lt j h.cols
  have hli := Nat.mod_lt i h.cols
  have hdj := Nat.div_add_mod' j s.cols
  have hdi := Nat.div_add_mod' i s.cols
  generalize s.downRegs.place s.downRegs.dstD s.downRegs.modD i = a at *
  generalize s.downRegs.place s.downRegs.dstD s.downRegs.modD j = b at *
  generalize i / s.cols * s.cols = t at *
  generalize j / s.cols * s.cols = t' at *
  generalize i % s.cols = o at *
  generalize j % s.cols = o' at *
  unfold u16
  omega

-- The last line is one that the second operation fills.
theorem down_last (h : s.Fits) {i : Nat} (hi : i < s.cols) :
    s.Cleared
      (s.downRegs.place s.downRegs.dstD s.downRegs.modD (s.cols * s.rows - s.cols + i)) := by
  have h2 := h.two_lines
  have hm : s.cols * s.rows - s.cols = (s.rows - 1) * s.cols := by
    rw [Nat.sub_one_mul,Nat.mul_comm]
  obtain ⟨hq,ho⟩ := line_mk (j := s.rows - 1) hi
  rw [← hm] at hq ho
  rw [down_dst h (by omega),hq,ho]
  refine ⟨s.cols - i,by omega,congrArg u16 ?_⟩
  omega

theorem downRegs_run (h : s.Fits) (vram : Nat → BitVec 16) {x : Nat} (hx : ¬ s.Cleared x) :
    unmark (s.downRegs.runMarked (fun x => (vram x,false))) x =
      if s.vramBase + s.cols ≤ x ∧ x + 1 < s.vramBase + s.cols * s.rows then vram (x - s.cols)
      else vram x := by
  have h2 := h.two_lines
  have hin := h.inside
  have hc := h.cols
  obtain ⟨n,hn⟩ : ∃ n, n = s.cols * s.rows - s.cols := ⟨_,rfl⟩
  have hsum : s.cols * s.rows = n + s.cols := by omega
  have hrun := (downRegs_plain s).runMarked_copy rfl (fun x => (vram x,false))
  obtain ⟨p,hp⟩ : ∃ p, p = s.downRegs.place s.downRegs.dstD s.downRegs.modD := ⟨_,rfl⟩
  obtain ⟨q,hq⟩ : ∃ q, q = s.downRegs.place s.downRegs.srcS s.downRegs.modS := ⟨_,rfl⟩
  rw [← hp,← hq,(downRegs_lines h).total,hsum] at hrun
  rw [hrun,writes_fst (g := fun i m => m (q i)),writes_add]
  have hlast (i : Nat) (hi : i < s.cols) : s.Cleared (p (n + i)) := hp ▸ hn ▸ down_last h hi
  rw [writes_off (p := fun i => p (n + i))
    (fun i hi he => hx ((congrArg s.Cleared he).mp (hlast i hi)))]
  have hapart {i : Nat} (hi : i < n) (j : Nat) (hj : j < i) : p j ≠ p i ∧ p j ≠ q i := by
    rw [hp,hq]
    exact down_apart h (hn ▸ hi) hj
  split
  · next hx' =>
    -- The distance from the end of the screen is counted in lines, too.
    obtain ⟨t,o,ht,ho,hto,hlt⟩ := line_of (s.vramBase + s.cols * s.rows - 2 - x) hc
    obtain ⟨hq',ho'⟩ := line_mk (C := s.cols)
      (j := (s.vramBase + s.cols * s.rows - 2 - x) / s.cols) (o := s.cols - 1 - o) (by omega)
    rw [ht] at hq' ho'
    have hle := line_le (C := s.cols) (R := s.rows - 1)
      (i := s.vramBase + s.cols * s.rows - 2 - x) (by rw [Nat.mul_sub_one]; omega)
    rw [ht,Nat.mul_sub_one] at hle
    obtain ⟨i,hi⟩ : ∃ i, i = t + (s.cols - 1 - o) := ⟨_,rfl⟩
    have hin' : i < n := by omega
    have hb := (down_body h (hn ▸ hin')).1
    have hs := down_src h (i := i) (by omega)
    rw [← hi] at hq' ho'
    rw [← hp] at hb hs
    rw [← hq] at hs
    have hpx : p i = x := by omega
    have hat := copies_at (m := vram) p q (fun i hi j hj => (hapart hi j hj).1)
      (fun i hi j hj => (hapart hi j hj).2) hin'
    rw [hs,hpx] at hat
    refine hat.trans (congrArg vram ?_)
    unfold u16
    omega
  · next hx' =>
    refine writes_off (fun i hi he => ?_)
    have hb := (down_body h (hn ▸ hi))
    have hlt := Nat.mod_lt i hc
    have hcl : s.Cleared (s.vramBase + s.cols - 1) :=
      ⟨0,by omega,by unfold u16; omega⟩
    rw [← hp,he] at hb
    have hne : x ≠ s.vramBase + s.cols - 1 := fun hxe => hx (hxe ▸ hcl)
    omega

theorem scrollDown_blit (p : XmPort) (vram : Nat → BitVec 16) :
    s.xansiScrollDown true (p.load vram) = (s.clearRegs s.downRegs s.vramBase).runMarked
      (s.downRegs.runMarked (fun x => (vram x,false))) := by
  simp only [Screen.xansiScrollDown,XmPort.load,if_true]

theorem scroll_down_blit_words (h : s.Fits) (p : XmPort) (vram : Nat → BitVec 16) :
    unmark (s.xansiScrollDown true (p.load vram)) = fun x =>
      if s.Cleared x then s.blank
      else if s.vramBase + s.cols ≤ x ∧ x + 1 < s.vramBase + s.cols * s.rows then
        vram (x - s.cols)
      else vram x := by
  obtain ⟨R,hR⟩ : ∃ R, R = s.clearRegs s.downRegs s.vramBase := ⟨_,rfl⟩
  have hplain : R.Plain := hR ▸ ⟨rfl,rfl,rfl⟩
  have hlines : DownLines s R := by
    have hl := downRegs_lines h
    rw [hR]
    exact ⟨hl.words,hl.lines,hl.modS,hl.modD⟩
  have hsrc : R.srcS = s.blank := hR ▸ rfl
  funext x
  rw [scrollDown_blit,← hR,hplain.runMarked_fill (hR ▸ rfl),writes_fst (g := fun _ _ => R.srcS),
    writes_const,hsrc]
  refine (if_congr (hlines.cleared h (hR ▸ rfl) x) rfl rfl).trans ?_
  split
  · rfl
  · next hx => exact downRegs_run h vram hx

-- What the two operations write.
theorem down_marked (h : s.Fits) (p : XmPort) (vram : Nat → BitVec 16) (x : Nat) :
    (s.xansiScrollDown true (p.load vram) x).2 = true ↔
      (∃ i < s.cols * s.rows, s.downRegs.place s.downRegs.dstD s.downRegs.modD i = x) ∨
        s.Cleared x := by
  obtain ⟨R,hR⟩ : ∃ R, R = s.clearRegs s.downRegs s.vramBase := ⟨_,rfl⟩
  have hl := downRegs_lines h
  have hlines : DownLines s R := by
    rw [hR]
    exact ⟨hl.words,hl.lines,hl.modS,hl.modD⟩
  have hplain : R.Plain := hR ▸ ⟨rfl,rfl,rfl⟩
  rw [scrollDown_blit,← hR,hplain.runMarked_fill (hR ▸ rfl),
    (downRegs_plain s).runMarked_copy rfl,← hlines.cleared h (hR ▸ rfl) x,hl.total]
  refine (writes_snd (g := fun _ _ => R.srcS) _ x).trans (or_congr_left ?_)
  refine (writes_snd
    (g := fun i m => unmark m (s.downRegs.place s.downRegs.srcS s.downRegs.modS i)) _ x).trans ?_
  exact or_iff_right Bool.false_ne_true

-- The first operation writes the word before the screen.
theorem down_marked_before (h : s.Fits) (p : XmPort) (vram : Nat → BitVec 16) :
    (s.xansiScrollDown true (p.load vram) (u16 (s.vramBase + 65535))).2 = true := by
  have h2 := h.two_lines
  have hin := h.inside
  have hc := h.cols
  have hm : s.cols * s.rows - s.cols = (s.rows - 1) * s.cols + 0 := by
    rw [Nat.sub_one_mul,Nat.mul_comm,Nat.add_zero]
  obtain ⟨hq,ho⟩ := line_mk (j := s.rows - 1) (o := 0) hc
  rw [← hm] at hq ho
  have hlt : s.cols * s.rows - s.cols < s.cols * s.rows := by omega
  refine (down_marked h p vram _).mpr (Or.inl ⟨_,hlt,?_⟩)
  rw [down_dst h hlt,hq,ho]
  exact congrArg u16 (by omega)

-- A screen of 64K words is filled as a whole.
theorem cleared_full (h : s.Fits) (hfull : s.cols * s.rows = 65536) (x : Nat) :
    s.Cleared x ↔ x < 65536 := by
  have h2 := h.two_lines
  have hin := h.inside
  constructor
  · rintro ⟨k,_,rfl⟩
    exact Nat.mod_lt _ (by decide)
  · intro hx
    refine ⟨u16 (s.cols + 131071 - x),?_,?_⟩
    all_goals
      unfold u16
      omega

theorem scroll_down_blit (h : s.Fits) (p : XmPort) (vram : Nat → BitVec 16) :
    s.Written (s.scrolledDown vram) (s.xansiScrollDown true (p.load vram)) ↔
      s.cols * s.rows = 65536 ∧ ∀ x, x + s.cols < 65536 → vram x = s.blank := by
  have h2 := h.two_lines
  have hin := h.inside
  have hc := h.cols
  have hwords := scroll_down_blit_words h p vram
  constructor
  · intro hw
    have hmark := hw.inside _ (down_marked_before h p vram)
    unfold u16 at hmark
    have hfull : s.cols * s.rows = 65536 := by omega
    refine ⟨hfull,fun x hx => ?_⟩
    have hcl : s.Cleared (x + s.cols) := (cleared_full h hfull _).mpr hx
    have hat := congrFun (hwords.symm.trans hw.words) (x + s.cols)
    rw [if_pos hcl,Screen.scrolledDown,if_pos (by omega),if_pos (by omega),
      Nat.add_sub_cancel] at hat
    exact hat.symm
  · rintro ⟨hfull,hblank⟩
    refine ⟨hwords.trans (funext (fun x => ?_)),fun x hx => ?_⟩
    · rw [if_congr (cleared_full h hfull x) rfl rfl,Screen.scrolledDown]
      split
      · next hx =>
        rw [if_pos (by omega)]
        split
        · exact (hblank _ (by omega)).symm
        · rfl
      · next hx => rw [if_neg (by omega),if_neg (by omega)]
    · have hlt : x < 65536 := by
        rcases (down_marked h p vram x).mp hx with ⟨i,_,rfl⟩ | ⟨k,_,rfl⟩
        · exact Nat.mod_lt _ (by decide)
        · exact Nat.mod_lt _ (by decide)
      omega

end Down

-- Both scrolls, with or without a blitter: every row goes a line up or down, the line that gets
-- free is blank, and nothing is written but the screen.
structure ScrollsAlike (s : Screen) (p : XmPort) (vram : Nat → BitVec 16) : Prop where
  up : ∀ blitter, s.Written (s.scrolledUp vram) (s.xansiScrollUp blitter (p.load vram))
  down : ∀ blitter, s.Written (s.scrolledDown vram) (s.xansiScrollDown blitter (p.load vram))

theorem xansi_scrolls {s : Screen} (h : s.Fits) (p : XmPort) (vram : Nat → BitVec 16) :
    ScrollsAlike s p vram ↔
      s.cols * s.rows = 65536 ∧ ∀ x, x + s.cols < 65536 → vram x = s.blank := by
  rw [← scroll_down_blit h p vram]
  constructor
  · exact fun hs => hs.down true
  · refine fun hd => ⟨fun blitter => ?_,fun blitter => ?_⟩
    · cases blitter with
      | false => exact scroll_up_cpu h p vram
      | true => exact scroll_up_blit h p vram
    · cases blitter with
      | false => exact scroll_down_cpu h p vram
      | true => exact hd

def idlePort : XmPort where
  vram := fun _ => (0,false)
  rdAddr := 0
  rdIncr := 1
  wrAddr := 0
  wrIncr := 1
  high := 0

theorem homeScreen_fits : homeScreen.Fits := by
  refine ⟨?_,?_,?_,?_,?_,?_⟩ <;> decide

def wholeScreen : Screen :=
  { homeScreen with
    cols := 256
    rows := 256
    vramSize := 0
    vramEnd := 0 }

theorem xansi_scrolls_full : ScrollsAlike wholeScreen idlePort (fun _ => wholeScreen.blank) ∧
    ¬ ScrollsAlike homeScreen idlePort (fun _ => homeScreen.blank) := by
  have hfull : wholeScreen.Fits := by
    refine ⟨?_,?_,?_,?_,?_,?_⟩ <;> decide
  have hsize : homeScreen.cols * homeScreen.rows ≠ 65536 := by decide
  exact ⟨(xansi_scrolls hfull idlePort _).mpr ⟨rfl,fun _ _ => rfl⟩,
    fun hs => hsize ((xansi_scrolls homeScreen_fits idlePort _).mp hs).1⟩

-- The last word of the screen stays what it was.
theorem xansi_scrolls_last :
    ¬ ScrollsAlike homeScreen idlePort (fun x => BitVec.ofNat 16 x) := by
  intro hs
  have hat := congrFun ((scroll_down_blit_words homeScreen_fits idlePort _).symm.trans
    (hs.down true).words) 3179
  have hcl : ¬ homeScreen.Cleared 3179 := by
    rintro ⟨k,hk,he⟩
    have hk : k < 3180 := hk
    have he : (106 + 65535 - k) % 65536 = 3179 := he
    omega
  have hbase : homeScreen.vramBase = 0 := rfl
  have hcols : homeScreen.cols = 106 := rfl
  have hrows : homeScreen.rows = 30 := rfl
  rw [if_neg hcl,Screen.scrolledDown,hbase,hcols,hrows,if_neg (by decide),if_pos (by decide),
    if_pos (by decide)] at hat
  have hneq : BitVec.ofNat 16 3179 ≠ BitVec.ofNat 16 3073 := by decide
  exact hneq hat

end RoscoM68k
