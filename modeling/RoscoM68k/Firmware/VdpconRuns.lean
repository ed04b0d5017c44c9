import RoscoM68k.Base.LineRing
import RoscoM68k.Firmware.Vdpcon

namespace RoscoM68k

def vdpPorts : List Nat :=
  [PORT_RWDATA,PORT_RWDATA + 2,PORT_RWDATA + 4,PORT_RWDATA + 6]

-- Memory is written inside the data block only, and the chip at its ports.
def ConsoleWrite.Proper : ConsoleWrite → Prop
  | .memory addr size => CURPOS ≤ addr ∧ addr + size ≤ BLOCK_END
  | .vdp addr _ => addr ∈ vdpPorts

-- What is written by this base, with and without the setup offset, reaches ports.
def PortsAt (a0 : Nat) : Prop :=
  low32 (a0 + 0) ∈ vdpPorts ∧ low32 (a0 + PORT_WREG_SETUP) ∈ vdpPorts

instance (a0 : Nat) : Decidable (PortsAt a0) := inferInstanceAs (Decidable (_ ∧ _))

abbrev ConsoleRing := LineRing LINELENGTH LINECOUNT

section Words

variable {d w : Nat}

theorem withWord_word (d w : Nat) : withWord d w % 65536 = w % 65536 := by
  unfold withWord
  omega

theorem withWord_high (d w : Nat) : withWord d w / 65536 = d / 65536 := by
  unfold withWord
  omega

theorem withByte_byte (d b : Nat) : withByte d b % 256 = b % 256 := by
  unfold withByte
  omega

theorem indexed_buffer (h : d % 65536 < DISPLAYSIZE) : indexed BUFFER d = BUFFER + d % 65536 := by
  have hd : DISPLAYSIZE = 1920 := rfl
  have hb : BUFFER = 0x50a := rfl
  exact indexed_small (by omega) (by omega)

end Words

namespace Console

-- The pointers and A0 stay as they are, and what is added to the log is proper.
structure Steady (m m' : Mem) (ws ws' : List ConsoleWrite) (a a' : Nat) : Prop where
  curpos : m'.readW CURPOS = m.readW CURPOS
  displaystart : m'.readW DISPLAYSTART = m.readW DISPLAYSTART
  proper : ∃ us, ws' = ws ++ us ∧ ∀ w ∈ us, w.Proper
  base : a' = a

def Extends (s s' : Console) : Prop := ∃ us, s'.writes = s.writes ++ us ∧ ∀ w ∈ us, w.Proper

def Quiet (s s' : Console) : Prop := Steady s.mem s'.mem s.writes s'.writes s.a0 s'.a0

-- The pointers are those of a ring of lines.
structure At (s : Console) (r : ConsoleRing) : Prop where
  cur : s.curpos = r.cur
  start : s.displaystart = r.start

def AtPorts (s : Console) : Prop := PortsAt s.a0

variable {s t u : Console} {r : ConsoleRing}

section Frames

theorem Extends.refl (s : Console) : Extends s s :=
  ⟨[],(List.append_nil _).symm,fun _ hw => nomatch hw⟩

theorem Extends.trans (h : Extends s t) (h' : Extends t u) : Extends s u := by
  obtain ⟨us,hs,hp⟩ := h
  obtain ⟨us',hs',hp'⟩ := h'
  refine ⟨us ++ us',by rw [hs',hs,List.append_assoc],fun w hw => ?_⟩
  exact (List.mem_append.mp hw).elim (hp w) (hp' w)

theorem Quiet.extends (h : Quiet s t) : Extends s t := h.proper

theorem Quiet.refl (s : Console) : Quiet s s := ⟨rfl,rfl,Extends.refl s,rfl⟩

theorem Quiet.trans (h : Quiet s t) (h' : Quiet t u) : Quiet s u where
  curpos := h'.curpos.trans h.curpos
  displaystart := h'.displaystart.trans h.displaystart
  proper := Extends.trans (s := s) (t := t) (u := u) h.proper h'.proper
  base := h'.base.trans h.base

theorem Quiet.ports (h : Quiet s t) (hp : s.AtPorts) : t.AtPorts := by
  rwa [AtPorts,h.base]

theorem Quiet.at (h : Quiet s t) (hr : s.At r) : t.At r :=
  ⟨h.curpos.trans hr.cur,h.displaystart.trans hr.start⟩

theorem extends_one {w : ConsoleWrite} (hw : w.Proper) (h : t.writes = s.writes ++ [w]) :
    Extends s t := ⟨[w],h,fun _ hm => List.mem_singleton.mp hm ▸ hw⟩

theorem vdpPorts_high {a : Nat} (h : a ∈ vdpPorts) : 0xf80000 ≤ a := by
  simp only [vdpPorts,PORT_RWDATA,List.mem_cons,List.not_mem_nil,or_false] at h
  omega

-- Bytes behind the pointers.
theorem quiet_storeB {addr : Nat} (v : Nat) (h : CURSORCOUNT ≤ addr) (h' : addr + 1 ≤ BLOCK_END) :
    Quiet s (s.storeB addr v) where
  curpos := Mem.readW_congr fun x _ hx => Mem.writeB_of_ne _ _ (by
    unfold CURPOS CURSORCOUNT at *
    omega)
  displaystart := Mem.readW_congr fun x _ hx => Mem.writeB_of_ne _ _ (by
    unfold DISPLAYSTART CURSORCOUNT at *
    omega)
  proper := by
    refine extends_one (s := s) (w := .memory addr 1) ⟨?_,h'⟩ rfl
    unfold CURPOS CURSORCOUNT at *
    omega
  base := rfl

theorem quiet_storeL {addr : Nat} (v : Nat) (h : CURSORCOUNT ≤ addr) (h' : addr + 4 ≤ BLOCK_END) :
    Quiet s (s.storeL addr v) where
  curpos := Mem.readW_writeL_apart _ _ (by
    unfold CURPOS CURSORCOUNT at *
    omega)
  displaystart := Mem.readW_writeL_apart _ _ (by
    unfold DISPLAYSTART CURSORCOUNT at *
    omega)
  proper := by
    refine extends_one (s := s) (w := .memory addr 4) ⟨?_,h'⟩ rfl
    unfold CURPOS CURSORCOUNT at *
    omega
  base := rfl

theorem quiet_port {offset : Nat} (v : Nat) (h : low32 (s.a0 + offset) ∈ vdpPorts) :
    Quiet s (s.port offset v) where
  curpos := Mem.readW_congr fun x _ hx => Mem.writeB_of_ne _ _ (by
    have := vdpPorts_high h
    unfold CURPOS at hx
    omega)
  displaystart := Mem.readW_congr fun x _ hx => Mem.writeB_of_ne _ _ (by
    have := vdpPorts_high h
    unfold DISPLAYSTART at hx
    omega)
  proper := extends_one (s := s) (w := .vdp _ _) h rfl
  base := rfl

theorem quiet_setup (h : s.AtPorts) (v : Nat) : Quiet s (s.port PORT_WREG_SETUP v) :=
  quiet_port v h.2

theorem quiet_data (h : s.AtPorts) (v : Nat) : Quiet s (s.port 0 v) := quiet_port v h.1

end Frames

section Parts

theorem quiet_clearLongs {n : Nat} (h : CURSORCOUNT ≤ s.a1) (h' : s.a1 + 4 * n ≤ BLOCK_END) :
    Quiet s (s.clearLongs n) := by
  induction n generalizing s with
  | zero => exact Quiet.refl s
  | succ n ih =>
    have hnext : s.clearLong.a1 = s.a1 + 4 := by
      unfold BLOCK_END at h'
      exact Nat.mod_eq_of_lt (by omega)
    have hone : Quiet s s.clearLong := quiet_storeL 0 h (by omega)
    exact hone.trans (ih (by omega) (by omega))

theorem quiet_copyLoop {n : Nat} (h : s.AtPorts) : Quiet s (s.copyLoop n) := by
  induction n generalizing s with
  | zero => exact Quiet.refl s
  | succ n ih =>
    have hone : Quiet s s.copyByte := quiet_data h _
    exact hone.trans (ih (hone.ports h))

theorem quiet_vramAddr (h : s.AtPorts) (high low : Nat) : Quiet s (s.vramAddr high low) := by
  have h1 := quiet_setup h high
  have h2 := h1.trans (quiet_setup (h1.ports h) 0x8e)
  exact h2.trans (quiet_setup (h2.ports h) low)

theorem quiet_flipSetup (h : s.AtPorts) : Quiet s s.flipSetup := by
  have h1 := quiet_vramAddr h VRAM_HIGH VRAM_LOW
  rw [flipSetup]
  revert h1
  generalize s.vramAddr VRAM_HIGH VRAM_LOW = t
  intro h1
  have h2 := h1.trans (quiet_storeB (t.d0 % 256) (by decide : CURSORCOUNT ≤ CURRENTPAGE)
    (by decide))
  exact h2.trans (quiet_setup (h2.ports h) _)

theorem quiet_bufferFlip (h : s.AtPorts) : Quiet s s.bufferFlip := by
  rw [bufferFlip]
  have hq := quiet_flipSetup h
  exact hq.trans (quiet_copyLoop (hq.ports h))

theorem quiet_flip (h : s.AtPorts) (a1 d0 : Nat) : Quiet s { s with
    a1 := a1
    d0 := d0 }.bufferFlip := by
  have hp : AtPorts { s with
    a1 := a1
    d0 := d0 } := h
  have hq := quiet_bufferFlip hp
  exact ⟨hq.curpos,hq.displaystart,hq.proper,hq.base⟩

theorem quiet_setupVramWrite (h : s.AtPorts) : Quiet s s.setupVramWrite := by
  have h1 := quiet_vramAddr h 0 (s.vramPos % 256)
  exact h1.trans (quiet_setup (h1.ports h) _)

theorem setupVramWrite_regs (s : Console) : s.setupVramWrite.a1 = s.a1 ∧
    s.setupVramWrite.d1 = s.d1 := ⟨rfl,rfl⟩

theorem quiet_clearBuffer (s : Console) : Quiet s s.clearBuffer := by
  obtain ⟨t,ht⟩ : ∃ t : Console, t = { s with
      d1 := withWord s.d1 DWDISPLAYSIZE
      a1 := BUFFER } := ⟨_,rfl⟩
  have ha : t.a1 = BUFFER := by rw [ht]
  have hq := quiet_clearLongs (s := t) (n := DWDISPLAYSIZE) (by rw [ha]; decide)
    (by rw [ha]; decide)
  rw [clearBuffer,← ht]
  revert hq
  generalize t.clearLongs DWDISPLAYSIZE = u
  intro hq
  rw [ht] at hq
  exact hq

end Parts

section Printing

theorem extends_storeW {addr : Nat} (v : Nat) (h : CURPOS ≤ addr) (h' : addr + 2 ≤ BLOCK_END) :
    Extends s (s.storeW addr v) := extends_one (w := .memory addr 2) ⟨h,h'⟩ rfl

theorem size_eq : LINELENGTH * LINECOUNT = 1920 := rfl

theorem layout : LINELENGTH = 80 ∧ DISPLAYSIZE = 1920 ∧ BUFFER = 0x50a ∧ BLOCK_END = 0xc8a ∧
    CURSORCOUNT = 0x504 ∧ DWLINELENGTH = 20 ∧ DWDISPLAYSIZE = 480 := ⟨rfl,rfl,rfl,rfl,rfl,rfl,rfl⟩

theorem moveStart_at (hs : s.displaystart = r.start) (hd : s.d2 % 65536 = r.start) :
    s.moveStart.curpos = s.curpos ∧
      s.moveStart.displaystart = LineRing.wrap LINELENGTH LINECOUNT (r.start + LINELENGTH) ∧
      Extends s s.moveStart := by
  have hline := r.start_line
  have hlen : LINELENGTH = 80 := rfl
  have hsum : (s.d2 + LINELENGTH) % 65536 = r.start + LINELENGTH := by
    rw [size_eq] at hline
    omega
  have hd2 :
      s.moveStart.d2 % 65536 = LineRing.wrap LINELENGTH LINECOUNT (r.start + LINELENGTH) := by
    have hw : withWord s.d2 (LineRing.wrap LINELENGTH LINECOUNT (r.start + LINELENGTH)) % 65536 =
        LineRing.wrap LINELENGTH LINECOUNT (r.start + LINELENGTH) := by
      have hlt := LineRing.wrap_lt r.pos hline
      rw [withWord_word]
      rw [size_eq] at hlt
      omega
    rw [← hw,← hsum]
    rfl
  refine ⟨Mem.readW_writeW_apart _ _ (.inr (by decide)),?_,extends_storeW _ (by decide) (by decide)⟩
  rw [← hd2]
  exact (Mem.readW_writeW_self _ _ _).trans (Nat.mod_mod _ _)

-- A line of the buffer, found by a register without anything in its upper word.
theorem quiet_clearLine (ha : s.a1 = BUFFER) (hd : s.d1 + LINELENGTH ≤ DISPLAYSIZE) :
    Quiet s s.clearLine := by
  obtain ⟨hlen,hsize,hbuf,hend,hcount,hdw,-⟩ := layout
  obtain ⟨u,hu⟩ : ∃ u : Console, u = { s with
      a1 := low32 (s.a1 + s.d1)
      d2 := withWord s.d2 DWLINELENGTH } := ⟨_,rfl⟩
  have ha1 : u.a1 = BUFFER + s.d1 := by
    rw [hu,ha]
    exact Nat.mod_eq_of_lt (by omega)
  have hq := quiet_clearLongs (s := u) (n := DWLINELENGTH) (by omega) (by omega)
  rw [hu] at hq
  exact hq

theorem scroll_at (hr : s.displaystart = r.start) (hd2 : s.d2 % 65536 = r.start)
    (hd1 : s.d1 = r.start) (ha : s.a1 = BUFFER) (hp : s.AtPorts) :
    s.scroll.curpos = s.curpos ∧
      s.scroll.displaystart = LineRing.wrap LINELENGTH LINECOUNT (r.start + LINELENGTH) ∧
      Extends s s.scroll := by
  obtain ⟨hc,hstart,hext⟩ := moveStart_at hr hd2
  have hroom : s.moveStart.d1 + LINELENGTH ≤ DISPLAYSIZE := by
    have hline := r.start_line
    rw [← hd1] at hline
    exact hline
  have hmove : s.moveStart.AtPorts := hp
  have hclear : Quiet s.moveStart s.moveStart.clearLine := quiet_clearLine ha hroom
  rw [scroll]
  revert hclear
  generalize s.moveStart.clearLine = u
  intro hq
  have hflip := hq.trans
    (quiet_flip (hq.ports hmove) BUFFER (withByte u.d0 (255 - u.mem.readB CURRENTPAGE)))
  exact ⟨hflip.curpos.trans hc,hflip.displaystart.trans hstart,hext.trans hflip.extends⟩

-- One cell is written, and CURPOS is the next.
structure Printed (s t : Console) (r : ConsoleRing) : Prop where
  curpos : t.curpos = LineRing.wrap LINELENGTH LINECOUNT (r.cur + 1)
  displaystart : t.displaystart = r.start
  word : t.d1 = withWord s.d1 (LineRing.wrap LINELENGTH LINECOUNT (r.cur + 1))
  start : t.d2 % 65536 = r.start
  a0 : t.a0 = s.a0
  a1 : t.a1 = BUFFER
  d0 : t.d0 = s.d0
  ext : Extends s t

theorem printCell_printed (hr : s.At r) (hd : s.d1 % 65536 = r.cur) (hp : s.AtPorts) :
    Printed s s.printCell r := by
  obtain ⟨-,hsize,hbuf,hend,hcount,-,-⟩ := layout
  have hcur := r.cur_lt
  have hstart := r.start_lt
  rw [size_eq] at hcur hstart
  have hidx : indexed BUFFER s.d1 = BUFFER + r.cur := by
    rw [indexed_buffer (by omega),hd]
  obtain ⟨t,ht⟩ : ∃ t : Console, t = { s with
      a1 := BUFFER
      d2 := withWord s.d2 s.displaystart }.storeB (indexed BUFFER s.d1) (s.d0 % 256) := ⟨_,rfl⟩
  have hcell : Quiet s t := by
    rw [ht,hidx]
    exact quiet_storeB _ (by omega) (by omega)
  have hsetup := hcell.trans (quiet_setupVramWrite (hcell.ports hp))
  have hvram := hsetup.trans (quiet_data (hsetup.ports hp) (s.d0 % 256))
  have hsum : (s.d1 + 1) % 65536 = r.cur + 1 := by omega
  obtain ⟨u,hu⟩ : ∃ u : Console, u = { t.setupVramWrite.port 0 (s.d0 % 256) with
      d1 := withWord s.d1 (LineRing.wrap LINELENGTH LINECOUNT (r.cur + 1)) } := ⟨_,rfl⟩
  have hprint : s.printCell = u.storeW CURPOS (u.d1 % 65536) := by
    rw [hu,ht,← hsum]
    rfl
  have hqu : Quiet s u := by
    rw [hu]
    exact hvram
  have hlt : LineRing.wrap LINELENGTH LINECOUNT (r.cur + 1) < LINELENGTH * LINECOUNT :=
    LineRing.wrap_lt r.pos r.cur_lt
  rw [size_eq] at hlt
  have hword : u.d1 % 65536 = LineRing.wrap LINELENGTH LINECOUNT (r.cur + 1) := by
    rw [hu]
    exact (withWord_word _ _).trans (Nat.mod_eq_of_lt (by omega))
  have hd2 : u.d2 % 65536 = r.start := by
    rw [hu,ht]
    change withWord s.d2 s.displaystart % 65536 = r.start
    rw [withWord_word,hr.start]
    omega
  rw [hprint]
  exact
    { curpos := by
        rw [hword]
        exact (Mem.readW_writeW_self _ _ _).trans (Nat.mod_eq_of_lt (by omega))
      displaystart := (Mem.readW_writeW_apart _ _ (.inl (by decide))).trans
        (hqu.displaystart.trans hr.start)
      word := by
        rw [hu]
        rfl
      start := hd2
      a0 := by
        rw [hu,ht]
        rfl
      a1 := by
        rw [hu,ht]
        rfl
      d0 := by
        rw [hu,ht]
        rfl
      ext := hqu.extends.trans (extends_storeW _ (by decide) (by decide)) }

theorem justPrint_at (hr : s.At r) (hd : s.d1 % 65536 = r.cur) (hp : s.AtPorts)
    (hroom : r.Meets (r.cur + 1) → s.d1 < 65536) :
    s.justPrint.At r.put ∧ Extends s s.justPrint ∧
      (¬ r.Meets (r.cur + 1) → s.justPrint.d0 = s.d0) := by
  have h := printCell_printed hr hd hp
  rw [justPrint]
  revert h
  generalize s.printCell = t
  intro h
  have hlt : LineRing.wrap LINELENGTH LINECOUNT (r.cur + 1) < LINELENGTH * LINECOUNT :=
    LineRing.wrap_lt r.pos r.cur_lt
  rw [size_eq] at hlt
  have hword : t.d1 % 65536 = LineRing.wrap LINELENGTH LINECOUNT (r.cur + 1) := by
    rw [h.word,withWord_word,Nat.mod_eq_of_lt (by omega)]
  by_cases hm : r.Meets (r.cur + 1)
  · have hd1 : t.d1 = r.start := by
      have hlow := hroom hm
      have hhigh : t.d1 / 65536 = s.d1 / 65536 := by
        rw [h.word,withWord_high]
      rw [LineRing.Meets] at hm
      omega
    have htp : t.AtPorts := by
      rwa [AtPorts,h.a0]
    obtain ⟨hc,hs,hext⟩ := scroll_at h.displaystart h.start hd1 h.a1 htp
    rw [if_pos (by rw [hword,h.start]; exact hm)]
    refine ⟨⟨hc.trans h.curpos,hs.trans ?_⟩,h.ext.trans hext,fun hn => absurd hm hn⟩
    exact (if_pos hm).symm
  · rw [if_neg (by rw [hword,h.start]; exact hm)]
    exact ⟨⟨h.curpos,h.displaystart.trans (if_neg hm).symm⟩,h.ext,fun _ => h.d0⟩

theorem eraseCell_at (ha : s.a1 = BUFFER) (hd : s.d1 % 65536 < DISPLAYSIZE) (hp : s.AtPorts) :
    s.eraseCell.curpos = s.d1 % 65536 ∧ s.eraseCell.displaystart = s.displaystart ∧
      Extends s s.eraseCell := by
  obtain ⟨-,hsize,hbuf,hend,hcount,-,-⟩ := layout
  have h1 := quiet_setupVramWrite hp
  obtain ⟨hsa,hsd⟩ := setupVramWrite_regs s
  rw [eraseCell]
  revert h1 hsa hsd
  generalize s.setupVramWrite = t
  intro h1 hsa hsd
  have h2 := h1.trans (quiet_data (h1.ports hp) 0)
  have h3 := h2.trans (quiet_data (h2.ports hp) 0)
  have h4 := h3.trans (quiet_data (h3.ports hp) 0)
  have hregs : (((t.port 0 0).port 0 0).port 0 0).a1 = BUFFER ∧
      (((t.port 0 0).port 0 0).port 0 0).d1 = s.d1 := ⟨hsa.trans ha,hsd⟩
  revert h4 hregs
  generalize ((t.port 0 0).port 0 0).port 0 0 = u
  rintro h4 ⟨hua,hud⟩
  rw [hua,hud,indexed_buffer hd]
  have hstore : Quiet u (u.storeB (BUFFER + s.d1 % 65536) 0) :=
    quiet_storeB 0 (by omega) (by omega)
  have hcell := h4.trans hstore
  exact ⟨(Mem.readW_writeW_self _ _ _).trans (Nat.mod_mod _ _),
    (Mem.readW_writeW_apart _ _ (.inl (by decide))).trans hcell.displaystart,
    hcell.extends.trans (extends_storeW _ (by decide) (by decide))⟩

theorem backspace_eq (s : Console) : ∃ t : Console, s.backspace =
    (if s.displaystart % 65536 = s.d1 % 65536 then { s with
      a1 := BUFFER
      d2 := withWord s.d2 s.displaystart } else t.eraseCell) ∧ t.a1 = BUFFER ∧ t.a0 = s.a0 ∧
      t.d1 % 65536 = (s.d1 % 65536 + 65535) % 65536 ∧ t.mem = s.mem ∧ t.writes = s.writes := by
  refine ⟨{ s with
    a1 := BUFFER
    d2 := withWord s.d2 s.displaystart
    d1 := withWord s.d1 (s.d1 % 65536 + 65535) },?_,rfl,rfl,withWord_word _ _,rfl,rfl⟩
  rw [← withWord_word s.d2 s.displaystart]
  rfl

theorem backspace_at (hr : s.At r) (hd : s.d1 % 65536 = r.cur) (hp : s.AtPorts)
    (hk : r.cur ≠ 0 ∨ r.start = 0) : s.backspace.At r.back ∧ Extends s s.backspace := by
  have hsize : DISPLAYSIZE = 1920 := rfl
  have hcur := r.cur_lt
  have hstart := r.start_lt
  rw [size_eq] at hcur hstart
  obtain ⟨t,hback,ha1,ha0,hword,hmem,hwrites⟩ := backspace_eq s
  rw [hr.start,hd,Nat.mod_eq_of_lt (by omega : r.start < 65536)] at hback
  rw [hback]
  by_cases he : r.start = r.cur
  · rw [if_pos he,LineRing.back,if_pos he.symm]
    exact ⟨⟨hr.cur,hr.start⟩,Extends.refl s⟩
  · rw [if_neg he,LineRing.back,if_neg (fun h => he h.symm)]
    have htp : t.AtPorts := by
      rwa [AtPorts,ha0]
    obtain ⟨hc,hs,us,hus,hproper⟩ := eraseCell_at ha1 (by omega) htp
    refine ⟨⟨?_,?_⟩,us,by rw [hus,hwrites],hproper⟩
    · rw [hc,hword,hd]
      change (r.cur + 65535) % 65536 = r.cur - 1
      omega
    · rw [hs,displaystart,hmem]
      exact hr.start

end Printing
-- Where a character other than backspace and line feed takes the position.
def charEnd (r : ConsoleRing) (c : Nat) : Nat := if c = 13 then r.lineEnd else r.cur + 1

def charRing (r : ConsoleRing) (c : Nat) : ConsoleRing :=
  if c = 10 then r else if c = 13 then r.newline else if c = 8 then r.back else r.put

-- The position does not go below 0, and a line is cleared with a clean register only.
structure CharKept (r : ConsoleRing) (c d1 : Nat) : Prop where
  back : c = 8 → r.cur ≠ 0 ∨ r.start = 0
  room : c ≠ 8 → c ≠ 10 → r.Meets (charEnd r c) → d1 < 65536

section Characters

-- What V9958_CON_PUTCHAR loads first.
structure Entered (s t : Console) (r : ConsoleRing) : Prop where
  ring : t.At r
  word : t.d1 % 65536 = r.cur
  high : t.d1 / 65536 = s.d1 / 65536
  ports : t.AtPorts
  ext : Extends s t
  d0 : t.d0 = s.d0

theorem entered (hr : s.At r) : Entered s { s with
    a0 := PORT_RWDATA
    d1 := withWord s.d1 s.curpos } r where
  ring := ⟨hr.cur,hr.start⟩
  word := by
    have hcur := r.cur_lt
    rw [size_eq] at hcur
    refine (withWord_word _ _).trans ?_
    rw [hr.cur]
    omega
  high := withWord_high _ _
  ports := (by decide : PortsAt PORT_RWDATA)
  ext := Extends.refl s
  d0 := rfl

-- The registers that are put back at the end hold neither pointers nor writes.
theorem At.restore (h : u.At r) (s : Console) : (u.restore s).At r := ⟨h.cur,h.start⟩

theorem Extends.restore (h : Extends s u) (t : Console) : Extends s (u.restore t) := h

theorem putchar_print (depth : Nat) (hr : s.At r) (h10 : s.d0 % 256 ≠ 10) (h13 : s.d0 % 256 ≠ 13)
    (h8 : s.d0 % 256 ≠ 8) (hroom : r.Meets (r.cur + 1) → s.d1 < 65536) :
    ∃ s', putchar (depth + 1) s = some s' ∧ s'.At r.put ∧ Extends s s' ∧ s'.d1 = s.d1 ∧
      (¬ r.Meets (r.cur + 1) → s'.d0 = s.d0) := by
  obtain ⟨t,hload⟩ : ∃ t : Console, t = { s with
    a0 := PORT_RWDATA
    d1 := withWord s.d1 s.curpos } := ⟨_,rfl⟩
  have ht : Entered s t r := hload ▸ entered hr
  rw [putchar,if_neg h10]
  dsimp only
  rw [if_neg h13,if_neg h8,← hload]
  have hlow : r.Meets (r.cur + 1) → t.d1 < 65536 := fun hm => by
    have hs := hroom hm
    have hh := ht.high
    omega
  obtain ⟨hat,hext,hd0⟩ := justPrint_at ht.ring ht.word ht.ports hlow
  obtain ⟨u,hprint⟩ : ∃ u, u = t.justPrint := ⟨_,rfl⟩
  rw [← hprint] at hat hext hd0 ⊢
  exact ⟨_,rfl,hat.restore s,(ht.ext.trans hext).restore s,rfl,fun hm => (hd0 hm).trans ht.d0⟩

-- One cell of a line that a carriage return clears.
theorem dbraLoop_put (depth n : Nat) (hr : s.At r) (h0 : s.d0 % 256 = 0)
    (hroom : r.Meets (r.cur + 1) → s.d1 < 65536) :
    ∃ s', s.dbraLoop (putchar (depth + 1)) (n + 1) = s'.dbraLoop (putchar (depth + 1)) n ∧
      s'.At r.put ∧ Extends s s' ∧ s'.d1 / 65536 = s.d1 / 65536 ∧
      (¬ r.Meets (r.cur + 1) → s'.d0 = s.d0) := by
  obtain ⟨t,ht⟩ : ∃ t : Console, t = { s with d1 := withWord s.d1 n } := ⟨_,rfl⟩
  have hat : t.At r := by
    rw [ht]
    exact ⟨hr.cur,hr.start⟩
  have hd0 : t.d0 = s.d0 := by rw [ht]
  have hext : Extends s t := by
    rw [ht]
    exact Extends.refl s
  have hhigh : t.d1 / 65536 = s.d1 / 65536 := by
    rw [ht]
    exact withWord_high _ _
  have hlow : r.Meets (r.cur + 1) → t.d1 < 65536 := fun hm => by
    have hs := hroom hm
    omega
  rw [← hd0] at h0
  obtain ⟨s',hrun,hat',hext',hd1,hkept⟩ := putchar_print depth hat (by omega) (by omega)
    (by omega) hlow
  refine ⟨s',?_,hat',hext.trans hext',by rw [hd1,hhigh],fun hm => (hkept hm).trans hd0⟩
  rw [dbraLoop,← ht,hrun]
  rfl

-- By induction on what is left of the line: before its last cell nothing scrolls.
theorem dbraLoop_newline (depth : Nat) {k : Nat} (hr : s.At r) (h0 : s.d0 % 256 = 0)
    (hk : r.cur % LINELENGTH + (k + 1) = LINELENGTH) (hroom : r.Meets r.lineEnd → s.d1 < 65536) :
    ∃ s', s.dbraLoop (putchar (depth + 1)) (k + 1) = some s' ∧ s'.At r.newline ∧ Extends s s' := by
  induction k generalizing s r with
  | zero =>
    rw [LineRing.lineEnd_last hk] at hroom
    obtain ⟨s',hrun,hat,hext,-,-⟩ := dbraLoop_put depth 0 hr h0 hroom
    rw [LineRing.put_last hk] at hat
    exact ⟨_,hrun,⟨hat.cur,hat.start⟩,hext⟩
  | succ k ih =>
    have hin : r.cur % LINELENGTH + 1 < LINELENGTH := by omega
    have hmeets := LineRing.not_meets_succ hin
    obtain ⟨s1,hrun1,hat1,hext1,hd1,hd0⟩ := dbraLoop_put depth (k + 1) hr h0
      (fun hm => absurd hm hmeets)
    have hk1 : r.put.cur % LINELENGTH + (k + 1) = LINELENGTH := by
      rw [LineRing.put_cur hin,LineRing.succ_mod hin]
      omega
    have hroom1 : r.put.Meets r.put.lineEnd → s1.d1 < 65536 := fun hm => by
      have hs := hroom ((LineRing.put_meets hin).mp hm)
      omega
    obtain ⟨s',hrun,hat,hext⟩ := ih hat1 (by rw [hd0 hmeets]; exact h0) hk1 hroom1
    rw [LineRing.put_newline hin] at hat
    exact ⟨s',hrun1.trans hrun,hat,hext1.trans hext⟩

theorem carriageReturn_eq (s : Console) (body : Console → Option Console) : ∃ t : Console,
    s.carriageReturn body = t.dbraLoop body (LINELENGTH - s.d1 % 65536 % LINELENGTH) ∧
      t.d0 % 256 = 0 ∧ t.d1 / 65536 = s.d1 / 65536 ∧ t.mem = s.mem ∧ t.writes = s.writes := by
  obtain ⟨w,hw⟩ : ∃ w, w = s.d1 % 65536 := ⟨_,rfl⟩
  have hlen : LINELENGTH = 80 := rfl
  have hrem : (w % LINELENGTH * 65536 + w / LINELENGTH) / 65536 = w % LINELENGTH := by
    rw [hlen]
    omega
  have hswap :
      ((w % LINELENGTH * 65536 + w / LINELENGTH) % 65536 * 65536 + w % LINELENGTH) % 65536 =
        w % LINELENGTH := by
    rw [hlen]
    omega
  refine ⟨{ s with
    d2 := (w % LINELENGTH * 65536 + w / LINELENGTH) % 65536 * 65536 + w % LINELENGTH
    d1 := withWord s.d1 (LINELENGTH + 65536 - w % LINELENGTH)
    d0 := withByte s.d0 0 },?_,withByte_byte _ _,withWord_high _ _,rfl,rfl⟩
  have hcount : withWord s.d1 (LINELENGTH + 65536 - w % LINELENGTH) % 65536 =
      LINELENGTH - w % LINELENGTH := by
    rw [withWord_word,hlen]
    omega
  rw [carriageReturn]
  simp only [← hw,hrem,hswap,hcount]

theorem carriageReturn_at (depth : Nat) (hr : s.At r) (hd : s.d1 % 65536 = r.cur)
    (hroom : r.Meets r.lineEnd → s.d1 < 65536) :
    ∃ s', s.carriageReturn (putchar (depth + 1)) = some s' ∧ s'.At r.newline ∧ Extends s s' := by
  obtain ⟨t,he,h0,hhigh,hmem,hwrites⟩ := carriageReturn_eq s (putchar (depth + 1))
  have hmod : r.cur % LINELENGTH < LINELENGTH := Nat.mod_lt _ (by decide)
  obtain ⟨k,hk⟩ : ∃ k, LINELENGTH - r.cur % LINELENGTH = k + 1 :=
    ⟨LINELENGTH - r.cur % LINELENGTH - 1,by omega⟩
  have hat : t.At r := by
    constructor
    · rw [curpos,hmem]
      exact hr.cur
    · rw [displaystart,hmem]
      exact hr.start
  have hlow : r.Meets r.lineEnd → t.d1 < 65536 := fun hm => by
    have hs := hroom hm
    omega
  have hline : r.cur % LINELENGTH + (k + 1) = LINELENGTH := by omega
  obtain ⟨s',hrun,hat',us,hus,hproper⟩ := dbraLoop_newline depth hat h0 hline hlow
  rw [hd,hk] at he
  exact ⟨s',he.trans hrun,hat',us,by rw [hus,hwrites],hproper⟩

theorem putchar_at (depth : Nat) (hr : s.At r) (hk : CharKept r (s.d0 % 256) s.d1) :
    ∃ s', putchar (depth + 2) s = some s' ∧ s'.At (charRing r (s.d0 % 256)) ∧ Extends s s' := by
  obtain ⟨c,hc⟩ : ∃ c, c = s.d0 % 256 := ⟨_,rfl⟩
  rw [← hc] at hk ⊢
  have ht := entered hr
  by_cases h10 : c = 10
  · rw [putchar,← hc,if_pos h10,charRing,if_pos h10]
    exact ⟨s,rfl,hr,Extends.refl s⟩
  by_cases h13 : c = 13
  · have hroom := hk.room (by omega) h10
    rw [charEnd,if_pos h13] at hroom
    rw [putchar,← hc,if_neg h10,charRing,if_neg h10,if_pos h13,if_pos h13]
    have hlow : r.Meets r.lineEnd → withWord s.d1 s.curpos < 65536 := fun hm => by
      have hs := hroom hm
      have hh := withWord_high s.d1 s.curpos
      omega
    obtain ⟨t,hrun,hat,hext⟩ := carriageReturn_at depth ht.ring ht.word hlow
    rw [hrun]
    exact ⟨_,rfl,hat.restore s,(ht.ext.trans hext).restore s⟩
  by_cases h8 : c = 8
  · rw [putchar,← hc,if_neg h10,charRing,if_neg h10,if_neg h13,if_pos h8,if_neg h13,if_pos h8]
    obtain ⟨hat,hext⟩ := backspace_at ht.ring ht.word ht.ports (hk.back h8)
    exact ⟨_,rfl,hat.restore s,(ht.ext.trans hext).restore s⟩
  · have hroom := hk.room h8 h10
    rw [charEnd,if_neg h13] at hroom
    rw [charRing,if_neg h10,if_neg h13,if_neg h8]
    rw [hc] at h10 h13 h8
    obtain ⟨s',hrun,hat,hext,-,-⟩ := putchar_print (depth + 1) hr h10 h13 h8 hroom
    exact ⟨s',hrun,hat,hext⟩

end Characters
section Clearing

theorem clrscr_at (hr : s.At r) (hp : s.AtPorts) : s.clrscr.At r.home ∧ Extends s s.clrscr := by
  have hclear := quiet_clearBuffer s
  obtain ⟨t,ht⟩ : ∃ t : Console, t = s.clearBuffer.storeW CURPOS 0 := ⟨_,rfl⟩
  have hcur : t.curpos = 0 := by
    rw [ht]
    exact Mem.readW_writeW_self _ _ _
  have hstart : t.displaystart = r.start := by
    rw [ht]
    exact (Mem.readW_writeW_apart _ _ (.inl (by decide))).trans (hclear.displaystart.trans hr.start)
  have hext : Extends s t := by
    rw [ht]
    exact hclear.extends.trans (extends_storeW _ (by decide) (by decide))
  obtain ⟨u,hu⟩ : ∃ u : Console, u = { t with
      a0 := s.a0
      d1 := withWord t.d1 s.d1
      d2 := withWord t.d2 s.d2 } := ⟨_,rfl⟩
  have hrun : s.clrscr = { u with
      a1 := BUFFER
      d0 := withByte u.d0 (255 - u.mem.readB CURRENTPAGE) }.bufferFlip := by
    rw [hu,ht]
    rfl
  have hup : u.AtPorts := by
    rw [hu]
    exact hp
  have hflip := quiet_flip hup BUFFER (withByte u.d0 (255 - u.mem.readB CURRENTPAGE))
  rw [hrun]
  revert hflip
  generalize bufferFlip _ = v
  intro hflip
  rw [hu] at hflip
  exact ⟨⟨hflip.curpos.trans hcur,hflip.displaystart.trans hstart⟩,hext.trans hflip.extends⟩

end Clearing
section Starting

def firstRing : ConsoleRing where
  cur := 0
  start := 0
  cur_lt := by decide
  start_lt := by decide
  aligned := dvd_zero _

theorem clearData_at (s : Console) : s.clearData.At firstRing ∧ s.clearData.a0 = s.a0 := by
  obtain ⟨t,ht⟩ : ∃ t : Console, t = { s with
      a1 := CURPOS
      d1 := withWord s.d1 0x1e2 } := ⟨_,rfl⟩
  have ha1 : t.a1 = CURPOS := by rw [ht]
  have ha0 : t.a0 = s.a0 := by rw [ht]
  have hfirst : t.clearLong.a1 = CURSORCOUNT := by
    rw [clearLong,ha1]
    rfl
  have hcur : t.clearLong.curpos = 0 := by
    rw [clearLong,ha1]
    exact Mem.readW_writeL_high _ _ _
  have hstart : t.clearLong.displaystart = 0 := by
    rw [clearLong,ha1]
    exact Mem.readW_writeL_low _ _ _
  have hq := quiet_clearLongs (s := t.clearLong) (n := 481) (by rw [hfirst])
    (by rw [hfirst]; decide)
  have hcount : 0x1e2 = 481 + 1 := rfl
  have hloop : t.clearLongs 0x1e2 = t.clearLong.clearLongs 481 := by
    rw [hcount,clearLongs]
  rw [clearData,← ht,hloop]
  revert hq
  generalize t.clearLong.clearLongs 481 = u
  intro hq
  exact ⟨⟨hq.curpos.trans hcur,hq.displaystart.trans hstart⟩,hq.base.trans ha0⟩

theorem quiet_ports {data : List (Nat × Nat)} (h : ∀ p ∈ data, low32 (s.a0 + p.1) ∈ vdpPorts) :
    Quiet s (s.ports data) := by
  induction data generalizing s with
  | nil => exact Quiet.refl s
  | cons p ps ih =>
    have hone : Quiet s (s.port p.1 p.2) := quiet_port p.2 (h p List.mem_cons_self)
    exact hone.trans (ih fun q hq => h q (List.mem_cons_of_mem _ hq))

theorem quiet_fillPatterns {n : Nat} (h : s.AtPorts) : Quiet s (s.fillPatterns n) := by
  induction n generalizing s with
  | zero => exact Quiet.refl s
  | succ n ih =>
    have hone : Quiet s s.fillPattern := quiet_data h _
    exact hone.trans (ih (hone.ports h))

theorem quiet_patterns (h : s.AtPorts) (a1 d0 : Nat) : Quiet s ({ s with
    a1 := a1
    d0 := d0 }.fillPatterns (d0 % 65536)) := by
  have hp : AtPorts { s with
    a1 := a1
    d0 := d0 } := h
  have hq := quiet_fillPatterns (n := d0 % 65536) hp
  exact ⟨hq.curpos,hq.displaystart,hq.proper,hq.base⟩

theorem setupChip_at (rom : ConsoleRom) (hr : s.At r) (ha : s.a0 = PORT_RWDATA) :
    (setupChip rom s).At r ∧ (setupChip rom s).a0 = PORT_RWDATA := by
  obtain ⟨t,ht⟩ : ∃ t : Console, t = s.storeL IRQ2_HANDLER rom.vblankHandler := ⟨_,rfl⟩
  have hat : t.At r := by
    rw [ht]
    exact ⟨(Mem.readW_writeL_apart _ _ (.inl (by decide))).trans hr.cur,
      (Mem.readW_writeL_apart _ _ (.inl (by decide))).trans hr.start⟩
  have hta : t.a0 = PORT_RWDATA := by
    rw [ht]
    exact ha
  have hports : ∀ p ∈ setupData, low32 (t.a0 + p.1) ∈ vdpPorts := by
    rw [hta]
    decide
  have hq := quiet_ports hports
  rw [setupChip,← ht]
  exact ⟨hq.at hat,hq.base.trans hta⟩

theorem loadFont_at (rom : ConsoleRom) (hr : s.At r) (ha : s.a0 = PORT_RWDATA) :
    (s.loadFont rom).At r ∧ (s.loadFont rom).a0 = PORT_RWDATA := by
  have hp : s.AtPorts := by
    rw [AtPorts,ha]
    decide
  obtain ⟨count,hcount⟩ : ∃ n, n = low32 (rom.fontEnd + 4294967296 - rom.fontBegin) := ⟨_,rfl⟩
  obtain ⟨t,ht⟩ : ∃ t : Console, t = { s with
      a1 := rom.fontBegin
      d0 := count }.fillPatterns (count % 65536) := ⟨_,rfl⟩
  have hq := quiet_patterns hp rom.fontBegin count
  rw [← ht] at hq
  have hrun : s.loadFont rom = { t with d0 := withWord t.d0 0xffff } := by
    simp only [loadFont,← hcount,← ht]
  have hat := hq.at hr
  rw [hrun]
  exact ⟨⟨hat.cur,hat.start⟩,hq.base.trans ha⟩

theorem firstFlip_at (hr : s.At r) (ha : s.a0 = PORT_RWDATA) :
    s.firstFlip.At r ∧ s.firstFlip.a0 = PORT_RWDATA := by
  have hclear := quiet_clearBuffer s
  obtain ⟨t,ht⟩ : ∃ t : Console, t = s.clearBuffer := ⟨_,rfl⟩
  rw [← ht] at hclear
  have hta : t.a0 = PORT_RWDATA := hclear.base.trans ha
  have htp : t.AtPorts := by
    rw [AtPorts,hta]
    decide
  have hrun : s.firstFlip = { t with
      a1 := BUFFER
      d0 := withByte t.d0 0 }.bufferFlip := by
    rw [ht,firstFlip]
  have hflip := quiet_flip htp BUFFER (withByte t.d0 0)
  rw [hrun]
  revert hflip
  generalize bufferFlip _ = v
  intro hflip
  have hq := hclear.trans hflip
  exact ⟨hq.at hr,hq.base.trans ha⟩

-- No character of a text goes back, and none comes round to the first line.
def Prints (r : ConsoleRing) : List UInt8 → Prop
  | [] => True
  | c :: cs =>
    c.toNat ≠ 8 ∧ ¬ r.Meets (charEnd r c.toNat) ∧ Prints (charRing r c.toNat) cs

instance decidablePrints : (r : ConsoleRing) → (cs : List UInt8) → Decidable (Prints r cs)
  | _, [] => inferInstanceAs (Decidable True)
  | r, c :: cs =>
    haveI := decidablePrints (charRing r c.toNat) cs
    inferInstanceAs (Decidable (_ ∧ _ ∧ _))

def textRing (r : ConsoleRing) (cs : List UInt8) : ConsoleRing :=
  cs.foldl (fun r c => charRing r c.toNat) r

theorem printHeader_at (depth : Nat) {cs : List UInt8} (hr : s.At r) (h : Prints r cs) :
    ∃ s', s.printHeader (depth + 2) cs = some s' ∧ s'.At (textRing r cs) := by
  induction cs generalizing s r with
  | nil => exact ⟨_,rfl,hr.cur,hr.start⟩
  | cons c cs ih =>
    obtain ⟨hback,hmeets,hrest⟩ := h
    obtain ⟨t,ht⟩ : ∃ t : Console, t = { s with
        a1 := low32 (s.a1 + 1)
        d0 := withByte s.d0 c.toNat } := ⟨_,rfl⟩
    have hat : t.At r := by
      rw [ht]
      exact ⟨hr.cur,hr.start⟩
    have hbyte : t.d0 % 256 = c.toNat := by
      rw [ht]
      exact (withByte_byte _ _).trans (Nat.mod_eq_of_lt c.toNat_lt)
    have hkept : CharKept r (t.d0 % 256) t.d1 := by
      rw [hbyte]
      exact ⟨fun h8 => absurd h8 hback,fun _ _ hm => absurd hm hmeets⟩
    obtain ⟨u,hrun,hu,-⟩ := putchar_at depth hat hkept
    rw [hbyte] at hu
    obtain ⟨s',hrest',hat'⟩ := ih hu hrest
    refine ⟨s',?_,hat'⟩
    rw [printHeader,← ht,hrun]
    exact hrest'

theorem header_prints : decide (Prints firstRing szHeader) = true := by decide +kernel

theorem header_ring : (textRing firstRing szHeader).cur = 560 ∧
    (textRing firstRing szHeader).start = 0 := by decide +kernel

theorem init_at (rom : ConsoleRom) (depth : Nat) (s : Console) :
    ∃ s', init rom (depth + 2) s = some s' ∧ s'.curpos = 560 ∧ s'.displaystart = 0 := by
  obtain ⟨hdata,hda⟩ := clearData_at s
  obtain ⟨t,ht⟩ : ∃ t : Console, t = { s with a0 := PORT_RWDATA }.clearData := ⟨_,rfl⟩
  have hclear : t.At firstRing ∧ t.a0 = PORT_RWDATA := by
    rw [ht]
    exact clearData_at { s with a0 := PORT_RWDATA }
  have hchip := setupChip_at rom hclear.1 hclear.2
  have hfont := loadFont_at rom hchip.1 hchip.2
  obtain ⟨hflip,hbase⟩ := firstFlip_at hfont.1 hfont.2
  obtain ⟨u,hu⟩ : ∃ u : Console, u = ((setupChip rom t).loadFont rom).firstFlip := ⟨_,rfl⟩
  rw [← hu] at hflip hbase
  have hports : ∀ p ∈ displayData, low32 (u.a0 + p.1) ∈ vdpPorts := by
    rw [hbase]
    decide
  have hshown := (quiet_ports hports).at hflip
  obtain ⟨v,hv⟩ : ∃ v : Console, v = { u.ports displayData with a1 := rom.szHeader } := ⟨_,rfl⟩
  have hat : v.At firstRing := by
    rw [hv]
    exact ⟨hshown.cur,hshown.start⟩
  obtain ⟨cs,hcs⟩ : ∃ cs, cs = szHeader := ⟨_,rfl⟩
  have hprints := header_prints
  have hring := header_ring
  rw [← hcs,decide_eq_true_iff] at hprints
  rw [← hcs] at hring
  obtain ⟨w,hrun,hat'⟩ := printHeader_at depth hat hprints
  obtain ⟨x,hx⟩ : ∃ x : Console, x = { w with
      d0 := s.d0
      d1 := s.d1
      d2 := s.d2
      a0 := s.a0
      a1 := s.a1 } := ⟨_,rfl⟩
  have hinit : init rom (depth + 2) s = some x := by
    rw [init,← ht,← hu,← hv,← hcs,hrun,hx]
    rfl
  refine ⟨x,hinit,?_⟩
  rw [hx]
  exact ⟨hat'.cur.trans hring.1,hat'.start.trans hring.2⟩

end Starting
section Calls

-- The next position after a character other than backspace and line feed.
def nextPos (s : Console) (c : Nat) : Nat :=
  LineRing.wrap LINELENGTH LINECOUNT
    (if c = 13 then (s.curpos / LINELENGTH + 1) * LINELENGTH else s.curpos + 1)

-- What a call needs: a backspace not to leave the buffer, a line that scrolls a clean D1, and
-- V9958_CON_CLRSCR an unscrolled screen and the ports in A0.
def Keeps (s : Console) : ConsoleCall → Prop
  | .putchar r =>
    (r.d0.toNat % 256 = 8 → s.curpos ≠ 0 ∨ s.displaystart = 0) ∧
      (r.d0.toNat % 256 ≠ 8 → r.d0.toNat % 256 ≠ 10 →
        s.nextPos (r.d0.toNat % 256) = s.displaystart → r.d1.toNat < 65536)
  | .clrscr r => s.displaystart = 0 ∧ PortsAt r.a0.toNat

def EachKeeps (depth : Nat) (s : Console) : List ConsoleCall → Prop
  | [] => True
  | q :: qs => s.Keeps q ∧ ∀ s', s.call depth q = some s' → s'.EachKeeps depth qs

-- What holds of the pointers after a call, and of the screen after V9958_CON_CLRSCR.
structure Shown (s : Console) (q : ConsoleCall) (r : ConsoleRing) : Prop where
  ring : s.At r
  home : ∀ regs, q = .clrscr regs → r.cur = r.start

variable {depth : Nat}

theorem keeps_char {regs : ConsoleRegs} (hr : s.At r) (h : s.Keeps (.putchar regs)) :
    CharKept r (regs.d0.toNat % 256) regs.d1.toNat where
  back := fun h8 => by
    have hb := h.1 h8
    rwa [hr.cur,hr.start] at hb
  room := fun h8 h10 hm => by
    refine h.2 h8 h10 ?_
    rw [nextPos,hr.cur,hr.start]
    exact hm

theorem call_at (depth : Nat) {q : ConsoleCall} (hr : s.At r) (h : s.Keeps q) :
    ∃ s' r', s.call (depth + 2) q = some s' ∧ s'.Shown q r' ∧ Extends s s' := by
  cases q with
  | putchar regs =>
    have hat : (s.enter regs).At r := ⟨hr.cur,hr.start⟩
    obtain ⟨s',hrun,hat',hext⟩ := putchar_at depth hat (keeps_char hr h)
    exact ⟨s',_,hrun,⟨hat',nofun⟩,hext⟩
  | clrscr regs =>
    have hat : (s.enter regs).At r := ⟨hr.cur,hr.start⟩
    obtain ⟨hat',hext⟩ := clrscr_at hat h.2
    have hstart : r.start = 0 := hr.start.symm.trans h.1
    exact ⟨_,r.home,rfl,⟨hat',fun _ _ => hstart.symm⟩,hext⟩

theorem calls_at {qs : List ConsoleCall} (hr : s.At r) (h : s.EachKeeps (depth + 2) qs) :
    ∃ s' r', s.calls (depth + 2) qs = some s' ∧ s'.At r' ∧ Extends s s' := by
  induction qs generalizing s r with
  | nil => exact ⟨s,r,rfl,hr,Extends.refl s⟩
  | cons q qs ih =>
    obtain ⟨hq,hqs⟩ := h
    obtain ⟨t,r1,hcall,hshown,hext⟩ := call_at depth hr hq
    obtain ⟨s',r',hrun,hat,hext'⟩ := ih hshown.ring (hqs t hcall)
    refine ⟨s',r',?_,hat,hext.trans hext'⟩
    rw [calls,hcall]
    exact hrun

theorem calls_append (s : Console) (qs qs' : List ConsoleCall) :
    s.calls depth (qs ++ qs') = (s.calls depth qs).bind (·.calls depth qs') := by
  induction qs generalizing s with
  | nil => rfl
  | cons q qs ih =>
    rw [List.cons_append,calls,calls]
    cases s.call depth q with
    | none => rfl
    | some t => exact ih t

theorem eachKeeps_append {qs qs' : List ConsoleCall} (h : s.EachKeeps depth (qs ++ qs')) :
    s.EachKeeps depth qs ∧ ∀ t, s.calls depth qs = some t → t.EachKeeps depth qs' := by
  induction qs generalizing s with
  | nil => exact ⟨trivial,fun t ht => Option.some.inj ht ▸ h⟩
  | cons q qs ih =>
    obtain ⟨hq,hrest⟩ := h
    refine ⟨⟨hq,fun t ht => (ih (hrest t ht)).1⟩,fun t ht => ?_⟩
    obtain ⟨u,hu,hut⟩ := Option.bind_eq_some_iff.mp ht
    exact (ih (hrest u hu)).2 t hut

-- The state from which calls are counted, after V9958_CON_INIT.
def Started (rom : ConsoleRom) (depth : Nat) (s s1 : Console) : Prop :=
  ∃ s', init rom depth s = some s' ∧ s1 = { s' with writes := [] }

theorem started_at {rom : ConsoleRom} {s1 : Console} (h : Started rom (depth + 2) s s1) :
    s1.curpos = 560 ∧ s1.displaystart = 0 ∧ s1.writes = [] := by
  obtain ⟨s',hinit,rfl⟩ := h
  obtain ⟨u,hu,hcur,hstart⟩ := init_at rom depth s
  obtain rfl : u = s' := Option.some.inj (hu.symm.trans hinit)
  exact ⟨hcur,hstart,rfl⟩

theorem started (rom : ConsoleRom) (depth : Nat) (s : Console) :
    ∃ s1, Started rom (depth + 2) s s1 := by
  obtain ⟨s',hinit,-⟩ := init_at rom depth s
  exact ⟨_,s',hinit,rfl⟩

-- Both pointers are on the screen, and nothing but the data block and the ports was written.
structure Settled (s : Console) : Prop where
  curpos : s.curpos < DISPLAYSIZE
  displaystart : s.displaystart < DISPLAYSIZE
  aligned : LINELENGTH ∣ s.displaystart
  proper : ∀ w ∈ s.writes, w.Proper

def headerRing : ConsoleRing where
  cur := 560
  start := 0
  cur_lt := by decide
  start_lt := by decide
  aligned := dvd_zero _

theorem settled_at (hr : s.At r) (h : Extends t s) (ht : t.writes = []) : s.Settled where
  curpos := by
    have hcur := r.cur_lt
    rw [hr.cur]
    exact hcur
  displaystart := by
    have hstart := r.start_lt
    rw [hr.start]
    exact hstart
  aligned := by
    rw [hr.start]
    exact r.aligned
  proper := by
    obtain ⟨us,hs,hproper⟩ := h
    rw [ht,List.nil_append] at hs
    rwa [hs]

theorem console_settled (rom : ConsoleRom) (depth : Nat) (s : Console) (qs : List ConsoleCall)
    (h : ∀ s1, Started rom (depth + 2) s s1 → s1.EachKeeps (depth + 2) qs) :
    ∃ s1 s', Started rom (depth + 2) s s1 ∧ s1.calls (depth + 2) qs = some s' ∧ s'.Settled ∧
      ∀ qs' regs, qs = qs' ++ [.clrscr regs] →
        ((s'.curpos : Int) - s'.displaystart) % DISPLAYSIZE = 0 := by
  obtain ⟨s1,hs1⟩ := started rom depth s
  obtain ⟨hcur,hstart,hempty⟩ := started_at hs1
  have hat : s1.At headerRing := ⟨hcur,hstart⟩
  have hkeeps := h s1 hs1
  obtain ⟨s',r',hrun,hat',hext⟩ := calls_at hat hkeeps
  refine ⟨s1,s',hs1,hrun,settled_at hat' hext hempty,?_⟩
  rintro qs' regs rfl
  obtain ⟨hfirst,hlast⟩ := eachKeeps_append hkeeps
  obtain ⟨u,r1,hu,hur,-⟩ := calls_at hat hfirst
  obtain ⟨hq,-⟩ := hlast u hu
  obtain ⟨v,r2,hv,hshown,-⟩ := call_at depth hur hq
  have hvs : v = s' := by
    rw [calls_append,hu,Option.bind_some,calls,hv] at hrun
    exact Option.some.inj hrun
  rw [← hvs,hshown.ring.cur,hshown.ring.start,hshown.home regs rfl,sub_self,Int.zero_emod]

def plainRom : ConsoleRom where
  fontBegin := 0xe60000
  fontEnd := 0xe60800
  vblankHandler := 0xe50000
  szHeader := 0xe50800

def zeroRegs : ConsoleRegs := ⟨0,0,0,0,0,0⟩

def blankConsole : Console := ⟨0,0,0,0,0,0,fun _ => 0,[]⟩

theorem console_settled_cleared : ∃ s1 s', Started plainRom 2 blankConsole s1 ∧
    s1.calls 2 [.clrscr { zeroRegs with a0 := 0xf80000 }] = some s' ∧ s'.Settled ∧
      ∀ qs' regs, [.clrscr { zeroRegs with a0 := 0xf80000 }] = qs' ++ [ConsoleCall.clrscr regs] →
        ((s'.curpos : Int) - s'.displaystart) % DISPLAYSIZE = 0 :=
  console_settled plainRom 0 blankConsole _ fun _ hs1 =>
    ⟨⟨(started_at hs1).2.1,(by decide : PortsAt 0xf80000)⟩,fun _ _ => trivial⟩

theorem copyLoop_writes {w : ConsoleWrite} {n : Nat} (h : w ∈ s.writes) :
    w ∈ (s.copyLoop n).writes := by
  induction n generalizing s with
  | zero => exact h
  | succ n ih => exact ih (List.mem_append_left _ h)

theorem clrscr_flips (s : Console) : ∃ t : Console, t.a0 = s.a0 ∧ s.clrscr = t.bufferFlip := by
  rw [clrscr]
  refine ⟨_,?_,rfl⟩
  rfl

-- The chip's address register is written wherever A0 points.
theorem clrscr_stray (s : Console) :
    .vdp (low32 (s.a0 + PORT_WREG_SETUP)) 0 ∈ s.clrscr.writes := by
  obtain ⟨t,ht,hrun⟩ := clrscr_flips s
  rw [hrun,bufferFlip]
  refine copyLoop_writes ?_
  rw [← ht,flipSetup]
  generalize t.displaystart = d
  simp [vramAddr,port,storeB,VRAM_HIGH]

theorem console_strays : ∃ s1 s', Started plainRom 2 blankConsole s1 ∧
    s1.calls 2 [.clrscr zeroRegs] = some s' ∧ ConsoleWrite.vdp 2 0 ∈ s'.writes ∧
      ¬ (ConsoleWrite.vdp 2 0).Proper := by
  obtain ⟨s1,hs1⟩ := started plainRom 0 blankConsole
  refine ⟨s1,_,hs1,rfl,clrscr_stray (s1.enter zeroRegs),?_⟩
  exact (by decide : ¬ (2 : Nat) ∈ vdpPorts)

end Calls

end Console
end RoscoM68k
