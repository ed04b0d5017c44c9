import RoscoM68k.Base.Loops

namespace RoscoM68k

def XR_COLOR_A_ADDR : UInt16 := 0x8000
def XR_COLOR_B_ADDR : UInt16 := 0x8100

-- What is done to the Xosera, in order.
inductive XmAccess where
  | wrAddr (a : UInt16)
  | data (w : UInt16)
  | wrXaddr (a : UInt16)
  | xdata (w : UInt16)
  | waitVblank
  | waitNotVblank

-- The offsets in the buffer that have been read, the two static variables of `draw`, and what has
-- gone to the Xosera.
structure Splash where
  reads : List UInt32
  high : Bool
  savePix : UInt16
  out : List XmAccess

namespace Splash

def access (s : Splash) (x : XmAccess) : Splash := { s with out := s.out ++ [x] }

def read (buf : UInt32 → UInt8) (s : Splash) (o : UInt32) : UInt8 × Splash :=
  (buf o,{ s with reads := s.reads ++ [o] })

-- A little-endian word of the header.
def readSwapped (buf : UInt32 → UInt8) (s : Splash) (o : UInt32) : UInt16 × Splash :=
  let (b0,s) := s.read buf o
  let (b1,s) := s.read buf (o + 1)
  (b1.toUInt16 <<< 8 ||| b0.toUInt16,s)

def draw (s : Splash) (pix : UInt8) : Splash :=
  if s.high then { s.access (.data (s.savePix <<< 8 ||| pix.toUInt16)) with high := false }
  else
    { s with
      savePix := pix.toUInt16
      high := true }

def drawRun (pix : UInt8) : Nat → Splash → Splash
  | 0, s => s
  | n + 1, s => drawRun pix n (s.draw pix)

end Splash

-- The three bytes of a palette entry.
def loadEntry (buf : UInt32 → UInt8) (s : Splash) (o : UInt32) : Splash :=
  let (r,s) := s.read buf o
  let (g,s) := s.read buf (o + 1)
  let (b,s) := s.read buf (o + 2)
  s.access (.xdata ((r &&& 0xf0).toUInt16 <<< 4 ||| (g &&& 0xf0).toUInt16 |||
    (b &&& 0xf0).toUInt16 >>> 4))

def loadEntries (buf : UInt32 → UInt8) (s : Splash) (o : UInt32) : Nat → Splash
  | 0 => s
  | n + 1 => loadEntries buf (loadEntry buf s o) (o + 3) n

def loadPalette (buf : UInt32 → UInt8) (s : Splash) (o : UInt32) : Bool × Splash :=
  let (b,s) := s.read buf o
  if b ≠ 0x0c then (false,s)
  else (true,loadEntries buf (s.access (.wrXaddr XR_COLOR_A_ADDR)) (o + 1) 256)

-- A round of the image loop at `i`, which goes on with the index that is returned.
def imageRound (buf : UInt32 → UInt8) (o : UInt32) (r : UInt32 × Splash) : UInt32 × Splash :=
  let (i,s) := r
  let (pix,s) := s.read buf (o + i)
  if pix &&& 0xc0 = 0xc0 then
    let len := pix &&& 0x3f
    let i := i + 1
    let (pix,s) := s.read buf (o + i)
    (i + 1,s.drawRun pix len.toNat)
  else (i + 1,s.draw pix)

-- The loop may make `n` rounds.
def loadImage (bufSize : UInt32) (buf : UInt32 → UInt8) (s : Splash) (o : UInt32) (n : Nat) :
    Option (Bool × Splash) := do
  let r ← loop (fun r => r.1 < bufSize) (imageRound buf o) n (0,s.access (.wrAddr 0))
  some (true,r.2)

-- A round of the fade with the alpha `i`.
def fadeRound (fadeDelay : UInt8) (s : Splash) (i : Nat) : Splash :=
  let s := (s.access .waitVblank).access (.wrXaddr XR_COLOR_B_ADDR)
  let s := (List.replicate 256 (XmAccess.xdata (UInt16.ofNat i <<< 12))).foldl Splash.access s
  (List.replicate (fadeDelay.toNat - 1) [XmAccess.waitVblank,.waitNotVblank]).flatten.foldl
    Splash.access s

-- From alpha 15 down to 0.
def fade (fadeDelay : UInt8) (s : Splash) : Splash :=
  (List.range 16).reverse.foldl (fadeRound fadeDelay) s

-- What is checked in the header besides the sizes of the picture.
def badHeader (buf : UInt32 → UInt8) (s : Splash) (width height : UInt16) : Bool × Splash :=
  if width ≠ 424 ∨ height ≠ 240 then (true,s)
  else
    let (bpp,s) := s.read buf 3
    if bpp ≠ 8 then (true,s)
    else
      let (numPlanes,s) := s.read buf 65
      if numPlanes ≠ 1 then (true,s)
      else
        let (encoding,s) := s.read buf 2
        (encoding ≠ 1,s)

def checkHeader (buf : UInt32 → UInt8) (s : Splash) : Bool × Splash :=
  let (maxX,s) := s.readSwapped buf 8
  let (minX,s) := s.readSwapped buf 4
  let (maxY,s) := s.readSwapped buf 10
  let (minY,s) := s.readSwapped buf 6
  badHeader buf s (maxX - minX + 1) (maxY - minY + 1)

def showPcx (bufSize : UInt32) (buf : UInt32 → UInt8) (fadeDelay : UInt8) (s : Splash) (n : Nat) :
    Option (Bool × Splash) :=
  if bufSize < 128 then some (false,s)
  else
    let (bad,s) := checkHeader buf s
    if bad then some (false,s)
    else do
      let (ok,s) ← loadImage (bufSize - 769 - 128) buf s 128 n
      if !ok then some (false,s)
      else
        let (ok,s) := loadPalette buf s (bufSize - 769)
        if !ok then some (false,s) else some (true,fade fadeDelay s)

-- The pictures that the header check lets through.
def Accepted (buf : UInt32 → UInt8) : Prop :=
  let word (o : UInt32) : UInt16 := (buf (o + 1)).toUInt16 <<< 8 ||| (buf o).toUInt16
  word 8 - word 4 + 1 = 424 ∧ word 10 - word 6 + 1 = 240 ∧ buf 3 = 8 ∧ buf 65 = 1 ∧ buf 2 = 1

-- What has been read from `s` to `s'` lies below `n`.
def ReadsBelow (n : UInt32) (s s' : Splash) : Prop :=
  ∃ l, s'.reads = s.reads ++ l ∧ ∀ o ∈ l, o < n

-- Only bytes of the buffer are read, and the loop over the image ends after as many rounds as the
-- buffer has bytes, or less.
def BoundedDecoding (bufSize : UInt32) (buf : UInt32 → UInt8) (fadeDelay : UInt8) (s : Splash) :
    Prop :=
  ∃ r, showPcx bufSize buf fadeDelay s bufSize.toNat = some r ∧ ReadsBelow bufSize s r.2

section Reads

variable {n o : UInt32} {buf : UInt32 → UInt8} {s t u : Splash}

theorem ReadsBelow.of_eq (h : t.reads = s.reads) : ReadsBelow n s t :=
  ⟨[],by rw [h,List.append_nil],fun _ ho => absurd ho List.not_mem_nil⟩

theorem ReadsBelow.trans (h : ReadsBelow n s t) (h' : ReadsBelow n t u) : ReadsBelow n s u := by
  obtain ⟨l,hl,hb⟩ := h
  obtain ⟨k,hk,hb'⟩ := h'
  refine ⟨l ++ k,by rw [hk,hl,List.append_assoc],fun o ho => ?_⟩
  obtain ho | ho := List.mem_append.mp ho
  · exact hb o ho
  · exact hb' o ho

theorem reads_one (buf : UInt32 → UInt8) (s : Splash) (ho : o < n) :
    ReadsBelow n s (s.read buf o).2 :=
  ⟨[o],rfl,fun x hx => by rwa [List.mem_singleton.mp hx]⟩

theorem reads_word (ho : o < n) (ho' : o + 1 < n) : ReadsBelow n s (s.readSwapped buf o).2 :=
  (reads_one buf s ho).trans (reads_one buf _ ho')

theorem draw_reads (s : Splash) (pix : UInt8) : (s.draw pix).reads = s.reads := by
  rw [Splash.draw]
  split <;> rfl

theorem drawRun_reads (s : Splash) (pix : UInt8) (k : Nat) :
    (s.drawRun pix k).reads = s.reads := by
  induction k generalizing s with
  | zero => rfl
  | succ k ih => rw [Splash.drawRun,ih,draw_reads]

theorem accesses_reads (s : Splash) (xs : List XmAccess) :
    (xs.foldl Splash.access s).reads = s.reads := by
  induction xs generalizing s with
  | nil => rfl
  | cons x xs ih => exact ih (s.access x)

theorem fade_reads (s : Splash) (fadeDelay : UInt8) : (fade fadeDelay s).reads = s.reads := by
  have hround (s : Splash) (i : Nat) : (fadeRound fadeDelay s i).reads = s.reads := by
    unfold fadeRound
    dsimp only
    rw [accesses_reads,accesses_reads]
    rfl
  rw [fade]
  generalize (List.range 16).reverse = is
  induction is generalizing s with
  | nil => rfl
  | cons i is ih => rw [List.foldl_cons,ih,hround]

theorem toNat_add_of_lt {a k : UInt32} (h : a.toNat + k.toNat < 4294967296) :
    (a + k).toNat = a.toNat + k.toNat := by
  rw [UInt32.toNat_add]
  exact Nat.mod_eq_of_lt h

theorem loadEntries_reads (buf : UInt32 → UInt8) (s : Splash) (k : Nat)
    (ho : o.toNat + 3 * k ≤ n.toNat) : ReadsBelow n s (loadEntries buf s o k) := by
  induction k generalizing s o with
  | zero => exact .of_eq rfl
  | succ k ih =>
    have hn := n.toNat_lt
    have h1 : (o + 1).toNat = o.toNat + 1 := toNat_add_of_lt (k := 1) (by change _ + 1 < _; omega)
    have h2 : (o + 2).toNat = o.toNat + 2 := toNat_add_of_lt (k := 2) (by change _ + 2 < _; omega)
    have hentry : ReadsBelow n s (loadEntry buf s o) := by
      have hr := reads_one buf s (n := n) (o := o) (UInt32.lt_iff_toNat_lt.mpr (by omega))
      have hg := reads_one buf (s.read buf o).2 (n := n) (o := o + 1)
        (UInt32.lt_iff_toNat_lt.mpr (by omega))
      have hb := reads_one buf ((s.read buf o).2.read buf (o + 1)).2 (n := n) (o := o + 2)
        (UInt32.lt_iff_toNat_lt.mpr (by omega))
      exact (hr.trans hg).trans (hb.trans (.of_eq rfl))
    rw [loadEntries]
    by_cases hlast : k = 0
    · rw [hlast]
      exact hentry
    · have h3 : (o + 3).toNat = o.toNat + 3 := toNat_add_of_lt (k := 3) (by change _ + 3 < _; omega)
      exact hentry.trans (ih _ (by omega))

theorem loadPalette_reads (buf : UInt32 → UInt8) (s : Splash) (ho : o.toNat + 769 ≤ n.toNat) :
    ReadsBelow n s (loadPalette buf s o).2 := by
  have hn := n.toNat_lt
  have h1 : (o + 1).toNat = o.toNat + 1 := toNat_add_of_lt (k := 1) (by change _ + 1 < _; omega)
  have hmark := reads_one buf s (n := n) (o := o) (UInt32.lt_iff_toNat_lt.mpr (by omega))
  rw [loadPalette]
  dsimp only
  split
  · exact hmark
  · refine hmark.trans ?_
    obtain ⟨t,ht⟩ : ∃ t, t = (s.read buf o).2.access (.wrXaddr XR_COLOR_A_ADDR) := ⟨_,rfl⟩
    have haddr : ReadsBelow n (s.read buf o).2 t := by
      rw [ht]
      exact .of_eq rfl
    have hentries := loadEntries_reads buf t (n := n) (o := o + 1) 256 (by omega)
    rw [← ht]
    dsimp only
    exact haddr.trans hentries

theorem badHeader_reads (s : Splash) (width height : UInt16) (hn : 128 ≤ n) :
    ReadsBelow n s (badHeader buf s width height).2 := by
  have hin {k : UInt32} (hk : k < 128) : k < n := UInt32.lt_of_lt_of_le hk hn
  rw [badHeader]
  dsimp only
  have h3 := reads_one buf s (hin (k := 3) (by decide))
  have h65 := reads_one buf (s.read buf 3).2 (hin (k := 65) (by decide))
  have h2 := reads_one buf ((s.read buf 3).2.read buf 65).2 (hin (k := 2) (by decide))
  split
  · exact .of_eq rfl
  · split
    · exact h3
    · split
      · exact h3.trans h65
      · exact (h3.trans h65).trans h2

theorem checkHeader_reads (buf : UInt32 → UInt8) (s : Splash) (hn : 128 ≤ n) :
    ReadsBelow n s (checkHeader buf s).2 := by
  have hin {k : UInt32} (hk : k < 128) : k < n := UInt32.lt_of_lt_of_le hk hn
  have hword (s : Splash) {k : UInt32} (hk : k < 128) (hk' : k + 1 < 128) :
      ReadsBelow n s (s.readSwapped buf k).2 := reads_word (hin hk) (hin hk')
  rw [checkHeader]
  dsimp only
  refine ReadsBelow.trans ?_ (badHeader_reads _ _ _ hn)
  have h8 := hword s (k := 8) (by decide) (by decide)
  have h4 := hword (s.readSwapped buf 8).2 (k := 4) (by decide) (by decide)
  have h10 := hword ((s.readSwapped buf 8).2.readSwapped buf 4).2 (k := 10) (by decide) (by decide)
  have h6 := hword (((s.readSwapped buf 8).2.readSwapped buf 4).2.readSwapped buf 10).2 (k := 6)
    (by decide) (by decide)
  exact ((h8.trans h4).trans h10).trans h6

-- What the check says does not depend on what was read before.
theorem checkHeader_accepts (buf : UInt32 → UInt8) (s : Splash) :
    (checkHeader buf s).1 = false ↔ Accepted buf := by
  have hbad (s : Splash) (width height : UInt16) : (badHeader buf s width height).1 = false ↔
      width = 424 ∧ height = 240 ∧ buf 3 = 8 ∧ buf 65 = 1 ∧ buf 2 = 1 := by
    rw [badHeader]
    dsimp only [Splash.read]
    split
    · next h =>
      refine iff_of_false (fun ht => nomatch ht) fun ha => ?_
      exact h.elim (fun hw => hw ha.1) (fun hh => hh ha.2.1)
    · next h =>
      obtain ⟨hw,hh⟩ := not_or.mp h
      split
      · next h3 => exact iff_of_false (fun ht => nomatch ht) fun ha => h3 ha.2.2.1
      · next h3 =>
        split
        · next h65 => exact iff_of_false (fun ht => nomatch ht) fun ha => h65 ha.2.2.2.1
        · next h65 =>
          rw [decide_eq_false_iff_not,not_not]
          exact ⟨fun h2 => ⟨not_not.mp hw,not_not.mp hh,not_not.mp h3,not_not.mp h65,h2⟩,
            fun ha => ha.2.2.2.2⟩
  exact hbad _ _ _

end Reads

section Image

variable {n o bufSize : UInt32} {buf : UInt32 → UInt8} {s : Splash} {r : UInt32 × Splash}

-- A round goes one byte further, or two.
theorem imageRound_index (buf : UInt32 → UInt8) (o : UInt32) (r : UInt32 × Splash) :
    (imageRound buf o r).1 = r.1 + 1 ∨ (imageRound buf o r).1 = r.1 + 1 + 1 := by
  rw [imageRound]
  dsimp only
  split
  · exact .inr rfl
  · exact .inl rfl

theorem imageRound_reads (buf : UInt32 → UInt8) (h : o + r.1 < n) (h' : o + (r.1 + 1) < n) :
    ReadsBelow n r.2 (imageRound buf o r).2 := by
  have hone := reads_one buf r.2 h
  rw [imageRound]
  dsimp only
  split
  · have htwo := reads_one buf (r.2.read buf (o + r.1)).2 h'
    exact (hone.trans htwo).trans (.of_eq (drawRun_reads _ _ _))
  · exact hone.trans (.of_eq (draw_reads _ _))

theorem image_bounded (buf : UInt32 → UInt8) (s : Splash) (h : 897 ≤ bufSize.toNat) :
    ∃ s', loadImage (bufSize - 769 - 128) buf s 128 bufSize.toNat = some (true,s') ∧
      ReadsBelow bufSize s s' := by
  have hn := bufSize.toNat_lt
  obtain ⟨size,hsize⟩ : ∃ size, size = bufSize - 769 - 128 := ⟨_,rfl⟩
  have hlen : size.toNat = bufSize.toNat - 897 := by
    have h769 : (769 : UInt32).toNat = 769 := rfl
    have h128 : (128 : UInt32).toNat = 128 := rfl
    rw [hsize,UInt32.toNat_sub,UInt32.toNat_sub,h769,h128]
    omega
  rw [← hsize]
  have h0 : ReadsBelow bufSize s (s.access (.wrAddr 0)) := .of_eq rfl
  -- The index is at least the number of rounds, and at most one byte past the image.
  obtain ⟨k,r,hrun,⟨-,-,hreads⟩,hk,-⟩ := Loop.counted
    (c := fun r : UInt32 × Splash => decide (r.1 < size)) (f := imageRound buf 128)
    (s := (0,s.access (.wrAddr 0))) (n := size.toNat)
    (fun k r => k ≤ r.1.toNat ∧ r.1.toNat ≤ size.toNat + 1 ∧ ReadsBelow bufSize s r.2)
    ⟨le_rfl,Nat.zero_le _,h0⟩
    (fun k r hk hr hc => by
      obtain ⟨hlow,hhigh,hreads⟩ := hr
      have hi : r.1.toNat < size.toNat := UInt32.lt_iff_toNat_lt.mp (of_decide_eq_true hc)
      have h1 : (r.1 + 1).toNat = r.1.toNat + 1 :=
        toNat_add_of_lt (k := 1) (by change _ + 1 < _; omega)
      have h2 : (r.1 + 1 + 1).toNat = r.1.toNat + 2 := by
        rw [toNat_add_of_lt (k := 1) (by change _ + 1 < _; omega),h1]
        rfl
      have ho : (128 + r.1).toNat = 128 + r.1.toNat :=
        toNat_add_of_lt (by change 128 + _ < _; omega)
      have ho' : (128 + (r.1 + 1)).toNat = 128 + (r.1.toNat + 1) := by
        rw [toNat_add_of_lt (by change 128 + _ < _; omega),h1]
        rfl
      have hround := imageRound_reads buf (r := r) (n := bufSize) (o := 128)
        (UInt32.lt_iff_toNat_lt.mpr (by omega)) (UInt32.lt_iff_toNat_lt.mpr (by omega))
      refine ⟨?_,?_,hreads.trans hround⟩
      · obtain he | he := imageRound_index buf 128 r <;> rw [he] <;> omega
      · obtain he | he := imageRound_index buf 128 r <;> rw [he] <;> omega)
    (fun r hr => decide_eq_false fun hc => by
      have hi := UInt32.lt_iff_toNat_lt.mp hc
      omega)
  refine ⟨r.2,?_,hreads⟩
  rw [loadImage,Loop.mono hrun (by omega)]
  rfl

theorem image_endless (buf : UInt32 → UInt8) (s : Splash) (h : bufSize.toNat < 897) :
    loadImage (bufSize - 769 - 128) buf s 128 bufSize.toNat = none := by
  obtain ⟨size,hsize⟩ : ∃ size, size = bufSize - 769 - 128 := ⟨_,rfl⟩
  have hlen : size.toNat = bufSize.toNat + 4294966399 := by
    have h769 : (769 : UInt32).toNat = 769 := rfl
    have h128 : (128 : UInt32).toNat = 128 := rfl
    rw [hsize,UInt32.toNat_sub,UInt32.toNat_sub,h769,h128]
    omega
  -- After `i` rounds the index is at most `2 * i`, far from the end.
  have hindex (i : Nat) (hi : i ≤ 897) :
      ((imageRound buf 128)^[i] (0,s.access (.wrAddr 0))).1.toNat ≤ 2 * i := by
    induction i with
    | zero => exact Nat.zero_le _
    | succ i ih =>
      have hlast := ih (by omega)
      rw [Function.iterate_succ_apply']
      generalize (imageRound buf 128)^[i] (0,s.access (.wrAddr 0)) = r at hlast ⊢
      have h1 : (r.1 + 1).toNat = r.1.toNat + 1 :=
        toNat_add_of_lt (k := 1) (by change _ + 1 < _; omega)
      have h2 : (r.1 + 1 + 1).toNat = r.1.toNat + 2 := by
        rw [toNat_add_of_lt (k := 1) (by change _ + 1 < _; omega),h1]
        rfl
      obtain he | he := imageRound_index buf 128 r <;> rw [he] <;> omega
  rw [← hsize,loadImage,Loop.endless fun i hi => ?_]
  · rfl
  · refine decide_eq_true (UInt32.lt_iff_toNat_lt.mpr ?_)
    have hle := hindex i (by omega)
    omega

end Image

theorem pcx_bounded (bufSize : UInt32) (buf : UInt32 → UInt8) (fadeDelay : UInt8) (s : Splash) :
    BoundedDecoding bufSize buf fadeDelay s ↔ bufSize < 128 ∨ 897 ≤ bufSize ∨ ¬ Accepted buf := by
  rw [BoundedDecoding,showPcx]
  by_cases hsmall : bufSize < 128
  · rw [if_pos hsmall]
    exact iff_of_true ⟨_,rfl,.of_eq rfl⟩ (.inl hsmall)
  · rw [if_neg hsmall]
    have h128 : 128 ≤ bufSize := UInt32.not_lt.mp hsmall
    have hheader := checkHeader_reads buf s h128
    have haccept := checkHeader_accepts buf s
    obtain ⟨bad,t,hcheck⟩ : ∃ bad t, checkHeader buf s = (bad,t) := ⟨_,_,rfl⟩
    rw [hcheck] at hheader haccept ⊢
    dsimp only at hheader haccept ⊢
    cases bad with
    | true =>
      have hbad : ¬ Accepted buf := fun ha => nomatch haccept.mpr ha
      exact iff_of_true ⟨_,rfl,hheader⟩ (.inr (.inr hbad))
    | false =>
      have hgood := haccept.mp rfl
      by_cases hlarge : 897 ≤ bufSize
      · refine iff_of_true ?_ (.inr (.inl hlarge))
        have hnat : 897 ≤ bufSize.toNat := UInt32.le_iff_toNat_le.mp hlarge
        obtain ⟨t',himage,hreads⟩ := image_bounded buf t hnat
        have h769 : (bufSize - 769).toNat + 769 ≤ bufSize.toNat := by
          have h769 : (769 : UInt32).toNat = 769 := rfl
          rw [UInt32.toNat_sub,h769]
          omega
        have hpalette := loadPalette_reads buf t' h769
        simp only [himage,Option.bind_eq_bind,Option.bind_some,Bool.not_true,Bool.false_eq_true,
          if_false]
        obtain ⟨ok,t'',hpal⟩ : ∃ ok t'', loadPalette buf t' (bufSize - 769) = (ok,t'') :=
          ⟨_,_,rfl⟩
        rw [hpal] at hpalette ⊢
        dsimp only at hpalette ⊢
        have hall := (ReadsBelow.trans hheader hreads).trans hpalette
        cases ok with
        | false => exact ⟨_,rfl,hall⟩
        | true => exact ⟨_,rfl,hall.trans (.of_eq (fade_reads t'' fadeDelay))⟩
      · have hnat : bufSize.toNat < 897 := UInt32.lt_iff_toNat_lt.mp (UInt32.not_le.mp hlarge)
        refine iff_of_false ?_ ?_
        · rintro ⟨r,hr,-⟩
          rw [image_endless buf t hnat] at hr
          exact nomatch hr
        · rintro (hs | hl | hn)
          · exact hsmall hs
          · exact hlarge hl
          · exact hn hgood

-- A picture of 424 by 240 pixels that is cut off after its header.
def headerOnly (o : UInt32) : UInt8 :=
  if o = 2 then 1
  else if o = 3 then 8
  else if o = 8 then 0xa7
  else if o = 9 then 1
  else if o = 10 then 0xef
  else if o = 65 then 1
  else 0

theorem pcx_header_only : ¬ BoundedDecoding 128 headerOnly 0 ⟨[],false,0,[]⟩ := by
  have haccept : (checkHeader headerOnly ⟨[],false,0,[]⟩).1 = false :=
    (checkHeader_accepts _ _).mpr (by unfold Accepted; decide)
  rintro ⟨r,hr,-⟩
  rw [showPcx,if_neg (by decide)] at hr
  have hshort : (128 : UInt32).toNat < 897 := by decide
  dsimp only at hr
  rw [haccept,if_neg Bool.false_ne_true,image_endless headerOnly _ hshort] at hr
  exact nomatch hr

end RoscoM68k
