import RoscoM68k.Firmware.LzgMini

namespace RoscoM68k
open Function

namespace LzgMini

section Binds

variable {α : Type} {p : Prop} [Decidable p]

theorem orFail_bind (m : Mem) (g : Unit → Except Exit α) :
    (orFail m p >>= g) = if p then g () else .error (.fail m) := by
  unfold orFail
  split
  · rw [ok_bind]
  · rw [error_bind]

end Binds

theorem low32_of_lt {n : Nat} (h : n < 4294967296) : low32 n = n := Nat.mod_eq_of_lt h

-- What is left of the input, from `a0` to `a2`.
structure Sees (m : Mem) (a2 a0 : Nat) (rest : List UInt8) : Prop where
  slice : slice m a0 rest.length = rest
  reaches : a0 + rest.length = a2
  small : a2 < 4294967295

namespace Sees

variable {m : Mem} {a2 a0 : Nat} {b : UInt8} {rest : List UInt8}

theorem head (h : Sees m a2 a0 (b :: rest)) : m a0 = b := by
  have hs := h.slice
  rw [List.length_cons,RoscoM68k.slice] at hs
  exact (List.cons.inj hs).1

theorem tail (h : Sees m a2 a0 (b :: rest)) : Sees m a2 (low32 (a0 + 1)) rest := by
  have hs := h.slice
  have hr := h.reaches
  have hsmall := h.small
  rw [List.length_cons] at hr
  rw [List.length_cons,RoscoM68k.slice] at hs
  rw [low32_of_lt (by omega)]
  exact ⟨(List.cons.inj hs).2,by omega,hsmall⟩

theorem inside (h : Sees m a2 a0 rest) : a0 < a2 ↔ rest ≠ [] := by
  have hr := h.reaches
  rw [← List.length_pos_iff]
  omega

theorem start (h : Sees m a2 a0 rest) : a2 - rest.length = a0 := by
  have hr := h.reaches
  omega

end Sees

theorem lengthOf_eq (b : UInt8) : lengthOf b = copyLength b - 1 := by
  have h : ∀ i < 32, (lengthDecodeLut.getD i 0).toNat = RoscoM68k.lengthDecodeLut.getD i 0 - 1 := by
    decide
  rw [lengthOf,low5,copyLength]
  exact h _ (Nat.mod_lt _ (by decide))

-- Where what has been read leads.
def toBranch (m : Mem) (a2 : Nat) : Option (Token × List UInt8) → Except Exit Branch
  | some (.symbol _,rest) => .ok (.literal (a2 - rest.length))
  | some (.copy length offset,rest) => .ok (.copy offset (length - 1) (a2 - rest.length))
  | none => .error (.fail m)

section Branches

variable {f : Frame} {m : Mem} {a0 : Nat} {d7 : UInt8} {rest : List UInt8}

theorem shift5 (b : UInt8) : (b >>> 5).toNat = b.toNat / 32 := by
  rw [UInt8.toNat_shiftRight]
  exact Nat.shiftRight_eq_div_pow _ 5

theorem shift6 (b : UInt8) : (b >>> 6).toNat = b.toNat / 64 := by
  rw [UInt8.toNat_shiftRight]
  exact Nat.shiftRight_eq_div_pow _ 6

theorem far_word (b b2 b3 : UInt8) : (b >>> 5).toNat <<< 16 ||| b2.toNat <<< 8 ||| b3.toNat =
    b.toNat / 32 * 65536 + b2.toNat * 256 + b3.toNat := by
  have h2 := b2.toNat_lt
  have hhigh : (b >>> 5).toNat <<< 16 = b.toNat / 32 * 65536 := by rw [shift5,Nat.shiftLeft_eq]
  have hlow : b2.toNat <<< 8 = b2.toNat * 256 := by rw [Nat.shiftLeft_eq]
  have hsum : b.toNat / 32 * 65536 + b2.toNat * 256 = (b.toNat / 32 * 256 + b2.toNat) * 256 := by
    ring
  rw [hhigh,hlow,or_join 16 (by norm_num) (by linarith),hsum,or_join 8 (by norm_num) b3.toNat_lt]

theorem medium_word (b b2 : UInt8) :
    b.toNat <<< 3 / 256 * 256 + b2.toNat = b.toNat / 32 * 256 + b2.toNat := by
  have hshift : b.toNat <<< 3 = b.toNat * 8 := by rw [Nat.shiftLeft_eq]
  rw [hshift]
  omega

theorem marker1_eq (h : Sees m f.a2 a0 rest) (hd : d7 = f.markers.marker1) :
    f.marker1 m a0 = toBranch m f.a2 (f.markers.readMarked d7 rest) := by
  rw [Frame.marker1,orFail_bind]
  cases rest with
  | nil => rw [if_neg fun hlt => h.inside.mp hlt rfl,Markers.readMarked,toBranch]
  | cons b rest =>
    have h1 := h.tail
    rw [if_pos (h.inside.mpr (List.cons_ne_nil _ _)),h.head,Markers.readMarked]
    dsimp only
    by_cases hb : b = 0
    · rw [if_pos hb,if_pos hb,toBranch,h1.start]
    · rw [if_neg hb,if_neg hb,orFail_bind,Markers.readCopy.eq_def,if_pos hd]
      cases rest with
      | nil =>
        have hr : low32 (a0 + 1) = f.a2 := h1.reaches
        have hsmall := h1.small
        rw [hr,low32_of_lt (by omega),if_neg (by omega),toBranch]
      | cons b2 rest =>
        have h2 := h1.tail
        cases rest with
        | nil => rw [if_neg fun hlt => h2.inside.mp hlt rfl,toBranch]
        | cons b3 rest =>
          have h3 := h2.tail
          rw [if_pos (h2.inside.mpr (List.cons_ne_nil _ _)),h1.head,h2.head,far_word,lengthOf_eq]
          dsimp only [toBranch]
          rw [h3.start]

theorem marker2_eq (h : Sees m f.a2 a0 rest) (hd1 : d7 ≠ f.markers.marker1)
    (hd : d7 = f.markers.marker2) :
    f.marker2 m a0 = toBranch m f.a2 (f.markers.readMarked d7 rest) := by
  rw [Frame.marker2,orFail_bind]
  cases rest with
  | nil => rw [if_neg fun hlt => h.inside.mp hlt rfl,Markers.readMarked,toBranch]
  | cons b rest =>
    have h1 := h.tail
    rw [if_pos (h.inside.mpr (List.cons_ne_nil _ _)),h.head,Markers.readMarked]
    dsimp only
    by_cases hb : b = 0
    · rw [if_pos hb,if_pos hb,toBranch,h1.start]
    · rw [if_neg hb,if_neg hb,orFail_bind,Markers.readCopy.eq_def,if_neg hd1,if_pos hd]
      cases rest with
      | nil => rw [if_neg fun hlt => h1.inside.mp hlt rfl,toBranch]
      | cons b2 rest =>
        rw [if_pos (h1.inside.mpr (List.cons_ne_nil _ _)),h1.head,medium_word,lengthOf_eq]
        dsimp only [toBranch]
        rw [h1.tail.start]

theorem marker3_eq (h : Sees m f.a2 a0 rest) (hd1 : d7 ≠ f.markers.marker1)
    (hd2 : d7 ≠ f.markers.marker2) (hd : d7 = f.markers.marker3) :
    f.marker3 m a0 = toBranch m f.a2 (f.markers.readMarked d7 rest) := by
  rw [Frame.marker3,orFail_bind]
  cases rest with
  | nil => rw [if_neg fun hlt => h.inside.mp hlt rfl,Markers.readMarked,toBranch]
  | cons b rest =>
    have h1 := h.tail
    rw [if_pos (h.inside.mpr (List.cons_ne_nil _ _)),h.head,Markers.readMarked]
    dsimp only
    by_cases hb : b = 0
    · rw [if_pos hb,if_pos hb,toBranch,h1.start]
    · rw [if_neg hb,if_neg hb,Markers.readCopy.eq_def,if_neg hd1,if_neg hd2,if_pos hd,low6,shift6]
      dsimp only [toBranch]
      rw [h1.start]
      rfl

theorem marker4_eq (h : Sees m f.a2 a0 rest) (hd1 : d7 ≠ f.markers.marker1)
    (hd2 : d7 ≠ f.markers.marker2) (hd3 : d7 ≠ f.markers.marker3) :
    f.marker4 m a0 = toBranch m f.a2 (f.markers.readMarked d7 rest) := by
  rw [Frame.marker4,orFail_bind]
  cases rest with
  | nil => rw [if_neg fun hlt => h.inside.mp hlt rfl,Markers.readMarked,toBranch]
  | cons b rest =>
    have h1 := h.tail
    rw [if_pos (h.inside.mpr (List.cons_ne_nil _ _)),h.head,Markers.readMarked]
    dsimp only
    by_cases hb : b = 0
    · rw [if_pos hb,if_pos hb,toBranch,h1.start]
    · rw [if_neg hb,if_neg hb,Markers.readCopy.eq_def,if_neg hd1,if_neg hd2,if_neg hd3,shift5,
        lengthOf_eq]
      dsimp only [toBranch]
      rw [h1.start]

theorem branch_eq (h : Sees m f.a2 a0 (d7 :: rest)) :
    f.branch m d7 (low32 (a0 + 1)) = toBranch m f.a2 (f.markers.read (d7 :: rest)) := by
  have h1 := h.tail
  have hmarker : f.markers.isMarkerSymbol d7 = true ↔ d7 = f.markers.marker1 ∨
      d7 = f.markers.marker2 ∨ d7 = f.markers.marker3 ∨ d7 = f.markers.marker4 := by
    simp [Markers.isMarkerSymbol]
  rw [Frame.branch,Markers.read]
  by_cases hd1 : d7 = f.markers.marker1
  · rw [if_pos hd1,if_pos (hmarker.mpr (.inl hd1)),marker1_eq h1 hd1]
  · by_cases hd2 : d7 = f.markers.marker2
    · rw [if_neg hd1,if_pos hd2,if_pos (hmarker.mpr (.inr (.inl hd2))),marker2_eq h1 hd1 hd2]
    · by_cases hd3 : d7 = f.markers.marker3
      · rw [if_neg hd1,if_neg hd2,if_pos hd3,if_pos (hmarker.mpr (.inr (.inr (.inl hd3)))),
          marker3_eq h1 hd1 hd2 hd3]
      · by_cases hd4 : d7 = f.markers.marker4
        · rw [if_neg hd1,if_neg hd2,if_neg hd3,if_pos hd4,
            if_pos (hmarker.mpr (.inr (.inr (.inr hd4)))),marker4_eq h1 hd1 hd2 hd3]
        · rw [if_neg hd1,if_neg hd2,if_neg hd3,if_neg hd4,
            if_neg fun hm => by simp [hd1,hd2,hd3,hd4] at hmarker; simp [hmarker] at hm]
          dsimp only [toBranch]
          rw [h1.start]

end Branches
section Suffixes

variable {m : Markers} {symbol b : UInt8} {rest rest' : List UInt8} {t : Token}

theorem readCopy_suffix (h : m.readCopy symbol b rest = some (t,rest')) : rest' <:+ rest := by
  unfold Markers.readCopy at h
  split_ifs at h
  · cases rest with
    | nil => cases h
    | cons b2 rest =>
      cases rest with
      | nil => cases h
      | cons b3 rest =>
        obtain ⟨-,rfl⟩ := Prod.mk.inj (Option.some.inj h)
        exact ⟨[b2,b3],rfl⟩
  · cases rest with
    | nil => cases h
    | cons b2 rest =>
      obtain ⟨-,rfl⟩ := Prod.mk.inj (Option.some.inj h)
      exact ⟨[b2],rfl⟩
  · obtain ⟨-,rfl⟩ := Prod.mk.inj (Option.some.inj h)
    exact List.suffix_refl _
  · obtain ⟨-,rfl⟩ := Prod.mk.inj (Option.some.inj h)
    exact List.suffix_refl _

theorem readMarked_suffix (h : m.readMarked symbol rest = some (t,rest')) : rest' <:+ rest := by
  cases rest with
  | nil => simp [Markers.readMarked] at h
  | cons b rest =>
    rw [Markers.readMarked] at h
    split_ifs at h
    · obtain ⟨-,rfl⟩ := Prod.mk.inj (Option.some.inj h)
      exact ⟨[b],rfl⟩
    · exact (readCopy_suffix h).trans ⟨[b],rfl⟩

theorem read_suffix (h : m.read rest = some (t,rest')) : rest' <:+ rest := by
  cases rest with
  | nil => simp [Markers.read] at h
  | cons symbol rest =>
    rw [Markers.read] at h
    split_ifs at h
    · exact (readMarked_suffix h).trans ⟨[symbol],rfl⟩
    · obtain ⟨-,rfl⟩ := Prod.mk.inj (Option.some.inj h)
      exact ⟨[symbol],rfl⟩

theorem read_symbol {x : UInt8} (h : m.read (symbol :: rest) = some (.symbol x,rest')) :
    x = symbol := by
  rw [Markers.read] at h
  split_ifs at h
  · cases rest with
    | nil => simp [Markers.readMarked] at h
    | cons b rest =>
      rw [Markers.readMarked] at h
      split_ifs at h
      · exact (Token.symbol.inj (Prod.mk.inj (Option.some.inj h)).1).symm
      · obtain ⟨length,offset,ht,-⟩ := Markers.readCopy_copy h
        exact Token.noConfusion ht
  · exact (Token.symbol.inj (Prod.mk.inj (Option.some.inj h)).1).symm

theorem Sees.suffix {mem : Mem} {a2 a0 : Nat} (h : Sees mem a2 a0 rest) (hs : rest' <:+ rest) :
    Sees mem a2 (a2 - rest'.length) rest' := by
  obtain ⟨front,rfl⟩ := hs
  have hr := h.reaches
  rw [List.length_append] at hr
  have hstart : a2 - rest'.length = a0 + front.length := by omega
  rw [hstart]
  exact ⟨slice_drop h.slice,by omega,h.small⟩

end Suffixes

section Copies

variable {n d a4 a6 : Nat} {s : Regs} {m : Mem} {bytes : List UInt8}

-- From somewhere else.
theorem copyLoop_apart (h1 : s.a1 + n < 4294967296) (h4 : a4 + n < 4294967296)
    (h : Apart s.a1 n a4 n) : copyLoop n a4 s =
      { s with
        mem := overlay s.mem s.a1 (slice s.mem a4 n)
        a1 := s.a1 + n } := by
  induction n generalizing a4 s with
  | zero =>
    rw [copyLoop,slice,overlay_nil]
    rfl
  | succ n ih =>
    have hnext : Apart (s.a1 + 1) n (a4 + 1) n := by
      unfold Apart at h ⊢
      omega
    have hslice : slice (update s.mem s.a1 (s.mem a4)) (a4 + 1) n = slice s.mem (a4 + 1) n := by
      obtain h | h := h
      · exact slice_update_below (by omega)
      · exact slice_update_above (by omega)
    rw [copyLoop,low32_of_lt (by omega),low32_of_lt (by omega),
      ih (by dsimp only; omega) (by omega) hnext]
    dsimp only
    rw [hslice,overlay_cons,slice,Nat.add_assoc,Nat.add_comm 1 n]

-- From what has been put out.
theorem copyLoop_history (hm : s.mem = overlay m a6 bytes) (ha : s.a1 = a6 + bytes.length)
    (h1 : s.a1 + n < 4294967296) (hd : 0 < d) (hle : d ≤ bytes.length) :
    copyLoop n (s.a1 - d) s =
      ⟨overlay m a6 (copyBack d n bytes),s.a0,a6 + (bytes.length + n)⟩ := by
  induction n generalizing s bytes with
  | zero =>
    obtain ⟨mem,a0,a1⟩ := s
    dsimp only at hm ha
    subst hm ha
    rfl
  | succ n ih =>
    obtain ⟨x,hx,hnext⟩ := copyBack_snoc (n := n) hd hle
    have hread : s.mem (s.a1 - d) = x := by
      rw [hm]
      refine overlay_inside (by omega) ?_
      have hi : s.a1 - d - a6 = bytes.length - d := by omega
      rwa [hi]
    have hwrite : update s.mem s.a1 x = overlay m a6 (bytes ++ [x]) := by
      rw [hm,ha,overlay_snoc]
    have hback : s.a1 - d + 1 = s.a1 + 1 - d := by omega
    have hlen : a6 + (bytes.length + 1 + n) = a6 + (bytes.length + (n + 1)) := by omega
    rw [copyLoop,hread,hwrite,low32_of_lt (by omega),low32_of_lt (by omega),hback,hnext,
      ih (s := ⟨overlay m a6 (bytes ++ [x]),s.a0,s.a1 + 1⟩) rfl (by simp; omega)
        (by dsimp only; omega) (by simp; omega),List.length_append,List.length_singleton,hlen]

end Copies

section Rounds

variable {f : Frame} {i n : Nat} {m : Mem} {s : Regs} {rest bytes : List UInt8}

-- Nothing wraps around, and the input, from `i` on, is apart from the output.
structure Frame.Good (f : Frame) (i : Nat) : Prop where
  low : 526343 ≤ f.a6
  high : f.a3 + 128 ≤ 4294967296
  apart : f.a3 ≤ i ∨ f.a2 ≤ f.a6

-- The bytes have been put out over the memory `m`, and the rest of the input is still to come.
structure Frame.At (f : Frame) (i : Nat) (m : Mem) (s : Regs) (rest bytes : List UInt8) :
    Prop where
  sees : Sees m f.a2 s.a0 rest
  after : i ≤ s.a0
  mem : s.mem = overlay m f.a6 bytes
  a1 : s.a1 = f.a6 + bytes.length
  fits : f.a6 + bytes.length ≤ f.a3

theorem Frame.At.sees_mem (hg : f.Good i) (h : f.At i m s rest bytes) :
    Sees s.mem f.a2 s.a0 rest := by
  have hr := h.sees.reaches
  have hfits := h.fits
  have hafter := h.after
  refine ⟨?_,hr,h.sees.small⟩
  rw [h.mem,slice_overlay,h.sees.slice]
  obtain h1 | h1 := hg.apart
  · exact .inl (by omega)
  · exact .inr (by omega)

theorem literal_eq (hg : f.Good i) {a0 : Nat} (d7 : UInt8) (hm : s.mem = overlay m f.a6 bytes)
    (ha : s.a1 = f.a6 + bytes.length) : f.literal d7 { s with a0 := a0 } =
      if f.a6 + bytes.length + 1 ≤ f.a3 then
        .ok ⟨overlay m f.a6 (bytes ++ [d7]),a0,f.a6 + (bytes.length + 1)⟩
      else .error (.fail s.mem) := by
  have hhigh := hg.high
  rw [Frame.literal,orFail_bind]
  dsimp only
  by_cases h : f.a6 + bytes.length + 1 ≤ f.a3
  · rw [if_pos (by omega),if_pos h,hm,ha,overlay_snoc,low32_of_lt (by omega)]
    rfl
  · rw [if_neg (by omega),if_neg h]

theorem copy_eq (hg : f.Good i) {a0 length offset : Nat} (hm : s.mem = overlay m f.a6 bytes)
    (ha : s.a1 = f.a6 + bytes.length) (hfits : f.a6 + bytes.length ≤ f.a3)
    (hlen : 2 ≤ length ∧ length ≤ 128) (hoff : 1 ≤ offset ∧ offset ≤ 526343) :
    f.copy offset (length - 1) { s with a0 := a0 } =
      if offset ≤ bytes.length ∧ f.a6 + bytes.length + length ≤ f.a3 then
        .ok ⟨overlay m f.a6 (copyBack offset length bytes),a0,f.a6 + (bytes.length + length)⟩
      else .error (.fail s.mem) := by
  have hhigh := hg.high
  have hlow := hg.low
  have hrounds : dbfRounds (length - 1) = length := by
    unfold dbfRounds
    omega
  have hback : low32 (s.a1 + 4294967296 - offset) = s.a1 - offset := by
    unfold low32
    omega
  rw [Frame.copy,orFail_bind]
  dsimp only
  rw [hback,hrounds,low32_of_lt (by omega),orFail_bind]
  by_cases h : offset ≤ bytes.length ∧ f.a6 + bytes.length + length ≤ f.a3
  · rw [if_pos (by omega),if_pos (by omega),if_pos h]
    exact congrArg Except.ok (copyLoop_history (s := { s with a0 := a0 }) hm ha
      (by dsimp only; omega) hoff.1 h.1)
  · by_cases h1 : s.a1 + (length - 1) < f.a3
    · rw [if_pos h1,if_neg (by omega),if_neg h]
    · rw [if_neg h1,if_neg h]

-- A round does what the first token of the rest says.
theorem round_eq (hg : f.Good i) (h : f.At i m s rest bytes) : f.round s =
    match f.markers.read rest with
    | none => .error (.fail s.mem)
    | some (t,rest') =>
      if t.Reaches bytes ∧ f.a6 + bytes.length + t.size ≤ f.a3 then
        .ok ⟨overlay m f.a6 (t.expand bytes),f.a2 - rest'.length,f.a6 + (bytes.length + t.size)⟩
      else .error (.fail s.mem) := by
  have hs := h.sees_mem hg
  rw [Frame.round,orFail_bind]
  cases rest with
  | nil => rw [if_neg fun hlt => hs.inside.mp hlt rfl,Markers.read]
  | cons d7 rest =>
    rw [if_pos (hs.inside.mpr (List.cons_ne_nil _ _)),hs.head]
    dsimp only
    rw [branch_eq hs]
    cases hread : f.markers.read (d7 :: rest) with
    | none => rw [toBranch,error_bind]
    | some r =>
      obtain ⟨t,rest'⟩ := r
      have hfair := (Markers.read_fair hread).1
      cases hfair with
      | symbol x =>
        obtain rfl := read_symbol hread
        dsimp only [toBranch]
        rw [ok_bind]
        dsimp only
        rw [literal_eq hg x h.mem h.a1]
        by_cases hfit : f.a6 + bytes.length + 1 ≤ f.a3
        · exact (if_pos hfit).trans (if_pos ⟨trivial,hfit⟩).symm
        · exact (if_neg hfit).trans (if_neg fun h' => hfit h'.2).symm
      | copy hlen hmax hoff hfar =>
        dsimp only [toBranch]
        rw [ok_bind]
        exact copy_eq hg h.mem h.a1 h.fits ⟨hlen,hmax⟩ ⟨hoff,hfar⟩

-- The step of the induction over the rounds.
theorem Frame.At.next {t : Token} {rest' : List UInt8} (h : f.At i m s rest bytes)
    (hread : f.markers.read rest = some (t,rest')) (hreach : t.Reaches bytes)
    (hfit : f.a6 + bytes.length + t.size ≤ f.a3) :
    f.At i m ⟨overlay m f.a6 (t.expand bytes),f.a2 - rest'.length,
      f.a6 + (bytes.length + t.size)⟩ rest' (t.expand bytes) := by
  obtain ⟨hfair,hlt⟩ := Markers.read_fair hread
  have hlen := hfair.expand_length hreach
  have hr := h.sees.reaches
  have hafter := h.after
  exact {
    sees := h.sees.suffix (read_suffix hread)
    after := by dsimp only; omega
    mem := rfl
    a1 := by rw [hlen]
    fits := by omega }

-- The loop puts out what the rest of the input expands to, if this fits, and fails otherwise. An
-- input that has ended before the loop begins makes it fail too.
theorem mainLoop_spec (hg : f.Good i) (h : f.At i m s rest bytes)
    (hn : f.a3 < f.a6 + bytes.length + n) :
    (∃ out s', f.mainLoop n s = .ok s' ∧ f.At i m s' [] out ∧
      Expands f.markers rest bytes out) ∨
    (∃ out, f.mainLoop n s = .error (.fail (overlay m f.a6 out)) ∧ f.a6 + out.length ≤ f.a3 ∧
      (rest = [] ∨ ∀ out', Expands f.markers rest bytes out' → f.a3 < f.a6 + out'.length)) := by
  induction n generalizing s rest bytes with
  | zero =>
    have hfits := h.fits
    omega
  | succ n ih =>
    rw [Frame.mainLoop,round_eq hg h]
    cases hread : f.markers.read rest with
    | none =>
      rw [error_bind,h.mem]
      refine .inr ⟨bytes,rfl,h.fits,?_⟩
      by_cases hrest : rest = []
      · exact .inl hrest
      · refine .inr fun out' hexp => ?_
        cases hexp with
        | done => exact absurd rfl hrest
        | token hread' => simp [hread] at hread'
    | some r =>
      obtain ⟨t,rest'⟩ := r
      obtain ⟨hfair,-⟩ := Markers.read_fair hread
      have hrest : rest ≠ [] := by
        rintro rfl
        simp [Markers.read] at hread
      dsimp only
      by_cases hfit : t.Reaches bytes ∧ f.a6 + bytes.length + t.size ≤ f.a3
      · have hnext := h.next hread hfit.1 hfit.2
        have hlen := hfair.expand_length hfit.1
        have hpos := hfair.size_pos
        rw [if_pos hfit,ok_bind]
        by_cases hmore : f.a2 - rest'.length < f.a2
        · rw [if_pos hmore]
          have hne := hnext.sees.inside.mp hmore
          rcases ih hnext (by omega) with ⟨out,s',hrun,hat,hexp⟩ | ⟨out,hrun,hroom,hno⟩
          · exact .inl ⟨out,s',hrun,hat,.token hread hfit.1 hexp⟩
          · refine .inr ⟨out,hrun,hroom,.inr fun out' hexp => ?_⟩
            cases hexp with
            | done => exact absurd rfl hrest
            | token hread' hreach hexp' =>
              obtain ⟨rfl,rfl⟩ := Prod.mk.inj (Option.some.inj (hread.symm.trans hread'))
              rcases hno with hnil | hno
              · exact absurd hnil hne
              · exact hno out' hexp'
        · have hend : rest' = [] := by
            by_contra hne
            exact hmore (hnext.sees.inside.mpr hne)
          subst hend
          rw [if_neg hmore]
          exact .inl ⟨_,_,rfl,hnext,.token hread hfit.1 (.done _)⟩
      · rw [if_neg hfit,error_bind,h.mem]
        refine .inr ⟨bytes,rfl,h.fits,.inr fun out' hexp => ?_⟩
        cases hexp with
        | done => exact absurd rfl hrest
        | token hread' hreach hexp' =>
          obtain ⟨rfl,rfl⟩ := Prod.mk.inj (Option.some.inj (hread.symm.trans hread'))
          have hle := hexp'.length_le
          rw [hfair.expand_length hreach] at hle
          by_contra hroom
          exact hfit ⟨hreach,by omega⟩

end Rounds

section Blocks

variable {fuel : Nat} {m : Mem} {a0 d0 a1 d1 a2 a3 n decodedSize encodedSize d6 : Nat}

theorem csLoop_eq (s : UInt16 × UInt16) (h : a0 + n < 4294967296) :
    csLoop m n a0 s = (slice m a0 n).foldl checksumOp s := by
  induction n generalizing a0 s with
  | zero => rfl
  | succ n ih => rw [csLoop,low32_of_lt (by omega),ih _ (by omega),slice,List.foldl_cons]

theorem markers_at (m : Mem) (a0 n : Nat) : slice m a0 (4 + n) =
    [m a0,m (a0 + 1),m (a0 + 2),m (a0 + 3)] ++ slice m (a0 + 4) n := slice_add m a0 4 n

-- The data are not empty, and short enough for a counter that has sixteen bits.
theorem decodeData_spec (m : Mem) (fuel d6 : Nat) (he : 1 ≤ encodedSize)
    (hshort : encodedSize ≤ 65536) (h0 : 0 < a0) (hin : a0 + encodedSize < 4294967292)
    (hlow : 526343 ≤ a1) (hhigh : a1 + decodedSize + 128 ≤ 4294967296)
    (hapart : a1 + decodedSize ≤ a0 ∨ a0 + encodedSize ≤ a1) (hfuel : decodedSize < fuel) :
    (∃ out s', decodeData fuel m a0 a1 (a0 + encodedSize) (a1 + decodedSize) decodedSize
        encodedSize d6 = .ok s' ∧ s'.mem = overlay m a1 out ∧ s'.a1 = a1 + out.length ∧
      out.length ≤ decodedSize ∧ Says (m (a0 - 1)) (slice m a0 encodedSize) out ∧
      calcChecksum (slice m a0 encodedSize) = d6) ∨
    (∃ out, decodeData fuel m a0 a1 (a0 + encodedSize) (a1 + decodedSize) decodedSize
        encodedSize d6 = .error (.fail (overlay m a1 out)) ∧ out.length ≤ decodedSize ∧
      (calcChecksum (slice m a0 encodedSize) = d6 → ∀ out',
        Says (m (a0 - 1)) (slice m a0 encodedSize) out' → out'.length = decodedSize →
          decodedSize = 0)) := by
  have hrounds : dbfRounds (low32 (encodedSize + 4294967295)) = encodedSize := by
    unfold dbfRounds low32
    omega
  have hmethod : low32 (a0 + 4294967295) = a0 - 1 := by
    unfold low32
    omega
  have hsum : joinSums (csLoop m encodedSize a0 (1,0)) = calcChecksum (slice m a0 encodedSize) := by
    rw [csLoop_eq _ (by omega),calcChecksum_eq]
  rw [decodeData]
  dsimp only
  rw [hrounds,hmethod,orFail_bind,hsum]
  by_cases hcs : calcChecksum (slice m a0 encodedSize) = d6
  · rw [if_pos hcs]
    by_cases hcopy : m (a0 - 1) = LZG_METHOD_COPY
    · rw [if_pos hcopy,orFail_bind]
      by_cases heq : encodedSize = decodedSize
      · subst heq
        rw [if_pos rfl,copyLoop_apart (s := ⟨m,a0,a1⟩) (by dsimp only; omega) (by omega) hapart,
          hcopy]
        exact .inl ⟨slice m a0 encodedSize,_,rfl,rfl,by rw [slice_length],
          (slice_length m a0 encodedSize).le,.copy _,hcs⟩
      · rw [if_neg heq,hcopy]
        refine .inr ⟨[],by rw [overlay_nil],Nat.zero_le _,fun _ out' hs hl => ?_⟩
        cases hs
        rw [slice_length] at hl
        exact absurd hl heq
    · rw [if_neg hcopy,orFail_bind]
      by_cases hlzg : m (a0 - 1) = LZG_METHOD_LZG1
      · rw [if_pos hlzg,orFail_bind,low32_of_lt (by omega),low32_of_lt (by omega),
          low32_of_lt (by omega),low32_of_lt (by omega),hlzg]
        by_cases hfour : 4 ≤ encodedSize
        · obtain ⟨k,rfl⟩ := Nat.exists_eq_add_of_le hfour
          have hg : Frame.Good ⟨a0 + (4 + k),a1 + decodedSize,a1,
              ⟨m a0,m (a0 + 1),m (a0 + 2),m (a0 + 3)⟩⟩ (a0 + 4) := {
            low := hlow
            high := hhigh
            apart := by dsimp only; omega }
          have hat : Frame.At ⟨a0 + (4 + k),a1 + decodedSize,a1,
              ⟨m a0,m (a0 + 1),m (a0 + 2),m (a0 + 3)⟩⟩ (a0 + 4) m ⟨m,a0 + 4,a1⟩
              (slice m (a0 + 4) k) [] := {
            sees := {
              slice := by rw [slice_length]
              reaches := by
                rw [slice_length]
                dsimp only
                omega
              small := Nat.lt_trans hin (by norm_num) }
            after := le_rfl
            mem := (overlay_nil m a1).symm
            a1 := rfl
            fits := Nat.le_add_right _ _ }
          rw [if_pos (by omega),markers_at]
          rcases mainLoop_spec (n := fuel) hg hat (by dsimp only [List.length_nil]; omega) with
            ⟨out,s',hrun,hat',hexp⟩ | ⟨out,hrun,hroom,hno⟩
          · have hfits : a1 + out.length ≤ a1 + decodedSize := hat'.fits
            exact .inl ⟨out,s',hrun,hat'.mem,hat'.a1,by omega,.lzg1 hexp,markers_at m a0 k ▸ hcs⟩
          · have hroom' : a1 + out.length ≤ a1 + decodedSize := hroom
            refine .inr ⟨out,hrun,by omega,fun _ out' hs hl => ?_⟩
            obtain ⟨m1,m2,m3,m4,rest,hdata,hexp⟩ := says_lzg1 hs
            simp only [List.cons_append,List.nil_append,List.cons.injEq] at hdata
            obtain ⟨rfl,rfl,rfl,rfl,rfl⟩ := hdata
            rcases hno with hnil | hno
            · rw [hnil] at hexp
              cases hexp with
              | done => exact hl.symm
              | token hread => simp [Markers.read] at hread
            · have hlt : a1 + decodedSize < a1 + out'.length := hno out' hexp
              omega
        · rw [if_neg (by omega)]
          refine .inr ⟨[],by rw [overlay_nil],Nat.zero_le _,fun _ out' hs hl => ?_⟩
          obtain ⟨m1,m2,m3,m4,rest,hdata,-⟩ := says_lzg1 hs
          have hlen := congrArg List.length hdata
          rw [slice_length,List.length_append] at hlen
          simp only [List.length_cons] at hlen
          omega
      · rw [if_neg hlzg]
        refine .inr ⟨[],by rw [overlay_nil],Nat.zero_le _,fun _ out' hs hl => ?_⟩
        rcases says_methods hs with hm | hm
        · exact absurd hm hcopy
        · exact absurd hm hlzg
  · rw [if_neg hcs]
    exact .inr ⟨[],by rw [overlay_nil],Nat.zero_le _,fun h => absurd h hcs⟩

theorem getUINT32_eq (h : a0 + d0 + 3 < 4294967296) :
    getUINT32 m a0 d0 = join32 (m (a0 + d0)) (m (a0 + d0 + 1)) (m (a0 + d0 + 2))
      (m (a0 + d0 + 3)) := by
  rw [getUINT32,low32_of_lt (by omega),low32_of_lt (by omega),low32_of_lt (by omega),
    low32_of_lt h,or_join32]

theorem header_at (m : Mem) (a0 n : Nat) : slice m a0 (16 + n) =
    [m a0,m (a0 + 1),m (a0 + 2),m (a0 + 3),m (a0 + 4),m (a0 + 5),m (a0 + 6),m (a0 + 7),
      m (a0 + 8),m (a0 + 9),m (a0 + 10),m (a0 + 11),m (a0 + 12),m (a0 + 13),m (a0 + 14),
      m (a0 + 15)] ++ slice m (a0 + 16) n := slice_add m a0 16 n

theorem decode_eq (fuel : Nat) (m : Mem) (a1 d1 : Nat) (hin : a0 + (16 + n) < 4294967292) :
    decode fuel m a0 (16 + n) a1 d1 = (do
    orFail m (m a0 = 0x4c)
    orFail m (m (a0 + 1) = 0x5a)
    orFail m (m (a0 + 2) = 0x47)
    orFail m (getUINT32 m a0 3 ≤ d1)
    orFail m (low32 (getUINT32 m a0 7 + 16) ≤ 16 + n)
    let s ← if n = 0 then .ok ⟨m,a0 + 16,a1⟩
      else
        decodeData fuel m (a0 + 16) a1 (a0 + 16 + n) (low32 (a1 + getUINT32 m a0 3))
          (getUINT32 m a0 3) (getUINT32 m a0 7) (getUINT32 m a0 11)
    orFail s.mem (s.a1 = low32 (a1 + getUINT32 m a0 3))
    .ok (s.mem,getUINT32 m a0 3)) := by
  have hend : a0 + (16 + n) = a0 + 16 + n := by omega
  have hempty : a0 + 16 = a0 + 16 + n ↔ n = 0 := by omega
  unfold decode LZG_HEADER_SIZE
  rw [orFail_bind,if_pos (by omega),low32_of_lt (n := a0 + 1) (by omega),
    low32_of_lt (n := a0 + 2) (by omega),low32_of_lt (n := a0 + (16 + n)) (by omega),
    low32_of_lt (n := a0 + 16) (by omega),hend]
  simp only [hempty]

theorem LZG_Decode_ok {r : Mem × Nat} (h : decode fuel m a0 d0 a1 d1 = .ok r) :
    LZG_Decode fuel m a0 d0 a1 d1 = some r := by
  rw [LZG_Decode,h]

theorem LZG_Decode_fail {m' : Mem} (h : decode fuel m a0 d0 a1 d1 = .error (.fail m')) :
    LZG_Decode fuel m a0 d0 a1 d1 = some (m',0) := by
  rw [LZG_Decode,h]

-- Where the decoder is given the whole block and no more, it decodes the blocks of the format
-- that fit and fails on all else.
theorem decode_spec (hin : a0 + d0 < 4294967292) (hshort : d0 ≤ 65552) (hlow : 526343 ≤ a1)
    (hhigh : a1 + d1 + 128 ≤ 4294967296) (hapart : Apart a1 d1 a0 d0) (hfuel : d1 < fuel)
    (hsize : d0 ≤ getUINT32 m a0 7 + 16 ∧ getUINT32 m a0 7 + 16 < 4294967296) :
    (∃ out, LZG_Decode fuel m a0 d0 a1 d1 = some (overlay m a1 out,out.length) ∧
      out.length ≤ d1 ∧ LzgBlock (slice m a0 d0) out) ∨
    (∃ out, LZG_Decode fuel m a0 d0 a1 d1 = some (overlay m a1 out,0) ∧ out.length ≤ d1 ∧
      ∀ out', LzgBlock (slice m a0 d0) out' → out'.length ≤ d1 → out' = [] ∧ out = []) := by
  have hfail : decode fuel m a0 d0 a1 d1 = .error (.fail m) →
      (∀ out', LzgBlock (slice m a0 d0) out' → out'.length ≤ d1 → out' = []) →
      ∃ out, LZG_Decode fuel m a0 d0 a1 d1 = some (overlay m a1 out,0) ∧ out.length ≤ d1 ∧
        ∀ out', LzgBlock (slice m a0 d0) out' → out'.length ≤ d1 → out' = [] ∧ out = [] := by
    intro h hno
    refine ⟨[],?_,Nat.zero_le _,fun out' hb hle => ⟨hno out' hb hle,rfl⟩⟩
    rw [overlay_nil]
    exact LZG_Decode_fail h
  by_cases hlen : 16 ≤ d0
  · obtain ⟨n,rfl⟩ := Nat.exists_eq_add_of_le hlen
    have hblock := fun out => block_header (m a0) (m (a0 + 1)) (m (a0 + 2)) (m (a0 + 3))
      (m (a0 + 4)) (m (a0 + 5)) (m (a0 + 6)) (m (a0 + 7)) (m (a0 + 8)) (m (a0 + 9)) (m (a0 + 10))
      (m (a0 + 11)) (m (a0 + 12)) (m (a0 + 13)) (m (a0 + 14)) (m (a0 + 15))
      (slice m (a0 + 16) n) out
    rw [← header_at] at hblock
    have h3 : join32 (m (a0 + 3)) (m (a0 + 4)) (m (a0 + 5)) (m (a0 + 6)) = getUINT32 m a0 3 :=
      (getUINT32_eq (by omega)).symm
    have h7 : join32 (m (a0 + 7)) (m (a0 + 8)) (m (a0 + 9)) (m (a0 + 10)) = getUINT32 m a0 7 :=
      (getUINT32_eq (by omega)).symm
    have h11 : join32 (m (a0 + 11)) (m (a0 + 12)) (m (a0 + 13)) (m (a0 + 14)) =
        getUINT32 m a0 11 := (getUINT32_eq (by omega)).symm
    simp only [h3,h7,h11,slice_length] at hblock
    have heq := decode_eq fuel m a1 d1 hin
    by_cases hmagic : m a0 = 0x4c ∧ m (a0 + 1) = 0x5a ∧ m (a0 + 2) = 0x47
    · rw [orFail_bind,if_pos hmagic.1,orFail_bind,if_pos hmagic.2.1,orFail_bind,
        if_pos hmagic.2.2,orFail_bind] at heq
      by_cases hroom : getUINT32 m a0 3 ≤ d1
      · rw [if_pos hroom,low32_of_lt hsize.2,orFail_bind] at heq
        by_cases hall : getUINT32 m a0 7 + 16 ≤ 16 + n
        · have h7n : getUINT32 m a0 7 = n := by omega
          rw [if_pos hall,low32_of_lt (n := a1 + getUINT32 m a0 3) (by omega),h7n] at heq
          rw [h7n] at hblock
          by_cases hn : n = 0
          · subst hn
            rw [if_pos rfl,ok_bind] at heq
            dsimp only at heq
            rw [orFail_bind] at heq
            have hnil : ∀ out', LzgBlock (slice m a0 (16 + 0)) out' → out' = [] :=
              fun out' hb => says_nil ((hblock out').mp hb).2.2.2.2
            by_cases hz : a1 = a1 + getUINT32 m a0 3
            · have h30 : getUINT32 m a0 3 = 0 := by omega
              rw [if_pos hz,h30] at heq
              refine .inr ⟨[],?_,Nat.zero_le _,fun out' hb _ => ⟨hnil out' hb,rfl⟩⟩
              rw [overlay_nil]
              exact LZG_Decode_ok heq
            · rw [if_neg hz] at heq
              exact .inr (hfail heq fun out' hb _ => hnil out' hb)
          · rw [if_neg hn] at heq
            have happ : a1 + getUINT32 m a0 3 ≤ a0 + 16 ∨ a0 + 16 + n ≤ a1 := by
              obtain h | h := hapart
              · exact .inl (by omega)
              · exact .inr (by omega)
            rcases decodeData_spec m fuel (getUINT32 m a0 11)
              (Nat.one_le_iff_ne_zero.mpr hn) (by omega) (by omega) (by omega) hlow (by omega) happ
              (by omega) with
              ⟨out,s',hrun,hmem,ha1,hfit,hs,hsum⟩ | ⟨out,hrun,hfit,hno⟩
            · rw [hrun,ok_bind] at heq
              dsimp only at heq
              rw [orFail_bind] at heq
              by_cases hend : s'.a1 = a1 + getUINT32 m a0 3
              · rw [if_pos hend] at heq
                have hl : out.length = getUINT32 m a0 3 := by omega
                refine .inl ⟨out,?_,by omega,?_⟩
                · rw [hl,← hmem]
                  exact LZG_Decode_ok heq
                · exact (hblock out).mpr ⟨hmagic,hl.symm,rfl,hsum.symm,hs⟩
              · rw [if_neg hend,hmem] at heq
                refine .inr ⟨out,LZG_Decode_fail heq,by omega,fun out' hb _ => ?_⟩
                obtain ⟨-,hl,-,-,hs'⟩ := (hblock out').mp hb
                rw [hs.unique hs'] at ha1
                omega
            · rw [hrun,error_bind] at heq
              refine .inr ⟨out,LZG_Decode_fail heq,by omega,fun out' hb _ => ?_⟩
              obtain ⟨-,hl,-,hsum,hs⟩ := (hblock out').mp hb
              have hzero := hno hsum.symm out' hs hl.symm
              exact ⟨List.length_eq_zero_iff.mp (hl.symm.trans hzero),
                List.length_eq_zero_iff.mp (by omega)⟩
        · rw [if_neg hall] at heq
          refine .inr (hfail heq fun out' hb _ => ?_)
          obtain ⟨-,-,h7n,-⟩ := (hblock out').mp hb
          omega
      · rw [if_neg hroom] at heq
        refine .inr (hfail heq fun out' hb hle => ?_)
        obtain ⟨-,hl,-⟩ := (hblock out').mp hb
        omega
    · have hno : ∀ out', LzgBlock (slice m a0 (16 + n)) out' → out'.length ≤ d1 → out' = [] :=
        fun out' hb _ => absurd ((hblock out').mp hb).1 hmagic
      refine .inr (hfail ?_ hno)
      rw [heq,orFail_bind]
      by_cases h0 : m a0 = 0x4c
      · rw [if_pos h0,orFail_bind]
        by_cases h1 : m (a0 + 1) = 0x5a
        · rw [if_pos h1,orFail_bind,if_neg fun h2 => hmagic ⟨h0,h1,h2⟩]
        · rw [if_neg h1]
      · rw [if_neg h0]
  · refine .inr (hfail ?_ fun out' hb _ => ?_)
    · rw [decode,orFail_bind,if_neg (by unfold LZG_HEADER_SIZE; omega)]
    · have hle := hb.header_le
      rw [slice_length,LZG_HEADER_SIZE] at hle
      omega

-- Both decoders give the same of what is in memory. Where the one in C refuses, the other may
-- have written a part, inside the buffer, before it failed.
theorem decoders_agree (m : Mem) (a0 d0 a1 d1 fuel : Nat) (hin : a0 + d0 < 4294967292)
    (hshort : d0 ≤ 65552) (hlow : 526343 ≤ a1) (hhigh : a1 + d1 + 128 ≤ 4294967296)
    (hapart : Apart a1 d1 a0 d0) (hfuel : d1 < fuel)
    (hsize : d0 ≤ getUINT32 m a0 7 + 16 ∧ getUINT32 m a0 7 + 16 < 4294967296) :
    match RoscoM68k.LZG_Decode (slice m a0 d0) d1 with
    | .ok (n,out) => LZG_Decode fuel m a0 d0 a1 d1 = some (overlay m a1 out,n)
    | .error _ => ∃ out, LZG_Decode fuel m a0 d0 a1 d1 = some (overlay m a1 out,0) ∧
        out.length ≤ d1 := by
  obtain ⟨-,hiff⟩ := LZG_Decode_iff (slice m a0 d0) d1
  cases hc : RoscoM68k.LZG_Decode (slice m a0 d0) d1 with
  | ok r =>
    obtain ⟨n,out⟩ := r
    obtain ⟨hblock,rfl,hle⟩ := (hiff _ _).mp hc
    dsimp only
    rcases decode_spec hin hshort hlow hhigh hapart hfuel hsize with
      ⟨out',hrun,-,hblock'⟩ | ⟨out',hrun,hle',hno⟩
    · rwa [hblock.unique hblock']
    · obtain ⟨rfl,rfl⟩ := hno out hblock hle
      exact hrun
  | error t =>
    dsimp only
    rcases decode_spec hin hshort hlow hhigh hapart hfuel hsize with
      ⟨out',hrun,hle,hblock'⟩ | ⟨out',hrun,hle',-⟩
    · have hok := (hiff _ _).mpr ⟨hblock',rfl,hle⟩
      rw [hc] at hok
      simp at hok
    · exact ⟨out',hrun,hle'⟩

-- A plain copy of five bytes.
def plainBlock : List UInt8 :=
  [0x4c,0x5a,0x47,0,0,0,5,0,0,0,5,0x06,0x89,0x02,0x27,0,0x72,0x6f,0x73,0x63,0x6f]

theorem decoders_agree_plain :
    LZG_Decode 9 (fun x => plainBlock.getD x 0) 0 21 786432 8 =
      some (overlay (fun x => plainBlock.getD x 0) 786432 [0x72,0x6f,0x73,0x63,0x6f],5) := by
  have h := decoders_agree (fun x => plainBlock.getD x 0) 0 21 786432 8 9 (by norm_num)
    (by norm_num) (by norm_num) (by norm_num) (.inr (by norm_num)) (by norm_num) (by decide)
  have hc : RoscoM68k.LZG_Decode (slice (fun x => plainBlock.getD x 0) 0 21) 8 =
      .ok (5,[0x72,0x6f,0x73,0x63,0x6f]) := by decide
  rwa [hc] at h

end Blocks
end LzgMini
end RoscoM68k
