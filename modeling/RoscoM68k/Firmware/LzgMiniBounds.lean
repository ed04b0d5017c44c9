import RoscoM68k.Firmware.LzgMiniRuns

namespace RoscoM68k
open Function

namespace LzgMini

-- A result with `P`, or a failure that leaves a memory with `Q`.
def Ends {α : Type} (Q : Mem → Prop) (P : α → Prop) : Except Exit α → Prop
  | .ok x => P x
  | .error (.fail m) => Q m
  | .error .stuck => False

namespace Ends

variable {α β : Type} {Q Q' : Mem → Prop} {P : α → Prop} {P' : β → Prop} {m : Mem} {p : Prop}
  [Decidable p] {e : Except Exit α} {f : α → Except Exit β} {g : Unit → Except Exit β}

theorem orFail (hq : Q m) (h : p → Ends Q P' (g ())) :
    Ends Q P' (LzgMini.orFail m p >>= g) := by
  rw [orFail_bind]
  split
  · rename_i hp
    exact h hp
  · exact hq

theorem bind (h : Ends Q P e) (h' : ∀ x, P x → Ends Q P' (f x)) : Ends Q P' (e >>= f) := by
  cases e with
  | ok x => exact h' x h
  | error t =>
    cases t with
    | fail m => exact h
    | stuck => exact h

theorem mono {P'' : α → Prop} (h : Ends Q P e) (hq : ∀ m, Q m → Q' m) (hp : ∀ x, P x → P'' x) :
    Ends Q' P'' e := by
  cases e with
  | ok x => exact hp x h
  | error t =>
    cases t with
    | fail m => exact hq m h
    | stuck => exact h

end Ends

-- The memory is as before outside `lo` and `hi`.
def Only (lo hi : Nat) (m m' : Mem) : Prop := ∀ x, x < lo ∨ hi ≤ x → m' x = m x

theorem Only.refl (lo hi : Nat) (m : Mem) : Only lo hi m m := fun _ _ => rfl

theorem Only.trans {lo hi : Nat} {m m' m'' : Mem} (h : Only lo hi m m') (h' : Only lo hi m' m'') :
    Only lo hi m m'' := fun x hx => (h' x hx).trans (h x hx)

theorem Only.mono {lo hi lo' hi' : Nat} {m m' : Mem} (h : Only lo hi m m') (hl : lo' ≤ lo)
    (hh : hi ≤ hi') : Only lo' hi' m m' :=
  fun x hx => h x (hx.imp (fun h => Nat.lt_of_lt_of_le h hl) (fun h => hh.trans h))

section Bounds

variable {f : Frame} {s : Regs} {m : Mem} {Q : Mem → Prop} {n a0 a1 d0 d1 fuel : Nat}

theorem copyLoop_only (a4 : Nat) (h : s.a1 + n < 4294967296) :
    Only s.a1 (s.a1 + n) s.mem (copyLoop n a4 s).mem ∧ (copyLoop n a4 s).a1 = s.a1 + n := by
  induction n generalizing a4 s with
  | zero => exact ⟨Only.refl _ _ _,rfl⟩
  | succ n ih =>
    rw [copyLoop,low32_of_lt (n := s.a1 + 1) (by omega)]
    obtain ⟨honly,ha1⟩ := ih (low32 (a4 + 1))
      (s := { s with mem := update s.mem s.a1 (s.mem a4), a1 := s.a1 + 1 }) (by dsimp only; omega)
    dsimp only at honly ha1
    refine ⟨fun x hx => (honly x (by omega)).trans (update_of_ne (by omega) _ _),?_⟩
    rw [ha1]
    omega

-- A copy is of 128 bytes at most.
def Branch.Short : Branch → Prop
  | .literal _ => True
  | .copy _ d6 _ => d6 ≤ 127

theorem lengthOf_le (b : UInt8) : lengthOf b ≤ 127 := by
  have h := copyLength_range b
  rw [lengthOf_eq]
  omega

theorem marked_short (b : UInt8) {d5 d6 a a' : Nat} (h : d6 ≤ 127) :
    Ends Q Branch.Short (if b = 0 then .ok (.literal a) else .ok (.copy d5 d6 a')) := by
  split
  · exact trivial
  · exact h

theorem branch_short (hq : Q m) (f : Frame) (d7 : UInt8) (a0 : Nat) :
    Ends Q Branch.Short (f.branch m d7 a0) := by
  unfold Frame.branch
  split_ifs
  · refine .orFail hq fun _ => ?_
    dsimp only
    split
    · exact trivial
    · exact .orFail hq fun _ => lengthOf_le _
  · refine .orFail hq fun _ => ?_
    dsimp only
    split
    · exact trivial
    · exact .orFail hq fun _ => lengthOf_le _
  · have hb := (m a0).toNat_lt
    have hlen : (m a0 >>> 6).toNat + 2 ≤ 127 := by
      rw [shift6]
      omega
    exact .orFail hq fun _ => marked_short _ hlen
  · exact .orFail hq fun _ => marked_short _ (lengthOf_le _)
  · exact trivial

-- A round fails, or puts out one byte at least and none behind the end.
theorem round_only (hhigh : f.a3 + 128 ≤ 4294967296) (hs : s.a1 ≤ f.a3) :
    Ends (Eq s.mem)
      (fun s' => s.a1 < s'.a1 ∧ s'.a1 ≤ f.a3 ∧ Only s.a1 f.a3 s.mem s'.mem) (f.round s) := by
  refine .orFail rfl fun _ => ?_
  refine .bind (branch_short rfl f (s.mem s.a0) (low32 (s.a0 + 1))) fun b hb => ?_
  cases b with
  | literal a0 =>
    refine .orFail rfl fun hroom => ?_
    dsimp only at hroom ⊢
    rw [low32_of_lt (n := s.a1 + 1) (by omega)]
    exact ⟨Nat.lt_succ_self _,hroom,fun x hx => update_of_ne (by omega) _ _⟩
  | copy d5 d6 a0 =>
    have hle : d6 ≤ 127 := hb
    refine .orFail rfl fun hroom => .orFail rfl fun _ => ?_
    dsimp only at hroom ⊢
    rw [low32_of_lt (n := s.a1 + d6) (by omega)] at hroom
    have hrounds : dbfRounds d6 = d6 + 1 := by
      unfold dbfRounds
      omega
    obtain ⟨honly,ha1⟩ := copyLoop_only (n := d6 + 1) (low32 (s.a1 + 4294967296 - d5))
      (s := { s with a0 := a0 }) (by dsimp only; omega)
    dsimp only at honly ha1
    rw [hrounds]
    exact ⟨by omega,by omega,honly.mono le_rfl (by omega)⟩

theorem mainLoop_only (hhigh : f.a3 + 128 ≤ 4294967296) (hs : s.a1 ≤ f.a3)
    (hn : f.a3 < s.a1 + n) :
    Ends (Only s.a1 f.a3 s.mem) (fun s' => Only s.a1 f.a3 s.mem s'.mem) (f.mainLoop n s) := by
  induction n generalizing s with
  | zero => omega
  | succ n ih =>
    refine .bind ((round_only hhigh hs).mono (fun m hm => hm ▸ Only.refl _ _ _) fun s' h => h)
      fun s1 h1 => ?_
    obtain ⟨hlt,hle,honly⟩ := h1
    split
    · have hrest : ∀ m', Only s1.a1 f.a3 s1.mem m' → Only s.a1 f.a3 s.mem m' :=
        fun m' h => honly.trans (h.mono hlt.le le_rfl)
      exact (ih hle (by omega)).mono hrest fun s' h => hrest s'.mem h
    · exact honly

theorem decodeData_only {a2 decodedSize encodedSize d6 : Nat} (he : encodedSize ≠ 0)
    (he32 : encodedSize < 4294967296) (hhigh : a1 + decodedSize + 128 ≤ 4294967296)
    (hfuel : decodedSize < fuel) :
    Ends (Only a1 (a1 + decodedSize) m) (fun s' => Only a1 (a1 + decodedSize) m s'.mem)
      (decodeData fuel m a0 a1 a2 (a1 + decodedSize) decodedSize encodedSize d6) := by
  have hrounds : dbfRounds (low32 (encodedSize + 4294967295)) ≤ encodedSize := by
    unfold dbfRounds low32
    omega
  have hm : Only a1 (a1 + decodedSize) m m := Only.refl _ _ _
  unfold decodeData
  dsimp only
  refine .orFail hm fun _ => ?_
  split
  · refine .orFail hm fun heq => ?_
    obtain ⟨honly,-⟩ := copyLoop_only (n := dbfRounds (low32 (encodedSize + 4294967295)))
      a0 (s := ⟨m,a0,a1⟩) (by dsimp only; omega)
    exact Only.mono honly le_rfl (by dsimp only; omega)
  · refine .orFail hm fun _ => .orFail hm fun _ => ?_
    exact mainLoop_only (f := ⟨a2,a1 + decodedSize,a1,_⟩) (s := ⟨m,low32 (a0 + 4),a1⟩)
      hhigh (Nat.le_add_right _ _) (by dsimp only; omega)

theorem getUINT32_lt (m : Mem) (a0 d0 : Nat) : getUINT32 m a0 d0 < 4294967296 := by
  rw [getUINT32,or_join32]
  exact join32_lt _ _ _ _

theorem decode_only (hhigh : a1 + d1 + 128 ≤ 4294967296) (he : getUINT32 m a0 7 ≠ 0)
    (hfuel : d1 < fuel) :
    Ends (Only a1 (a1 + d1) m) (fun r => r.2 ≤ d1 ∧ Only a1 (a1 + d1) m r.1)
      (decode fuel m a0 d0 a1 d1) := by
  have hm : Only a1 (a1 + d1) m m := Only.refl _ _ _
  refine .orFail hm fun _ => .orFail hm fun _ => .orFail hm fun _ => .orFail hm fun _ => ?_
  refine .orFail hm fun hroom => .orFail hm fun _ => ?_
  rw [low32_of_lt (n := a1 + getUINT32 m a0 3) (by omega)]
  have hin : ∀ m', Only a1 (a1 + getUINT32 m a0 3) m m' → Only a1 (a1 + d1) m m' :=
    fun m' h => h.mono le_rfl (by omega)
  have hend : ∀ s : Regs, Only a1 (a1 + getUINT32 m a0 3) m s.mem →
      Ends (Only a1 (a1 + d1) m) (fun r => r.2 ≤ d1 ∧ Only a1 (a1 + d1) m r.1) (do
        orFail s.mem (s.a1 = a1 + getUINT32 m a0 3)
        .ok (s.mem,getUINT32 m a0 3)) :=
    fun s hs => .orFail (hin s.mem hs) fun _ => ⟨hroom,hin s.mem hs⟩
  dsimp only
  split
  · exact hend ⟨m,_,a1⟩ (Only.refl _ _ _)
  · refine .bind ?_ hend
    exact (decodeData_only he (getUINT32_lt m a0 7) (by omega) (by omega)).mono hin fun s h => h

-- The bytes of a block without data that says it is a plain copy: the counters of the two loops
-- begin at -1.
theorem decodeData_overrun {a2 a3 d6 k : Nat} (hk : k = 65536) (hin : a0 + k < 4294967296)
    (hout : a1 + k < 4294967296) (hapart : Apart a1 k a0 k)
    (hmethod : m (low32 (a0 + 4294967295)) = LZG_METHOD_COPY)
    (hsum : calcChecksum (slice m a0 k) = d6) :
    decodeData fuel m a0 a1 a2 a3 0 0 d6 =
      .ok ⟨overlay m a1 (slice m a0 k),a0,a1 + k⟩ := by
  have hrounds : dbfRounds (low32 (0 + 4294967295)) = k := by
    rw [hk]
    unfold dbfRounds low32
    norm_num
  unfold decodeData
  dsimp only
  rw [hrounds,csLoop_eq _ hin,← calcChecksum_eq,orFail_bind,if_pos hsum,if_pos hmethod,
    orFail_bind,if_pos rfl,copyLoop_apart (s := ⟨m,a0,a1⟩) hout hin hapart]

-- A header with no size and no data, for the checksum given.
def emptyHeader (checksum : Nat) : List UInt8 :=
  [0x4c,0x5a,0x47] ++ bytes32 0 ++ bytes32 0 ++ bytes32 checksum ++ [LZG_METHOD_COPY]

theorem decode_overrun {k : Nat} (hk : k = 65536) (hin : a0 + 16 + k < 4294967296)
    (hd0 : 16 < d0) (hend : a0 + d0 < 4294967292) (hout : a1 + k < 4294967296)
    (hapart : Apart a1 k (a0 + 16) k)
    (hheader : slice m a0 16 = emptyHeader (calcChecksum (slice m (a0 + 16) k))) :
    decode fuel m a0 d0 a1 d1 =
      .error (.fail (overlay m a1 (slice m (a0 + 16) k))) := by
  obtain ⟨n,rfl⟩ := Nat.exists_eq_add_of_le hd0.le
  have hsum := calcChecksum_lt (slice m (a0 + 16) k)
  rw [emptyHeader,bytes32_eq,bytes32_eq,← Nat.add_zero 16,header_at,slice,
    List.append_nil] at hheader
  simp only [List.cons_append,List.nil_append,List.cons.injEq] at hheader
  obtain ⟨h0,h1,h2,h3,h4,h5,h6,h7,h8,h9,h10,h11,h12,h13,h14,h15,-⟩ := hheader
  have hzero : join32 (UInt8.ofNat (0 / 16777216)) (UInt8.ofNat (0 / 65536))
      (UInt8.ofNat (0 / 256)) (UInt8.ofNat 0) = 0 := join32_bytes32 (by norm_num)
  have hd : getUINT32 m a0 3 = 0 := by
    rw [getUINT32_eq (by omega),h3,h4,h5,h6,hzero]
  have he : getUINT32 m a0 7 = 0 := by
    rw [getUINT32_eq (by omega),h7,h8,h9,h10,hzero]
  have hc : getUINT32 m a0 11 = calcChecksum (slice m (a0 + 16) k) := by
    rw [getUINT32_eq (by omega),h11,h12,h13,h14,join32_bytes32 hsum]
  have hmethod : m (low32 (a0 + 16 + 4294967295)) = LZG_METHOD_COPY := by
    have hback : low32 (a0 + 16 + 4294967295) = a0 + 15 := by
      unfold low32
      omega
    rw [hback,h15]
  have hdata : decodeData fuel m (a0 + 16) a1 (a0 + 16 + n) (low32 (a1 + 0)) 0 0
      (calcChecksum (slice m (a0 + 16) k)) =
        .ok ⟨overlay m a1 (slice m (a0 + 16) k),a0 + 16,a1 + k⟩ :=
    decodeData_overrun hk (by omega) hout hapart hmethod rfl
  have hover : ¬ a1 + k = low32 (a1 + 0) := by
    unfold low32
    omega
  rw [decode_eq fuel m a1 d1 hend,orFail_bind,if_pos h0,orFail_bind,if_pos h1,orFail_bind,if_pos h2,
    hd,he,hc,orFail_bind,if_pos (Nat.zero_le _),orFail_bind,if_pos (by unfold low32; omega),
    if_neg (by omega),hdata,ok_bind]
  dsimp only
  rw [orFail_bind,if_neg hover]

-- The decoder keeps to the output buffer, however broken the block is, if only its header does
-- not say that there are no data. One that does say so, and has a checksum that fits what comes
-- behind it, is copied over 65536 bytes before it is found to fail.
theorem LZG_Decode_stays (m : Mem) (a0 d0 a1 d1 fuel : Nat)
    (hhigh : a1 + d1 + 128 ≤ 4294967296) (hfuel : d1 < fuel) :
    (getUINT32 m a0 7 ≠ 0 → ∃ m' n, LZG_Decode fuel m a0 d0 a1 d1 = some (m',n) ∧ n ≤ d1 ∧
      Only a1 (a1 + d1) m m') ∧
    (16 < d0 → a0 + d0 < 4294967292 → a0 + 16 + 65536 < 4294967296 → a1 + 65536 < 4294967296 →
      Apart a1 65536 (a0 + 16) 65536 →
      slice m a0 16 = emptyHeader (calcChecksum (slice m (a0 + 16) 65536)) →
      LZG_Decode fuel m a0 d0 a1 d1 = some (overlay m a1 (slice m (a0 + 16) 65536),0)) := by
  refine ⟨fun he => ?_,fun hd0 hend hin hout hapart hheader => ?_⟩
  · have hrun : Ends (Only a1 (a1 + d1) m) (fun r => r.2 ≤ d1 ∧ Only a1 (a1 + d1) m r.1)
        (decode fuel m a0 d0 a1 d1) := decode_only hhigh he hfuel
    cases hres : decode fuel m a0 d0 a1 d1 with
    | ok r =>
      rw [hres] at hrun
      exact ⟨r.1,r.2,LZG_Decode_ok hres,hrun.1,hrun.2⟩
    | error t =>
      rw [hres] at hrun
      cases t with
      | fail m' => exact ⟨m',0,LZG_Decode_fail hres,Nat.zero_le _,hrun⟩
      | stuck => exact absurd hrun id
  · exact LZG_Decode_fail (decode_overrun rfl hin hd0 hend hout hapart hheader)

theorem checksum_zeros (n : Nat) (b : UInt16) :
    (List.replicate n (0 : UInt8)).foldl checksumOp (1,b) = (1,b + UInt16.ofNat n) := by
  induction n generalizing b with
  | zero => simp
  | succ n ih =>
    have hop : checksumOp (1,b) 0 = (1,b + 1) := rfl
    rw [List.replicate_succ,List.foldl_cons,hop,ih,UInt16.ofNat_add,UInt16.add_assoc,
      UInt16.add_comm 1]
    rfl

theorem slice_zeros {a n : Nat} (h : ∀ x, a ≤ x → m x = 0) :
    slice m a n = List.replicate n 0 := by
  induction n generalizing a with
  | zero => rfl
  | succ n ih =>
    rw [slice,List.replicate_succ,h a le_rfl,ih fun x hx => h x (Nat.le_of_succ_le hx)]

theorem LZG_Decode_stays_empty :
    LZG_Decode 1 (fun x => (emptyHeader 1).getD x 0) 0 17 131072 0 =
      some (overlay (fun x => (emptyHeader 1).getD x 0) 131072 (List.replicate 65536 0),0) := by
  have hrest : ∀ n, slice (fun x => (emptyHeader 1).getD x 0) (0 + 16) n = List.replicate n 0 :=
    fun n => slice_zeros fun x hx => List.getD_eq_default _ _ hx
  have hsum : calcChecksum (List.replicate 65536 0) = 1 := by
    rw [calcChecksum_eq,checksum_zeros]
    rfl
  have h := (LZG_Decode_stays (fun x => (emptyHeader 1).getD x 0) 0 17 131072 0 1 (by norm_num)
    (by norm_num)).2 (by norm_num) (by norm_num) (by norm_num) (by norm_num) (.inr (by norm_num))
    (by rw [hrest,hsum]; rfl)
  rwa [hrest] at h

end Bounds
end LzgMini
end RoscoM68k
