import RoscoM68k.Base.ByteStrings

namespace RoscoM68k
open Function

-- Memory, and the addresses that were read, the first one first.
structure Traced where
  mem : Mem
  reads : List Nat

namespace Traced

def load (t : Traced) (a : Nat) : UInt8 × Traced := (t.mem a,{ t with reads := t.reads ++ [a] })

def store (t : Traced) (a : Nat) (b : UInt8) : Traced := { t with mem := update t.mem a b }

end Traced

-- `none` is NULL.
def memchr (t : Traced) (src : Nat) (c : Int) : Nat → Option Nat × Traced
  | 0 => (none,t)
  | n + 1 =>
    let (b,t) := t.load src
    if (b.toNat : Int) = c then (some src,t) else memchr t (src + 1) c n

def memcpyLoop (t : Traced) (tbuf fbuf : Nat) : Nat → Nat × Traced
  | 0 => (tbuf,t)
  | n + 1 =>
    let (b,t) := t.load fbuf
    memcpyLoop (t.store tbuf b) (tbuf + 1) (fbuf + 1) n

def memcpy (t : Traced) (s1 s2 n : Nat) : Nat × Traced := memcpyLoop t s1 s2 n

def memsetLoop (t : Traced) (buf : Nat) (c : Int) : Nat → Traced
  | 0 => t
  | n + 1 => memsetLoop (t.store buf (UInt8.ofInt c)) (buf + 1) c n

def memset (t : Traced) (s : Nat) (c : Int) (n : Nat) : Nat × Traced := (s,memsetLoop t s c n)

def strnlen (t : Traced) (s maxlen : Nat) : Nat × Traced :=
  match memchr t s 0 maxlen with
  | (none,t) => (maxlen,t)
  | (some p,t) => (p - s,t)

def strncpy (t : Traced) (s1 s2 n : Nat) : Nat × Traced :=
  let (size,t) := strnlen t s2 n
  let t := if size ≠ n then (memset t (s1 + size) 0 (n - size)).2 else t
  memcpy t s1 s2 size

section Loops

variable {t : Traced} {d s n k : Nat} {bs : List UInt8}

theorem memsetLoop_eq (t : Traced) (d n : Nat) (c : Int) : memsetLoop t d c n =
    { t with mem := overlay t.mem d (List.replicate n (UInt8.ofInt c)) } := by
  induction n generalizing t d with
  | zero => rw [memsetLoop,List.replicate_zero,overlay_nil]
  | succ n ih =>
    rw [memsetLoop,ih,List.replicate_succ]
    simp only [Traced.store,overlay_cons]

theorem memcpyLoop_eq (h : Apart d n s n) : memcpyLoop t d s n =
    (d + n,⟨overlay t.mem d (slice t.mem s n),t.reads ++ List.range' s n⟩) := by
  induction n generalizing t d s with
  | zero => simp [memcpyLoop,slice,overlay_nil]
  | succ n ih =>
    have happart : Apart (d + 1) n (s + 1) n := by
      unfold Apart at *
      omega
    have hsame : slice (update t.mem d (t.mem s)) (s + 1) n = slice t.mem (s + 1) n := by
      obtain h | h := h
      · exact slice_update_below (by omega)
      · exact slice_update_above (by omega)
    rw [memcpyLoop]
    dsimp only
    rw [ih happart]
    simp only [Traced.load,Traced.store,hsame,overlay_cons,slice,List.range'_succ,
      List.append_assoc,List.singleton_append]
    rw [Nat.add_assoc,Nat.add_comm 1]

-- The search for the NUL of a string ends at it, or at the bound.
theorem memchr_nul (h : StrAt t.mem s bs) (n : Nat) : memchr t s 0 n =
    (if bs.length < n then some (s + bs.length) else none,
      { t with reads := t.reads ++ List.range' s (min n (bs.length + 1)) }) := by
  induction bs generalizing t s n with
  | nil =>
    have hz : t.mem s = 0 := h
    cases n with
    | zero => simp [memchr]
    | succ n =>
      simp [memchr,Traced.load,hz]
  | cons c bs ih =>
    cases n with
    | zero => simp [memchr]
    | succ n =>
      have hc : ¬ (t.mem s).toNat = 0 := fun hz => h.1 (h.2.1.symm.trans (UInt8.toNat_inj.mp hz))
      have hc' : ¬ ((t.load s).1.toNat : Int) = 0 := fun hz => hc (Int.ofNat_inj.mp hz)
      have hnext : StrAt (t.load s).2.mem (s + 1) bs := h.2.2
      have hlen : s + 1 + bs.length = s + (bs.length + 1) := by omega
      have hmin : min (n + 1) (bs.length + 1 + 1) = min n (bs.length + 1) + 1 := by omega
      rw [memchr]
      dsimp only
      rw [if_neg hc',ih hnext,List.length_cons,hlen,hmin,List.range'_succ]
      simp only [Traced.load,Nat.add_lt_add_iff_right,List.append_assoc,List.singleton_append]

theorem strnlen_eq (h : StrAt t.mem s bs) (n : Nat) : strnlen t s n = (min n bs.length,
    { t with reads := t.reads ++ List.range' s (min n (bs.length + 1)) }) := by
  rw [strnlen,memchr_nul h]
  by_cases hn : bs.length < n
  · rw [if_pos hn]
    have hmin : min n bs.length = s + bs.length - s := by omega
    rw [hmin]
  · rw [if_neg hn]
    have hmin : min n bs.length = n := by omega
    rw [hmin]

end Loops

-- The first NUL within `n` bytes, and how far it is.
structure FindsNul (t : Traced) (s n : Nat) (bs : List UInt8) : Prop where
  found : (memchr t s 0 n).1 = if bs.length < n then some (s + bs.length) else none
  length : (strnlen t s n).1 = min n bs.length

-- All of `n` bytes are written and no more, and of the string no byte is read past the bound or
-- past the NUL.
structure BoundedCopy (t : Traced) (d s n : Nat) (bs : List UInt8) (r : Nat × Traced) : Prop where
  copied : r.2.mem = overlay t.mem d (bs.take n ++ List.replicate (n - bs.length) 0)
  reads : ∃ l, r.2.reads = t.reads ++ l ∧ ∀ a ∈ l, s ≤ a ∧ a < s + n ∧ a ≤ s + bs.length

structure StrncpyContract (t : Traced) (d s n : Nat) (bs : List UInt8) (r : Nat × Traced) : Prop
    extends BoundedCopy t d s n bs r where
  returned : r.1 = d

structure MemcpyContract (t : Traced) (d s n : Nat) (r : Nat × Traced) : Prop where
  copied : r.2.mem = overlay t.mem d (slice t.mem s n)
  returned : r.1 = d

section Contracts

variable {t : Traced} {d s n : Nat} {bs : List UInt8}

theorem slice_string (h : StrAt t.mem s bs) (n : Nat) :
    slice t.mem s (min n bs.length) = bs.take n := by
  obtain ⟨m,hm⟩ : ∃ m, m = t.mem := ⟨_,rfl⟩
  rw [← hm] at h ⊢
  clear hm
  induction bs generalizing s n with
  | nil => simp [slice]
  | cons c bs ih =>
    cases n with
    | zero => simp [slice]
    | succ n =>
      have hmin : min (n + 1) (c :: bs).length = min n bs.length + 1 := by
        rw [List.length_cons]
        omega
      rw [hmin,slice,ih n h.2.2,h.2.1,List.take_succ_cons]

theorem strncpy_eq (h : StrAt t.mem s bs) (ha : Apart d n s (min n (bs.length + 1))) :
    strncpy t d s n = (d + min n bs.length,
      ⟨overlay t.mem d (bs.take n ++ List.replicate (n - bs.length) 0),
        t.reads ++ List.range' s (min n (bs.length + 1)) ++ List.range' s (min n bs.length)⟩) := by
  obtain ⟨k,hk⟩ : ∃ k, k = min n bs.length := ⟨_,rfl⟩
  obtain ⟨zs,hzs⟩ : ∃ zs : List UInt8, zs = List.replicate (n - bs.length) 0 := ⟨_,rfl⟩
  obtain ⟨l,hl⟩ : ∃ l, l = t.reads ++ List.range' s (min n (bs.length + 1)) := ⟨_,rfl⟩
  have hlen : (bs.take n).length = k := by rw [List.length_take,hk]
  have hzlen : zs.length = n - k := by
    rw [hzs,List.length_replicate]
    omega
  have happart : Apart d k s k := by
    unfold Apart at *
    omega
  -- With nothing to pad, padding is no step either.
  have hpad : (if k ≠ n then (memset ⟨t.mem,l⟩ (d + k) 0 (n - k)).2 else ⟨t.mem,l⟩ : Traced) =
      ⟨overlay t.mem (d + k) zs,l⟩ := by
    split
    · have hrep : zs = List.replicate (n - k) (UInt8.ofInt 0) := by
        rw [hzs,hk]
        congr 1
        omega
      rw [memset,memsetLoop_eq,hrep]
    · have hnil : zs = [] := List.eq_nil_of_length_eq_zero (by omega)
      rw [hnil,overlay_nil]
  have hsource : slice (overlay t.mem (d + k) zs) s k = bs.take n := by
    rw [← slice_string h,← hk]
    refine slice_congr fun x hx hx' => ?_
    obtain ha | ha := ha
    · exact overlay_above (by omega)
    · exact overlay_below (by omega)
  have hwhole : overlay (overlay t.mem (d + k) zs) d (bs.take n) =
      overlay t.mem d (bs.take n ++ zs) := by
    rw [overlay_comm (by omega),← overlay_append,hlen]
  rw [strncpy,strnlen_eq h]
  dsimp only
  rw [← hk,← hl,← hzs,hpad,memcpy,memcpyLoop_eq happart,hsource,hwhole]

theorem strncpy_bounded (h : StrAt t.mem s bs) (ha : Apart d n s (min n (bs.length + 1))) :
    BoundedCopy t d s n bs (strncpy t d s n) := by
  rw [strncpy_eq h ha]
  refine ⟨rfl,_,List.append_assoc _ _ _,fun a hmem => ?_⟩
  obtain hmem | hmem := List.mem_append.mp hmem
  · have hr := List.mem_range'_1.mp hmem
    omega
  · have hr := List.mem_range'_1.mp hmem
    omega

end Contracts

theorem bounded_copy {t : Traced} {d s n : Nat} {bs : List UInt8} (h : StrAt t.mem s bs)
    (ha : Apart d n s (min n (bs.length + 1))) {d' s' k : Nat} (ha' : Apart d' k s' k) :
    FindsNul t s n bs ∧ BoundedCopy t d s n bs (strncpy t d s n) ∧
      (StrncpyContract t d s n bs (strncpy t d s n) ↔ n = 0 ∨ bs = []) ∧
      (memcpy t d' s' k).2.mem = overlay t.mem d' (slice t.mem s' k) ∧
      (MemcpyContract t d' s' k (memcpy t d' s' k) ↔ k = 0) := by
  have hbounded := strncpy_bounded h ha
  have hreturn : (strncpy t d s n).1 = d + min n bs.length := by rw [strncpy_eq h ha]
  have hcopy : memcpy t d' s' k = (d' + k,⟨overlay t.mem d' (slice t.mem s' k),
      t.reads ++ List.range' s' k⟩) := memcpyLoop_eq ha'
  refine ⟨⟨by rw [memchr_nul h],by rw [strnlen_eq h]⟩,hbounded,?_,by rw [hcopy],?_⟩
  · rw [← List.length_eq_zero_iff]
    constructor
    · intro hc
      have hd := hreturn.symm.trans hc.returned
      omega
    · intro hz
      exact ⟨hbounded,by omega⟩
  · rw [hcopy]
    constructor
    · intro hc
      have hd : d' + k = d' := hc.returned
      omega
    · intro hk
      exact ⟨rfl,by rw [hk]; rfl⟩

-- The string "A" at 8.
def letterA : Traced := ⟨fun x => if x = 8 then 0x41 else 0,[]⟩

theorem letterA_string : StrAt letterA.mem 8 [0x41] := ⟨by decide,rfl,rfl⟩

theorem bounded_copy_letter : FindsNul letterA 8 4 [0x41] ∧
    BoundedCopy letterA 0 8 4 [0x41] (strncpy letterA 0 8 4) ∧
    (StrncpyContract letterA 0 8 4 [0x41] (strncpy letterA 0 8 4) ↔
      4 = 0 ∨ [(0x41 : UInt8)] = []) ∧
    (memcpy letterA 0 8 4).2.mem = overlay letterA.mem 0 (slice letterA.mem 8 4) ∧
    (MemcpyContract letterA 0 8 4 (memcpy letterA 0 8 4) ↔ 4 = 0) :=
  bounded_copy letterA_string (.inl (by decide)) (.inl (by decide))

theorem bounded_copy_returns : StrAt letterA.mem 8 [0x41] ∧ (strncpy letterA 0 8 4).1 = 1 ∧
    (memcpy letterA 0 8 4).1 = 4 := ⟨letterA_string,by decide,by decide⟩

end RoscoM68k
