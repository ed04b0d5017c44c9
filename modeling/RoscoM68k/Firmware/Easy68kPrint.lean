import Mathlib.Data.Nat.Digits.Lemmas
import RoscoM68k.Firmware.Divmod

namespace RoscoM68k
open Function

def BUF_LEN : Nat := 78
def BUF_MAX : Nat := BUF_LEN - 2

-- Memory by its offset from `buf`, the offsets written, and what FW_PRINT_C put out.
structure Printer where
  bytes : Int → UInt8
  writes : List Int
  out : List UInt8

def digit (d : UInt8) : UInt8 := if d < 10 then d + '0'.toUInt8 else d - 10 + 'A'.toUInt8

namespace Printer

def store (p : Printer) (i : Int) (c : UInt8) : Printer :=
  { p with
    bytes := update p.bytes i c
    writes := p.writes ++ [i] }

-- The string at an offset, when its NUL is among the next `fuel` bytes.
def stringAt (bytes : Int → UInt8) : Nat → Int → Option (List UInt8)
  | 0, _ => none
  | fuel + 1, i => if bytes i = 0 then some [] else (stringAt bytes fuel (i + 1)).map (bytes i :: ·)

-- FW_PRINT_C
def print (fuel : Nat) (p : Printer) (ptr : Int) : Option Printer :=
  (stringAt p.bytes fuel ptr).map fun cs => { p with out := p.out ++ cs }

structure Signed where
  value : Int32
  bp : Int
  p : Printer

namespace Signed

def more (s : Signed) : Bool := s.value > 0

def next (s : Signed) : Signed where
  value := s.value / 10
  bp := s.bp - 1
  p := s.p.store s.bp (digit (s.value % 10).toUInt32.toUInt8)

end Signed

-- print_signed_impl, with the pointer that it returns
def printSignedImpl (fuel : Nat) (p : Printer) (value : Int32) (bp : Int) :
    Option (Printer × Int) := do
  let neg := value.toUInt32 &&& ((1 : UInt32) <<< 31) != 0
  let s ← loop Signed.more Signed.next fuel ⟨if neg then ~~~value + 1 else value,bp,p⟩
  let s := if neg then { s with
    bp := s.bp - 1
    p := s.p.store s.bp '-'.toUInt8 } else s
  some (s.p.store s.bp 0,s.bp + 1)

def printSigned (fuel : Nat) (p : Printer) (value : Int32) : Option Printer := do
  let (p,ptr) ← p.printSignedImpl fuel value BUF_MAX
  p.print fuel ptr

structure Padded where
  start : Int
  len : UInt8
  p : Printer

namespace Padded

def more (width : UInt8) (s : Padded) : Bool := s.len < width

def next (s : Padded) : Padded where
  start := s.start - 1
  len := s.len + 1
  p := s.p.store (s.start - 1) ' '.toUInt8

end Padded

-- The length in a byte, as the source computes it.
def lenFrom (start : Int) : UInt8 := UInt8.ofInt (BUF_MAX - start + 1)

def printSignedWidth (fuel : Nat) (p : Printer) (value : Int32) (width : UInt8) :
    Option Printer :=
  if width = 0 ∨ BUF_MAX ≤ width.toNat then some p
  else do
    let (p,start) ← p.printSignedImpl fuel value BUF_MAX
    let len := lenFrom start
    let (start,len) :=
      if len > width then
        (start + (len.toNat - width.toNat),lenFrom (start + (len.toNat - width.toNat)))
      else (start,len)
    let s ← loop (Padded.more width) Padded.next fuel ⟨start,len,p⟩
    s.p.print fuel s.start

structure Unsigned where
  num : UInt32
  bp : UInt8
  p : Printer

namespace Unsigned

def more (s : Unsigned) : Bool := s.num > 0

def next (base : UInt8) (s : Unsigned) : Unsigned where
  num := s.num / base.toUInt32
  bp := s.bp - 1
  p := s.p.store s.bp.toNat (digit (s.num % base.toUInt32).toUInt8)

end Unsigned

def printUnsigned (fuel : Nat) (p : Printer) (num : UInt32) (base : UInt8) : Option Printer :=
  if base < 2 ∨ 36 < base then some p
  else do
    let s : Unsigned := ⟨num,UInt8.ofNat BUF_MAX,p⟩
    let s ← if num = 0 then some { s with
        bp := s.bp - 1
        p := s.p.store s.bp.toNat '0'.toUInt8 }
      else loop Unsigned.more (Unsigned.next base) fuel s
    s.p.print fuel (s.bp.toNat + 1)

end Printer

inductive PrintCall where
  | signed (value : Int32)
  | signedWidth (value : Int32) (width : UInt8)
  | unsigned (num : UInt32) (base : UInt8)

namespace Printer

def call (fuel : Nat) (p : Printer) : PrintCall → Option Printer
  | .signed value => p.printSigned fuel value
  | .signedWidth value width => p.printSignedWidth fuel value width
  | .unsigned num base => p.printUnsigned fuel num base

def calls (fuel : Nat) (p : Printer) : List PrintCall → Option Printer
  | [] => some p
  | q :: qs => do
    let p ← p.call fuel q
    p.calls fuel qs

-- A static buffer is zero to begin with; what is around it does not matter.
structure Fresh (p : Printer) : Prop where
  buf : ∀ i, 0 ≤ i → i < BUF_LEN → p.bytes i = 0
  writes : p.writes = []

section Strings

variable {bytes : Int → UInt8} {i x : Int} {cs ds : List UInt8} {v : UInt8}

def Holds (bytes : Int → UInt8) (i : Int) : List UInt8 → Prop
  | [] => True
  | c :: cs => bytes i = c ∧ Holds bytes (i + 1) cs

theorem holds_update (hx : x < i) (h : Holds bytes i cs) : Holds (update bytes x v) i cs := by
  induction cs generalizing i with
  | nil => exact trivial
  | cons c cs ih => exact ⟨(update_of_ne hx.ne' v bytes).trans h.1,ih (by omega) h.2⟩

theorem holds_append : Holds bytes i (cs ++ ds) ↔
    Holds bytes i cs ∧ Holds bytes (i + cs.length) ds := by
  induction cs generalizing i with
  | nil => simp [Holds]
  | cons c cs ih =>
    have hlen : i + ((c :: cs).length : Int) = i + 1 + cs.length := by
      rw [List.length_cons]
      omega
    rw [List.cons_append,Holds,Holds,ih,hlen,and_assoc]

theorem stringAt_holds {fuel : Nat} (h : Holds bytes i (cs ++ [0])) (hcs : ∀ c ∈ cs, c ≠ 0)
    (hf : cs.length < fuel) : stringAt bytes fuel i = some cs := by
  induction cs generalizing i fuel with
  | nil =>
    obtain ⟨n,rfl⟩ : ∃ n, fuel = n + 1 := ⟨fuel - 1,by simp at hf; omega⟩
    rw [stringAt,if_pos h.1]
  | cons c cs ih =>
    rw [List.length_cons] at hf
    obtain ⟨n,rfl⟩ : ∃ n, fuel = n + 1 := ⟨fuel - 1,by omega⟩
    have hc : bytes i ≠ 0 := by
      rw [h.1]
      exact hcs c List.mem_cons_self
    rw [stringAt,if_neg hc,ih h.2 (fun d hd => hcs d (List.mem_cons_of_mem _ hd)) (by omega),
      Option.map_some,h.1]

end Strings

-- A text that ends where the buffer's last byte, a NUL, is, written inside the buffer.
structure Composed (p0 p : Printer) (start : Int) (cs : List UInt8) : Prop where
  text : Holds p.bytes start (cs ++ [0])
  ends : start + cs.length = BUF_MAX + 1
  out : p.out = p0.out
  writes : ∃ ws, p.writes = p0.writes ++ ws ∧ ∀ w ∈ ws, 0 ≤ w ∧ w < BUF_LEN - 1

variable {p p0 : Printer} {start : Int} {cs : List UInt8} {c : UInt8} {fuel : Nat}

theorem buf_len : (BUF_LEN : Int) = 78 := rfl

theorem buf_max : (BUF_MAX : Int) = 76 := rfl

theorem composed_empty (h : p.bytes (BUF_MAX + 1) = 0) : Composed p p (BUF_MAX + 1) [] where
  text := ⟨h,trivial⟩
  ends := add_zero _
  out := rfl
  writes := ⟨[],(List.append_nil _).symm,nofun⟩

theorem store_writes
    (h : ∃ ws, p.writes = p0.writes ++ ws ∧ ∀ w ∈ ws, 0 ≤ w ∧ w < (BUF_LEN - 1 : Int))
    {i : Int} (hi : 0 ≤ i) (hi' : i < BUF_LEN - 1) :
    ∃ ws, (p.store i c).writes = p0.writes ++ ws ∧ ∀ w ∈ ws, 0 ≤ w ∧ w < (BUF_LEN - 1 : Int) := by
  obtain ⟨ws,hws,hin⟩ := h
  refine ⟨ws ++ [i],by rw [store,hws,List.append_assoc],fun w hw => ?_⟩
  obtain hw | hw := List.mem_append.mp hw
  · exact hin w hw
  · rw [List.mem_singleton.mp hw]
    exact ⟨hi,hi'⟩

-- A character goes in front of the text.
theorem Composed.cons (h : Composed p0 p start cs) (hs : 0 < start) (c : UInt8) :
    Composed p0 (p.store (start - 1) c) (start - 1) (c :: cs) := by
  have hends := h.ends
  have hnext : start - 1 + 1 = start := by omega
  refine ⟨⟨update_self _ _ _,?_⟩,?_,h.out,store_writes h.writes (by omega) ?_⟩
  · rw [hnext]
    exact holds_update (by omega) h.text
  · rw [List.length_cons]
    omega
  · rw [buf_max] at hends
    rw [buf_len]
    omega

-- The impl puts its NUL in front of the text as well.
theorem Composed.mark (h : Composed p0 p start cs) (hs : 0 < start) (c : UInt8) :
    Composed p0 (p.store (start - 1) c) start cs := by
  have hends := h.ends
  refine ⟨holds_update (by omega) h.text,h.ends,h.out,store_writes h.writes (by omega) ?_⟩
  rw [buf_max] at hends
  rw [buf_len]
  omega

theorem Composed.tail {c : UInt8} (h : Composed p0 p start (c :: cs)) :
    Composed p0 p (start + 1) cs := by
  have hends := h.ends
  rw [List.length_cons] at hends
  exact ⟨h.text.2,by omega,h.out,h.writes⟩

theorem Composed.drop {n : Nat} (h : Composed p0 p start cs) (hn : n ≤ cs.length) :
    Composed p0 p (start + n) (cs.drop n) := by
  induction n generalizing start cs with
  | zero => simpa using h
  | succ n ih =>
    cases cs with
    | nil => simp at hn
    | cons c cs =>
      have hlen : start + ((n + 1 : Nat) : Int) = start + 1 + n := by omega
      rw [List.drop_succ_cons,hlen]
      exact ih h.tail (by simpa using hn)

theorem Composed.last (h : Composed p0 p start cs) : p.bytes (BUF_MAX + 1) = 0 := by
  have hlast := (holds_append.mp h.text).2
  rw [h.ends] at hlast
  exact hlast.1

-- What a call leaves: the NUL at the end, and its output.
structure Prints (p0 p : Printer) (cs : List UInt8) : Prop where
  last : p.bytes (BUF_MAX + 1) = 0
  out : p.out = p0.out ++ cs
  writes : ∃ ws, p.writes = p0.writes ++ ws ∧ ∀ w ∈ ws, 0 ≤ w ∧ w < BUF_LEN - 1

theorem Composed.print (h : Composed p0 p start cs) (hcs : ∀ c ∈ cs, c ≠ 0)
    (hf : cs.length < fuel) : ∃ p', p.print fuel start = some p' ∧ Prints p0 p' cs := by
  refine ⟨{ p with out := p.out ++ cs },?_,h.last,by rw [h.out],h.writes⟩
  rw [Printer.print,stringAt_holds h.text hcs hf,Option.map_some]

section Numerals

-- The digits of a number, highest first; none for 0.
def digitByte (d : Nat) : UInt8 :=
  UInt8.ofNat (if d < 10 then '0'.toNat + d else 'A'.toNat + (d - 10))

def digitsOf (base n : Nat) : List UInt8 := (Nat.digits base n).reverse.map digitByte

def numeral (base n : Nat) : List UInt8 := if n = 0 then ['0'.toUInt8] else digitsOf base n

def decimal (v : Int) : List UInt8 :=
  (if v < 0 then ['-'.toUInt8] else []) ++ numeral 10 v.natAbs

variable {base n k value : Nat} {bp : Int}

theorem digit_byte {d : UInt8} (h : d.toNat < 36) : digit d = digitByte d.toNat := by
  have hall : ∀ n < 36, digit (UInt8.ofNat n) = digitByte n := by decide
  have hd := hall d.toNat h
  rwa [UInt8.ofNat_toNat] at hd

theorem digitByte_ne_zero (h : n < 36) : digitByte n ≠ 0 := by
  have hall : ∀ n < 36, digitByte n ≠ 0 := by decide
  exact hall n h

theorem digitsOf_zero (base : Nat) : digitsOf base 0 = [] := by
  rw [digitsOf,Nat.digits_zero]
  rfl

theorem digitsOf_step (hb : 1 < base) (hn : 0 < n) :
    digitsOf base n = digitsOf base (n / base) ++ [digitByte (n % base)] := by
  rw [digitsOf,digitsOf,Nat.digits_def' hb hn,List.reverse_cons,List.map_append]
  rfl

theorem digitsOf_ne_zero (hb : 1 < base) (hb' : base ≤ 36) : ∀ c ∈ digitsOf base n, c ≠ 0 := by
  intro c hc
  obtain ⟨d,hd,rfl⟩ := List.mem_map.mp hc
  have hlt := Nat.digits_lt_base hb (List.mem_reverse.mp hd)
  exact digitByte_ne_zero (by omega)

-- After `k` digits of `n` what is left of it is `value`.
structure Digits (p0 : Printer) (base n k value : Nat) (start : Int) (p : Printer) : Prop where
  left : value = n / base ^ k
  text : ∃ cs, cs.length = k ∧ digitsOf base n = digitsOf base value ++ cs ∧
    Composed p0 p start cs

theorem digits_start (h : p.bytes (BUF_MAX + 1) = 0) (base n : Nat) :
    Digits p base n 0 n (BUF_MAX + 1) p where
  left := by rw [Nat.pow_zero,Nat.div_one]
  text := ⟨[],rfl,(List.append_nil _).symm,composed_empty h⟩

theorem Digits.start_eq (h : Digits p0 base n k value start p) : start + k = BUF_MAX + 1 := by
  obtain ⟨cs,rfl,-,hc⟩ := h.text
  exact hc.ends

theorem Digits.next (h : Digits p0 base n k value start p) (hb : 1 < base) (hv : 0 < value)
    (hk : k < BUF_MAX) :
    Digits p0 base n (k + 1) (value / base) (start - 1)
      (p.store (start - 1) (digitByte (value % base))) := by
  obtain ⟨cs,hlen,hdigits,hc⟩ := h.text
  have hstart := h.start_eq
  refine ⟨?_,digitByte (value % base) :: cs,by rw [List.length_cons,hlen],?_,hc.cons (by omega) _⟩
  · rw [h.left,Nat.div_div_eq_div_mul,Nat.pow_succ]
  · rw [hdigits,digitsOf_step hb hv,List.append_assoc]
    rfl

-- With nothing left the text is what the digits are.
theorem Digits.done (h : Digits p0 base n k 0 start p) : Composed p0 p start (digitsOf base n) := by
  obtain ⟨cs,-,hdigits,hc⟩ := h.text
  rw [digitsOf_zero,List.nil_append] at hdigits
  rwa [hdigits]

theorem Digits.length (h : Digits p0 base n k 0 start p) : (digitsOf base n).length = k := by
  obtain ⟨cs,hlen,hdigits,-⟩ := h.text
  rw [digitsOf_zero,List.nil_append] at hdigits
  rw [hdigits,hlen]

end Numerals
section Loops

theorem toInt_lt (v : Int32) : v.toInt < 2 ^ 31 := Int32.toInt_lt v

theorem le_toInt (v : Int32) : -2 ^ 31 ≤ v.toInt := Int32.le_toInt v

-- A nonnegative value in the signed loop.
theorem signed_div {v : Int32} {m : Nat} (h : v.toInt = m) : (v / 10).toInt = (m / 10 : Nat) := by
  rw [Int32.toInt_div_of_ne_right _ _ (by decide),h]
  rfl

theorem signed_mod {v : Int32} {m : Nat} (h : v.toInt = m) :
    (v % 10).toUInt32.toUInt8.toNat = m % 10 := by
  have hrem : (v % 10).toInt = (m % 10 : Nat) := by
    rw [Int32.toInt_mod,h]
    rfl
  have hlt := (v % 10).toUInt32.toNat_lt
  rw [toInt_pattern,signed] at hrem
  rw [UInt32.toNat_toUInt8]
  split at hrem <;> omega

theorem signed_more {s : Signed} {m : Nat} (h : s.value.toInt = m) : s.more = true ↔ 0 < m := by
  rw [Signed.more,decide_eq_true_iff,gt_iff_lt,Int32.lt_iff_toInt_lt,h]
  exact Int.natCast_pos

theorem neg_iff (v : Int32) :
    (v.toUInt32 &&& ((1 : UInt32) <<< 31) != 0) = true ↔ v.toInt < 0 := by
  have hlt := v.toUInt32.toNat_lt
  rw [bne_iff_ne,Ne,top_clear,toInt_pattern,signed]
  split <;> omega

def SignedAt (p0 : Printer) (n k : Nat) (s : Signed) : Prop :=
  ∃ m : Nat, s.value.toInt = m ∧ Digits p0 10 n k m (s.bp + 1) s.p

theorem SignedAt.next {s : Signed} {n k : Nat} (h : SignedAt p0 n k s) (hk : k < 10)
    (hc : s.more = true) : SignedAt p0 n (k + 1) s.next := by
  obtain ⟨m,hm,hd⟩ := h
  have hdigit : digit (s.value % 10).toUInt32.toUInt8 = digitByte (m % 10) := by
    rw [digit_byte (by rw [signed_mod hm]; omega),signed_mod hm]
  have hnext := hd.next (by decide) ((signed_more hm).mp hc) (by unfold BUF_MAX BUF_LEN; omega)
  have hbp : s.bp + 1 - 1 = s.bp := by omega
  have hbp' : s.next.bp + 1 = s.bp := by
    change s.bp - 1 + 1 = s.bp
    omega
  rw [hbp] at hnext
  refine ⟨m / 10,signed_div hm,?_⟩
  rw [hbp',Signed.next,hdigit]
  exact hnext

theorem signed_loop {v : Int32} {n : Nat} (h : p.bytes (BUF_MAX + 1) = 0) (hv : v.toInt = n)
    (hf : 10 ≤ fuel) : ∃ s, loop Signed.more Signed.next fuel ⟨v,BUF_MAX,p⟩ = some s ∧
      Composed p s.p (s.bp + 1) (digitsOf 10 n) ∧ (digitsOf 10 n).length ≤ 10 := by
  have hstop : ∀ s, SignedAt p n 10 s → s.more = false := by
    rintro s ⟨m,hm,hd⟩
    have hlt := toInt_lt v
    have hleft := hd.left
    rw [Bool.eq_false_iff,Ne,signed_more hm]
    omega
  have hzero : SignedAt p n 0 ⟨v,BUF_MAX,p⟩ := ⟨n,hv,digits_start h 10 n⟩
  obtain ⟨k,s,hrun,⟨m,hm,hd⟩,hk,hc⟩ := Loop.counted (SignedAt p n) hzero
    (fun k s hk hs hc => hs.next hk hc) hstop
  have hz : m = 0 := by
    by_contra hne
    exact Bool.false_ne_true (hc.symm.trans ((signed_more hm).mpr (by omega)))
  rw [hz] at hd
  refine ⟨s,Loop.mono hrun hf,hd.done,?_⟩
  rw [hd.length]
  exact hk

theorem signed_loop_min {v : Int32} (hv : v.toInt < 0) :
    loop Signed.more Signed.next fuel ⟨v,BUF_MAX,p⟩ = some ⟨v,BUF_MAX,p⟩ := by
  refine Loop.stop fuel ?_
  rw [Bool.eq_false_iff,Ne,Signed.more,decide_eq_true_iff,gt_iff_lt,Int32.lt_iff_toInt_lt]
  exact Int.not_lt.mpr hv.le

-- What the loop puts out for the magnitude: nothing for 0, and nothing for the lowest number.
def magnitude (v : Int32) : Nat := if v = Int32.minValue then 0 else v.toInt.natAbs

def sign (v : Int32) : List UInt8 := if v.toInt < 0 then ['-'.toUInt8] else []

def signedText (v : Int32) : List UInt8 := sign v ++ digitsOf 10 (magnitude v)

theorem toInt_min {v : Int32} (h : v ≠ Int32.minValue) : -2 ^ 31 < v.toInt :=
  lt_of_le_of_ne (le_toInt v) fun he => h (Int32.toInt_inj.mp he.symm)

theorem magnitude_loop (h : p.bytes (BUF_MAX + 1) = 0) (v : Int32) (hf : 10 ≤ fuel) :
    ∃ s, loop Signed.more Signed.next fuel
        ⟨if v.toUInt32 &&& ((1 : UInt32) <<< 31) != 0 then ~~~v + 1 else v,BUF_MAX,p⟩ = some s ∧
      Composed p s.p (s.bp + 1) (digitsOf 10 (magnitude v)) ∧
      (digitsOf 10 (magnitude v)).length ≤ 10 := by
  rw [← Int32.neg_eq_not_add]
  by_cases hmin : v = Int32.minValue
  · have hrun : loop Signed.more Signed.next fuel ⟨-v,BUF_MAX,p⟩ = some ⟨-v,BUF_MAX,p⟩ :=
      signed_loop_min (by rw [hmin]; decide)
    rw [if_pos ((neg_iff v).mpr (by rw [hmin]; decide)),hrun,magnitude,if_pos hmin,digitsOf_zero]
    exact ⟨_,rfl,composed_empty h,Nat.zero_le _⟩
  rw [magnitude,if_neg hmin]
  by_cases hneg : v.toInt < 0
  · rw [if_pos ((neg_iff v).mpr hneg)]
    refine signed_loop h ?_ hf
    have hlow := toInt_min hmin
    rw [Int32.toInt_neg,Int.bmod_eq_of_le (by omega) (by omega)]
    omega
  · rw [if_neg (fun hn => hneg ((neg_iff v).mp hn))]
    exact signed_loop h (by omega) hf

theorem printSignedImpl_composed (h : p.bytes (BUF_MAX + 1) = 0) (v : Int32) (hf : 10 ≤ fuel) :
    ∃ p' start, p.printSignedImpl fuel v BUF_MAX = some (p',start) ∧
      Composed p p' start (signedText v) ∧ (signedText v).length ≤ 11 := by
  obtain ⟨s,hrun,hc,hlen⟩ := magnitude_loop h v hf
  have hends := hc.ends
  rw [buf_max] at hends
  rw [printSignedImpl]
  simp only [hrun,Option.bind_eq_bind,Option.bind_some]
  by_cases hneg : v.toInt < 0
  · have hsign : signedText v = '-'.toUInt8 :: digitsOf 10 (magnitude v) := by
      rw [signedText,sign,if_pos hneg]
      rfl
    have hcons := hc.cons (by omega) '-'.toUInt8
    have hbp : s.bp + 1 - 1 = s.bp := by omega
    rw [hbp] at hcons
    have hbp' : s.bp - 1 + 1 = s.bp := by omega
    rw [if_pos ((neg_iff v).mpr hneg),hsign]
    refine ⟨_,_,rfl,?_,by rw [List.length_cons]; omega⟩
    rw [hbp']
    exact hcons.mark (by omega) 0
  · have hsign : signedText v = digitsOf 10 (magnitude v) := by
      rw [signedText,sign,if_neg hneg]
      rfl
    have hmark := hc.mark (by omega) 0
    have hbp : s.bp + 1 - 1 = s.bp := by omega
    rw [hbp] at hmark
    rw [if_neg (fun hn => hneg ((neg_iff v).mp hn)),hsign]
    exact ⟨_,_,rfl,hmark,by omega⟩

-- A text right-justified in a width, or cut to it from the left.
def justified (width : Nat) (cs : List UInt8) : List UInt8 :=
  List.replicate (width - cs.length) ' '.toUInt8 ++ cs.drop (cs.length - width)

theorem lenFrom_eq (h : Composed p0 p start cs) (hlen : cs.length ≤ 76) :
    (lenFrom start).toNat = cs.length := by
  have hends := h.ends
  have hint : (BUF_MAX : Int) - start + 1 = (cs.length : Nat) := by omega
  rw [lenFrom,hint,UInt8.ofInt,UInt8.toNat_ofNat']
  omega

-- A text longer than the width loses its first characters.
theorem cut_composed (h : Composed p0 p start cs) (hlen : cs.length ≤ 76) (width : UInt8) :
    ∃ start' len', (if lenFrom start > width then
        (start + ((lenFrom start).toNat - width.toNat),
          lenFrom (start + ((lenFrom start).toNat - width.toNat)))
        else (start,lenFrom start)) = (start',len') ∧
      Composed p0 p start' (cs.drop (cs.length - width.toNat)) ∧
      len'.toNat = (cs.drop (cs.length - width.toNat)).length := by
  have hl := lenFrom_eq h hlen
  by_cases hcut : lenFrom start > width
  · have hlt : width.toNat < cs.length := by
      rw [← hl]
      exact UInt8.lt_iff_toNat_lt.mp hcut
    have hdrop := h.drop (n := cs.length - width.toNat) (by omega)
    have hstart : start + (((lenFrom start).toNat : Int) - width.toNat) =
        start + (cs.length - width.toNat : Nat) := by omega
    rw [if_pos hcut,hstart]
    exact ⟨_,_,rfl,hdrop,lenFrom_eq hdrop (by rw [List.length_drop]; omega)⟩
  · have hle : cs.length ≤ width.toNat := by
      rw [← hl]
      exact Nat.le_of_not_lt fun hlt => hcut (UInt8.lt_iff_toNat_lt.mpr hlt)
    rw [if_neg hcut,Nat.sub_eq_zero_of_le hle,List.drop_zero]
    exact ⟨_,_,rfl,h,hl⟩

theorem padded_more {width : UInt8} {s : Padded} :
    s.more width = true ↔ s.len.toNat < width.toNat := by
  rw [Padded.more,decide_eq_true_iff,UInt8.lt_iff_toNat_lt]

structure PaddedAt (p0 : Printer) (cs : List UInt8) (k : Nat) (s : Padded) : Prop where
  text : Composed p0 s.p s.start (List.replicate k ' '.toUInt8 ++ cs)
  len : s.len.toNat = k + cs.length

theorem PaddedAt.next {width : UInt8} {k : Nat} {s : Padded} (h : PaddedAt p0 cs k s)
    (hw : width.toNat < BUF_MAX) (hc : s.more width = true) : PaddedAt p0 cs (k + 1) s.next := by
  have hlt := padded_more.mp hc
  have hends := h.text.ends
  have hlen := h.len
  rw [List.length_append,List.length_replicate,buf_max] at hends
  unfold BUF_MAX BUF_LEN at hw
  refine ⟨?_,?_⟩
  · rw [List.replicate_succ,List.cons_append]
    exact h.text.cons (by omega) _
  · change (s.len + 1).toNat = _
    rw [UInt8.toNat_add]
    change (s.len.toNat + 1) % 256 = _
    omega

theorem padded_loop {width : UInt8} {s : Padded} (h : Composed p0 s.p s.start cs)
    (hlen : s.len.toNat = cs.length) (hle : cs.length ≤ width.toNat) (hw : width.toNat < BUF_MAX)
    (hf : 76 ≤ fuel) : ∃ t, loop (Padded.more width) Padded.next fuel s = some t ∧
      Composed p0 t.p t.start
        (List.replicate (width.toNat - cs.length) ' '.toUInt8 ++ cs) := by
  have hzero : PaddedAt p0 cs 0 s := ⟨h,by rw [hlen,Nat.zero_add]⟩
  have hstop : ∀ t, PaddedAt p0 cs (width.toNat - cs.length) t → t.more width = false := by
    intro t ht
    have hl := ht.len
    rw [Bool.eq_false_iff,Ne,padded_more]
    omega
  obtain ⟨k,t,hrun,ht,hk,hc⟩ := Loop.counted (PaddedAt p0 cs) hzero
    (fun k s _ hs hc => hs.next hw hc) hstop
  have hl := ht.len
  have hge : ¬ t.len.toNat < width.toNat := fun hlt =>
    Bool.false_ne_true (hc.symm.trans (padded_more.mpr hlt))
  obtain rfl : k = width.toNat - cs.length := by omega
  unfold BUF_MAX BUF_LEN at hw
  exact ⟨t,Loop.mono hrun (by omega),ht.text⟩

theorem signedText_ne_zero (v : Int32) : ∀ c ∈ signedText v, c ≠ 0 := by
  intro c hc
  obtain hs | hd := List.mem_append.mp hc
  · rw [sign] at hs
    split at hs
    · rw [List.mem_singleton.mp hs]
      decide
    · exact absurd hs List.not_mem_nil
  · exact digitsOf_ne_zero (by decide) (by decide) c hd

theorem justified_ne_zero (width : Nat) (h : ∀ c ∈ cs, c ≠ 0) :
    ∀ c ∈ justified width cs, c ≠ 0 := by
  intro c hc
  obtain hs | hd := List.mem_append.mp hc
  · rw [List.eq_of_mem_replicate hs]
    decide
  · exact h c (List.mem_of_mem_drop hd)

theorem justified_length (width : Nat) (cs : List UInt8) :
    (justified width cs).length = width := by
  rw [justified,List.length_append,List.length_replicate,List.length_drop]
  omega

theorem printSigned_prints (h : p.bytes (BUF_MAX + 1) = 0) (v : Int32) (hf : 78 ≤ fuel) :
    ∃ p', p.printSigned fuel v = some p' ∧ Prints p p' (signedText v) := by
  obtain ⟨q,start,hrun,hc,hlen⟩ := printSignedImpl_composed h v (by omega : 10 ≤ fuel)
  rw [printSigned,hrun]
  exact hc.print (signedText_ne_zero v) (by omega)

theorem printSignedWidth_prints (h : p.bytes (BUF_MAX + 1) = 0) (v : Int32) {width : UInt8}
    (hpos : width ≠ 0) (hw : width.toNat < BUF_MAX) (hf : 78 ≤ fuel) :
    ∃ p', p.printSignedWidth fuel v width = some p' ∧
      Prints p p' (justified width.toNat (signedText v)) := by
  obtain ⟨q,start,hrun,hc,hlen⟩ := printSignedImpl_composed h v (by omega : 10 ≤ fuel)
  have hnz := justified_ne_zero width.toNat (signedText_ne_zero v)
  have hjust := justified_length width.toNat (signedText v)
  have hlow : ¬ (width = 0 ∨ BUF_MAX ≤ width.toNat) := by
    rintro (hz | hz)
    · exact hpos hz
    · omega
  have hbound : width.toNat < fuel := by
    unfold BUF_MAX BUF_LEN at hw
    omega
  obtain ⟨start',len',hcut,hcs,hl⟩ := cut_composed hc (by omega) width
  have hdrop : ((signedText v).drop ((signedText v).length - width.toNat)).length =
      (signedText v).length - ((signedText v).length - width.toNat) := List.length_drop
  obtain ⟨t,ht,htext⟩ := padded_loop (s := ⟨start',len',q⟩) hcs hl (by omega) hw
    (by omega : 76 ≤ fuel)
  have hsame : width.toNat - ((signedText v).drop ((signedText v).length - width.toNat)).length =
      width.toNat - (signedText v).length := by omega
  rw [hsame,← justified] at htext
  rw [printSignedWidth,if_neg hlow,hrun]
  simp only [Option.bind_eq_bind,Option.bind_some,hcut,ht]
  exact htext.print hnz (by omega)

def UnsignedAt (p0 : Printer) (base n k : Nat) (s : Unsigned) : Prop :=
  Digits p0 base n k s.num.toNat (s.bp.toNat + 1) s.p

theorem unsigned_more {s : Unsigned} : s.more = true ↔ 0 < s.num.toNat := by
  rw [Unsigned.more,decide_eq_true_iff,gt_iff_lt,UInt32.lt_iff_toNat_lt]
  rfl

theorem bp_sub {bp : UInt8} (h : 0 < bp.toNat) : (bp - 1).toNat = bp.toNat - 1 :=
  UInt8.toNat_sub_of_le _ _ (UInt8.le_iff_toNat_le.mpr h)

theorem UnsignedAt.next {base : UInt8} {n k : Nat} {s : Unsigned}
    (h : UnsignedAt p0 base.toNat n k s) (hb : 2 ≤ base.toNat) (hb' : base.toNat ≤ 36)
    (hk : k < 32) (hc : s.more = true) :
    UnsignedAt p0 base.toNat n (k + 1) (s.next base) := by
  have hstart := h.start_eq
  rw [buf_max] at hstart
  have hbp := bp_sub (by omega : 0 < s.bp.toNat)
  have hlt : s.num.toNat % base.toNat < base.toNat := Nat.mod_lt _ (by omega)
  have hbyte : (s.num % base.toUInt32).toUInt8.toNat = s.num.toNat % base.toNat := by
    rw [UInt32.toNat_toUInt8,UInt32.toNat_mod,UInt8.toNat_toUInt32]
    omega
  have hdigit : digit (s.num % base.toUInt32).toUInt8 = digitByte (s.num.toNat % base.toNat) := by
    rw [digit_byte (by omega),hbyte]
  have hnext := Digits.next h (by omega) (unsigned_more.mp hc) (by unfold BUF_MAX BUF_LEN; omega)
  have hprev : (s.bp.toNat : Int) + 1 - 1 = s.bp.toNat := by omega
  have hprev' : ((s.bp - 1).toNat : Int) + 1 = s.bp.toNat := by omega
  rw [hprev] at hnext
  rw [UnsignedAt,Unsigned.next]
  dsimp only
  rw [hprev',hdigit,UInt32.toNat_div,UInt8.toNat_toUInt32]
  exact hnext

theorem unsigned_loop {base : UInt8} (num : UInt32) (h : p.bytes (BUF_MAX + 1) = 0)
    (hb : 2 ≤ base.toNat) (hb' : base.toNat ≤ 36) (hf : 32 ≤ fuel) :
    ∃ s, loop Unsigned.more (Unsigned.next base) fuel ⟨num,UInt8.ofNat BUF_MAX,p⟩ = some s ∧
      Composed p s.p (s.bp.toNat + 1) (digitsOf base.toNat num.toNat) ∧
      (digitsOf base.toNat num.toNat).length ≤ 32 := by
  have hzero : UnsignedAt p base.toNat num.toNat 0 ⟨num,UInt8.ofNat BUF_MAX,p⟩ :=
    digits_start h base.toNat num.toNat
  have hstop : ∀ s, UnsignedAt p base.toNat num.toNat 32 s → s.more = false := by
    intro s hs
    have hleft : s.num.toNat = num.toNat / base.toNat ^ 32 := hs.left
    have hpow : 2 ^ 32 ≤ base.toNat ^ 32 := Nat.pow_le_pow_left hb 32
    have hlt := num.toNat_lt
    rw [Nat.div_eq_of_lt (by omega)] at hleft
    rw [Bool.eq_false_iff,Ne,unsigned_more]
    omega
  obtain ⟨k,s,hrun,hs,hk,hc⟩ := Loop.counted (UnsignedAt p base.toNat num.toNat) hzero
    (fun k s hk hs hc => hs.next hb hb' hk hc) hstop
  have hz : s.num.toNat = 0 := by
    by_contra hne
    exact Bool.false_ne_true (hc.symm.trans (unsigned_more.mpr (by omega)))
  rw [UnsignedAt,hz] at hs
  refine ⟨s,Loop.mono hrun hf,hs.done,?_⟩
  rw [hs.length]
  exact hk

theorem numeral_ne_zero {base n : Nat} (hb : 1 < base) (hb' : base ≤ 36) :
    ∀ c ∈ numeral base n, c ≠ 0 := by
  intro c hc
  rw [numeral] at hc
  split at hc
  · rw [List.mem_singleton.mp hc]
    decide
  · exact digitsOf_ne_zero hb hb' c hc

theorem printUnsigned_prints (h : p.bytes (BUF_MAX + 1) = 0) (num : UInt32) {base : UInt8}
    (hb : 2 ≤ base.toNat) (hb' : base.toNat ≤ 36) (hf : 78 ≤ fuel) :
    ∃ p', p.printUnsigned fuel num base = some p' ∧
      Prints p p' (numeral base.toNat num.toNat) := by
  have hnz := numeral_ne_zero (n := num.toNat) hb hb'
  have hbase : ¬ (base < 2 ∨ 36 < base) := by
    rintro (hl | hl)
    · exact absurd (UInt8.lt_iff_toNat_lt.mp hl) (Nat.not_lt.mpr hb)
    · exact absurd (UInt8.lt_iff_toNat_lt.mp hl) (Nat.not_lt.mpr hb')
  rw [printUnsigned,if_neg hbase]
  by_cases hz : num = 0
  · have hzero := (composed_empty h).cons (by rw [buf_max]; decide) '0'.toUInt8
    have hbp : ((UInt8.ofNat BUF_MAX).toNat : Int) = BUF_MAX + 1 - 1 := by decide
    have hptr : ((UInt8.ofNat BUF_MAX - 1).toNat : Int) + 1 = BUF_MAX + 1 - 1 := by decide
    have hnum0 : num.toNat = 0 := by
      rw [hz]
      rfl
    have hnum : numeral base.toNat num.toNat = ['0'.toUInt8] := by
      rw [numeral,if_pos hnum0]
    have hone : ['0'.toUInt8].length < fuel := by
      rw [List.length_singleton]
      omega
    rw [hnum] at hnz
    rw [if_pos hz,hnum]
    simp only [Option.bind_eq_bind,Option.bind_some,hbp,hptr]
    exact hzero.print hnz hone
  · obtain ⟨s,hrun,hc,hlen⟩ := unsigned_loop num h hb hb' (by omega : 32 ≤ fuel)
    have hne : num.toNat ≠ 0 := fun hn => hz (UInt32.toNat_inj.mp hn)
    have hnum : numeral base.toNat num.toNat = digitsOf base.toNat num.toNat := by
      rw [numeral,if_neg hne]
    rw [hnum] at hnz
    rw [if_neg hz,hrun,hnum]
    exact hc.print hnz (by omega)

end Loops

section Calls

-- The calls that the numerals are asked of.
def Covered : PrintCall → Prop
  | .signed _ => True
  | .signedWidth value width =>
    (decimal value.toInt).length ≤ width.toNat ∧ width.toNat ≤ 75
  | .unsigned _ base => 2 ≤ base.toNat ∧ base.toNat ≤ 36

-- A numeral, right-justified where there is a width.
def expected : PrintCall → List UInt8
  | .signed value => decimal value.toInt
  | .signedWidth value width =>
    List.replicate (width.toNat - (decimal value.toInt).length) ' '.toUInt8 ++
      decimal value.toInt
  | .unsigned num base => numeral base.toNat num.toNat

-- Neither 0 nor the lowest number, where the value is signed.
def Plain : PrintCall → Prop
  | .signed value => value ≠ 0 ∧ value ≠ Int32.minValue
  | .signedWidth value _ => value ≠ 0 ∧ value ≠ Int32.minValue
  | .unsigned _ _ => True

theorem signedText_plain {v : Int32} (h0 : v ≠ 0) (hmin : v ≠ Int32.minValue) :
    signedText v = decimal v.toInt := by
  have hne : v.toInt.natAbs ≠ 0 := fun hz =>
    h0 (Int32.toInt_inj.mp (Int.natAbs_eq_zero.mp hz))
  rw [signedText,magnitude,if_neg hmin,decimal,numeral,if_neg hne]
  rfl

theorem signedText_zero : signedText 0 = [] := by
  rw [signedText,sign,magnitude,if_neg (by decide),if_neg (by decide)]
  exact congrArg _ (digitsOf_zero 10)

theorem signedText_min : signedText Int32.minValue = ['-'.toUInt8] := by
  rw [signedText,sign,magnitude,if_pos rfl,if_pos (by decide),digitsOf_zero]
  rfl

-- Every call returns, keeps the NUL, and writes inside the buffer.
theorem call_prints (h : p.bytes (BUF_MAX + 1) = 0) (hf : 78 ≤ fuel) (q : PrintCall) :
    ∃ p' cs, p.call fuel q = some p' ∧ Prints p p' cs := by
  have hnone : Prints p p [] := ⟨h,(List.append_nil _).symm,[],(List.append_nil _).symm,nofun⟩
  cases q with
  | signed v =>
    obtain ⟨p',hrun,hp⟩ := printSigned_prints h v hf
    exact ⟨p',_,hrun,hp⟩
  | signedWidth v width =>
    by_cases hlow : width = 0 ∨ BUF_MAX ≤ width.toNat
    · exact ⟨p,[],if_pos hlow,hnone⟩
    · obtain ⟨hpos,hw⟩ := not_or.mp hlow
      obtain ⟨p',hrun,hp⟩ := printSignedWidth_prints h v hpos (Nat.lt_of_not_le hw) hf
      exact ⟨p',_,hrun,hp⟩
  | unsigned num base =>
    by_cases hbase : base < 2 ∨ 36 < base
    · exact ⟨p,[],if_pos hbase,hnone⟩
    · obtain ⟨hb,hb'⟩ := not_or.mp hbase
      rw [UInt8.lt_iff_toNat_lt] at hb hb'
      obtain ⟨p',hrun,hp⟩ := printUnsigned_prints h num (Nat.le_of_not_lt hb)
        (Nat.le_of_not_lt hb') hf
      exact ⟨p',_,hrun,hp⟩

theorem calls_print (h : p.bytes (BUF_MAX + 1) = 0) (hf : 78 ≤ fuel) (qs : List PrintCall) :
    ∃ p' cs, p.calls fuel qs = some p' ∧ Prints p p' cs := by
  induction qs generalizing p with
  | nil => exact ⟨p,[],rfl,h,(List.append_nil _).symm,[],(List.append_nil _).symm,nofun⟩
  | cons q qs ih =>
    obtain ⟨t,cs,hcall,ht⟩ := call_prints h hf q
    obtain ⟨p',ds,hrun,hp⟩ := ih ht.last
    obtain ⟨ws,hws,hin⟩ := ht.writes
    obtain ⟨us,hus,hin'⟩ := hp.writes
    refine ⟨p',cs ++ ds,?_,hp.last,?_,ws ++ us,?_,?_⟩
    · rw [calls,hcall]
      exact hrun
    · rw [hp.out,ht.out,List.append_assoc]
    · rw [hus,hws,List.append_assoc]
    · intro w hw
      exact (List.mem_append.mp hw).elim (hin w) (hin' w)

def Served (fuel : Nat) (p : Printer) (q : PrintCall) : Prop :=
  ∃ p', p.call fuel q = some p' ∧ p'.out = p.out ++ expected q

theorem served_iff {q : PrintCall} {p' : Printer} (h : p.call fuel q = some p')
    (hp : Prints p p' cs) : Served fuel p q ↔ cs = expected q := by
  constructor
  · rintro ⟨t,ht,hout⟩
    obtain rfl := Option.some.inj (h.symm.trans ht)
    exact List.append_cancel_left (hp.out.symm.trans hout)
  · rintro rfl
    exact ⟨p',h,hp.out⟩

theorem decimal_ne_nil (v : Int) : decimal v ≠ [] := by
  intro h
  have hnum := (List.append_eq_nil_iff.mp h).2
  rw [numeral] at hnum
  split at hnum
  · exact absurd hnum (List.cons_ne_nil _ _)
  · next hne =>
    rw [digitsOf,List.map_eq_nil_iff,List.reverse_eq_nil_iff,Nat.digits_eq_nil_iff_eq_zero] at hnum
    exact hne hnum

theorem mem_justified {width : Nat} (h : c ∈ justified width cs) : c = ' '.toUInt8 ∨ c ∈ cs :=
  (List.mem_append.mp h).imp List.eq_of_mem_replicate List.mem_of_mem_drop

theorem signedText_missing {v : Int32} (h : ¬ (v ≠ 0 ∧ v ≠ Int32.minValue)) :
    ∃ c ∈ decimal v.toInt, c ≠ ' '.toUInt8 ∧ c ∉ signedText v := by
  by_cases h0 : v = 0
  · subst h0
    refine ⟨'0'.toUInt8,by decide,by decide,?_⟩
    rw [signedText_zero]
    exact List.not_mem_nil
  · obtain rfl : v = Int32.minValue := not_not.mp fun hne => h ⟨h0,hne⟩
    refine ⟨'8'.toUInt8,by decide +kernel,by decide,?_⟩
    rw [signedText_min]
    decide

-- A value that is not plain lacks a digit of its numeral.
theorem justified_plain {v : Int32} {width : Nat} (hle : (decimal v.toInt).length ≤ width) :
    justified width (signedText v) =
        List.replicate (width - (decimal v.toInt).length) ' '.toUInt8 ++ decimal v.toInt ↔
      v ≠ 0 ∧ v ≠ Int32.minValue := by
  constructor
  · intro he
    by_contra hplain
    obtain ⟨c,hc,hblank,hnot⟩ := signedText_missing hplain
    have hmem : c ∈ justified width (signedText v) := by
      rw [he]
      exact List.mem_append_right _ hc
    exact (mem_justified hmem).elim hblank hnot
  · rintro ⟨h0,hmin⟩
    rw [justified,signedText_plain h0 hmin,Nat.sub_eq_zero_of_le hle,List.drop_zero]

theorem signedText_iff {v : Int32} :
    signedText v = decimal v.toInt ↔ v ≠ 0 ∧ v ≠ Int32.minValue := by
  constructor
  · intro he
    by_contra hplain
    obtain ⟨c,hc,-,hnot⟩ := signedText_missing hplain
    exact hnot (he ▸ hc)
  · rintro ⟨h0,hmin⟩
    exact signedText_plain h0 hmin

theorem covered_served (h : p.bytes (BUF_MAX + 1) = 0) (hf : 78 ≤ fuel) {q : PrintCall}
    (hq : Covered q) : Served fuel p q ↔ Plain q := by
  cases q with
  | signed v =>
    obtain ⟨p',hrun,hp⟩ := printSigned_prints h v hf
    exact (served_iff (q := .signed v) hrun hp).trans signedText_iff
  | signedWidth v width =>
    obtain ⟨hle,hmax⟩ := hq
    have hlen : 0 < (decimal v.toInt).length := List.length_pos_iff.mpr (decimal_ne_nil _)
    have hpos : width ≠ 0 := by
      rintro rfl
      exact absurd hle (Nat.not_le.mpr hlen)
    have hw : width.toNat < BUF_MAX := Nat.lt_succ_of_le hmax
    obtain ⟨p',hrun,hp⟩ := printSignedWidth_prints h v hpos hw hf
    exact (served_iff (q := .signedWidth v width) hrun hp).trans (justified_plain hle)
  | unsigned num base =>
    obtain ⟨p',hrun,hp⟩ := printUnsigned_prints h num hq.1 hq.2 hf
    exact (served_iff (q := .unsigned num base) hrun hp).trans (iff_of_true rfl trivial)

theorem Fresh.last (h : Fresh p) : p.bytes (BUF_MAX + 1) = 0 := h.buf _ (by decide) (by decide)

theorem numbers_printed (hf : 78 ≤ fuel) (h : Fresh p) (qs : List PrintCall) :
    ∃ p', p.calls fuel qs = some p' ∧ (∀ w ∈ p'.writes, 0 ≤ w ∧ w < BUF_LEN) ∧
      ∀ q, Covered q → (Served fuel p' q ↔ Plain q) := by
  obtain ⟨p',cs,hrun,hp⟩ := calls_print h.last hf qs
  refine ⟨p',hrun,fun w hw => ?_,fun q hq => covered_served hp.last hf hq⟩
  obtain ⟨ws,hws,hin⟩ := hp.writes
  rw [hws,h.writes,List.nil_append] at hw
  obtain ⟨hlow,hhigh⟩ := hin w hw
  exact ⟨hlow,by omega⟩

def freshPrinter : Printer := ⟨fun _ => 0,[],[]⟩

theorem numbers_printed_bits : ∃ p', freshPrinter.calls 78
      [.unsigned 0xffffffff 2,.signedWidth (-1) 75,.signed (-2147483647)] = some p' ∧
    (∀ w ∈ p'.writes, 0 ≤ w ∧ w < BUF_LEN) ∧
      ∀ q, Covered q → (Served 78 p' q ↔ Plain q) :=
  numbers_printed (Nat.le_refl 78) ⟨fun _ _ _ => rfl,rfl⟩ _

-- 0 is printed as nothing.
theorem zero_unprinted : ∃ p', freshPrinter.printSigned 78 0 = some p' ∧
    p'.out = [] ∧ decimal (Int32.toInt 0) = ['0'.toUInt8] := by
  obtain ⟨p',hrun,hp⟩ := printSigned_prints (p := freshPrinter) rfl 0 (Nat.le_refl 78)
  rw [signedText_zero] at hp
  exact ⟨p',hrun,hp.out,rfl⟩

end Calls
end Printer
end RoscoM68k
