import RoscoM68k.Libs.Compare

namespace RoscoM68k

def LONG_MIN : Int := -2147483648
def LONG_MAX : Int := 2147483647

def charAt (m : Mem) (a : Nat) : Int := signedChar (m a)

-- do { c = *s++; } while (c == ' '), which gives `c` and `s`.
def skipBlanks (m : Mem) (s : Nat) : Nat → Option (Int × Nat)
  | 0 => none
  | n + 1 => if charAt m s = 0x20 then skipBlanks m (s + 1) n else some (charAt m s,s + 1)

def digitOf (c : Int) : Option Nat :=
  if 0x30 ≤ c ∧ c ≤ 0x39 then some (c - 0x30).toNat
  else if 0x41 ≤ c ∧ c ≤ 0x5a then some (c - (0x41 - 10)).toNat
  else if 0x61 ≤ c ∧ c ≤ 0x7a then some (c - (0x61 - 10)).toNat
  else none

-- The loop over the digits, which gives `acc`, `any` and `s`.
def strtolLoop (m : Mem) (base cutoff cutlim : Nat) (acc : Nat) (any c : Int) (s : Nat) :
    Nat → Option (Nat × Int × Nat)
  | 0 => none
  | n + 1 =>
    match digitOf c with
    | none => some (acc,any,s)
    | some d =>
      if base ≤ d then some (acc,any,s)
      else if any < 0 ∨ cutoff < acc ∨ (acc = cutoff ∧ cutlim < d) then
        strtolLoop m base cutoff cutlim acc (-1) (charAt m s) (s + 1) n
      else
        strtolLoop m base cutoff cutlim ((acc * base + d) % 4294967296) 1 (charAt m s) (s + 1) n

-- A long with the bits of an unsigned long.
def toLong (n : Nat) : Int := if n < 2147483648 then n else n - 4294967296

-- The number, and what is stored through `ptr`.
def strtol (m : Mem) (s : Nat) (base : Int) (n : Nat) : Option (Int × Nat) :=
  if base < 0 ∨ base = 1 ∨ 36 < base then some (0,s)
  else do
    let (c,p) ← skipBlanks m s n
    let neg := c = 0x2d
    let (c,p) := if c = 0x2d ∨ c = 0x2b then (charAt m p,p + 1) else (c,p)
    let (base,c,p) :=
      if (base = 0 ∨ base = 16) ∧ c = 0x30 ∧ (charAt m p = 0x78 ∨ charAt m p = 0x58) then
        (16,charAt m (p + 1),p + 2)
      else (base,c,p)
    let base := (if base = 0 then if c = 0x30 then 8 else 10 else base).toNat
    let cutoff := if neg then 2147483648 else 2147483647
    let (acc,any,p) ← strtolLoop m base (cutoff / base) (cutoff % base) 0 0 c p n
    let acc :=
      if any < 0 then if neg then 2147483648 else 2147483647
      else if neg then (4294967296 - acc) % 4294967296
      else acc
    some (toLong acc,p - 1)

def digits : List UInt8 :=
  "0123456789abcdefghijklmnopqrstuvwxyz".toList.map (fun c => UInt8.ofNat c.toNat)

-- The digits one after the other, the last one first; `i` is where the next one goes.
def utoaLoop (m : Mem) (str base value i : Nat) : Nat → Option (Mem × Nat)
  | 0 => none
  | n + 1 =>
    let m := Function.update m (str + i) (digits.getD (value % base) 0)
    if value / base ≠ 0 then utoaLoop m str base (value / base) (i + 1) n else some (m,i + 1)

def reverseLoop (m : Mem) (str j i : Nat) : Nat → Option Mem
  | 0 => none
  | n + 1 =>
    if j < i then
      let c := m (str + j)
      let m := Function.update m (str + j) (m (str + i))
      reverseLoop (Function.update m (str + i) c) str (j + 1) (i - 1) n
    else some m

-- `none` in a result is NULL.
def utoa (m : Mem) (value str : Nat) (base : Int) (n : Nat) : Option (Option Nat × Mem) :=
  if base < 2 ∨ 36 < base then some (none,Function.update m str 0)
  else do
    let (m,i) ← utoaLoop m str base.toNat value 0 n
    let m ← reverseLoop (Function.update m (str + i) 0) str 0 (i - 1) n
    some (some str,m)

def itoa (m : Mem) (value : Int) (str : Nat) (base : Int) (n : Nat) :
    Option (Option Nat × Mem) :=
  if base < 2 ∨ 36 < base then some (none,Function.update m str 0)
  else do
    let (_,m) ←
      if base = 10 ∧ value < 0 then
        utoa (Function.update m str 0x2d) (-value % 4294967296).toNat (str + 1) base n
      else utoa m (value % 4294967296).toNat str base n
    some (some str,m)

-- What follows the blanks and the sign.
def unsignedPart (bs : List UInt8) : List UInt8 :=
  match bs.dropWhile (· = 0x20) with
  | [] => []
  | c :: cs => if c = 0x2d ∨ c = 0x2b then cs else c :: cs

def Negative (bs : List UInt8) : Prop := (bs.dropWhile (· = 0x20)).head? = some 0x2d

instance (bs : List UInt8) : Decidable (Negative bs) :=
  inferInstanceAs (Decidable ((bs.dropWhile (· = 0x20)).head? = some 0x2d))

def isDigit (base : Nat) (c : UInt8) : Bool := (digitOf (signedChar c)).any (· < base)

-- The value of digits, after those that have the value `acc`.
def valueFrom (base acc : Nat) (ds : List UInt8) : Nat :=
  ds.foldl (fun acc c => acc * base + (digitOf (signedChar c)).getD 0) acc

def clamp (x : Int) : Int := max LONG_MIN (min LONG_MAX x)

end RoscoM68k
