import RoscoM68k.Base.Slices

namespace RoscoM68k
open Function

def MAX_LINE_LENGTH : Nat := 110
def FIXED_PREFIX_LEN : Nat := 4
def MAX_TEXT_LENGTH : Nat := 40
def MAX_DATA_LENGTH : Nat := 60

inductive MenuItemType where
  | exit
  | romfs
  deriving DecidableEq

-- The bytes that are read and written: of the input, the line buffer, a literal, an item.
inductive MenuAccess where
  | readInput (i : Nat)
  | readLine (i : Nat)
  | readLiteral (size i : Nat)
  | writeLine (i : Nat)
  | writeText (item i : Nat)
  | writeData (item i : Nat)
  | writeType (item : Nat)

-- The line buffer and the items, with all accesses so far.
structure MenuParser where
  line : Nat → UInt8
  text : Nat → Nat → UInt8
  data : Nat → Nat → UInt8
  type : Nat → MenuItemType
  log : List MenuAccess

namespace MenuParser

def note (s : MenuParser) (a : MenuAccess) : MenuParser := { s with log := s.log ++ [a] }

def loadInput (input : Nat → UInt8) (s : MenuParser) (i : Nat) : UInt8 × MenuParser :=
  (input i,s.note (.readInput i))

def loadLine (s : MenuParser) (i : Nat) : UInt8 × MenuParser := (s.line i,s.note (.readLine i))

def storeLine (s : MenuParser) (i : Nat) (c : UInt8) : MenuParser :=
  { s.note (.writeLine i) with line := update s.line i c }

def storeText (item : Nat) (s : MenuParser) (i : Nat) (c : UInt8) : MenuParser :=
  { s.note (.writeText item i) with text := update s.text item (update (s.text item) i c) }

def storeData (item : Nat) (s : MenuParser) (i : Nat) (c : UInt8) : MenuParser :=
  { s.note (.writeData item i) with data := update s.data item (update (s.data item) i c) }

def storeType (s : MenuParser) (item : Nat) (t : MenuItemType) : MenuParser :=
  { s.note (.writeType item) with type := update s.type item t }

def memchr (input : Nat → UInt8) (c : UInt8) : Nat → MenuParser → Nat → Option Nat × MenuParser
  | 0, s, _ => (none,s)
  | n + 1, s, i =>
    let (b,s) := s.loadInput input i
    if b = c then (some i,s) else memchr input c n s (i + 1)

def memcpy (load : MenuParser → Nat → UInt8 × MenuParser)
    (store : MenuParser → Nat → UInt8 → MenuParser) : Nat → MenuParser → Nat → Nat → MenuParser
  | 0, s, _, _ => s
  | n + 1, s, dst, src =>
    let (c,s) := load s src
    memcpy load store n (store s dst c) (dst + 1) (src + 1)

-- In the line buffer; it may go on for `fuel` bytes.
def strchr (c : UInt8) : Nat → MenuParser → Nat → Option (Option Nat × MenuParser)
  | 0, _, _ => none
  | fuel + 1, s, i =>
    let (b,s) := s.loadLine i
    if b = c then some (some i,s)
    else if b = 0 then some (none,s)
    else strchr c fuel s (i + 1)

-- The line buffer from `i` on against a literal from `k` on, over `n` bytes: whether it is 0.
def strncmp (lit : List UInt8) : Nat → MenuParser → Nat → Nat → Bool × MenuParser
  | 0, s, _, _ => (true,s)
  | n + 1, s, i, k =>
    let (b,s) := s.loadLine i
    let s := s.note (.readLiteral lit.length k)
    if b ≠ lit.getD k 0 then (false,s)
    else if b = 0 then (true,s)
    else strncmp lit n s (i + 1) (k + 1)

def exitLiteral : List UInt8 := ['e','x','i','t','\x00'].map fun c => UInt8.ofNat c.toNat
def romLiteral : List UInt8 := ['r','o','m','/','\x00'].map fun c => UInt8.ofNat c.toNat

-- What is done about a line with a colon, up to the step to the next line.
def parseFields (s : MenuParser) (count lineLength colon : Nat) : MenuParser × Nat :=
  let textLength := colon
  let dataStart := colon + 1
  let dataLength := lineLength - textLength - 1
  if textLength = 0 ∨ dataLength = 0 ∨ textLength > MAX_TEXT_LENGTH ∨
      dataLength > MAX_DATA_LENGTH + FIXED_PREFIX_LEN then (s,count)
  else
    let s := memcpy loadLine (storeText count) textLength s 0 0
    let s := s.storeText count textLength 0
    let (isExit,s) := strncmp exitLiteral FIXED_PREFIX_LEN s dataStart 0
    if isExit then ((s.storeType count .exit).storeData count 0 0,count + 1)
    else
      let (isRom,s) := strncmp romLiteral FIXED_PREFIX_LEN s dataStart 0
      if isRom then
        let s := s.storeType count .romfs
        let s := memcpy loadLine (storeData count) (dataLength - FIXED_PREFIX_LEN) s 0
          (dataStart + FIXED_PREFIX_LEN)
        (s.storeData count (dataLength - FIXED_PREFIX_LEN) 0,count + 1)
      else (s,count)

def parseLine (input : Nat → UInt8) (fuel : Nat) (s : MenuParser) (count start lineEnd : Nat) :
    Option (MenuParser × Nat) :=
  let lineLength := lineEnd - start
  if lineLength > MAX_LINE_LENGTH then some (s,count)
  else do
    let s := memcpy (loadInput input) storeLine lineLength s 0 start
    let s := s.storeLine lineLength 0
    let (colon,s) ← strchr ':'.toUInt8 fuel s 0
    match colon with
    | none => some (s,count)
    | some colon => some (s.parseFields count lineLength colon)

-- The loop over the lines.
def parseLines (input : Nat → UInt8) (end' : Nat) (maxItems : Int) :
    Nat → MenuParser → Nat → Nat → Option (MenuParser × Nat)
  | 0, _, _, _ => none
  | fuel + 1, s, start, count =>
    if start < end' ∧ (count : Int) < maxItems then do
      let (found,s) := memchr input '\n'.toUInt8 (end' - start) s start
      let lineEnd := found.getD end'
      let (s,count) ← s.parseLine input fuel count start lineEnd
      parseLines input end' maxItems fuel s (lineEnd + 1) count
    else some (s,count)

end MenuParser

-- A pointer that may be NULL is an `Option`, or a flag where it is only written through.
structure MenuArgs where
  input : Option (Nat → UInt8)
  inputLength : Nat
  maxItems : Int
  items : Bool
  nItems : Bool

-- The result, what `*n_items` is set to, and the rest.
def parseMenu (fuel : Nat) (s : MenuParser) (a : MenuArgs) :
    Option (Bool × Option Nat × MenuParser) :=
  match a.input with
  | none => some (false,none,s)
  | some input =>
    if a.inputLength = 0 ∨ a.maxItems = 0 ∨ !a.items ∨ !a.nItems then some (false,none,s)
    else do
      let (s,count) ← MenuParser.parseLines input a.inputLength a.maxItems fuel s 0 0
      some (count > 0,some count,s)

end RoscoM68k
