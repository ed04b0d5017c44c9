import RoscoM68k.Base.Loops
import RoscoM68k.Base.Memory
import RoscoM68k.Base.Slices
import RoscoM68k.Base.Words

namespace RoscoM68k
open Function

-- Memory from cmd_line on, by offsets, and the length of the line. What is printed is left out.
structure Prompt where
  mem : Mem
  len : Nat

namespace Prompt

def erase (p : Prompt) : Prompt := ⟨update p.mem (p.len - 1) 0,p.len - 1⟩

-- Bytes from 0x80 on are negative characters.
def key (bufSize : Nat) (p : Prompt) (c : UInt8) : Prompt :=
  if c = 0x08 ∨ c = 0x7f then if 0 < p.len then p.erase else p
  else if c = 0x03 ∨ c = 0x18 then erase^[p.len] p
  else if p.len < bufSize - 1 ∧ 0x20 ≤ c.toNat ∧ c.toNat < 0x80 then
    ⟨update p.mem p.len c,p.len + 1⟩
  else p

-- `none` is a line that has not been entered yet.
def readline (bufSize : Nat) (p : Prompt) : List UInt8 → Option Prompt
  | [] => none
  | c :: cs =>
    if c = 0x0d then some { p with mem := update p.mem p.len 0 }
    else readline bufSize (p.key bufSize c) cs

end Prompt

-- The buffer is cleared first.
def promptReadline (m : Mem) (bufSize : Nat) (keys : List UInt8) : Option Prompt :=
  Prompt.readline bufSize ⟨fun i => if i < bufSize then 0 else m i,0⟩ keys

-- `accesses` has the offsets that the tokenizer and its callers have read or written.
structure CmdLine where
  mem : Mem
  cmdPtr : Nat
  accesses : List Nat

-- A pointer that moves on over the line.
structure LineScan where
  line : CmdLine
  pos : Nat

namespace LineScan

def char (t : LineScan) : UInt8 := t.line.mem t.pos

def look (t : LineScan) : LineScan :=
  { t with line := { t.line with accesses := t.line.accesses ++ [t.pos] } }

def next (t : LineScan) : LineScan := { t.look with pos := t.pos + 1 }

-- An opening quote is skipped.
def unquote (t : LineScan) : Bool × LineScan :=
  if t.char = 0x22 then (true,t.next) else (false,t)

-- A NUL ends the token, and the next one starts behind it.
def cut (t : LineScan) : CmdLine where
  mem := update t.line.mem t.pos 0
  cmdPtr := t.pos + 1
  accesses := t.line.accesses ++ [t.pos]

end LineScan

def tokenChar (quoted : Bool) (c : UInt8) : Bool :=
  c ≠ 0 && c ≠ 0x22 && !(c = 0x20 && quoted = false)

def nextCmdToken (s : CmdLine) (n : Nat) : Option (Nat × CmdLine) := do
  let t ← loop (fun t : LineScan => t.char = 0x20) LineScan.next n ⟨s,s.cmdPtr⟩
  let q := t.look.unquote
  let e ← loop (fun e : LineScan => tokenChar q.1 e.char) LineScan.next n q.2
  some (q.2.pos,e.look.cut)

-- What a caller reads of a token: all up to its NUL.
def inspect (s : CmdLine) (token n : Nat) : Option (List UInt8 × CmdLine) := do
  let t ← loop (fun t : LineScan => t.char ≠ 0) LineScan.next n ⟨s,token⟩
  let t := t.look
  some (slice t.line.mem token (t.pos - token),t.line)

def nextTokens (s : CmdLine) (n : Nat) : Nat → Option (List Nat × CmdLine)
  | 0 => some ([],s)
  | k + 1 => do
    let r ← nextCmdToken s n
    let rs ← nextTokens r.2 n k
    some (r.1 :: rs.1,rs.2)

def inspectAll (s : CmdLine) (n : Nat) : List Nat → Option (List (List UInt8) × CmdLine)
  | [] => some ([],s)
  | t :: ts => do
    let r ← inspect s t n
    let rs ← inspectAll r.2 n ts
    some (r.1 :: rs.1,rs.2)

-- `k` calls on a line, and an inspection of each token that they have returned.
def commandTokens (m : Mem) (keys : List UInt8) (k n : Nat) :
    Option (List (List UInt8) × CmdLine) := do
  let p ← promptReadline m 256 keys
  let r ← nextTokens ⟨p.mem,0,[]⟩ n k
  inspectAll r.2 n r.1

-- The line that is edited.
def editKey (line : List UInt8) (c : UInt8) : List UInt8 :=
  if c = 0x08 ∨ c = 0x7f then line.dropLast
  else if c = 0x03 ∨ c = 0x18 then []
  else if line.length < 255 ∧ 0x20 ≤ c.toNat ∧ c.toNat < 0x80 then line ++ [c]
  else line

def editedLine (keys : List UInt8) : List UInt8 := (keys.takeWhile (· ≠ 0x0d)).foldl editKey []

-- The calls and their callers keep to the buffer; without quotes the tokens are the words of the
-- line, and then empty.
def KeepsToLine (m : Mem) (keys : List UInt8) (k : Nat) : Prop :=
  ∃ texts s, Gives (fun n => commandTokens m keys k n) (texts,s) ∧ (∀ a ∈ s.accesses, a ≤ 255) ∧
    (0x22 ∉ editedLine keys →
      texts = (List.range k).map fun i => (words 0x20 (editedLine keys)).getD i [])

-- Where in a line a reader is: between tokens, in a word, or in quotes.
inductive LineMode where
  | gap
  | word
  | quotes

-- How many tokens are taken off a line until one ends where the line ends.
def tokenCount : LineMode → List UInt8 → Nat
  | _, [] => 1
  | .gap, c :: cs =>
    if c = 0x20 then tokenCount .gap cs
    else if c = 0x22 then tokenCount .quotes cs
    else tokenCount .word cs
  | .word, c :: cs =>
    if c = 0x20 ∨ c = 0x22 then tokenCount .gap cs + 1 else tokenCount .word cs
  | .quotes, c :: cs => if c = 0x22 then tokenCount .gap cs + 1 else tokenCount .quotes cs

end RoscoM68k
