import RoscoM68k.Base.ByteStrings
import RoscoM68k.Base.Slices

namespace RoscoM68k
open Function

-- What readline works on: memory, its index (a byte), how many keys it has got, and what it has
-- printed.
structure Reader where
  mem : Mem
  i : Nat
  read : Nat
  printed : List UInt8

def backspace : List UInt8 := [0x08,0x20,0x08]

namespace Reader

def put (r : Reader) (a : Nat) (c : UInt8) : Reader := { r with mem := update r.mem a c }

-- Printing stops at a NUL.
def mcPrint (r : Reader) (s : List UInt8) : Reader :=
  { r with printed := r.printed ++ s.takeWhile (· ≠ 0) }

def mcInputchar (r : Reader) (keys : Nat → UInt8) : UInt8 × Reader :=
  (keys r.read,{ r with read := r.read + 1 })

-- The switch, but for the carriage return.
def edit (buf : Nat) (r : Reader) (c : UInt8) : Reader :=
  if c = 0x08 ∨ c = 0x7f then
    if 0 < r.i then
      let r := r.put (buf + r.i - 1) 0
      { r with i := r.i - 1 }.mcPrint backspace
    else r
  else if c = 0x0a then r
  else
    let r := r.put (buf + r.i) c
    { r with i := (r.i + 1) % 256 }.mcPrint [c]

end Reader

def readlineLoop (keys : Nat → UInt8) (buf bufSize : Nat) (r : Reader) :
    Nat → Option (Nat × Reader)
  | 0 => none
  | n + 1 =>
    if r.i < bufSize - 1 then
      let (c,r) := r.mcInputchar keys
      let r := r.put (buf + r.i) c
      if c = 0x0d then some (r.i,(r.put (buf + r.i) 0).mcPrint [0x0d,0x0a])
      else readlineLoop keys buf bufSize (r.edit buf c) n
    else some (bufSize,r.put (buf + bufSize - 1) 0)

def readline (keys : Nat → UInt8) (m : Mem) (buf bufSize : Nat) (n : Nat) :
    Option (Nat × Reader) := readlineLoop keys buf bufSize ⟨m,0,0,[]⟩ n

def fgets (keys : Nat → UInt8) (m : Mem) (buf n : Nat) (k : Nat) : Option (Nat × Reader) := do
  let (len,r) ← readline keys m buf n k
  let r := if 0 < len ∧ len < n - 1 then (r.put (buf + len) 0x0a).put (buf + len + 1) 0 else r
  some (buf,r)

-- A line editor without a buffer.
def editLine (line : List UInt8) (c : UInt8) : List UInt8 :=
  if c = 0x08 ∨ c = 0x7f then line.dropLast
  else if c = 0x0a then line
  else line ++ [c]

def lineAfter (keys : Nat → UInt8) : Nat → List UInt8
  | 0 => []
  | k + 1 => editLine (lineAfter keys k) (keys k)

-- The `k`-th key is still waited for: no return has come, and the line has not been full.
def Reading (keys : Nat → UInt8) (bufSize k : Nat) : Prop :=
  ∀ j < k, keys j ≠ 0x0d ∧ (lineAfter keys j).length < bufSize - 1

def EndsByReturn (keys : Nat → UInt8) (bufSize k : Nat) : Prop :=
  Reading keys bufSize k ∧ (lineAfter keys k).length < bufSize - 1 ∧ keys k = 0x0d

def EndsFull (keys : Nat → UInt8) (bufSize k : Nat) : Prop :=
  Reading keys bufSize k ∧ (lineAfter keys k).length = bufSize - 1

-- After any moment with 256 chars or more in it, the line has been empty again.
def EmptiedAfter256 (keys : Nat → UInt8) (k : Nat) : Prop :=
  ∀ j ≤ k, 256 ≤ (lineAfter keys j).length → ∃ j', j < j' ∧ j' ≤ k ∧ lineAfter keys j' = []

-- The index is that of the line, unless it has wrapped around since the line was last empty.
structure Follows (keys : Nat → UInt8) (m : Mem) (buf bufSize k : Nat) (r : Reader) : Prop where
  read : r.read = k
  byte : r.i < 256
  le : r.i ≤ (lineAfter keys k).length
  same : r.i = (lineAfter keys k).length ↔ EmptiedAfter256 keys k
  held : r.i = (lineAfter keys k).length → slice r.mem buf r.i = lineAfter keys k
  frame : ∀ x, x < buf ∨ buf + bufSize ≤ x → r.mem x = m x

section Tracking

variable {keys : Nat → UInt8} {m : Mem} {buf bufSize k : Nat} {r : Reader}

theorem emptied_empty (h : lineAfter keys (k + 1) = []) : EmptiedAfter256 keys (k + 1) := by
  intro j hj hlen
  have hne : j ≠ k + 1 := by
    rintro rfl
    rw [h] at hlen
    exact absurd hlen (Nat.not_succ_le_zero 255)
  exact ⟨k + 1,by omega,le_rfl,h⟩

theorem not_emptied (h : 256 ≤ (lineAfter keys k).length) : ¬ EmptiedAfter256 keys k := by
  intro he
  obtain ⟨j,hj,hj',-⟩ := he k le_rfl h
  omega

theorem emptied_step (hne : lineAfter keys (k + 1) ≠ [])
    (hlt : (lineAfter keys (k + 1)).length < 256) :
    EmptiedAfter256 keys (k + 1) ↔ EmptiedAfter256 keys k := by
  constructor
  · intro h j hj hlen
    obtain ⟨j',hjj,hj',he⟩ := h j (by omega) hlen
    have hne' : j' ≠ k + 1 := by
      rintro rfl
      exact hne he
    exact ⟨j',hjj,by omega,he⟩
  · intro h j hj hlen
    have hne' : j ≠ k + 1 := by
      rintro rfl
      omega
    obtain ⟨j',hjj,hj',he⟩ := h j (by omega) hlen
    exact ⟨j',hjj,by omega,he⟩

theorem follows_start (keys : Nat → UInt8) (m : Mem) (buf bufSize : Nat) :
    Follows keys m buf bufSize 0 ⟨m,0,0,[]⟩ where
  read := rfl
  byte := Nat.zero_lt_succ 255
  le := Nat.le_refl 0
  same := by
    refine iff_of_true rfl fun j hj hlen => ?_
    obtain rfl : j = 0 := by omega
    exact absurd hlen (Nat.not_succ_le_zero 255)
  held := fun _ => rfl
  frame := fun _ _ => rfl

-- In a line that has chars but less than 256 the index goes with the length.
theorem Follows.same_next (h : Follows keys m buf bufSize k r) {i : Nat} (hbyte : i < 256)
    (hle : i ≤ (lineAfter keys (k + 1)).length)
    (hstep : (lineAfter keys (k + 1)).length < 256 → 0 < (lineAfter keys (k + 1)).length →
      (i = (lineAfter keys (k + 1)).length ↔ r.i = (lineAfter keys k).length)) :
    i = (lineAfter keys (k + 1)).length ↔ EmptiedAfter256 keys (k + 1) := by
  by_cases hempty : lineAfter keys (k + 1) = []
  · have hlen : (lineAfter keys (k + 1)).length = 0 := List.length_eq_zero_iff.mpr hempty
    exact iff_of_true (by omega) (emptied_empty hempty)
  · by_cases hlt : (lineAfter keys (k + 1)).length < 256
    · rw [hstep hlt (List.length_pos_of_ne_nil hempty),h.same,emptied_step hempty hlt]
    · exact iff_of_false (by omega) (not_emptied (not_lt.mp hlt))

-- The reader when a key has been stored, and has then been looked at.
def Reader.key (keys : Nat → UInt8) (buf : Nat) (r : Reader) : Reader :=
  ((r.mcInputchar keys).2.put (buf + r.i) (keys r.read)).edit buf (keys r.read)

theorem Follows.delete (h : Follows keys m buf bufSize k r)
    (hl : (lineAfter keys k).length < bufSize - 1) (hc : keys k = 0x08 ∨ keys k = 0x7f) :
    Follows keys m buf bufSize (k + 1) (r.key keys buf) := by
  have hline : lineAfter keys (k + 1) = (lineAfter keys k).dropLast := if_pos hc
  have hlen : (lineAfter keys (k + 1)).length = (lineAfter keys k).length - 1 := by
    rw [hline,List.length_dropLast]
  have hle := h.le
  have hbyte := h.byte
  have hkey : r.key keys buf = if 0 < r.i then
      ⟨update (update r.mem (buf + r.i) (keys k)) (buf + r.i - 1) 0,r.i - 1,k + 1,
        r.printed ++ backspace.takeWhile (· ≠ 0)⟩
      else ⟨update r.mem (buf + r.i) (keys k),r.i,k + 1,r.printed⟩ := by
    rw [Reader.key,h.read,Reader.edit,if_pos hc,← h.read]
    rfl
  rw [hkey]
  split
  · next hpos =>
    refine ⟨rfl,by dsimp only; omega,by dsimp only; omega,?_,fun hi => ?_,fun x hx => ?_⟩
    · refine h.same_next ?_ ?_ fun _ hlong => ?_ <;> dsimp only <;> omega
    · dsimp only at hi ⊢
      have hsame : r.i = (lineAfter keys k).length := by omega
      obtain ⟨j,hj⟩ : ∃ j, r.i = j + 1 := ⟨r.i - 1,by omega⟩
      have hheld := h.held hsame
      rw [hj,slice_succ] at hheld
      rw [hline,← hheld,List.dropLast_concat,hj,Nat.add_sub_cancel]
      rw [slice_update_above (by omega),slice_update_above (by omega)]
    · dsimp only
      rw [update_of_ne (by omega),update_of_ne (by omega)]
      exact h.frame x hx
  · next hpos =>
    refine ⟨rfl,hbyte,by dsimp only; omega,?_,fun hi => ?_,fun x hx => ?_⟩
    · refine h.same_next ?_ ?_ fun _ hlong => ?_ <;> dsimp only <;> omega
    · have hempty : lineAfter keys (k + 1) = [] := by
        refine List.length_eq_zero_iff.mp ?_
        change r.i = _ at hi
        omega
      have hi0 : r.i = 0 := by omega
      rw [hempty,hi0]
      rfl
    · dsimp only
      rw [update_of_ne (by omega)]
      exact h.frame x hx

theorem Follows.ignore (h : Follows keys m buf bufSize k r)
    (hl : (lineAfter keys k).length < bufSize - 1) (hc : keys k = 0x0a) :
    Follows keys m buf bufSize (k + 1) (r.key keys buf) := by
  have hdel : ¬ (keys k = 0x08 ∨ keys k = 0x7f) := by
    rw [hc]
    decide
  have hline : lineAfter keys (k + 1) = lineAfter keys k := (if_neg hdel).trans (if_pos hc)
  have hle := h.le
  have hkey : r.key keys buf = ⟨update r.mem (buf + r.i) (keys k),r.i,k + 1,r.printed⟩ := by
    rw [Reader.key,h.read,Reader.edit,if_neg hdel,if_pos hc,← h.read]
    rfl
  rw [hkey]
  refine ⟨rfl,h.byte,hline ▸ hle,?_,fun hi => ?_,fun x hx => ?_⟩
  · refine h.same_next h.byte (hline ▸ hle) fun _ _ => ?_
    rw [hline]
  · rw [hline] at hi ⊢
    exact (slice_update_above le_rfl).trans (h.held hi)
  · exact (update_of_ne (by omega) _ _).trans (h.frame x hx)

theorem Follows.append (h : Follows keys m buf bufSize k r)
    (hl : (lineAfter keys k).length < bufSize - 1) (hdel : ¬ (keys k = 0x08 ∨ keys k = 0x7f))
    (hlf : keys k ≠ 0x0a) : Follows keys m buf bufSize (k + 1) (r.key keys buf) := by
  have hline : lineAfter keys (k + 1) = lineAfter keys k ++ [keys k] :=
    (if_neg hdel).trans (if_neg hlf)
  have hlen : (lineAfter keys (k + 1)).length = (lineAfter keys k).length + 1 := by
    rw [hline,List.length_append,List.length_singleton]
  have hle := h.le
  have hbyte := h.byte
  have hkey : r.key keys buf = ⟨update r.mem (buf + r.i) (keys k),(r.i + 1) % 256,k + 1,
      r.printed ++ [keys k].takeWhile (· ≠ 0)⟩ := by
    rw [Reader.key,h.read,Reader.edit,if_neg hdel,if_neg hlf,← h.read]
    simp only [Reader.mcInputchar,Reader.put,Reader.mcPrint,update_idem]
  rw [hkey]
  refine ⟨rfl,Nat.mod_lt _ (by decide),by dsimp only; omega,?_,fun hi => ?_,fun x hx => ?_⟩
  · refine h.same_next ?_ ?_ fun hshort _ => ?_ <;> dsimp only <;> omega
  · dsimp only at hi ⊢
    have hi' : (r.i + 1) % 256 = r.i + 1 := by omega
    rw [hi',slice_succ,slice_update_above le_rfl,update_self,hline,h.held (by omega)]
  · exact (update_of_ne (by omega) _ _).trans (h.frame x hx)

theorem Follows.key (h : Follows keys m buf bufSize k r)
    (hl : (lineAfter keys k).length < bufSize - 1) :
    Follows keys m buf bufSize (k + 1) (r.key keys buf) := by
  by_cases hdel : keys k = 0x08 ∨ keys k = 0x7f
  · exact h.delete hl hdel
  · by_cases hlf : keys k = 0x0a
    · exact h.ignore hl hlf
    · exact h.append hl hdel hlf

-- While the line is edited, the loop makes a round for each key.
theorem reading_follows (m : Mem) (buf : Nat) (h : Reading keys bufSize k) :
    ∃ r, Follows keys m buf bufSize k r ∧
    ∀ x, Gives (readlineLoop keys buf bufSize r) x → Gives (readline keys m buf bufSize) x := by
  induction k with
  | zero => exact ⟨_,follows_start keys m buf bufSize,fun x hx => hx⟩
  | succ k ih =>
    obtain ⟨r,hr,hrun⟩ := ih fun j hj => h j (by omega)
    obtain ⟨hcr,hl⟩ := h k k.lt_succ_self
    refine ⟨r.key keys buf,hr.key hl,fun x hx => hrun x (.succ ?_)⟩
    have hi : r.i < bufSize - 1 := lt_of_le_of_lt hr.le hl
    have hc : ¬ keys r.read = 0x0d := by rwa [hr.read]
    have hround (n : Nat) : readlineLoop keys buf bufSize r (n + 1) =
        readlineLoop keys buf bufSize (r.key keys buf) n := by
      rw [readlineLoop,if_pos hi]
      exact if_neg hc
    simp only [hround]
    exact hx

theorem return_gives (m : Mem) (buf : Nat) (h : EndsByReturn keys bufSize k) :
    ∃ r, Follows keys m buf bufSize k r ∧
    Gives (readline keys m buf bufSize) (r.i,
      ⟨update r.mem (buf + r.i) 0,r.i,k + 1,r.printed ++ [0x0d,0x0a]⟩) := by
  obtain ⟨hreading,hl,hcr⟩ := h
  obtain ⟨r,hr,hrun⟩ := reading_follows m buf hreading
  refine ⟨r,hr,hrun _ (.succ (.of_eq fun n => ?_))⟩
  have hi : r.i < bufSize - 1 := lt_of_le_of_lt hr.le hl
  have hc : keys r.read = 0x0d := by rwa [hr.read]
  rw [readlineLoop,if_pos hi]
  dsimp only [Reader.mcInputchar]
  rw [if_pos hc,← hr.read]
  simp only [Reader.put,Reader.mcPrint,update_idem]
  rfl

-- A return gives a length below that of a full line, and a full line gives one above it.
theorem readlineLoop_length {n : Nat} {x : Nat × Reader}
    (h : readlineLoop keys buf bufSize r n = some x) : x.1 < bufSize - 1 ∨ x.1 = bufSize := by
  induction n generalizing r with
  | zero => exact nomatch h
  | succ n ih =>
    rw [readlineLoop] at h
    split at h
    · next hi =>
      dsimp only at h
      split at h
      · rw [← Option.some.inj h]
        exact .inl hi
      · exact ih h
    · rw [← Option.some.inj h]
      exact .inr rfl

end Tracking

-- What readline leaves: the line with its NUL, its length, and nothing else changed.
structure LineRead (m : Mem) (buf bufSize : Nat) (line : List UInt8) (x : Nat × Reader) : Prop where
  held : StrAt x.2.mem buf line
  length : x.1 = line.length
  frame : ∀ a, a < buf ∨ buf + bufSize ≤ a → x.2.mem a = m a

structure LineGot (m : Mem) (buf n : Nat) (line : List UInt8) (x : Nat × Reader) : Prop where
  held : StrAt x.2.mem buf line
  returned : x.1 = buf
  frame : ∀ a, a < buf ∨ buf + n ≤ a → x.2.mem a = m a

def withNewline (n : Nat) (line : List UInt8) : List UInt8 :=
  if line ≠ [] ∧ line.length + 1 < n then line ++ [0x0a] else line

structure EditsLines (keys : Nat → UInt8) (m : Mem) (buf bufSize : Nat) : Prop where
  byReturn : ∀ k, EndsByReturn keys bufSize k →
    ∃ x, Gives (readline keys m buf bufSize) x ∧ LineRead m buf bufSize (lineAfter keys k) x
  full : ∀ k, EndsFull keys bufSize k →
    ∃ x, Gives (readline keys m buf bufSize) x ∧ LineRead m buf bufSize (lineAfter keys k) x
  gotByReturn : ∀ k, EndsByReturn keys bufSize k → ∃ x, Gives (fgets keys m buf bufSize) x ∧
    LineGot m buf bufSize (withNewline bufSize (lineAfter keys k)) x
  gotFull : ∀ k, EndsFull keys bufSize k →
    ∃ x, Gives (fgets keys m buf bufSize) x ∧ LineGot m buf bufSize (lineAfter keys k) x

section Ends

variable {keys : Nat → UInt8} {m : Mem} {buf bufSize k : Nat}

theorem return_read_iff (m : Mem) (buf : Nat) (h : EndsByReturn keys bufSize k) :
    (∃ x, Gives (readline keys m buf bufSize) x ∧ LineRead m buf bufSize (lineAfter keys k) x) ↔
      0 ∉ lineAfter keys k ∧ EmptiedAfter256 keys k := by
  obtain ⟨r,hr,hrun⟩ := return_gives m buf h
  have hl := h.2.1
  have hle := hr.le
  constructor
  · rintro ⟨x,hx,hread⟩
    obtain rfl := hx.unique hrun
    exact ⟨fun hz => hread.held.nonzero 0 hz rfl,hr.same.mp hread.length⟩
  · rintro ⟨hz,he⟩
    have hsame := hr.same.mpr he
    refine ⟨_,hrun,StrAt.of_slice ?_ ?_ hz,hsame,fun a ha => ?_⟩
    · rw [← hsame]
      exact (slice_update_above le_rfl).trans (hr.held hsame)
    · rw [← hsame]
      exact update_self _ _ _
    · exact (update_of_ne (by omega) _ _).trans (hr.frame a ha)

theorem newline_held {x : Mem} {line : List UInt8} (h : StrAt x buf line) :
    StrAt (update (update x (buf + line.length) 0x0a) (buf + line.length + 1) 0) buf
      (line ++ [0x0a]) := by
  have hlen : (line ++ [(0x0a : UInt8)]).length = line.length + 1 := by
    rw [List.length_append,List.length_singleton]
  refine .of_slice ?_ ?_ ?_
  · rw [hlen,slice_update_above (by omega),slice_succ,slice_update_above le_rfl,update_self,
      h.slice_eq]
  · rw [hlen]
    exact update_self _ _ _
  · intro hz
    obtain hz | hz := List.mem_append.mp hz
    · exact h.nonzero 0 hz rfl
    · exact absurd (List.mem_singleton.mp hz) (by decide)

theorem return_got (h : EndsByReturn keys bufSize k) (hz : 0 ∉ lineAfter keys k)
    (he : EmptiedAfter256 keys k) : ∃ x, Gives (fgets keys m buf bufSize) x ∧
      LineGot m buf bufSize (withNewline bufSize (lineAfter keys k)) x := by
  obtain ⟨x,hx,hread⟩ := (return_read_iff m buf h).mpr ⟨hz,he⟩
  have hl := h.2.1
  generalize lineAfter keys k = line at hread hl ⊢
  have hlen := hread.length
  refine ⟨_,.bind hx (.of_eq fun n => rfl),?_⟩
  rw [withNewline]
  by_cases hpos : line ≠ []
  · have hlong := List.length_pos_of_ne_nil hpos
    rw [if_pos ⟨hpos,by omega⟩,if_pos (by omega),hlen]
    refine ⟨newline_held hread.held,rfl,fun a ha => ?_⟩
    change update (update x.2.mem (buf + line.length) 0x0a) (buf + line.length + 1) 0 a = m a
    rw [update_of_ne (by omega),update_of_ne (by omega)]
    exact hread.frame a ha
  · have hnil : line.length = 0 := List.length_eq_zero_iff.mpr (not_not.mp hpos)
    rw [if_neg (fun hp => hpos hp.1),if_neg (by omega)]
    exact ⟨hread.held,rfl,hread.frame⟩

-- With a full line the length is never right.
theorem full_not_read (hs : 1 ≤ bufSize) (h : EndsFull keys bufSize k) :
    ¬ ∃ x, Gives (readline keys m buf bufSize) x ∧
      LineRead m buf bufSize (lineAfter keys k) x := by
  rintro ⟨x,⟨n,hn⟩,hread⟩
  have hlen := readlineLoop_length (hn n le_rfl)
  have hfull := h.2
  have hsame := hread.length
  omega

end Ends

theorem lines_edited (keys : Nat → UInt8) (m : Mem) (buf : Nat) {bufSize : Nat}
    (hs : 1 ≤ bufSize) : EditsLines keys m buf bufSize ↔
      ∀ k, ¬ EndsFull keys bufSize k ∧ (EndsByReturn keys bufSize k →
        0 ∉ lineAfter keys k ∧ EmptiedAfter256 keys k) := by
  constructor
  · intro h k
    refine ⟨fun hk => full_not_read hs hk (h.full k hk),fun hk => ?_⟩
    exact (return_read_iff m buf hk).mp (h.byReturn k hk)
  · intro h
    refine ⟨fun k hk => (return_read_iff m buf hk).mpr ((h k).2 hk),
      fun k hk => absurd hk (h k).1,fun k hk => ?_,fun k hk => absurd hk (h k).1⟩
    obtain ⟨hz,he⟩ := (h k).2 hk
    exact return_got hk hz he

-- One letter, again and again.
def letterKeys : Nat → UInt8 := fun _ => 0x61

theorem lines_edited_letter : EditsLines letterKeys (fun _ => 0) 0 2 ↔
    ∀ k, ¬ EndsFull letterKeys 2 k ∧ (EndsByReturn letterKeys 2 k →
      0 ∉ lineAfter letterKeys k ∧ EmptiedAfter256 letterKeys k) :=
  lines_edited letterKeys (fun _ => 0) 0 (by decide)

-- The line "a" fills a buffer of two bytes, and its length is 1.
theorem lines_edited_full : EndsFull letterKeys 2 1 ∧ lineAfter letterKeys 1 = [0x61] ∧
    ∃ r, Gives (readline letterKeys (fun _ => 0) 0 2) (2,r) := by
  refine ⟨⟨fun j hj => ?_,rfl⟩,rfl,
    ⟨update (update (update (fun _ => 0) 0 0x61) 0 0x61) 1 0,1,1,[0x61]⟩,⟨2,fun n hn => ?_⟩⟩
  · obtain rfl : j = 0 := by omega
    exact ⟨by decide,by decide⟩
  · obtain ⟨k,rfl⟩ : ∃ k, n = k + 2 := ⟨n - 2,by omega⟩
    rfl

end RoscoM68k
