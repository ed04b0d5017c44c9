import Mathlib.Tactic

namespace RoscoM68k

-- A position in a ring of `count` lines of `len` cells, and the line that comes first.
@[ext] structure LineRing (len count : Nat) where
  cur : Nat
  start : Nat
  cur_lt : cur < len * count
  start_lt : start < len * count
  aligned : len ∣ start

namespace LineRing

variable {len count : Nat}

-- The end of the ring is its start.
def wrap (len count n : Nat) : Nat := if n = len * count then 0 else n

theorem wrap_lt {n : Nat} (hpos : 0 < len * count) (h : n ≤ len * count) :
    wrap len count n < len * count := by
  unfold wrap
  split <;> omega

theorem dvd_wrap {n : Nat} (h : len ∣ n) : len ∣ wrap len count n := by
  unfold wrap
  split
  · exact dvd_zero len
  · exact h

theorem pos (r : LineRing len count) : 0 < len * count := Nat.zero_lt_of_lt r.cur_lt

-- Lines do not cross the end.
theorem line_le {n : Nat} (h : n < len * count) : (n / len + 1) * len ≤ len * count := by
  have hlt : n / len < count := Nat.div_lt_of_lt_mul h
  rw [Nat.mul_comm]
  exact Nat.mul_le_mul_left len hlt

variable (r : LineRing len count)

theorem start_line : r.start + len ≤ len * count := by
  have h := line_le r.start_lt
  rwa [Nat.succ_mul,Nat.div_mul_cancel r.aligned] at h

-- Where the position comes round to the first line, that line makes room.
def Meets (n : Nat) : Prop := wrap len count n = r.start

instance (n : Nat) : Decidable (r.Meets n) := inferInstanceAs (Decidable (_ = _))

def moveTo (n : Nat) (h : n ≤ len * count) : LineRing len count where
  cur := wrap len count n
  start := if r.Meets n then wrap len count (r.start + len) else r.start
  cur_lt := wrap_lt r.pos h
  start_lt := by
    split
    · exact wrap_lt r.pos r.start_line
    · exact r.start_lt
  aligned := by
    split
    · exact dvd_wrap (Nat.dvd_add r.aligned (dvd_refl len))
    · exact r.aligned

def put : LineRing len count := r.moveTo (r.cur + 1) r.cur_lt

def lineEnd : Nat := (r.cur / len + 1) * len

def newline : LineRing len count := r.moveTo r.lineEnd (line_le r.cur_lt)

def back : LineRing len count :=
  if r.cur = r.start then r
  else
    { r with
      cur := r.cur - 1
      cur_lt := Nat.lt_of_le_of_lt (Nat.sub_le _ _) r.cur_lt }

def home : LineRing len count :=
  { r with
    cur := 0
    cur_lt := r.pos }

-- Where the position is seen, counted from the first line.
def visible : Nat := (r.cur + len * count - r.start) % (len * count)

section Line

variable {r}

theorem succ_mod (h : r.cur % len + 1 < len) : (r.cur + 1) % len = r.cur % len + 1 := by
  rw [Nat.add_mod,Nat.mod_eq_of_lt (by omega : 1 < len),Nat.mod_eq_of_lt h]

-- Inside a line a step neither comes round nor meets the first line.
theorem not_dvd_succ (h : r.cur % len + 1 < len) : ¬ len ∣ r.cur + 1 := by
  intro hd
  have hz := Nat.mod_eq_zero_of_dvd hd
  rw [succ_mod h] at hz
  omega

theorem wrap_succ (h : r.cur % len + 1 < len) : wrap len count (r.cur + 1) = r.cur + 1 :=
  if_neg fun he => not_dvd_succ h (Dvd.intro count he.symm)

theorem not_meets_succ (h : r.cur % len + 1 < len) : ¬ r.Meets (r.cur + 1) := by
  unfold Meets
  rw [wrap_succ h]
  intro he
  exact not_dvd_succ h (he ▸ r.aligned)

theorem put_cur (h : r.cur % len + 1 < len) : r.put.cur = r.cur + 1 := wrap_succ h

theorem put_start (h : r.cur % len + 1 < len) : r.put.start = r.start := if_neg (not_meets_succ h)

theorem put_lineEnd (h : r.cur % len + 1 < len) : r.put.lineEnd = r.lineEnd := by
  have hdiv : (r.cur + 1) / len = r.cur / len := by
    have hr := Nat.div_add_mod r.cur len
    refine Nat.div_eq_of_lt_le ?_ ?_
    · rw [Nat.mul_comm]
      omega
    · rw [Nat.succ_mul,Nat.mul_comm]
      omega
  unfold lineEnd
  rw [put_cur h,hdiv]

theorem put_meets (h : r.cur % len + 1 < len) :
    r.put.Meets r.put.lineEnd ↔ r.Meets r.lineEnd := by
  unfold Meets
  rw [put_lineEnd h,put_start h]

theorem put_newline (h : r.cur % len + 1 < len) : r.put.newline = r.newline := by
  ext
  · exact congrArg (wrap len count) (put_lineEnd h)
  · unfold newline moveTo
    simp only [put_meets h,put_start h]

-- The last step of a line leads to the next one.
theorem lineEnd_last (h : r.cur % len + 1 = len) : r.lineEnd = r.cur + 1 := by
  have hr := Nat.div_add_mod' r.cur len
  unfold lineEnd
  rw [Nat.succ_mul]
  omega

theorem put_last (h : r.cur % len + 1 = len) : r.put = r.newline := by
  unfold put newline
  simp only [lineEnd_last h]

end Line
end LineRing
end RoscoM68k
