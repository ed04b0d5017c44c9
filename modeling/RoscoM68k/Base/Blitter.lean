import Mathlib.Tactic
import Mathlib.Logic.Function.Basic

namespace RoscoM68k
open Function

section Writes

variable {α : Type} {p : Nat → Nat} {g : Nat → (Nat → α) → α} {m : Nat → α} {i k n x : Nat}

-- Writes to a memory one after the other: the i-th goes to `p i`, and its value may depend on what
-- the memory then holds.
def writes (p : Nat → Nat) (g : Nat → (Nat → α) → α) : Nat → (Nat → α) → Nat → α
  | 0, m => m
  | n + 1, m => update (writes p g n m) (p n) (g n (writes p g n m))

theorem writes_add (p : Nat → Nat) (g : Nat → (Nat → α) → α) (n k : Nat) (m : Nat → α) :
    writes p g (n + k) m =
      writes (fun i => p (n + i)) (fun i => g (n + i)) k (writes p g n m) := by
  induction k with
  | zero => rfl
  | succ k ih => rw [← Nat.add_assoc,writes,ih,writes]

theorem writes_congr {p' : Nat → Nat} {g' : Nat → (Nat → α) → α} (hp : ∀ i < n, p' i = p i)
    (hg : ∀ i < n, g' i = g i) : writes p' g' n m = writes p g n m := by
  induction n with
  | zero => rfl
  | succ n ih =>
    rw [writes,writes,hp n n.lt_succ_self,hg n n.lt_succ_self]
    rw [ih (fun i hi => hp i (by omega)) (fun i hi => hg i (by omega))]

theorem writes_off (h : ∀ i < n, p i ≠ x) : writes p g n m x = m x := by
  induction n with
  | zero => rfl
  | succ n ih =>
    rw [writes,update_of_ne (Ne.symm (h n n.lt_succ_self))]
    exact ih (fun i hi => h i (by omega))

-- Where no write goes to a place that another goes to or that a later one looks at, the order does
-- not matter.
theorem writes_at (hp : ∀ i < n, ∀ j < i, p j ≠ p i) (hg : ∀ i < n, g i (writes p g i m) = g i m)
    (hi : i < n) : writes p g n m (p i) = g i m := by
  induction n with
  | zero => omega
  | succ n ih =>
    rw [writes]
    rcases Nat.lt_succ_iff_lt_or_eq.mp hi with h | rfl
    · rw [update_of_ne (hp n n.lt_succ_self i h)]
      exact ih (fun i hi => hp i (by omega)) (fun i hi => hg i (by omega)) h
    · rw [update_self]
      exact hg i i.lt_succ_self

-- A value that depends on the words `S` only.
def LooksAt (f : (Nat → α) → α) (S : Set Nat) : Prop :=
  ∀ m m' : Nat → α, (∀ x ∈ S, m x = m' x) → f m = f m'

theorem writes_ahead {S : Nat → Set Nat} (hg : ∀ i < n, LooksAt (g i) (S i))
    (hS : ∀ i < n, ∀ x ∈ S i, ∀ j < i, p j ≠ x) (hi : i < n) : g i (writes p g i m) = g i m :=
  hg i hi _ _ (fun x hx => writes_off (fun j hj => hS i hi x hx j hj))

-- One value for all places.
theorem writes_const (p : Nat → Nat) (v : α) (n : Nat) (m : Nat → α) (x : Nat) :
    writes p (fun _ _ => v) n m x = if ∃ i < n, p i = x then v else m x := by
  induction n with
  | zero => simp [writes]
  | succ n ih =>
    rw [writes,update_apply,ih]
    by_cases hn : x = p n
    · rw [if_pos hn,if_pos ⟨n,n.lt_succ_self,hn.symm⟩]
    · rw [if_neg hn]
      have hiff : (∃ i < n, p i = x) ↔ ∃ i < n + 1, p i = x := by
        constructor
        · rintro ⟨i,hi,hx⟩
          exact ⟨i,by omega,hx⟩
        · rintro ⟨i,hi,hx⟩
          have hne : i ≠ n := fun he => hn (he ▸ hx.symm)
          exact ⟨i,by omega,hx⟩
      simp only [hiff]

-- Words copied one after the other, none from a place that was written before.
theorem copies_at (p q : Nat → Nat) (hp : ∀ i < n, ∀ j < i, p j ≠ p i)
    (hq : ∀ i < n, ∀ j < i, p j ≠ q i) (hi : i < n) :
    writes p (fun i m => m (q i)) n m (p i) = m (q i) :=
  writes_at hp (fun i hi => writes_off (hq i hi)) hi

-- Memory that also tells which of its words were written.
def unmark (m : Nat → α × Bool) : Nat → α := fun x => (m x).1

theorem writes_fst (m : Nat → α × Bool) :
    unmark (writes p (fun i m => (g i (unmark m),true)) n m) = writes p g n (unmark m) := by
  induction n with
  | zero => rfl
  | succ n ih =>
    rw [writes,writes,← ih]
    funext x
    by_cases hx : x = p n
    · subst hx
      rw [unmark,update_self,update_self]
    · rw [unmark,update_of_ne hx,update_of_ne hx]
      rfl

theorem writes_snd {g : Nat → (Nat → α × Bool) → α} (m : Nat → α × Bool) (x : Nat) :
    (writes p (fun i m => (g i m,true)) n m x).2 = true ↔ (m x).2 = true ∨ ∃ i < n, p i = x := by
  induction n with
  | zero => simp [writes]
  | succ n ih =>
    rw [writes]
    by_cases hx : x = p n
    · subst hx
      rw [update_self]
      exact ⟨fun _ => Or.inr ⟨n,n.lt_succ_self,rfl⟩,fun _ => rfl⟩
    · rw [update_of_ne hx,ih]
      refine or_congr_right ⟨?_,?_⟩
      · rintro ⟨i,hi,he⟩
        exact ⟨i,by omega,he⟩
      · rintro ⟨i,hi,he⟩
        have hne : i ≠ n := fun hn => hx (hn ▸ he.symm)
        exact ⟨i,by omega,he⟩

end Writes

-- An operation of a blitter on words: a source, of which a constant may take the place, the
-- numbers of lines and of words less one, and what is added to an address after a line. `merge`
-- gets what a word holds and what comes to it, at the first and at the last word of a line.
structure Blit (α : Type) where
  fixed : Option α
  src : Nat
  modS : Nat
  dst : Nat
  modD : Nat
  lines : Nat
  words : Nat
  merge : Bool → Bool → α → α → α

namespace Blit

variable {α : Type} (N : Nat) (B : Blit α)

def source (s : Nat) (m : Nat → α) : α := B.fixed.getD (m (s % N))

def value (first last : Bool) (s d : Nat) (m : Nat → α) : α :=
  B.merge first last (m (d % N)) (B.source N s m)

-- A line from one of its words on, with as many words after that one.
def line (N : Nat) (B : Blit α) : Nat → Bool → Nat → Nat → (Nat → α) → Nat → α
  | 0, first, s, d, m => update m (d % N) (B.value N first true s d m)
  | k + 1, first, s, d, m =>
    line N B k false (s + 1) (d + 1) (update m (d % N) (B.value N first false s d m))

def rows (N : Nat) (B : Blit α) : Nat → Nat → Nat → (Nat → α) → Nat → α
  | 0, s, d, m => B.line N B.words true s d m
  | k + 1, s, d, m =>
    rows N B k (s + (B.words + 1 + B.modS)) (d + (B.words + 1 + B.modD))
      (B.line N B.words true s d m)

-- The memory has `N` words.
def run (m : Nat → α) : Nat → α := B.rows N B.lines B.src B.dst m

-- The address of the i-th word of an operation.
def place (a mod i : Nat) : Nat := a + i / (B.words + 1) * (B.words + 1 + mod) + i % (B.words + 1)

def step (s d i : Nat) (m : Nat → α) : α :=
  B.value N (i % (B.words + 1) = 0) (i % (B.words + 1) = B.words) (B.place s B.modS i)
    (B.place d B.modD i) m

-- The same operation on words that tell whether they were written.
def marked : Blit (α × Bool) where
  fixed := B.fixed.map (fun v => (v,true))
  src := B.src
  modS := B.modS
  dst := B.dst
  modD := B.modD
  lines := B.lines
  words := B.words
  merge first last old s := (B.merge first last old.1 s.1,true)

theorem marked_step (s d i : Nat) (m : Nat → α × Bool) :
    B.marked.step N s d i m = (B.step N s d i (unmark m),true) := by
  have hsource (s : Nat) : (B.marked.source N s m).1 = B.source N s (unmark m) := by
    unfold source marked
    cases B.fixed <;> rfl
  change (B.merge _ _ _ (B.marked.source N _ m).1,true) = _
  rw [hsource]
  rfl

theorem line_eq (k : Nat) (first : Bool) (s d : Nat) (m : Nat → α) :
    B.line N k first s d m = writes (fun i => (d + i) % N)
      (fun i => B.value N (first && decide (i = 0)) (i = k) (s + i) (d + i)) (k + 1) m := by
  induction k generalizing first s d m with
  | zero => simp [line,writes]
  | succ k ih =>
    have hadd : k + 1 + 1 = 1 + (k + 1) := by omega
    rw [hadd,writes_add,line,ih]
    have hfirst : writes (fun i => (d + i) % N)
        (fun i => B.value N (first && decide (i = 0)) (i = k + 1) (s + i) (d + i)) 1 m =
        update m (d % N) (B.value N first false s d m) := by
      simp [writes]
    rw [hfirst]
    refine (writes_congr (fun i _ => ?_) (fun i _ => ?_)).symm
    · simp only [Nat.add_assoc]
    · have hk : (1 + i = k + 1) ↔ i = k := by omega
      simp [hk,Nat.add_assoc]

theorem place_add (a mod i : Nat) :
    B.place a mod (B.words + 1 + i) = B.place (a + (B.words + 1 + mod)) mod i := by
  unfold place
  have hd : (B.words + 1 + i) / (B.words + 1) = i / (B.words + 1) + 1 := by
    rw [Nat.add_div_left _ (by omega)]
  rw [hd,Nat.add_mod_left,Nat.add_mul,Nat.one_mul]
  omega

theorem rows_eq (k s d : Nat) (m : Nat → α) :
    B.rows N k s d m = writes (fun i => B.place d B.modD i % N) (B.step N s d)
      ((k + 1) * (B.words + 1)) m := by
  have hline (s d : Nat) (m : Nat → α) : B.line N B.words true s d m =
      writes (fun i => B.place d B.modD i % N) (B.step N s d) (B.words + 1) m := by
    rw [line_eq]
    refine (writes_congr (fun i hi => ?_) (fun i hi => ?_)).symm
    · simp [place,Nat.div_eq_of_lt hi,Nat.mod_eq_of_lt hi]
    · funext m
      simp [step,place,Nat.div_eq_of_lt hi,Nat.mod_eq_of_lt hi]
  induction k generalizing s d m with
  | zero => rw [rows,hline,Nat.zero_add,Nat.one_mul]
  | succ k ih =>
    have hadd : (k + 1 + 1) * (B.words + 1) = B.words + 1 + (k + 1) * (B.words + 1) := by ring
    rw [hadd,writes_add,rows,ih,hline]
    refine (writes_congr (fun i _ => ?_) (fun i _ => ?_)).symm
    · simp only [place_add]
    · funext m
      simp only [step,place_add,Nat.add_mod_left]

theorem run_eq (m : Nat → α) :
    B.run N m = writes (fun i => B.place B.dst B.modD i % N) (B.step N B.src B.dst)
      ((B.lines + 1) * (B.words + 1)) m :=
  B.rows_eq N B.lines B.src B.dst m

theorem marked_run (m : Nat → α × Bool) :
    B.marked.run N m = writes (fun i => B.place B.dst B.modD i % N)
      (fun i m => (B.step N B.src B.dst i (unmark m),true)) ((B.lines + 1) * (B.words + 1)) m := by
  rw [run_eq]
  exact writes_congr (fun i _ => rfl) (fun i _ => funext (B.marked_step N _ _ i))

-- With a modulo that does not lead back the addresses go up.
theorem place_lt {i j : Nat} (a mod : Nat) (h : i < j) : B.place a mod i < B.place a mod j := by
  unfold place
  obtain ⟨W,hW⟩ : ∃ W, W = B.words + 1 := ⟨_,rfl⟩
  rw [← hW]
  have hi := Nat.mod_lt i (show 0 < W by omega)
  have hdi := Nat.div_add_mod i W
  have hdj := Nat.div_add_mod j W
  rcases Nat.lt_or_ge (i / W) (j / W) with hq | hq
  · have hle : (i / W + 1) * (W + mod) ≤ j / W * (W + mod) := Nat.mul_le_mul_right _ hq
    rw [Nat.add_mul,Nat.one_mul] at hle
    omega
  · have hqe : i / W = j / W := Nat.le_antisymm (Nat.div_le_div_right h.le) hq
    rw [hqe] at hdi ⊢
    omega

-- An operation with a constant source, with a modulo that does not lead back and up to the end of
-- the memory at most.
section Fill

variable {N B} {v : α} {m : Nat → α} {i x n : Nat}

theorem fill_place (hn : n = (B.lines + 1) * (B.words + 1)) (hi : i < n)
    (hend : B.place B.dst B.modD (n - 1) < N) :
    B.place B.dst B.modD i % N = B.place B.dst B.modD i := by
  refine Nat.mod_eq_of_lt (lt_of_le_of_lt ?_ hend)
  rcases Nat.lt_or_ge i (n - 1) with h | h
  · exact (B.place_lt B.dst B.modD h).le
  · rw [show i = n - 1 by omega]

theorem fill_at (hv : B.fixed = some v) (hn : n = (B.lines + 1) * (B.words + 1)) (hi : i < n)
    (hend : B.place B.dst B.modD (n - 1) < N) :
    B.run N m (B.place B.dst B.modD i) =
      B.merge (i % (B.words + 1) = 0) (i % (B.words + 1) = B.words)
        (m (B.place B.dst B.modD i)) v := by
  have hplace {j : Nat} (hj : j < n) := fill_place hn hj hend
  have hne : ∀ i < n, ∀ j < i, B.place B.dst B.modD j % N ≠ B.place B.dst B.modD i % N := by
    intro i hi j hj
    rw [hplace hi,hplace (hj.trans hi)]
    exact (B.place_lt B.dst B.modD hj).ne
  have hlook : ∀ i < n, LooksAt (B.step N B.src B.dst i) {B.place B.dst B.modD i % N} := by
    intro i _ m m' h
    rw [step,step,value,value,source,source,hv,h _ rfl]
    rfl
  have hat := writes_at (m := m) hne
    (fun i hi => writes_ahead hlook (fun i hi x hx j hj => hx ▸ hne i hi j hj) hi) hi
  rw [hplace hi] at hat
  rw [run_eq,← hn,hat,step,value,source,hv,hplace hi]
  rfl

theorem fill_off (hn : n = (B.lines + 1) * (B.words + 1))
    (hend : B.place B.dst B.modD (n - 1) < N) (hx : ∀ i < n, B.place B.dst B.modD i ≠ x) :
    B.run N m x = m x := by
  rw [run_eq,← hn]
  refine writes_off (fun i hi => ?_)
  rw [fill_place hn hi hend]
  exact hx i hi

end Fill

end Blit
end RoscoM68k
