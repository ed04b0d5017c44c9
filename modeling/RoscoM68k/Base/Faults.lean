import Mathlib.Tactic
import Mathlib.Data.List.Basic

namespace RoscoM68k

-- How a call ends early: it gives up by itself, or it has left one of its buffers or tables.
inductive Fault where
  | refused
  | access
  deriving DecidableEq, Repr

def checkBounds (p : Prop) [Decidable p] : Except Fault Unit :=
  if p then .ok () else .error .refused

def entry {α : Type} (xs : List α) (i : Nat) : Except Fault α :=
  match xs[i]? with
  | some x => .ok x
  | none => .error .access

-- A value and what is behind it.
def takeByte {α : Type} : List α → Except Fault (α × List α)
  | [] => .error .access
  | b :: rest => .ok (b,rest)

section Binds

variable {ε α β : Type} {e : Except ε α} {f : α → Except ε β} {r : β}

theorem ok_bind (x : α) (f : α → Except ε β) : (Except.ok x >>= f) = f x := rfl

theorem error_bind (t : ε) (f : α → Except ε β) :
    ((Except.error t : Except ε α) >>= f) = .error t := rfl

theorem bind_eq_ok : (e >>= f) = .ok r ↔ ∃ x, e = .ok x ∧ f x = .ok r := by
  cases e with
  | error t =>
    rw [error_bind]
    simp
  | ok x =>
    rw [ok_bind]
    simp

end Binds

section Guarded

variable {α β : Type} {e : Except Fault α} {f : α → Except Fault β} {g : Unit → Except Fault β}
  {p : Prop} [Decidable p] {xs : List α} {x : α} {r : β} {i : Nat}


theorem check_pos (h : p) : checkBounds p = .ok () := if_pos h

theorem check_neg (h : ¬ p) : checkBounds p = .error .refused := if_neg h

theorem check_bind (g : Unit → Except Fault β) :
    (checkBounds p >>= g) = if p then g () else .error .refused := by
  unfold checkBounds
  split
  · rw [ok_bind]
  · rw [error_bind]

theorem check_bind_ok : (checkBounds p >>= g) = .ok r ↔ p ∧ g () = .ok r := by
  rw [check_bind]
  split
  · rename_i h
    simp [h]
  · rename_i h
    simp [h]

theorem entry_some (h : xs[i]? = some x) : entry xs i = .ok x := by
  rw [entry,h]

theorem entry_eq_ok : entry xs i = .ok x ↔ xs[i]? = some x := by
  unfold entry
  cases xs[i]? with
  | none => simp
  | some y => simp

theorem entry_of_lt (h : i < xs.length) : entry xs i = .ok xs[i] :=
  entry_some (List.getElem?_eq_getElem h)

-- The call stays inside its buffers.
def Faultless (e : Except Fault α) : Prop := e ≠ .error .access

theorem Faultless.ok (x : α) : Faultless (.ok x) := by
  unfold Faultless
  simp

theorem Faultless.refused : Faultless (.error .refused : Except Fault α) := by
  unfold Faultless
  simp

theorem Faultless.bind (h : Faultless e) (h' : ∀ x, e = .ok x → Faultless (f x)) :
    Faultless (e >>= f) := by
  cases e with
  | error t =>
    cases t with
    | refused =>
      rw [error_bind]
      exact .refused
    | access => exact absurd rfl h
  | ok x =>
    rw [ok_bind]
    exact h' x rfl

theorem Faultless.check (h : p → Faultless (g ())) : Faultless (checkBounds p >>= g) := by
  rw [check_bind]
  split
  · rename_i hp
    exact h hp
  · exact .refused

theorem Faultless.entry (h : i < xs.length) : Faultless (entry xs i) := by
  rw [entry_of_lt h]
  exact .ok _

theorem Faultless.entry_bind {f : α → Except Fault β} (hi : i < xs.length)
    (h : Faultless (f xs[i])) :
    Faultless (RoscoM68k.entry xs i >>= f) := by
  rw [entry_of_lt hi,ok_bind]
  exact h

-- A safe call gives a result or gives up.
theorem Faultless.cases (h : Faultless e) : (∃ x, e = .ok x) ∨ e = .error .refused := by
  cases e with
  | ok x => exact .inl ⟨x,rfl⟩
  | error t =>
    cases t with
    | refused => exact .inr rfl
    | access => exact absurd rfl h

end Guarded
end RoscoM68k
