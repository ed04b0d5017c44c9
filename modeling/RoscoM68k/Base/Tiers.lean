import Mathlib.Tactic
import Mathlib.Data.List.Rotate

namespace RoscoM68k
open Function

-- One queue for each priority; the highest one that is not empty is served first.
abbrev Tiers (n : Nat) (α : Type) := Fin n → List α

namespace Tiers

variable {n : Nat} {α : Type} {q q' : Tiers n α} {p p' : Fin n} {t : α} {ts : List α}

structure Top (q : Tiers n α) (p : Fin n) : Prop where
  busy : q p ≠ []
  above : ∀ r, p < r → q r = []

theorem Top.unique (h : Top q p) (h' : Top q p') : p = p' := by
  rcases lt_trichotomy p p' with hlt | he | hlt
  · exact absurd (h.above p' hlt) h'.busy
  · exact he
  · exact absurd (h'.above p hlt) h.busy

theorem empty_or_top (q : Tiers n α) : (∀ p, q p = []) ∨ ∃ p, Top q p := by
  by_cases h : ∀ p, q p = []
  · exact .inl h
  · right
    obtain ⟨p,hp⟩ := not_forall.mp h
    obtain ⟨r,-,hr⟩ := (Finset.univ.filter (fun r => q r ≠ [])).exists_le_maximal (a := p)
      (by simpa using hp)
    refine ⟨r,by simpa using hr.prop,fun s hs => ?_⟩
    by_contra hne
    exact absurd hs (not_lt_of_ge (hr.2 (by simpa using hne) hs.le))

def enqueue (q : Tiers n α) (p : Fin n) (t : α) : Tiers n α := update q p (q p ++ [t])

@[simp] theorem enqueue_self (q : Tiers n α) (p : Fin n) (t : α) :
    q.enqueue p t p = q p ++ [t] := update_self _ _ _

theorem enqueue_of_ne (h : p' ≠ p) : q.enqueue p t p' = q p' := update_of_ne h _ _

-- The head of the top queue is served.
structure Served (q : Tiers n α) (p : Fin n) (t : α) (q' : Tiers n α) : Prop extends Top q p where
  head : q p = t :: q' p
  rest : ∀ r, r ≠ p → q' r = q r

-- Serving the top queue and putting the one served at its end turns that queue by one place.
theorem Served.turn (h : Served q p t q') :
    q'.enqueue p t p = (q p).rotate 1 ∧ Top (q'.enqueue p t) p := by
  have he : q'.enqueue p t p = (q p).rotate 1 := by
    rw [enqueue_self,h.head,List.rotate_cons_succ,List.rotate_zero]
  refine ⟨he,by simp,fun r hr => ?_⟩
  rw [enqueue_of_ne hr.ne',h.rest r hr.ne']
  exact h.above r hr

end Tiers
end RoscoM68k
