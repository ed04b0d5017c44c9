import Mathlib.Tactic
import Mathlib.Data.List.Basic

namespace RoscoM68k
open Function

section Bursts

variable {σ β : Type} {step : σ → β → σ} {s t : σ} {xs us us' ys : List β}

-- A register that values go into one after the other, and that never forgets a difference: `width`
-- values behind each other can be told from what has become of it.
structure Distinguishing (step : σ → β → σ) (width : Nat) : Prop where
  kept : ∀ b, Injective fun s => step s b
  told : ∀ (s : σ) (us us' : List β), us.length = us'.length → us.length ≤ width →
    us.foldl step s = us'.foldl step s → us = us'

theorem foldl_injective (h : ∀ b, Injective fun s => step s b) (ys : List β)
    (he : ys.foldl step s = ys.foldl step t) : s = t := by
  induction ys generalizing s t with
  | nil => exact he
  | cons b ys ih => exact h b (ih he)

-- A burst of wrong values makes another register of it.
theorem Distinguishing.burst {width : Nat} (h : Distinguishing step width)
    (hlen : us.length = us'.length) (hw : us.length ≤ width) (hne : us ≠ us') (s : σ)
    (xs ys : List β) : (xs ++ us ++ ys).foldl step s ≠ (xs ++ us' ++ ys).foldl step s := by
  intro he
  simp only [List.foldl_append] at he
  exact hne (h.told _ us us' hlen hw (foldl_injective h.kept ys he))

-- For two values it is enough that two steps tell them apart.
theorem Distinguishing.of_pairs (hk : ∀ b, Injective fun s => step s b)
    (h : ∀ s b c b' c', step (step s b) c = step (step s b') c' → b = b' ∧ c = c') :
    Distinguishing step 2 where
  kept := hk
  told := by
    intro s us us' hlen hw he
    match us, us' with
    | [], [] => rfl
    | [b], [b'] =>
      -- Any value behind the one that is asked about.
      have hstep : step s b = step s b' := he
      have hpair : step (step s b) b = step (step s b') b := by rw [hstep]
      rw [(h s b b b' b hpair).1]
    | [b,c], [b',c'] =>
      obtain ⟨hb,hc⟩ := h s b c b' c' he
      rw [hb,hc]
    | _ :: _ :: _ :: _, _ =>
      simp only [List.length_cons] at hw
      omega

end Bursts
end RoscoM68k
