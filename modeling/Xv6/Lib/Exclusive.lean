import Mathlib

/-!
# Exclusive ownership

`Exclusive R` says that a thing `c` has at most one owner `i` (`R i c`). When one owner acts, it is enough to
look at what that owner gets.
-/

variable {ι γ : Type*} {R R' : ι → γ → Prop} {i j : ι} {c : γ}

def Exclusive (R : ι → γ → Prop) : Prop := ∀ i j c, R i c → R j c → i = j

namespace Exclusive

theorem mono (h : Exclusive R) (hR : ∀ i c, R' i c → R i c) : Exclusive R' :=
  fun i j c hi hj => h i j c (hR i c hi) (hR j c hj)

/-- Only `i` gets something, and what it gets it had, or nobody else has. -/
theorem step (h : Exclusive R) (hother : ∀ j, j ≠ i → ∀ c, R' j c → R j c)
    (hself : ∀ c, R' i c → R i c ∨ ∀ j, j ≠ i → ¬ R j c) : Exclusive R' := by
  have hi : ∀ j, j ≠ i → ∀ c, R' i c → ¬ R' j c := by
    intro j hj c hic hjc
    rcases hself c hic with hR | hR
    · exact hj (h j i c (hother j hj c hjc) hR)
    · exact hR j hj (hother j hj c hjc)
  intro j k c hj hk
  rcases eq_or_ne j i with hji | hji <;> rcases eq_or_ne k i with hki | hki
  · rw [hji, hki]
  · rw [hji] at hj; exact absurd hk (hi k hki c hj)
  · rw [hki] at hk; exact absurd hj (hi j hji c hk)
  · exact h j k c (hother j hji c hj) (hother k hki c hk)

end Exclusive
