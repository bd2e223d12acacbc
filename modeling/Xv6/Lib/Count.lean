import Mathlib

/-!
# Sums over a family of which one member changes

A finite family of processes, each with a state; a step changes the state of one of them. `Family.sum_update` says what
becomes of a sum over the family, and `Family.card_update` of the number of members in some kind of state.
-/

namespace Family

variable {ι α : Type*} [Fintype ι] [DecidableEq ι] {g : ι → α}

theorem sum_update (f : ι → α → Nat) (g : ι → α) (i : ι) (a : α) :
    ∑ x, f x (Function.update g i a x) + f i (g i) = ∑ x, f x (g x) + f i a := by
  have hrest : ∑ x ∈ Finset.univ.erase i, f x (Function.update g i a x) = ∑ x ∈ Finset.univ.erase i, f x (g x) := by
    refine Finset.sum_congr rfl fun x hx => ?_
    rw [Function.update_of_ne (Finset.ne_of_mem_erase hx)]
  rw [← Finset.add_sum_erase _ _ (Finset.mem_univ i), ← Finset.add_sum_erase _ (fun x => f x (g x)) (Finset.mem_univ i),
    hrest, Function.update_self]
  omega

omit [DecidableEq ι] in
theorem card_eq_sum (p : α → Bool) : (Finset.univ.filter fun x => p (g x)).card = ∑ x, (p (g x)).toNat := by
  rw [Finset.card_filter]
  refine Finset.sum_congr rfl fun x _ => ?_
  cases p (g x) <;> rfl

theorem card_update (p : α → Bool) (g : ι → α) (i : ι) (a : α) :
    (Finset.univ.filter fun x => p (Function.update g i a x)).card + (p (g i)).toNat =
      (Finset.univ.filter fun x => p (g x)).card + (p a).toNat := by
  rw [card_eq_sum, card_eq_sum]
  exact sum_update (fun _ a => (p a).toNat) g i a

theorem all_of_card {n k : Nat} {g : Fin n → α} {p : α → Bool} (hk : n ≤ k) (h : (Finset.univ.filter fun x => p (g x)).card = k)
    (i : Fin n) : p (g i) = true := by
  have hall : (Finset.univ.filter fun x => p (g x)) = Finset.univ := by
    refine Finset.eq_univ_of_card _ (le_antisymm (Finset.card_le_univ _) ?_)
    rwa [h, Fintype.card_fin]
  have hi := Finset.mem_univ i
  rw [← hall] at hi
  simpa using hi

end Family
