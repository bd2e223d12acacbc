import Mathlib

/-!
# Reference counts

`refs φ a` counts the slots of a table of pointers that point to `a`, and says how the counts change when a
slot is set or cleared.
-/

variable {ι α : Type*} [Fintype ι] [DecidableEq ι] [DecidableEq α] {φ : ι → Option α} {x : ι} {a : α}

/-- The number of slots that point to `a`. -/
def refs (φ : ι → Option α) (a : α) : Nat := (Finset.univ.filter fun x => φ x = some a).card

omit [DecidableEq ι] in
theorem refs_pos (hx : φ x = some a) : 0 < refs φ a :=
  Finset.card_pos.mpr ⟨x, by simpa using hx⟩

omit [DecidableEq ι] in
theorem refs_eq_zero (h : ∀ x, φ x ≠ some a) : refs φ a = 0 :=
  Finset.card_eq_zero.mpr (Finset.filter_eq_empty_iff.mpr fun x _ => h x)

theorem refs_update_some (hx : φ x = none) :
    refs (Function.update φ x (some a)) = Function.update (refs φ) a (refs φ a + 1) := by
  funext b
  by_cases hb : b = a
  · subst hb
    rw [Function.update_self, refs, refs, ← Finset.card_insert_of_notMem (a := x) (by simp [hx])]
    congr 1
    ext y
    by_cases hy : y = x
    · subst hy; simp
    · simp [hy]
  · rw [Function.update_of_ne hb, refs, refs]
    congr 1
    ext y
    by_cases hy : y = x
    · subst hy; simp [hx, Ne.symm hb]
    · simp [Function.update_of_ne hy]

theorem refs_update_none (hx : φ x = some a) :
    refs (Function.update φ x none) = Function.update (refs φ) a (refs φ a - 1) := by
  have h := refs_update_some (φ := Function.update φ x none) (x := x) (a := a) (Function.update_self ..)
  rw [Function.update_idem, ← hx, Function.update_eq_self] at h
  rw [h, Function.update_self, Nat.add_sub_cancel, Function.update_idem, Function.update_eq_self]
