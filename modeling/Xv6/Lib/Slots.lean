import Mathlib

/-!
# Tables of slots

A table has `n` slots; `t i` is slot `i`, which is empty or holds a key and a value. `Maps t n M` says that no key is in two
slots, and that `M` is the map that the table makes.
-/

namespace Slots

open Function (update update_of_ne update_self)

variable {K V : Type*} {t t' : Nat → Option (K × V)} {n i : Nat} {M : K → Option V} {k : K} {v : V}

structure Maps (t : Nat → Option (K × V)) (n : Nat) (M : K → Option V) : Prop where
  mem : ∀ k v, M k = some v ↔ ∃ i < n, t i = some (k, v)
  inj : ∀ i < n, ∀ j < n, ∀ k v w, t i = some (k, v) → t j = some (k, w) → i = j

namespace Maps

theorem empty (t : Nat → Option (K × V)) : Maps t 0 fun _ => none := by
  refine ⟨fun k v => ⟨fun h => ?_, fun h => ?_⟩, fun i hi => absurd hi (Nat.not_lt_zero i)⟩
  · cases h
  · obtain ⟨i, hi, -⟩ := h
    exact absurd hi (Nat.not_lt_zero i)

theorem eq_none (h : Maps t n M) (hk : ∀ i < n, ∀ v, t i ≠ some (k, v)) : M k = none := by
  by_contra hne
  obtain ⟨v, hv⟩ := Option.ne_none_iff_exists'.mp hne
  obtain ⟨i, hi, hti⟩ := (h.mem k v).mp hv
  exact hk i hi v hti

theorem eq_some (h : Maps t n M) (hi : i < n) (hti : t i = some (k, v)) : M k = some v := (h.mem k v).mpr ⟨i, hi, hti⟩

theorem congr (h : Maps t n M) (ht : ∀ i < n, t' i = t i) : Maps t' n M := by
  refine ⟨fun k v => (h.mem k v).trans (exists_congr fun i => and_congr_right fun hi => by rw [ht i hi]), fun i hi j hj k v w => ?_⟩
  rw [ht i hi, ht j hj]
  exact h.inj i hi j hj k v w

end Maps

variable [DecidableEq K]

/-- The value in the first slot with key `k`. -/
def find (t : Nat → Option (K × V)) (n : Nat) (k : K) : Option V :=
  ((List.range n).find? fun i => (t i).map Prod.fst = some k).bind fun i => (t i).map Prod.snd

theorem find_eq_some (hi : i < n) (hti : t i = some (k, v)) (hlt : ∀ j < i, ∀ w, t j ≠ some (k, w)) : find t n k = some v := by
  have hfind : (List.range n).find? (fun i => (t i).map Prod.fst = some k) = some i := by
    refine List.find?_range_eq_some.mpr ⟨by simp [hti], List.mem_range.mpr hi, fun j hj => ?_⟩
    have := hlt j hj
    cases htj : t j with
    | none => simp
    | some x => simpa using fun e => this x.2 (by rw [htj, ← e])
  rw [find, hfind, Option.bind_some, hti, Option.map_some]

theorem find_eq_none (h : ∀ i < n, ∀ v, t i ≠ some (k, v)) : find t n k = none := by
  have hfind : (List.range n).find? (fun i => (t i).map Prod.fst = some k) = none := by
    refine List.find?_eq_none.mpr fun i hi => ?_
    have := h i (List.mem_range.mp hi)
    cases hti : t i with
    | none => simp
    | some x => simpa using fun e => this x.2 (by rw [hti, ← e])
  rw [find, hfind, Option.bind_none]

namespace Maps

theorem put (h : Maps t n M) (hi : i ≤ n) (hfree : i < n → t i = none) (hk : M k = none)
    (ht : ∀ j < max n (i + 1), t' j = if j = i then some (k, v) else t j) :
    Maps t' (max n (i + 1)) (update M k (some v)) := by
  have hself : t' i = some (k, v) := by rw [ht i (by omega), if_pos rfl]
  -- a slot of the new table is the new one or was there
  have hcases : ∀ j < max n (i + 1), ∀ k' w, t' j = some (k', w) → j = i ∧ k' = k ∧ w = v ∨ j ≠ i ∧ j < n ∧ t j = some (k', w) := by
    intro j hj k' w hw
    by_cases hji : j = i
    · subst hji
      rw [hself] at hw
      cases hw
      exact .inl ⟨rfl, rfl, rfl⟩
    · rw [ht j hj, if_neg hji] at hw
      exact .inr ⟨hji, by omega, hw⟩
  have hnot : ∀ j < n, ∀ w, t j ≠ some (k, w) := fun j hj w hw => by
    rw [h.eq_some hj hw] at hk
    cases hk
  refine ⟨fun k' w => ⟨fun hw => ?_, fun hw => ?_⟩, fun a ha b hb k' w w' hta htb => ?_⟩
  · by_cases hkk : k' = k
    · subst hkk
      rw [update_self] at hw
      cases hw
      exact ⟨i, by omega, hself⟩
    · rw [update_of_ne hkk] at hw
      obtain ⟨j, hj, htj⟩ := (h.mem k' w).mp hw
      have hji : j ≠ i := fun e => by rw [e, hfree (e ▸ hj)] at htj; cases htj
      exact ⟨j, by omega, by rw [ht j (by omega), if_neg hji, htj]⟩
  · obtain ⟨j, hj, htj⟩ := hw
    rcases hcases j hj k' w htj with ⟨-, rfl, rfl⟩ | ⟨-, hj, htj⟩
    · rw [update_self]
    · have hne : k' ≠ k := fun e => hnot j hj w (e ▸ htj)
      rw [update_of_ne hne]
      exact h.eq_some hj htj
  · rcases hcases a ha k' w hta with ⟨hai, hka, -⟩ | ⟨-, ha', hta'⟩ <;>
      rcases hcases b hb k' w' htb with ⟨hbi, hkb, -⟩ | ⟨-, hb', htb'⟩
    · rw [hai, hbi]
    · exact absurd (hka ▸ htb') (hnot b hb' w')
    · exact absurd (hkb ▸ hta') (hnot a ha' w)
    · exact h.inj a ha' b hb' k' w w' hta' htb'

theorem clear (h : Maps t n M) (hi : i < n) (hti : t i = some (k, v)) (ht : ∀ j < n, t' j = if j = i then none else t j) :
    Maps t' n (update M k none) := by
  have hcases : ∀ j < n, ∀ k' w, t' j = some (k', w) ↔ k' ≠ k ∧ t j = some (k', w) := by
    intro j hj k' w
    rw [ht j hj]
    by_cases hji : j = i
    · subst hji
      rw [if_pos rfl, hti]
      refine ⟨fun hw => ?_, fun hw => ?_⟩
      · cases hw
      · exact absurd (congrArg Prod.fst (Option.some.inj hw.2)) hw.1.symm
    · rw [if_neg hji]
      exact ⟨fun hw => ⟨fun e => hji (h.inj j hj i hi k w v (e ▸ hw) hti), hw⟩, fun hw => hw.2⟩
  refine ⟨fun k' w => ?_, fun a ha b hb k' w w' hta htb => ?_⟩
  · by_cases hkk : k' = k
    · subst hkk
      rw [update_self]
      refine ⟨fun hw => ?_, fun hw => ?_⟩
      · cases hw
      · obtain ⟨j, hj, htj⟩ := hw
        exact absurd rfl ((hcases j hj k' w).mp htj).1
    · rw [update_of_ne hkk, h.mem]
      exact exists_congr fun j => and_congr_right fun hj => ((hcases j hj k' w).trans (and_iff_right hkk)).symm
  · exact h.inj a ha b hb k' w w' ((hcases a ha k' w).mp hta).2 ((hcases b hb k' w').mp htb).2

end Maps

end Slots
