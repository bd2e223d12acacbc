import Mathlib

/-!
# Rings with wrapping counters

A ring of `N` cells with a read counter `r` and a write counter `w` that wrap at `M`, a multiple of `N`: the
cells are addressed by the counters modulo `N`. `RingHolds N M data r w log R` says that of everything ever
written (`log`) the first `R` elements have been read and the others are in the ring.
-/

variable {α : Type*} {N M r w R : Nat} {data : Nat → α} {log : List α} {a : α}

structure RingHolds (N M : Nat) (data : Nat → α) (r w : Nat) (log : List α) (R : Nat) : Prop where
  r_eq : r = R % M
  w_eq : w = log.length % M
  le : R ≤ log.length
  cap : log.length ≤ R + N
  cell : ∀ k, R ≤ k → k < log.length → log[k]? = some (data (k % N))

namespace RingHolds

theorem init (data : Nat → α) : RingHolds N M data 0 0 [] 0 :=
  ⟨(Nat.zero_mod M).symm, (Nat.zero_mod M).symm, Nat.le_refl 0, Nat.zero_le _, fun k _ hk => absurd hk (Nat.not_lt_zero k)⟩

theorem eq_of_mod {x y : Nat} (hxy : x ≤ y) (hlt : y < x + M) (h : x % M = y % M) : x = y := by
  have hd : M ∣ y - x := (Nat.modEq_iff_dvd' hxy).mp h
  have h0 : y - x = 0 := Nat.eq_zero_of_dvd_of_lt hd (by omega)
  omega

variable (h : RingHolds N M data r w log R)
include h

section
variable (hlt : N < M)
include hlt

theorem empty_iff : r = w ↔ R = log.length := by
  rw [h.r_eq, h.w_eq]
  constructor
  · intro e
    exact eq_of_mod h.le (by have := h.cap; omega) e
  · intro e; rw [e]

theorem full_iff : w = (r + N) % M ↔ log.length = R + N := by
  rw [h.r_eq, h.w_eq, Nat.mod_add_mod]
  constructor
  · intro e
    exact eq_of_mod h.cap (by have := h.le; omega) e
  · intro e; rw [e]

/-- The difference of the counters modulo `M` is what is in the ring. -/
theorem sub_eq : (w + M - r) % M = log.length - R := by
  have hle := h.le
  have hcap := h.cap
  have hM : 0 < M := by omega
  have hr : r < M := by rw [h.r_eq]; exact Nat.mod_lt _ hM
  have hdiff : log.length - R < M := by omega
  have e : (w + M - r) % M = (log.length - R) % M := by
    refine Nat.ModEq.add_right_cancel' r ?_
    rw [Nat.ModEq, show w + M - r + r = w + M by omega, Nat.add_mod_right, h.w_eq, h.r_eq, Nat.mod_mod,
      Nat.add_mod_mod, Nat.sub_add_cancel hle]
  rw [e, Nat.mod_eq_of_lt hdiff]

end

/-- The ring as a reader sees it that has come further. -/
theorem skip {S : Nat} (hS : R ≤ S) (hle : S ≤ log.length) : RingHolds N M data (S % M) w log S := by
  have hcap := h.cap
  exact ⟨rfl, h.w_eq, hle, by omega, fun k hk hk' => h.cell k (le_trans hS hk) hk'⟩

omit h in
/-- The ring as a writer sees it that is not as far. -/
theorem truncate {l : List α} (h : RingHolds N M data r w (log ++ l) R) (hle : R ≤ log.length) :
    RingHolds N M data r (log.length % M) log R := by
  have hcap := h.cap
  rw [List.length_append] at hcap
  refine ⟨h.r_eq, rfl, hle, by omega, fun k hk hk' => ?_⟩
  rw [← List.getElem?_append_left hk']
  exact h.cell k hk (by rw [List.length_append]; omega)

omit h in
theorem unput (hM : 0 < M) (h : RingHolds N M data r w (log ++ [a]) R) (hle : R ≤ log.length) :
    RingHolds N M data r ((w + M - 1) % M) log R := by
  have hw : (w + M - 1) % M = log.length % M := by
    have hw := h.w_eq
    rw [List.length_append, List.length_singleton] at hw
    refine Nat.ModEq.add_right_cancel' 1 ?_
    rw [Nat.ModEq, show w + M - 1 + 1 = w + M by omega, Nat.add_mod_right, hw, Nat.mod_mod]
  rw [hw]
  exact h.truncate hle

section
variable (hdvd : N ∣ M)
include hdvd

theorem drop_eq (hlt : N < M) : log.drop R = (List.range ((w + M - r) % M)).map fun k => data ((r + k) % N) := by
  refine List.ext_getElem? fun k => ?_
  rw [h.sub_eq hlt, List.getElem?_drop, List.getElem?_map]
  by_cases hk : k < log.length - R
  · rw [List.getElem?_range hk, h.cell (R + k) (Nat.le_add_right ..) (by omega), h.r_eq, Option.map_some, Nat.add_mod (R % M),
      Nat.mod_mod_of_dvd _ hdvd, ← Nat.add_mod]
  · rw [List.getElem?_eq_none (by omega), List.getElem?_eq_none (by rw [List.length_range]; omega), Option.map_none]

section

variable (hne : log.length ≠ R + N)
include hne

theorem cell_ne {k : Nat} (hk : R ≤ k) (hk' : k < log.length) : k % N ≠ w % N := by
  have hcap := h.cap
  rw [h.w_eq, Nat.mod_mod_of_dvd _ hdvd]
  intro e
  have := eq_of_mod (le_of_lt hk') (by omega) e
  omega

theorem write : RingHolds N M (Function.update data (w % N) a) r w log R := by
  refine ⟨h.r_eq, h.w_eq, h.le, h.cap, fun k hk hk' => ?_⟩
  rw [Function.update_of_ne (h.cell_ne hdvd hne hk hk')]
  exact h.cell k hk hk'

theorem advance (ha : data (w % N) = a) : RingHolds N M data r ((w + 1) % M) (log ++ [a]) R := by
  have hle := h.le
  have hcap := h.cap
  refine ⟨h.r_eq, ?_, ?_, ?_, fun k hk hk' => ?_⟩
  · rw [h.w_eq, List.length_append, List.length_singleton, Nat.mod_add_mod]
  · rw [List.length_append]; omega
  · rw [List.length_append, List.length_singleton]; omega
  · rw [List.length_append, List.length_singleton] at hk'
    rcases Nat.lt_or_eq_of_le (Nat.le_of_lt_succ hk') with hlt | rfl
    · rw [List.getElem?_append_left hlt]
      exact h.cell k hk hlt
    · rw [List.getElem?_concat_length, ← ha, h.w_eq, Nat.mod_mod_of_dvd _ hdvd]

theorem put : RingHolds N M (Function.update data (w % N) a) r ((w + 1) % M) (log ++ [a]) R :=
  (h.write hdvd hne).advance hdvd hne (Function.update_self ..)

end

theorem get (hne : R ≠ log.length) :
    log[R]? = some (data (r % N)) ∧ RingHolds N M data ((r + 1) % M) w log (R + 1) := by
  have hle := h.le
  have hcap := h.cap
  refine ⟨?_, ?_, h.w_eq, by omega, by omega, fun k hk hk' => h.cell k (by omega) hk'⟩
  · rw [h.r_eq, Nat.mod_mod_of_dvd _ hdvd]
    exact h.cell R (Nat.le_refl R) (by omega)
  · rw [h.r_eq, Nat.mod_add_mod]

end

end RingHolds
