import Mathlib

/-!
# Byte memories

A byte memory is a function from addresses to bytes. `Bytes.load` and `Bytes.store` read and write
little-endian values of `n` bytes; `Bytes.copy` and `Bytes.fill` are block moves and fills. Two
accesses to disjoint ranges do not see each other (`load_store_of_disjoint`, `load_congr`).
-/

abbrev Bytes := Nat → UInt8

namespace Bytes

/-- The little-endian value of the `n` bytes at `a`. -/
def load (m : Bytes) : Nat → Nat → Nat
  | _, 0 => 0
  | a, n + 1 => (m a).toNat + 256 * load m (a + 1) n

/-- Stores the low `n` bytes of `v` at `a`. -/
def store (m : Bytes) (a n v : Nat) : Bytes := fun x =>
  if a ≤ x ∧ x < a + n then UInt8.ofNat (v / 256 ^ (x - a)) else m x

/-- Copies `n` bytes from `src` at `b` to `m` at `a`. -/
def copy (m : Bytes) (a : Nat) (src : Bytes) (b n : Nat) : Bytes := fun x =>
  if a ≤ x ∧ x < a + n then src (x - a + b) else m x

/-- Sets `n` bytes at `a` to `c`. -/
def fill (m : Bytes) (a n : Nat) (c : UInt8) : Bytes := fun x =>
  if a ≤ x ∧ x < a + n then c else m x

variable {m m' : Bytes} {a b n k v : Nat} {x : Nat}

theorem load_lt (m : Bytes) (a n : Nat) : load m a n < 256 ^ n := by
  induction n generalizing a with
  | zero => simp [load]
  | succ n ih =>
    have h1 := ih (a + 1)
    have h2 := (m a).toNat_lt
    simp only [load, Nat.pow_succ]
    omega

theorem load_congr (h : ∀ x, a ≤ x → x < a + n → m x = m' x) : load m a n = load m' a n := by
  induction n generalizing a with
  | zero => rfl
  | succ n ih =>
    simp only [load]
    rw [h a (le_rfl) (by omega), ih fun x h1 h2 => h x (by omega) (by omega)]

theorem store_of_not_mem (h : ¬ (a ≤ x ∧ x < a + n)) : store m a n v x = m x := if_neg h

theorem copy_of_not_mem {src : Bytes} (h : ¬ (a ≤ x ∧ x < a + n)) :
    copy m a src b n x = m x := if_neg h

theorem copy_zero (m : Bytes) (a : Nat) (src : Bytes) (b : Nat) : m.copy a src b 0 = m := by
  funext x
  exact copy_of_not_mem (by omega)

theorem copy_copy (m : Bytes) (a : Nat) (src : Bytes) (b k n : Nat) :
    (m.copy a src b k).copy (a + k) src (b + k) n = m.copy a src b (k + n) := by
  funext x
  simp only [copy]
  by_cases h : a + k ≤ x ∧ x < a + k + n
  · rw [if_pos h, if_pos (by omega), show x - (a + k) + (b + k) = x - a + b by omega]
  · rw [if_neg h]
    by_cases h' : a ≤ x ∧ x < a + k
    · rw [if_pos h', if_pos (by omega)]
    · rw [if_neg h', if_neg (by omega)]

theorem copy_congr {m src src' : Bytes} {a b b' n : Nat} (h : ∀ k < n, src (k + b) = src' (k + b')) :
    m.copy a src b n = m.copy a src' b' n := by
  funext x
  simp only [copy]
  split
  · exact h _ (by omega)
  · rfl

theorem fill_of_not_mem {c : UInt8} (h : ¬ (a ≤ x ∧ x < a + n)) : fill m a n c x = m x :=
  if_neg h

theorem load_eq_of_bytes (h : ∀ i < n, m (a + i) = UInt8.ofNat (v / 256 ^ i)) : load m a n = v % 256 ^ n := by
  induction n generalizing a v with
  | zero => simp [load, Nat.mod_one]
  | succ n ih =>
    have h0 := h 0 (by omega)
    have hs := ih (a := a + 1) (v := v / 256) fun i hi => by
      rw [show a + 1 + i = a + (i + 1) by omega, h (i + 1) (by omega), Nat.div_div_eq_div_mul,
        Nat.pow_succ']
    simp only [add_zero, Nat.pow_zero, Nat.div_one] at h0
    have hv : v % 256 ^ (n + 1) = v % 256 + 256 * (v / 256 % 256 ^ n) := by
      rw [Nat.pow_succ', Nat.mod_mul]
    rw [load, hs, h0, UInt8.toNat_ofNat', hv]

theorem load_store_self (m : Bytes) (a n v : Nat) : load (store m a n v) a n = v % 256 ^ n := by
  refine load_eq_of_bytes fun i hi => ?_
  rw [store, if_pos ⟨by omega, by omega⟩, Nat.add_sub_cancel_left]

theorem load_store_of_lt (hv : v < 256 ^ n) : load (store m a n v) a n = v := by
  rw [load_store_self, Nat.mod_eq_of_lt hv]

theorem load_store_of_disjoint (h : a + n ≤ b ∨ b + k ≤ a) : load (store m a n v) b k = load m b k :=
  load_congr fun _ h1 h2 => store_of_not_mem (by omega)

theorem load_eq_zero (h : ∀ x, a ≤ x → x < a + n → m x = 0) : load m a n = 0 := by
  induction n generalizing a with
  | zero => rfl
  | succ n ih =>
    rw [load, h a (le_rfl) (by omega), ih fun x h1 h2 => h x (by omega) (by omega)]
    rfl

/-! ### Writes through a translation of addresses -/

/-- Writes the bytes `bs`, one after the other, to where `tr` translates the addresses from `a` on. -/
def scatter (tr : Nat → Nat) : Bytes → Nat → List UInt8 → Bytes
  | m, _, [] => m
  | m, a, b :: bs => scatter tr (fun x => if x = tr a then b else m x) (a + 1) bs

variable {tr tr' : Nat → Nat} {bs cs : List UInt8}

theorem scatter_append : scatter tr m a (bs ++ cs) = scatter tr (scatter tr m a bs) (a + bs.length) cs := by
  induction bs generalizing m a with
  | nil => rfl
  | cons b bs ih =>
    rw [List.cons_append, scatter, scatter, ih, List.length_cons, add_assoc, add_comm 1]

theorem scatter_congr (h : ∀ i < bs.length, tr (a + i) = tr' (a + i)) : scatter tr m a bs = scatter tr' m a bs := by
  induction bs generalizing m a with
  | nil => rfl
  | cons b bs ih =>
    have h0 := h 0 (by simp)
    rw [add_zero] at h0
    rw [scatter, scatter, h0]
    refine ih fun i hi => ?_
    rw [Nat.add_right_comm, add_assoc]
    exact h (i + 1) (by simpa using hi)

theorem scatter_of_not_mem (h : ∀ i < bs.length, tr (a + i) ≠ x) : scatter tr m a bs x = m x := by
  induction bs generalizing m a with
  | nil => rfl
  | cons b bs ih =>
    have h0 := h 0 (by simp)
    rw [scatter, ih fun i hi => ?_]
    · exact if_neg fun e => h0 (by rw [add_zero, e])
    · rw [Nat.add_right_comm, add_assoc]
      exact h (i + 1) (by simpa using hi)

theorem scatter_last (hk : k < bs.length) (h : ∀ i, k < i → i < bs.length → tr (a + i) ≠ tr (a + k)) :
    scatter tr m a bs (tr (a + k)) = bs.getD k 0 := by
  induction bs generalizing m a k with
  | nil => exact absurd hk (Nat.not_lt_zero k)
  | cons b bs ih =>
    rw [scatter]
    cases k with
    | zero =>
      rw [scatter_of_not_mem fun i hi => ?_]
      · exact if_pos rfl
      · rw [Nat.add_right_comm, add_assoc]
        exact h (i + 1) (Nat.succ_pos i) (by simpa using hi)
    | succ k =>
      have hstep : ∀ i, a + (i + 1) = a + 1 + i := fun i => by omega
      rw [hstep k, ih (by simpa using hk) fun i hi hlt => ?_, List.getD_cons_succ]
      have := h (i + 1) (by omega) (by simpa using hlt)
      rwa [hstep i, hstep k] at this

/-- A place is as before if the byte that was written there last, if any, is the old one. -/
theorem scatter_eq_iff : scatter tr m a bs x = m x ↔ ∀ k < bs.length, tr (a + k) = x →
    (∀ i, k < i → i < bs.length → tr (a + i) ≠ x) → bs.getD k 0 = m x := by
  constructor
  · rintro h k hk rfl hlast
    rw [← scatter_last hk hlast]
    exact h
  · intro h
    by_cases hno : ∀ i < bs.length, tr (a + i) ≠ x
    · exact scatter_of_not_mem hno
    · push Not at hno
      obtain ⟨i, hi, he⟩ := hno
      let P := fun k => k < bs.length ∧ tr (a + k) = x
      obtain ⟨hk, hkx⟩ : P (Nat.findGreatest P bs.length) := Nat.findGreatest_spec (le_of_lt hi) ⟨hi, he⟩
      have hlast : ∀ j, Nat.findGreatest P bs.length < j → j < bs.length → tr (a + j) ≠ x := fun j hj hjl hjx =>
        Nat.findGreatest_is_greatest hj (le_of_lt hjl) ⟨hjl, hjx⟩
      have hval : scatter tr m a bs (tr (a + Nat.findGreatest P bs.length)) = _ :=
        scatter_last hk (by rw [hkx]; exact hlast)
      rw [← h _ hk hkx hlast, ← hval, hkx]

theorem copy_eq_scatter (h : ∀ i < bs.length, tr (a + i) = b + i) :
    m.copy b (fun i => bs.getD i 0) 0 bs.length = scatter tr m a bs := by
  induction bs generalizing m a b with
  | nil => exact copy_zero ..
  | cons c bs ih =>
    have h0 := h 0 (by simp)
    rw [add_zero, add_zero] at h0
    rw [scatter, ← ih (b := b + 1) fun i hi => ?_]
    · funext x
      simp only [copy, List.length_cons, add_zero]
      by_cases hx : b + 1 ≤ x ∧ x < b + 1 + bs.length
      · rw [if_pos hx, if_pos (by omega), show x - b = x - (b + 1) + 1 by omega, List.getD_cons_succ]
      · rw [if_neg hx, h0]
        by_cases he : x = b
        · rw [if_pos he, if_pos (by omega), he, Nat.sub_self, List.getD_cons_zero]
        · rw [if_neg he, if_neg (by omega)]
    · rw [Nat.add_right_comm, add_assoc, h (i + 1) (by simpa using hi)]
      omega

end Bytes
