import Xv6.Kalloc
import Xv6.Proc

/-!
# The two `memmove`s (`string.c` of the kernel, `ulib.c` of user programs)

Pointers have 64 bits and wrap around. Each function copies upwards or downwards, and the two do not choose alike: the
kernel goes downwards only if the destination starts inside the source, the library whenever the source does not start
above the destination. A copy upwards reads no byte that it has written if the destination does not start inside the
source; downwards it is the other way round.
-/

namespace Xv6

open Function (update update_of_ne update_self)

variable {m : Bytes} {d s dst src : BitVec 64}

/-- `while(n-- > 0) *d++ = *s++` -/
def copyUp : (n : Nat) → (d s : BitVec 64) → Bytes → Bytes
  | 0, _, _, m => m
  | n + 1, d, s, m => copyUp n (d + 1) (s + 1) (update m d.toNat (m s.toNat))

/-- `while(n-- > 0) *--d = *--s` -/
def copyDown : (n : Nat) → (d s : BitVec 64) → Bytes → Bytes
  | 0, _, _, m => m
  | n + 1, d, s, m => copyDown n (d - 1) (s - 1) (update m (d - 1).toNat (m (s - 1).toNat))

/-- `memmove` of the kernel: what it returns, and memory after it. `n` is an `uint`. -/
def Kstring.memmove (dst src : BitVec 64) (n : BitVec 32) (m : Bytes) : BitVec 64 × Bytes :=
  if n = 0 then
    (dst, m)
  else if src < dst ∧ src + n.zeroExtend 64 > dst then
    (dst, copyDown n.toNat (dst + n.zeroExtend 64) (src + n.zeroExtend 64) m)
  else
    (dst, copyUp n.toNat dst src m)

/-- `memmove` of the user library; its `n` is an `int`, and no loop runs for a negative one. -/
def Ulib.memmove (vdst vsrc : BitVec 64) (n : CInt) (m : Bytes) : BitVec 64 × Bytes :=
  if vsrc > vdst then
    (vdst, copyUp n.toInt.toNat vdst vsrc m)
  else
    (vdst, copyDown n.toInt.toNat (vdst + n.signExtend 64) (vsrc + n.signExtend 64) m)

/-! ### The loops -/

theorem copy_update_up {a b n : Nat} (h : a ≤ b ∨ b + n < a) :
    Bytes.copy (update m a (m b)) (a + 1) (update m a (m b)) (b + 1) n = m.copy a m b (n + 1) := by
  funext x
  simp only [Bytes.copy]
  by_cases hx : a + 1 ≤ x ∧ x < a + 1 + n
  · rw [if_pos hx, if_pos (by omega), update_of_ne (by omega), show x - (a + 1) + (b + 1) = x - a + b by omega]
  · rw [if_neg hx]
    by_cases hxa : x = a
    · rw [hxa, update_self, if_pos (by omega), Nat.sub_self, zero_add]
    · rw [update_of_ne hxa, if_neg (by omega)]

theorem copy_update_down {a b n : Nat} (h : b ≤ a ∨ a + n < b) :
    Bytes.copy (update m (a + n) (m (b + n))) a (update m (a + n) (m (b + n))) b n =
      m.copy a m b (n + 1) := by
  funext x
  simp only [Bytes.copy]
  by_cases hx : a ≤ x ∧ x < a + n
  · rw [if_pos hx, if_pos (by omega), update_of_ne (by omega)]
  · rw [if_neg hx]
    by_cases hxa : x = a + n
    · rw [hxa, update_self, if_pos (by omega), Nat.add_sub_cancel_left, add_comm]
    · rw [update_of_ne hxa, if_neg (by omega)]

theorem toNat_add_ofNat {p : BitVec 64} {k : Nat} (h : p.toNat + k < 2 ^ 64) :
    (p + BitVec.ofNat 64 k).toNat = p.toNat + k := by
  rw [BitVec.toNat_add, BitVec.toNat_ofNat, Nat.add_mod_mod, Nat.mod_eq_of_lt h]

theorem copyUp_eq {n : Nat} (hd : d.toNat + n ≤ 2 ^ 64) (hs : s.toNat + n ≤ 2 ^ 64)
    (h : d.toNat ≤ s.toNat ∨ s.toNat + n ≤ d.toNat) : copyUp n d s m = m.copy d.toNat m s.toNat n := by
  induction n generalizing d s m with
  | zero => rw [copyUp, Bytes.copy_zero]
  | succ n ih =>
    rw [copyUp]
    cases n with
    | zero =>
      have hone := copy_update_up (m := m) (a := d.toNat) (b := s.toNat) (n := 0) (by omega)
      rwa [Bytes.copy_zero] at hone
    | succ n =>
      -- there are bytes to come, so neither pointer wraps around yet
      have hd1 : (d + 1).toNat = d.toNat + 1 := toNat_add_ofNat (k := 1) (by omega)
      have hs1 : (s + 1).toNat = s.toNat + 1 := toNat_add_ofNat (k := 1) (by omega)
      rw [ih (by omega) (by omega) (by omega), hd1, hs1]
      exact copy_update_up (by omega)

theorem copyDown_eq {n : Nat} (hd : d.toNat + n ≤ 2 ^ 64) (hs : s.toNat + n ≤ 2 ^ 64)
    (h : s.toNat ≤ d.toNat ∨ d.toNat + n ≤ s.toNat) :
    copyDown n (d + BitVec.ofNat 64 n) (s + BitVec.ofNat 64 n) m = m.copy d.toNat m s.toNat n := by
  induction n generalizing m with
  | zero => rw [copyDown, Bytes.copy_zero]
  | succ n ih =>
    have hback : ∀ p : BitVec 64, p + BitVec.ofNat 64 (n + 1) - 1 = p + BitVec.ofNat 64 n := fun p => by
      rw [BitVec.ofNat_add, ← BitVec.add_assoc]
      exact BitVec.add_sub_cancel _ _
    rw [copyDown, hback, hback, ih (by omega) (by omega) (by omega), toNat_add_ofNat (by omega), toNat_add_ofNat (by omega)]
    exact copy_update_down (by omega)

/-! ### Both functions -/

theorem Kstring.memmove_eq {n : BitVec 32} (hs : src.toNat + n.toNat ≤ 2 ^ 64) (hd : dst.toNat + n.toNat ≤ 2 ^ 64) :
    Kstring.memmove dst src n m = (dst, m.copy dst.toNat m src.toNat n.toNat) := by
  have hn : n.zeroExtend 64 = BitVec.ofNat 64 n.toNat := (BitVec.ofNat_toNat 64 n).symm
  unfold memmove
  rw [hn]
  split
  · rename_i h0
    rw [h0]
    exact congrArg (Prod.mk dst) (Bytes.copy_zero m dst.toNat m src.toNat).symm
  · split
    · rename_i h
      have hlt : src.toNat < dst.toNat := h.1
      rw [copyDown_eq hd hs (by omega)]
    · rename_i h
      rw [copyUp_eq hd hs ?_]
      -- the source ends below 2 ^ 64 if it starts below the destination
      by_cases hlt : src < dst
      · have hlt' : src.toNat < dst.toNat := hlt
        have hle : ¬ dst.toNat < (src + BitVec.ofNat 64 n.toNat).toNat := fun hgt => h ⟨hlt, hgt⟩
        rw [toNat_add_ofNat (by omega)] at hle
        exact .inr (Nat.le_of_not_lt hle)
      · exact .inl (Nat.le_of_not_lt hlt)

theorem Ulib.memmove_eq {n : CInt} (hn : n.toNat < 2 ^ 31) (hs : src.toNat + n.toNat ≤ 2 ^ 64)
    (hd : dst.toNat + n.toNat ≤ 2 ^ 64) :
    Ulib.memmove dst src n m = (dst, m.copy dst.toNat m src.toNat n.toNat) := by
  have hmsb : n.msb = false := by
    rw [BitVec.msb_eq_false_iff_two_mul_lt]
    omega
  have hext : n.signExtend 64 = BitVec.ofNat 64 n.toNat := by
    rw [BitVec.signExtend_eq_setWidth_of_msb_false hmsb, BitVec.ofNat_toNat]
  have hint : n.toInt.toNat = n.toNat := by rw [BitVec.toInt_eq_toNat_of_msb hmsb, Int.toNat_natCast]
  unfold memmove
  rw [hext, hint]
  split
  · rename_i h
    have hlt : dst.toNat < src.toNat := h
    rw [copyUp_eq hd hs (by omega)]
  · rename_i h
    rw [copyDown_eq hd hs (.inl (Nat.le_of_not_lt h))]

/-- The kernel's loops do what the model of the kernel takes `memmove` for. -/
theorem memmove_eq_loops {n : BitVec 32} (hs : src.toNat + n.toNat ≤ 2 ^ 64) (hd : dst.toNat + n.toNat ≤ 2 ^ 64) :
    memmove dst.toNat src.toNat n.toNat = modify fun s => { s with mem := (Kstring.memmove dst src n s.mem).2 } := by
  simp only [memmove, Kstring.memmove_eq hs hd]

/-- The destination has the bytes that the source had, and nothing else has changed. -/
structure Moved (dst src : BitVec 64) (n : Nat) (m m' : Bytes) : Prop where
  destination : ∀ i < n, m' (dst.toNat + i) = m (src.toNat + i)
  outside : ∀ a, a < dst.toNat ∨ dst.toNat + n ≤ a → m' a = m a

theorem moved_copy {n : Nat} : Moved dst src n m (m.copy dst.toNat m src.toNat n) where
  destination i hi := by
    rw [Bytes.copy, if_pos (by omega), Nat.add_sub_cancel_left, add_comm]
  outside a ha := Bytes.copy_of_not_mem (by omega)

/-- Whether and how the ranges overlap makes no difference. -/
theorem memmoves_agree (m : Bytes) (dst src : BitVec 64) (n : BitVec 32) (hs : src.toNat + n.toNat ≤ 2 ^ 64)
    (hd : dst.toNat + n.toNat ≤ 2 ^ 64) :
    Moved dst src n.toNat m (Kstring.memmove dst src n m).2 ∧
      (n.toNat < 2 ^ 31 →
        Moved dst src n.toNat m (Ulib.memmove dst src n m).2 ∧ Ulib.memmove dst src n m = Kstring.memmove dst src n m) := by
  rw [Kstring.memmove_eq hs hd]
  refine ⟨moved_copy, fun hn => ?_⟩
  rw [Ulib.memmove_eq hn hs hd]
  exact ⟨moved_copy, rfl⟩

/-- Four bytes move up by one, to the end of the address space. -/
theorem memmoves_agree_top : Ulib.memmove (-4) (-5) 4 UInt8.ofNat = Kstring.memmove (-4) (-5) 4 UInt8.ofNat :=
  ((memmoves_agree UInt8.ofNat (-4) (-5) 4 (by decide) (by decide)).2 (by decide)).2

end Xv6
