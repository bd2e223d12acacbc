import Xv6.Fs

/-!
# The bitmap

`Fs.Bit sb data b`: the bit of block `b` is set. `balloc` finds a block whose bit is not set, if there is one (`wp_balloc`),
sets the bit and clears the block; `bfree` clears a bit that is set (`wp_bfree`). Both leave all other bits alone.
-/

namespace Xv6

open Prog Function

/-! ### Bits of a byte -/

namespace Fs

variable {sb : Super} {s : Fs} {data : Nat → Bytes} {b b' n bi bj size : Nat} {x : UInt8} {m : Bytes}

theorem toBitVec_bitMask (bi : Nat) : (bitMask bi).toBitVec = BitVec.twoPow 8 (bi % 8) := by
  have h : bi % 8 < 8 := Nat.mod_lt _ (by decide)
  rw [bitMask]
  generalize bi % 8 = k at h
  interval_cases k <;> rfl

theorem and_bitMask : x &&& bitMask bi = 0 ↔ x.toBitVec.getLsbD (bi % 8) = false := by
  have h : bi % 8 < 8 := Nat.mod_lt _ (by decide)
  rw [← UInt8.toBitVec_inj, UInt8.toBitVec_and, toBitVec_bitMask]
  constructor
  · intro hx
    have := congrArg (fun v => BitVec.getLsbD v (bi % 8)) hx
    simpa [BitVec.getLsbD_twoPow, h] using this
  · intro hx
    refine BitVec.eq_of_getLsbD_eq fun i hi => ?_
    rw [BitVec.getLsbD_and, BitVec.getLsbD_twoPow]
    by_cases hik : i = bi % 8
    · subst hik
      simp [hx]
    · simp [Ne.symm hik]

theorem or_bitMask : (x ||| bitMask bi) &&& bitMask bj = 0 ↔ bi % 8 ≠ bj % 8 ∧ x &&& bitMask bj = 0 := by
  have h : bi % 8 < 8 := Nat.mod_lt _ (by decide)
  rw [and_bitMask, and_bitMask, UInt8.toBitVec_or, toBitVec_bitMask, BitVec.getLsbD_or, BitVec.getLsbD_twoPow]
  simp [h, and_comm]

theorem andNot_bitMask : (x &&& ~~~bitMask bi) &&& bitMask bj = 0 ↔ bi % 8 = bj % 8 ∨ x &&& bitMask bj = 0 := by
  have h : bi % 8 < 8 := Nat.mod_lt _ (by decide)
  have h' : bj % 8 < 8 := Nat.mod_lt _ (by decide)
  rw [and_bitMask, and_bitMask, UInt8.toBitVec_and, UInt8.toBitVec_not, toBitVec_bitMask, BitVec.getLsbD_and,
    BitVec.getLsbD_not, BitVec.getLsbD_twoPow]
  simp [h, h', imp_iff_or_not]

/-! ### Bits of the bitmap -/

def BitAt (m : Bytes) (bi : Nat) : Prop := m (bi / 8) &&& bitMask bi ≠ 0

/-- The bit of block `b`. -/
def Bit (sb : Super) (data : Nat → Bytes) (b : Nat) : Prop := BitAt (data (sb.BBLOCK b)) (b % BPB)

instance (m : Bytes) (bi : Nat) : Decidable (BitAt m bi) := inferInstanceAs (Decidable (_ ≠ _))

instance (sb : Super) (data : Nat → Bytes) (b : Nat) : Decidable (Bit sb data b) := inferInstanceAs (Decidable (BitAt _ _))

theorem bitAt_set : BitAt (update m (bi / 8) (m (bi / 8) ||| bitMask bi)) bj ↔ bj = bi ∨ BitAt m bj := by
  rw [BitAt, BitAt]
  by_cases hd : bj / 8 = bi / 8
  · rw [hd, update_self, ne_eq, or_bitMask]
    have : bi % 8 = bj % 8 ↔ bj = bi := by omega
    simp only [not_and_or, ne_eq, not_not, this]
  · rw [update_of_ne hd]
    have : bj ≠ bi := fun h => hd (by rw [h])
    simp [this]

theorem bitAt_clear : BitAt (update m (bi / 8) (m (bi / 8) &&& ~~~bitMask bi)) bj ↔ bj ≠ bi ∧ BitAt m bj := by
  rw [BitAt, BitAt]
  by_cases hd : bj / 8 = bi / 8
  · rw [hd, update_self, ne_eq, andNot_bitMask]
    have : bi % 8 = bj % 8 ↔ bj = bi := by omega
    simp only [not_or, this, ne_eq]
  · rw [update_of_ne hd]
    have : bj ≠ bi := fun h => hd (by rw [h])
    simp [this]

theorem eq_of_bit (h : sb.BBLOCK b = sb.BBLOCK b') (h' : b % BPB = b' % BPB) : b = b' := by
  simp only [Super.BBLOCK, BPB, BSIZE] at h h'
  omega

theorem bit_setBit (b : Nat) (m : Bytes) (hm : ∀ bj, BitAt m bj ↔ bj = b % BPB ∨ BitAt (data (sb.BBLOCK b)) bj) :
    Bit sb (update data (sb.BBLOCK b) m) b' ↔ b' = b ∨ Bit sb data b' := by
  rw [Bit, Bit]
  by_cases hb : sb.BBLOCK b' = sb.BBLOCK b
  · rw [hb, update_self, hm]
    have : b' % BPB = b % BPB ↔ b' = b := ⟨eq_of_bit hb, fun h => by rw [h]⟩
    rw [this]
  · rw [update_of_ne hb]
    have : b' ≠ b := fun h => hb (by rw [h])
    simp [this]

theorem bit_clearBit (b : Nat) (m : Bytes) (hm : ∀ bj, BitAt m bj ↔ bj ≠ b % BPB ∧ BitAt (data (sb.BBLOCK b)) bj) :
    Bit sb (update data (sb.BBLOCK b) m) b' ↔ b' ≠ b ∧ Bit sb data b' := by
  rw [Bit, Bit]
  by_cases hb : sb.BBLOCK b' = sb.BBLOCK b
  · rw [hb, update_self, hm]
    have : b' % BPB = b % BPB ↔ b' = b := ⟨eq_of_bit hb, fun h => by rw [h]⟩
    rw [ne_eq, ne_eq, this]
  · rw [update_of_ne hb]
    have : b' ≠ b := fun h => hb (by rw [h])
    simp [this]

/-! ### `balloc` -/

theorem ballocScan_some (h : ballocScan m b size n bi = some bj) :
    bi ≤ bj ∧ bj < bi + n ∧ b + bj < size ∧ ¬ BitAt m bj := by
  induction n generalizing bi with
  | zero => cases h
  | succ n ih =>
    rw [ballocScan] at h
    split at h
    · split at h
      · rename_i hlt hbit
        cases h
        exact ⟨le_rfl, by omega, hlt, fun hb => hb hbit⟩
      · obtain ⟨h1, h2, h3, h4⟩ := ih h
        exact ⟨by omega, by omega, h3, h4⟩
    · cases h

theorem ballocScan_none (h : ballocScan m b size n bi = none) (bj : Nat) (h₁ : bi ≤ bj) (h₂ : bj < bi + n)
    (h₃ : b + bj < size) : BitAt m bj := by
  induction n generalizing bi with
  | zero => omega
  | succ n ih =>
    rw [ballocScan] at h
    split at h
    · split at h
      · cases h
      · rename_i hlt hbit
        rcases Nat.eq_or_lt_of_le h₁ with rfl | hgt
        · exact hbit
        · exact ih h hgt (by omega)
    · omega

def taken (sb : Super) (s : Fs) (b : Nat) : Fs :=
  let m := s.data (sb.BBLOCK b)
  let data := Function.update s.data (sb.BBLOCK b)
    (Function.update m (b % BPB / 8) (m (b % BPB / 8) ||| bitMask (b % BPB)))
  { data := Function.update data b ((data b).fill 0 BSIZE 0), logged := s.logged ++ [sb.BBLOCK b, b] }

theorem wp_ballocLoop {Q : Nat → Fs → Prop} (r : Nat) (hn : sb.size ≤ (r + n) * BPB)
    (hset : ∀ b' < r * BPB, b' < sb.size → Bit sb s.data b') (h0 : (∀ b' < sb.size, Bit sb s.data b') → Q 0 s)
    (h₁ : ∀ b' < sb.size, ¬ Bit sb s.data b' → Q b' (s.taken sb b')) : wp (ballocLoop sb n (r * BPB)) Q s := by
  induction n generalizing r with
  | zero =>
    rw [add_zero] at hn
    exact wp_pure.mpr (h0 fun b' hb' => hset b' (by omega) hb')
  | succ n ih =>
    rw [ballocLoop]
    split
    · rename_i hlt
      rw [wp_bind, wp_get]
      dsimp only
      have hB : ∀ bj < BPB, sb.BBLOCK (r * BPB + bj) = sb.BBLOCK (r * BPB) ∧ (r * BPB + bj) % BPB = bj := by
        intro bj hbj
        simp only [Super.BBLOCK, BPB, BSIZE] at hbj ⊢
        omega
      cases hscan : ballocScan (s.data (sb.BBLOCK (r * BPB))) (r * BPB) sb.size BPB 0 with
      | some bj =>
        obtain ⟨-, hbj, hsize, hbit⟩ := ballocScan_some hscan
        obtain ⟨hblk, hmod⟩ := hB bj (by omega)
        have hq := h₁ (r * BPB + bj) hsize (by rwa [Bit, hblk, hmod])
        simp only [taken, hblk, hmod] at hq
        simp only [setBlock, logWrite, bzero, wp_bind, wp_modify, wp_get, wp_pure]
        simpa [List.append_assoc] using hq
      | none =>
        have hnext : r * BPB + BPB = (r + 1) * BPB := by rw [add_mul, one_mul]
        dsimp only
        rw [hnext]
        refine ih (r + 1) (by rwa [show r + 1 + n = r + (n + 1) by omega]) fun b' hb' hsize => ?_
        rcases lt_or_ge b' (r * BPB) with hlo | hhi
        · exact hset b' hlo hsize
        · obtain ⟨bj, rfl⟩ := Nat.exists_eq_add_of_le hhi
          have hbj : bj < BPB := by omega
          obtain ⟨hblk, hmod⟩ := hB bj hbj
          rw [Bit, hblk, hmod]
          exact ballocScan_none hscan bj (Nat.zero_le _) (by omega) hsize
    · rename_i hge
      exact wp_pure.mpr (h0 fun b' hb' => hset b' (by omega) hb')

/-- `balloc` returns a block that was free, or 0 if there is none. -/
theorem wp_balloc {Q : Nat → Fs → Prop} (h0 : (∀ b' < sb.size, Bit sb s.data b') → Q 0 s)
    (h₁ : ∀ b' < sb.size, ¬ Bit sb s.data b' → Q b' (s.taken sb b')) : wp (balloc sb) Q s := by
  rw [balloc, ← zero_mul BPB]
  refine wp_ballocLoop 0 ?_ (by simp) h0 h₁
  simp only [BPB, BSIZE]
  omega

/-! ### `bfree` -/

def freed (sb : Super) (s : Fs) (b : Nat) : Fs :=
  let m := s.data (sb.BBLOCK b)
  { data := Function.update s.data (sb.BBLOCK b)
      (Function.update m (b % BPB / 8) (m (b % BPB / 8) &&& ~~~bitMask (b % BPB)))
    logged := s.logged ++ [sb.BBLOCK b] }

theorem wp_bfree {Q : Unit → Fs → Prop} (hb : Bit sb s.data b) (h : Q () (s.freed sb b)) : wp (bfree sb b) Q s := by
  rw [bfree, wp_bind, wp_get]
  dsimp only
  rw [if_neg hb]
  simp only [setBlock, logWrite, wp_bind, wp_modify]
  exact h

/-! ### What they change -/

theorem bit_freed : Bit sb (s.freed sb b).data b' ↔ b' ≠ b ∧ Bit sb s.data b' :=
  bit_clearBit b _ fun _ => bitAt_clear

theorem freed_of_ne (h : b' ≠ sb.BBLOCK b) : (s.freed sb b).data b' = s.data b' := update_of_ne h ..

theorem BBLOCK_lt (hb : b < sb.size) : sb.BBLOCK b < sb.nmeta := by
  have := sb.bitmap_le
  simp only [Super.BBLOCK, BPB, BSIZE] at this ⊢
  omega

theorem bit_taken (hb : sb.nmeta ≤ b) (hb' : b' < sb.size) :
    Bit sb (s.taken sb b).data b' ↔ b' = b ∨ Bit sb s.data b' := by
  have hlt := BBLOCK_lt hb'
  rw [Bit, taken]
  dsimp only
  rw [update_of_ne (by omega), ← Bit]
  exact bit_setBit b _ fun _ => bitAt_set

theorem taken_self : (s.taken sb b).data b = (update s.data (sb.BBLOCK b)
    (update (s.data (sb.BBLOCK b)) (b % BPB / 8) (s.data (sb.BBLOCK b) (b % BPB / 8) ||| bitMask (b % BPB))) b).fill 0
      BSIZE 0 := update_self ..

theorem taken_of_ne (h : b' ≠ sb.BBLOCK b) (h' : b' ≠ b) : (s.taken sb b).data b' = s.data b' := by
  rw [taken]
  dsimp only
  rw [update_of_ne h', update_of_ne h]

theorem taken_zero {i : Nat} (hi : i < BSIZE) : (s.taken sb b).data b i = 0 := by
  rw [taken_self, Bytes.fill, if_pos ⟨Nat.zero_le _, by omega⟩]

end Fs

end Xv6
