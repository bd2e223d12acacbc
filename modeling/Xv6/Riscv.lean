import Mathlib

/-!
# Pages and page-table entries (`riscv.h`, `memlayout.h`)

Nothing is cut to 64 bits here. `PGROUNDUP` is applied to sizes of processes, which are far below 2⁶⁴, and `PTE2PA` to
entries whose bits 62 and 63 are clear, as in all that the kernel makes.
-/

namespace Xv6

def PGSIZE : Nat := 4096

def PGROUNDUP (sz : Nat) : Nat := (sz + PGSIZE - 1) / PGSIZE * PGSIZE
def PGROUNDDOWN (a : Nat) : Nat := a / PGSIZE * PGSIZE

def PTE_V : Nat := 1 <<< 0
def PTE_R : Nat := 1 <<< 1
def PTE_W : Nat := 1 <<< 2
def PTE_X : Nat := 1 <<< 3
def PTE_U : Nat := 1 <<< 4

def PA2PTE (pa : Nat) : Nat := (pa >>> 12) <<< 10
def PTE2PA (pte : Nat) : Nat := (pte >>> 10) <<< 12
def PTE_FLAGS (pte : Nat) : Nat := pte &&& 0x3FF

/-- The index into the page-table page of level `level`. -/
def PX (level va : Nat) : Nat := (va >>> (12 + 9 * level)) &&& 0x1FF

def MAXVA : Nat := 1 <<< 38
def KERNBASE : Nat := 0x80000000
def PHYSTOP : Nat := KERNBASE + 128 * 1024 * 1024
def TRAMPOLINE : Nat := MAXVA - PGSIZE
def TRAPFRAME : Nat := TRAMPOLINE - PGSIZE

/-- Flag bits of a leaf. -/
structure LeafFlags (f : Nat) : Prop where
  lt : f < 1024
  valid : f &&& PTE_V ≠ 0
  leaf : f &&& (PTE_R ||| PTE_W ||| PTE_X) ≠ 0

/-- The entry for page `pa` with flag bits `f`. -/
def mkPte (pa f : Nat) : Nat := PA2PTE pa ||| f

variable {pa f k l va : Nat}

theorem mkPte_eq (hf : f < 1024) : mkPte pa f = pa / 4096 * 1024 + f := by
  rw [mkPte, PA2PTE, ← Nat.shiftLeft_add_eq_or_of_lt (show f < 2 ^ 10 from hf), Nat.shiftLeft_eq,
    Nat.shiftRight_eq_div_pow]

theorem PTE2PA_mkPte (hf : f < 1024) (hp : pa % PGSIZE = 0) : PTE2PA (mkPte pa f) = pa := by
  rw [mkPte_eq hf, PTE2PA, Nat.shiftLeft_eq, Nat.shiftRight_eq_div_pow]
  simp only [PGSIZE] at hp
  omega

theorem PTE_FLAGS_mkPte (hf : f < 1024) : PTE_FLAGS (mkPte pa f) = f := by
  rw [mkPte_eq hf, PTE_FLAGS, show (0x3FF : Nat) = 2 ^ 10 - 1 from rfl, Nat.and_two_pow_sub_one_eq_mod]
  omega

/-- A flag test looks at the flag bits only. -/
theorem mkPte_and (hf : f < 1024) (hk : k < 1024) : mkPte pa f &&& k = f &&& k := by
  have hmask : k = 0x3FF &&& k := by
    rw [Nat.and_comm, show (0x3FF : Nat) = 2 ^ 10 - 1 from rfl, Nat.and_two_pow_sub_one_eq_mod,
      Nat.mod_eq_of_lt hk]
  have h := congrArg (· &&& k) (show PTE_FLAGS (mkPte pa f) = f from PTE_FLAGS_mkPte hf)
  simp only [PTE_FLAGS, Nat.and_assoc, ← hmask] at h
  exact h

theorem mkPte_lt (hf : f < 1024) (hp : pa < 2 ^ 56) : mkPte pa f < 256 ^ 8 := by
  rw [mkPte_eq hf]; omega

theorem PX_eq : PX l va = va / 2 ^ (12 + 9 * l) % 512 := by
  rw [PX, show (0x1FF : Nat) = 2 ^ 9 - 1 from rfl, Nat.and_two_pow_sub_one_eq_mod,
    Nat.shiftRight_eq_div_pow]

end Xv6
