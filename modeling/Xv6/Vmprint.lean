import Xv6.Vm

/-!
# Printing a page table (`print_pagetable`, `vmprint` in `vm.c`)

A line is what its `printf` is given, after `level` times `.. `. The recursion of `print_pagetable` ends where an entry
is a leaf or not valid, so `depth` bounds it, as in `freewalk`.
-/

namespace Xv6

def PGSHIFT : Nat := 12

/-- `va <va>-<vaLast> -> pa <pa>-<paLast>` -/
structure LeafRange where
  va : Nat
  vaLast : Nat
  pa : Nat
  paLast : Nat
deriving DecidableEq

inductive VmLine
  /-- `page table at physical address (pa) <pagetable>` -/
  | head (pagetable : Nat)
  /-- `<i>: leaf pte: va ... -> pa ...` -/
  | leaf (level i : Nat) (range : LeafRange)
  /-- `<i>: pte points to lower-level page table: pte <pte> -> pa <pa>` -/
  | table (level i pte pa : Nat)
deriving DecidableEq

/-- `pagetable[i]` -/
def pteAt (m : Bytes) (pagetable i : Nat) : Nat := m.load (pagetable + 8 * i) 8

/-- One round of the loop; `sub` is the recursive call. -/
def printEntry (m : Bytes) (sub : (pagetable level : Nat) → Option (List VmLine)) (pagetable level i : Nat) :
    Option (List VmLine) :=
  let pte := pteAt m pagetable i
  if pte &&& PTE_V ≠ 0 then
    let pa := PTE2PA pte
    if pte &&& (PTE_R ||| PTE_W ||| PTE_X) ≠ 0 then
      let va := i <<< PGSHIFT
      some [.leaf level i ⟨va, va + PGSIZE - 1, pa, pa + PGSIZE - 1⟩]
    else
      (sub pa (level + 1)).map (.table level i pte pa :: ·)
  else
    some []

def printPagetable (m : Bytes) : (depth pagetable level : Nat) → Option (List VmLine)
  | 0, _, _ => none
  | depth + 1, pagetable, level =>
    ((List.range 512).mapM (printEntry m (printPagetable m depth) pagetable level)).map List.flatten

def vmprint (m : Bytes) (pagetable : Nat) : Option (List VmLine) :=
  (printPagetable m 3 pagetable 0).map (.head pagetable :: ·)

/-- The range that a line reports, if it is a leaf's. -/
def VmLine.leafRange : VmLine → Option LeafRange
  | .leaf _ _ x => some x
  | _ => none

/-- A page table of the levels `l, ..., 0`: entries above the last level are tables, entries of the last level are
leaves, and no table is at address 0. -/
def WfTable (m : Bytes) : (l pagetable : Nat) → Prop
  | 0, pagetable => pagetable ≠ 0 ∧ ∀ i < 512, pteAt m pagetable i &&& PTE_V ≠ 0 →
      pteAt m pagetable i &&& (PTE_R ||| PTE_W ||| PTE_X) ≠ 0
  | l + 1, pagetable => pagetable ≠ 0 ∧ ∀ i < 512, pteAt m pagetable i &&& PTE_V ≠ 0 →
      pteAt m pagetable i &&& (PTE_R ||| PTE_W ||| PTE_X) = 0 ∧ WfTable m l (PTE2PA (pteAt m pagetable i))

/-- The address of the entry for page `w`: one index at every level. -/
def lookup (m : Bytes) (w : Nat) : (l pagetable : Nat) → Option Nat
  | 0, t => some (t + 8 * (w % 512))
  | l + 1, t =>
    let pte := pteAt m t (w / 512 ^ (l + 1) % 512)
    if pte &&& PTE_V ≠ 0 then lookup m w l (PTE2PA pte) else none

/-- All leaves lie below page 512: the indices above the last level are 0. -/
def LowLeaves (m : Bytes) (pagetable : Nat) : Prop :=
  ∀ w a, w < 512 ^ 3 → lookup m w 2 pagetable = some a → m.load a 8 &&& PTE_V ≠ 0 → w < 512

/-- `walk(pagetable, va, 0)` yields an entry, which is valid and has the value `pte`. -/
def WalkLeaf (s : Kmem) (pagetable va pte : Nat) : Prop :=
  ∃ a, walk pagetable va false s = .ok (a, s) ∧ a ≠ 0 ∧ s.mem.load a 8 = pte ∧ pte &&& PTE_V ≠ 0

/-- The range of a page and of what it is mapped to. -/
def pageRange (va pte : Nat) : LeafRange := ⟨va, va + PGSIZE - 1, PTE2PA pte, PTE2PA pte + PGSIZE - 1⟩

/-- The leaf lines among `lines` are the leaves of the table. -/
structure Reports (s : Kmem) (pagetable : Nat) (lines : List VmLine) : Prop where
  /-- in increasing order of virtual address, hence each once -/
  sorted : (lines.filterMap VmLine.leafRange).Pairwise fun x y => x.va < y.va
  /-- a line gives the page whose walk yields the entry -/
  sound : ∀ x ∈ lines.filterMap VmLine.leafRange, ∃ v pte, WalkLeaf s pagetable (v * PGSIZE) pte ∧
    x = pageRange (v * PGSIZE) pte
  /-- every leaf has a line -/
  complete : ∀ v pte, WalkLeaf s pagetable (v * PGSIZE) pte →
    pageRange (v * PGSIZE) pte ∈ lines.filterMap VmLine.leafRange

end Xv6
