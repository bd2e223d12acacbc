import Xv6.Lib.Bytes
import Xv6.Lib.Prog
import Xv6.Riscv

/-!
# The page allocator (`kalloc.c`)

Physical memory is one array of bytes. The free list runs through the free pages themselves: the first
eight bytes of a free page are the address of the next one.
-/

namespace Xv6

/-- The calls of `panic` in the modelled functions. -/
inductive Panic
  | kfree | walk
  | mappagesSize | mappagesRemap
  | uvmunmapAligned | uvmunmapWalk | uvmunmapNotMapped | uvmunmapNotLeaf
  | uvmfirst | freewalkLeaf | uvmcopyPte | uvmcopyPage | uvmclear
  | loadseg | initExiting | filedup | fileclose
  /-- an access to address 0, which the kernel page table does not map -/
  | kerneltrap
  /-- not a call of `panic`: `freewalk` has met a page table deeper than three levels -/
  | freewalkDepth
deriving DecidableEq, Repr

/-- Where the linker has put things. -/
structure Layout where
  /-- `end`: first address after the kernel -/
  kend : Nat
  /-- the trampoline page, in the text of the kernel -/
  trampoline : Nat
  trampoline_aligned : trampoline % PGSIZE = 0
  base_le : KERNBASE ≤ trampoline
  trampoline_lt : trampoline + PGSIZE ≤ kend
  kend_le : kend ≤ PHYSTOP

structure Kmem where
  mem : Bytes
  freelist : Nat

abbrev VM := Prog Panic Kmem

def load64 (a : Nat) : VM Nat := do return (← get).mem.load a 8

def store64 (a v : Nat) : VM Unit := modify fun s => { s with mem := s.mem.store a 8 v }

def memset (a : Nat) (c : UInt8) (n : Nat) : VM Unit := modify fun s => { s with mem := s.mem.fill a n c }

def memmove (dst src n : Nat) : VM Unit := modify fun s => { s with mem := s.mem.copy dst s.mem src n }

variable (K : Layout)

def kfree (pa : Nat) : VM Unit := do
  if pa % PGSIZE ≠ 0 ∨ pa < K.kend ∨ pa ≥ PHYSTOP then
    Prog.fail .kfree
  memset pa 1 PGSIZE
  store64 pa (← get).freelist
  modify fun s => { s with freelist := pa }

def kalloc : VM Nat := do
  let r := (← get).freelist
  if r ≠ 0 then
    let next ← load64 r
    modify fun s => { s with freelist := next }
    memset r 5 PGSIZE
  return r

/-- `for(; p + PGSIZE <= pa_end; p += PGSIZE) kfree(p)`, with `n` pages to go. -/
def freerangeLoop : (n p : Nat) → VM Unit
  | 0, _ => pure ()
  | n + 1, p => do
    kfree K p
    freerangeLoop n (p + PGSIZE)

def freerange (paStart paEnd : Nat) : VM Unit :=
  let p := PGROUNDUP paStart
  freerangeLoop K ((paEnd - p) / PGSIZE) p

def kinit : VM Unit := freerange K K.kend PHYSTOP

end Xv6
