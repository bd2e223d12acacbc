import Xv6.Lib.Trans
import Xv6.ProcMem

/-!
# The allocator of user programs (`umalloc.c`)

A `Header` is 16 bytes: `s.ptr` at offset 0 and `s.size`, an `uint`, at offset 8. Pointers are addresses, and `p + n`
for a `Header *` is `p + 16 * n`. An access above the last page of the process is a page fault and the end of it.

`sbrk` is the system call as a program sees it: `sys_sbrk` and `growproc` with its `int` argument. Whether the kernel has
pages left is not up to the program (`room`), but a process never has more pages than there is memory.

The loops of `free` and `malloc` go around the free list; `turns` bounds them.
-/

namespace Xv6

/-- The part of a process that the allocator deals with. -/
structure Uheap where
  mem : Bytes
  sz : Nat
  freep : Nat

inductive UmallocStop
  /-- a page fault: the kernel kills the process -/
  | fault
  /-- a loop has used up its turns -/
  | turns
deriving DecidableEq

abbrev UM := Prog UmallocStop Uheap

/-- The number of bytes of memory for `kalloc`, all of it. -/
def memBytes : Nat := PHYSTOP - KERNBASE

/-- `sys_sbrk`: the old size, or `none` for -1. -/
def sbrk (room : Bool) (n : CInt) : UM (Option Nat) := do
  let s ← get
  let addr := s.sz
  if n.toInt > 0 then
    -- `uvmalloc`: the new pages are zero
    let newsz := Kern.addInt s.sz n
    if room ∧ PGROUNDUP newsz ≤ memBytes then
      set { s with mem := s.mem.fill (PGROUNDUP s.sz) (PGROUNDUP newsz - PGROUNDUP s.sz) 0, sz := newsz }
      return some addr
    else
      return none
  else if n.toInt < 0 then
    -- `uvmdealloc`
    let newsz := Kern.addInt s.sz n
    if newsz ≥ s.sz then
      return some addr
    else
      set { s with sz := newsz }
      return some addr
  else
    return some addr

namespace Umalloc

def headerSize : Nat := 16

def access (a n : Nat) : UM Unit := do
  if a + n > PGROUNDUP (← get).sz then
    Prog.fail .fault

def load (a n : Nat) : UM Nat := do
  access a n
  return (← get).mem.load a n

def store (a n v : Nat) : UM Unit := do
  access a n
  modify fun s => { s with mem := s.mem.store a n v }

/-- `p->s.ptr` -/
def ptr (p : Nat) : UM Nat := load p 8

/-- `p->s.size` -/
def size (p : Nat) : UM Nat := load (p + 8) 4

def setPtr (p v : Nat) : UM Unit := store p 8 v

def setSize (p v : Nat) : UM Unit := store (p + 8) 4 v

/-- `freep = p` -/
def setFreep (p : Nat) : UM Unit := modify fun s => { s with freep := p }

/-- The loop of `free`. -/
def freeLoop (bp : Nat) : (turns p : Nat) → UM Nat
  | 0, _ => Prog.fail .turns
  | turns + 1, p => do
    let next ← ptr p
    if bp > p ∧ bp < next then
      return p
    else if p ≥ next ∧ (bp > p ∨ bp < next) then
      return p
    else
      freeLoop bp turns next

/-- `free` joins `bp` with the block behind it, or points to it. -/
def joinNext (bp next : Nat) : UM Unit := do
  if bp + headerSize * (← size bp) = next then
    setSize bp ((← size bp) + (← size next))
    setPtr bp (← ptr next)
  else
    setPtr bp next

/-- `free` joins the block `p` with `bp` behind it, or points to it. -/
def joinPrev (p bp : Nat) : UM Unit := do
  if p + headerSize * (← size p) = bp then
    setSize p ((← size p) + (← size bp))
    setPtr p (← ptr bp)
  else
    setPtr p bp

def free (ap : Nat) : UM Unit := do
  let bp := ap - headerSize
  let p ← freeLoop bp memBytes (← get).freep
  joinNext bp (← ptr p)
  joinPrev p bp
  setFreep p

def morecore (room : Bool) (nu : Nat) : UM Nat := do
  let nu := if nu < 4096 then 4096 else nu
  -- the product has 64 bits, the parameter of `sbrk` is an `int`
  match ← sbrk room (BitVec.ofNat 32 (nu * headerSize)) with
  | none => return 0
  | some hp =>
    setSize hp nu
    free (hp + headerSize)
    return (← get).freep

/-- The block `p`, which `prevp` points to, is big enough. -/
def take (nunits prevp p : Nat) : UM Nat := do
  if (← size p) = nunits then
    setPtr prevp (← ptr p)
    setFreep prevp
    return p + headerSize
  else
    setSize p ((← size p) - nunits)
    let p := p + headerSize * (← size p)
    setSize p nunits
    setFreep prevp
    return p + headerSize

def mallocLoop (room : Bool) (nunits : Nat) : (turns prevp p : Nat) → UM Nat
  | 0, _, _ => Prog.fail .turns
  | turns + 1, prevp, p => do
    if (← size p) ≥ nunits then
      take nunits prevp p
    else if p = (← get).freep then
      let p ← morecore room nunits
      if p = 0 then
        return 0
      else
        mallocLoop room nunits turns p (← ptr p)
    else
      mallocLoop room nunits turns p (← ptr p)

/-- `nunits` in `malloc` -/
def nunits (nbytes : BitVec 32) : Nat := (nbytes.toNat + headerSize - 1) / headerSize + 1

/-- The first call of `malloc` makes a free list of `base` alone. -/
def initList (base : Nat) : UM Unit := do
  if (← get).freep = 0 then
    setFreep base
    setPtr base base
    setSize base 0

/-- `base` is the address of the static header of that name. -/
def malloc (base : Nat) (room : Bool) (nbytes : BitVec 32) : UM Nat := do
  initList base
  let prevp := (← get).freep
  mallocLoop room (nunits nbytes) (2 * memBytes) prevp (← ptr prevp)

end Umalloc

/-! ### Programs that use it -/

/-- What `malloc(nbytes)` has returned and was not freed yet. -/
structure LiveBlock where
  ap : Nat
  nbytes : Nat
deriving DecidableEq

/-- The bytes that the program may use. -/
def LiveBlock.bytes (b : LiveBlock) : Set Nat := Set.Ico b.ap (b.ap + b.nbytes)

structure UmallocSys where
  heap : Uheap
  live : List LiveBlock

namespace UmallocSys

open Umalloc

/-- Memory of the program at a start `sz0` of the heap, with the header `base` in it. -/
structure Image where
  base : Nat
  sz0 : Nat
  base_pos : 0 < base
  base_le : base + headerSize ≤ sz0
  sz0_le : PGROUNDUP sz0 ≤ memBytes

variable (L : Image)

/-- A step of a program that calls `malloc` with sizes that satisfy `ok` only. -/
inductive Step (ok : BitVec 32 → Prop) (s : UmallocSys) : UmallocSys → Prop
  | malloc {ap heap} (room : Bool) (nbytes : BitVec 32) (hok : ok nbytes)
      (run : Umalloc.malloc L.base room nbytes s.heap = .ok (ap, heap)) :
      Step ok s ⟨heap, if ap = 0 then s.live else ⟨ap, nbytes.toNat⟩ :: s.live⟩
  | free {b heap} (live : b ∈ s.live)
      (run : Umalloc.free b.ap s.heap = .ok ((), heap)) : Step ok s ⟨heap, s.live.erase b⟩
  /-- the program writes to a block that it has -/
  | write {b} (a : Nat) (c : UInt8) (live : b ∈ s.live) (mem : b.ap ≤ a ∧ a < b.ap + b.nbytes) :
      Step ok s ⟨{ s.heap with mem := Function.update s.heap.mem a c }, s.live⟩

structure Init (s : UmallocSys) : Prop where
  sz : s.heap.sz = L.sz0
  freep : s.heap.freep = 0
  live : s.live = []

def Reachable (ok : BitVec 32 → Prop) (s : UmallocSys) : Prop := Trans.Reach (Init L) (Step L ok) s

/-- The sizes for which the argument of `sbrk` is positive as an `int`. -/
def Fits (nbytes : BitVec 32) : Prop := nbytes.toNat ≤ 2 ^ 31 - 2 * headerSize

/-- The free list: what the pointers lead to from `base`. -/
def InFreeList (s : UmallocSys) (a : Nat) : Prop :=
  s.heap.freep ≠ 0 ∧ ∃ k, (fun p => s.heap.mem.load p 8)^[k] L.base = a

/-- The bytes of the header at `p`, and of the block on the free list at `p`. -/
def headerBytes (p : Nat) : Set Nat := Set.Ico p (p + headerSize)

def freeBytes (s : UmallocSys) (p : Nat) : Set Nat := Set.Ico p (p + headerSize * s.heap.mem.load (p + 8) 4)

/-- Every live block is real memory and has no byte in common with anything else. -/
structure RealBlocks (s : UmallocSys) : Prop where
  inside : ∀ b ∈ s.live, L.sz0 ≤ b.ap ∧ b.ap + b.nbytes ≤ s.heap.sz
  live : s.live.Pairwise fun b c => Disjoint b.bytes c.bytes
  free : ∀ b ∈ s.live, ∀ p, s.InFreeList L p → Disjoint b.bytes (s.freeBytes p)
  header : ∀ b ∈ s.live, (∀ p, s.InFreeList L p → Disjoint b.bytes (headerBytes p)) ∧
    ∀ c ∈ s.live, Disjoint b.bytes (headerBytes (c.ap - headerSize))

end UmallocSys

end Xv6
