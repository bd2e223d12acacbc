import Xv6.Kalloc

/-!
# Page tables (`vm.c`)

A C function that returns 0 or -1 returns `true` or `false` here. Loops over pages count the rounds that are
left; addresses do not wrap around in them, since every round that goes on finds a page below `MAXVA`.
-/

namespace Xv6

variable (K : Layout)

/-- The loop of `walk`: `pagetable` is a page of level `level`. -/
def walkLoop (va : Nat) (alloc : Bool) : (level pagetable : Nat) → VM Nat
  | 0, pagetable => return pagetable + 8 * PX 0 va
  | level + 1, pagetable => do
    let pte := pagetable + 8 * PX (level + 1) va
    let v ← load64 pte
    if v &&& PTE_V ≠ 0 then
      walkLoop va alloc level (PTE2PA v)
    else if !alloc then
      return 0
    else
      let page ← kalloc
      if page = 0 then
        return 0
      memset page 0 PGSIZE
      store64 pte (PA2PTE page ||| PTE_V)
      walkLoop va alloc level page

def walk (pagetable va : Nat) (alloc : Bool) : VM Nat := do
  if va ≥ MAXVA then
    Prog.fail .walk
  walkLoop va alloc 2 pagetable

def walkaddr (pagetable va : Nat) : VM Nat := do
  if va ≥ MAXVA then
    return 0
  let pte ← walk pagetable va false
  if pte = 0 then
    return 0
  let v ← load64 pte
  if v &&& PTE_V = 0 then
    return 0
  if v &&& PTE_U = 0 then
    return 0
  return PTE2PA v

/-- The loop of `mappages`, with `n` rounds after this one. -/
def mappagesLoop (pagetable perm : Nat) : (n a pa : Nat) → VM Bool
  | n, a, pa => do
    let pte ← walk pagetable a true
    if pte = 0 then
      return false
    if (← load64 pte) &&& PTE_V ≠ 0 then
      Prog.fail .mappagesRemap
    store64 pte (PA2PTE pa ||| perm ||| PTE_V)
    match n with
    | 0 => return true
    | n + 1 => mappagesLoop pagetable perm n (a + PGSIZE) (pa + PGSIZE)

def mappages (pagetable va size pa perm : Nat) : VM Bool := do
  if size = 0 then
    Prog.fail .mappagesSize
  let a := PGROUNDDOWN va
  let last := PGROUNDDOWN (va + size - 1)
  mappagesLoop pagetable perm ((last - a) / PGSIZE) a pa

def uvmunmapLoop (pagetable : Nat) (doFree : Bool) : (n a : Nat) → VM Unit
  | 0, _ => pure ()
  | n + 1, a => do
    let pte ← walk pagetable a false
    if pte = 0 then
      Prog.fail .uvmunmapWalk
    let v ← load64 pte
    if v &&& PTE_V = 0 then
      Prog.fail .uvmunmapNotMapped
    if PTE_FLAGS v = PTE_V then
      Prog.fail .uvmunmapNotLeaf
    if doFree then
      kfree K (PTE2PA v)
    store64 pte 0
    uvmunmapLoop pagetable doFree n (a + PGSIZE)

def uvmunmap (pagetable va npages : Nat) (doFree : Bool) : VM Unit := do
  if va % PGSIZE ≠ 0 then
    Prog.fail .uvmunmapAligned
  uvmunmapLoop K pagetable doFree npages va

def uvmcreate : VM Nat := do
  let pagetable ← kalloc
  if pagetable = 0 then
    return 0
  memset pagetable 0 PGSIZE
  return pagetable

/-- Returns what `mappages` has returned, which the source does not look at. -/
def uvmfirst (pagetable : Nat) (src : List UInt8) : VM Bool := do
  if src.length ≥ PGSIZE then
    Prog.fail .uvmfirst
  let mem ← kalloc
  if mem = 0 then
    -- in `memset`
    Prog.fail .kerneltrap
  memset mem 0 PGSIZE
  let mapped ← mappages pagetable 0 PGSIZE mem (PTE_W ||| PTE_R ||| PTE_X ||| PTE_U)
  modify fun s => { s with mem := s.mem.copy mem (fun i => src.getD i 0) 0 src.length }
  return mapped

def uvmdealloc (pagetable oldsz newsz : Nat) : VM Nat := do
  if newsz ≥ oldsz then
    return oldsz
  if PGROUNDUP newsz < PGROUNDUP oldsz then
    let npages := (PGROUNDUP oldsz - PGROUNDUP newsz) / PGSIZE
    uvmunmap K pagetable (PGROUNDUP newsz) npages true
  return newsz

def uvmallocLoop (pagetable oldsz newsz xperm : Nat) : (n a : Nat) → VM Nat
  | 0, _ => return newsz
  | n + 1, a => do
    let mem ← kalloc
    if mem = 0 then
      let _ ← uvmdealloc K pagetable a oldsz
      return 0
    memset mem 0 PGSIZE
    if !(← mappages pagetable a PGSIZE mem (PTE_R ||| PTE_U ||| xperm)) then
      kfree K mem
      let _ ← uvmdealloc K pagetable a oldsz
      return 0
    uvmallocLoop pagetable oldsz newsz xperm n (a + PGSIZE)

def uvmalloc (pagetable oldsz newsz xperm : Nat) : VM Nat := do
  if newsz < oldsz then
    return oldsz
  let oldsz := PGROUNDUP oldsz
  uvmallocLoop K pagetable oldsz newsz xperm ((newsz - oldsz + PGSIZE - 1) / PGSIZE) oldsz

/-- The loop of `freewalk` over the last `n` entries; `sub` is the recursive call. -/
def freewalkLoop (sub : Nat → VM Unit) (pagetable : Nat) : (n : Nat) → VM Unit
  | 0 => pure ()
  | n + 1 => do
    let i := 512 - (n + 1)
    let pte ← load64 (pagetable + 8 * i)
    if pte &&& PTE_V ≠ 0 ∧ pte &&& (PTE_R ||| PTE_W ||| PTE_X) = 0 then
      sub (PTE2PA pte)
      store64 (pagetable + 8 * i) 0
    else if pte &&& PTE_V ≠ 0 then
      Prog.fail .freewalkLeaf
    freewalkLoop sub pagetable n

/-- `depth` bounds the recursion; a page table has three levels. -/
def freewalk : (depth pagetable : Nat) → VM Unit
  | 0, _ => Prog.fail .freewalkDepth
  | depth + 1, pagetable => do
    freewalkLoop (freewalk depth) pagetable 512
    kfree K pagetable

def uvmfree (pagetable sz : Nat) : VM Unit := do
  if sz > 0 then
    uvmunmap K pagetable 0 (PGROUNDUP sz / PGSIZE) true
  freewalk K 3 pagetable

/-- The loop of `uvmcopy`; what is done so far is undone when a page cannot be had. -/
def uvmcopyLoop (old new : Nat) : (n i : Nat) → VM Bool
  | 0, _ => return true
  | n + 1, i => do
    let pte ← walk old i false
    if pte = 0 then
      Prog.fail .uvmcopyPte
    let v ← load64 pte
    if v &&& PTE_V = 0 then
      Prog.fail .uvmcopyPage
    let mem ← kalloc
    if mem = 0 then
      uvmunmap K new 0 (i / PGSIZE) true
      return false
    memmove mem (PTE2PA v) PGSIZE
    if !(← mappages new i PGSIZE mem (PTE_FLAGS v)) then
      kfree K mem
      uvmunmap K new 0 (i / PGSIZE) true
      return false
    uvmcopyLoop old new n (i + PGSIZE)

def uvmcopy (old new sz : Nat) : VM Bool := uvmcopyLoop K old new ((sz + PGSIZE - 1) / PGSIZE) 0

def uvmclear (pagetable va : Nat) : VM Unit := do
  let pte ← walk pagetable va false
  if pte = 0 then
    Prog.fail .uvmclear
  -- `*pte &= ~PTE_U`
  let v ← load64 pte
  store64 pte (v - (v &&& PTE_U))

/-- Copies the bytes `src` to user address `dstva`. -/
def copyout (pagetable dstva : Nat) (src : List UInt8) : VM Bool := do
  if _h : src.length = 0 then
    return true
  else
    let va0 := PGROUNDDOWN dstva
    let pa0 ← walkaddr pagetable va0
    if pa0 = 0 then
      return false
    let n := min (PGSIZE - (dstva - va0)) src.length
    modify fun s => { s with mem := s.mem.copy (pa0 + (dstva - va0)) (fun i => src.getD i 0) 0 n }
    copyout pagetable (va0 + PGSIZE) (src.drop n)
termination_by src.length
decreasing_by
  simp only [List.length_drop, PGROUNDDOWN, PGSIZE]
  omega

/-- The `len` bytes at user address `srcva`. -/
def copyin (pagetable srcva len : Nat) : VM (Option (List UInt8)) := do
  if _h : len = 0 then
    return some []
  else
    let va0 := PGROUNDDOWN srcva
    let pa0 ← walkaddr pagetable va0
    if pa0 = 0 then
      return none
    let n := min (PGSIZE - (srcva - va0)) len
    let m := (← get).mem
    let bytes := (List.range n).map fun i => m (pa0 + (srcva - va0) + i)
    let rest ← copyin pagetable (va0 + PGSIZE) (len - n)
    return rest.map (bytes ++ ·)
termination_by len
decreasing_by
  simp only [PGROUNDDOWN, PGSIZE]
  omega

/-- `copyin` with the destination in memory, at `dst`; a part of the bytes may have been copied when it
fails. `copyin` above is for callers that look at the bytes only if all of them are there. -/
def copyinTo (pagetable dst srcva len : Nat) : VM Bool := do
  if _h : len = 0 then
    return true
  else
    let va0 := PGROUNDDOWN srcva
    let pa0 ← walkaddr pagetable va0
    if pa0 = 0 then
      return false
    let n := min (PGSIZE - (srcva - va0)) len
    memmove dst (pa0 + (srcva - va0)) n
    copyinTo pagetable (dst + n) (va0 + PGSIZE) (len - n)
termination_by len
decreasing_by
  simp only [PGROUNDDOWN, PGSIZE]
  omega

/-- The inner loop of `copyinstr`, over the bytes of one page; returns `got_null`. -/
def copyinstrPage : (n dst p : Nat) → VM Bool
  | 0, _, _ => return false
  | n + 1, dst, p => do
    let c := (← get).mem p
    modify fun s => { s with mem := s.mem.fill dst 1 c }
    if c = 0 then
      return true
    copyinstrPage n (dst + 1) (p + 1)

def copyinstr (pagetable dst srcva max : Nat) : VM Bool := do
  if _h : max = 0 then
    return false
  else
    let va0 := PGROUNDDOWN srcva
    let pa0 ← walkaddr pagetable va0
    if pa0 = 0 then
      return false
    let n := min (PGSIZE - (srcva - va0)) max
    if ← copyinstrPage n dst (pa0 + (srcva - va0)) then
      return true
    copyinstr pagetable (dst + n) (va0 + PGSIZE) (max - n)
termination_by max
decreasing_by
  simp only [PGROUNDDOWN, PGSIZE]
  omega

end Xv6
