import Xv6.Lib.Trans
import Xv6.ProcMem

/-!
# `exec` (`exec.c`, `sysfile.c`) and the runs of the kernel

`exec` gets the path, without its NUL, and the content of the file it names, which is the same from `ilock` to
`iunlockput`; `none` is a path that names no file. The last section puts the system calls together: any process makes any call at any time,
and between the calls it writes to its own memory.
-/

namespace Xv6

namespace Kern

variable (K : Layout)

/-- What `readi` copies from a file with content `data`. -/
def readi (data : List UInt8) (off n : Nat) : List UInt8 :=
  if off > data.length ∨ (off + n) % 2 ^ 32 < off then [] else (data.drop off).take n

/-- The number in the `n` bytes at offset `off`. -/
def field (l : List UInt8) (off n : Nat) : Nat := Bytes.load (fun i => l.getD i 0) off n

def ELF_MAGIC : Nat := 0x464C457F
def ELF_PROG_LOAD : Nat := 1

/-- `sizeof(struct elfhdr)` and `sizeof(struct proghdr)` -/
def elfhdrSize : Nat := 64
def proghdrSize : Nat := 56

def flags2perm (flags : Nat) : Nat :=
  let perm := if flags &&& 0x1 ≠ 0 then PTE_X else 0
  if flags &&& 0x2 ≠ 0 then perm ||| PTE_W else perm

/-- The loop of `loadseg`, with `n` rounds to go. -/
def loadsegLoop (pagetable va : Nat) (data : List UInt8) (offset sz : Nat) : (n i : Nat) → VM Bool
  | 0, _ => return true
  | n + 1, i => do
    let pa ← walkaddr pagetable (va + i)
    if pa = 0 then
      Prog.fail .loadseg
    let len := if sz - i < PGSIZE then sz - i else PGSIZE
    let bytes := readi data ((offset + i) % 2 ^ 32) len
    modify fun s => { s with mem := s.mem.copy pa (fun j => bytes.getD j 0) 0 bytes.length }
    if bytes.length ≠ len then
      return false
    loadsegLoop pagetable va data offset sz n (i + PGSIZE)

def loadseg (pagetable va : Nat) (data : List UInt8) (offset sz : Nat) : VM Bool :=
  loadsegLoop pagetable va data offset sz ((sz + PGSIZE - 1) / PGSIZE) 0

/-- `struct proghdr` -/
structure Proghdr where
  type : Nat
  flags : Nat
  off : Nat
  vaddr : Nat
  filesz : Nat
  memsz : Nat
deriving DecidableEq

def Proghdr.parse (l : List UInt8) : Proghdr :=
  ⟨field l 0 4, field l 4 4, field l 8 8, field l 16 8, field l 32 8, field l 40 8⟩

/-- The `n` program headers at offset `off`. -/
def proghdrs (data : List UInt8) : (n off : Nat) → List Proghdr
  | 0, _ => []
  | n + 1, off => .parse ((data.drop off).take proghdrSize) :: proghdrs data n (off + proghdrSize)

def phoff (data : List UInt8) : Nat := field (data.take elfhdrSize) 32 8
def phnum (data : List UInt8) : Nat := field (data.take elfhdrSize) 56 2

def loadable (hs : List Proghdr) : List Proghdr := hs.filter (·.type = ELF_PROG_LOAD)

/-- The loadable segments of a file. -/
def segments (data : List UInt8) : List Proghdr := loadable (proghdrs data (phnum data) (phoff data))

/-- The loop over the program headers, with `n` of them to go. Returns whether it has come to the end, and
`sz`. -/
def loadSegments (pagetable : Nat) (data : List UInt8) : (n off sz : Nat) → VM (Bool × Nat)
  | 0, _, sz => return (true, sz)
  | n + 1, off, sz => do
    let l := readi data off proghdrSize
    if l.length ≠ proghdrSize then
      return (false, sz)
    let ph := Proghdr.parse l
    if ph.type ≠ ELF_PROG_LOAD then
      loadSegments pagetable data n ((off + proghdrSize) % 2 ^ 32) sz
    else
      if ph.memsz < ph.filesz then
        return (false, sz)
      if (ph.vaddr + ph.memsz) % 2 ^ 64 < ph.vaddr then
        return (false, sz)
      if ph.vaddr % PGSIZE ≠ 0 then
        return (false, sz)
      let sz1 ← uvmalloc K pagetable sz ((ph.vaddr + ph.memsz) % 2 ^ 64) (flags2perm ph.flags)
      if sz1 = 0 then
        return (false, sz)
      if !(← loadseg pagetable ph.vaddr data (ph.off % 2 ^ 32) (ph.filesz % 2 ^ 32)) then
        return (false, sz1)
      loadSegments pagetable data n ((off + proghdrSize) % 2 ^ 32) sz1

/-- `strlen` of a string that ends in its page. -/
def strlen (a : Nat) : VM Nat := do
  let m := (← get).mem
  return ((List.range PGSIZE).find? fun i => m (a + i) = 0).getD PGSIZE

/-- Pushes the argument strings. Returns the stack pointer and `ustack`. The stack pointer does not wrap
around: it is above `stackbase`, and there are `PGSIZE` bytes below that. -/
def pushArgs (pagetable stackbase : Nat) : (argv : List Nat) → (sp : Nat) → (ustack : List Nat) →
    VM (Option (Nat × List Nat))
  | [], sp, ustack => return some (sp, ustack)
  | a :: argv, sp, ustack => do
    if ustack.length ≥ MAXARG then
      return none
    let len ← strlen a
    let sp := sp - (len + 1)
    let sp := sp - sp % 16
    if sp < stackbase then
      return none
    let m := (← get).mem
    if !(← copyout pagetable sp ((List.range (len + 1)).map fun i => m (a + i))) then
      return none
    pushArgs pagetable stackbase argv sp (ustack ++ [sp])

/-- The part of `exec` that builds the stack. Returns `sp` and `argc`. -/
def buildStack (pagetable stackbase sz : Nat) (argv : List Nat) : VM (Option (Nat × Nat)) := do
  match ← pushArgs pagetable stackbase argv sz [] with
  | none => return none
  | some (sp, ustack) =>
    let sp := sp - (ustack.length + 1) * 8
    let sp := sp - sp % 16
    if sp < stackbase then
      return none
    if !(← copyout pagetable sp ((ustack ++ [0]).flatMap (bytesOf 8))) then
      return none
    return some (sp, ustack.length)

/-- A memory image that `exec` has built. -/
structure Image where
  pagetable : Nat
  sz : Nat
  sp : Nat
  argc : Nat
  entry : Nat

/-- `exec`, up to the point where it commits to the new image; what there is of it is freed on failure. -/
def buildImage (trapframe : Nat) (data : List UInt8) (argv : List Nat) : VM (Option Image) := do
  let elf := readi data 0 elfhdrSize
  if elf.length ≠ elfhdrSize then
    return none
  if field elf 0 4 ≠ ELF_MAGIC then
    return none
  let pagetable ← procPagetable K trapframe
  if pagetable = 0 then
    return none
  let (ok, sz) ← loadSegments K pagetable data (field elf 56 2) (field elf 32 8 % 2 ^ 32) 0
  if !ok then
    procFreepagetable K pagetable sz
    return none
  let sz := PGROUNDUP sz
  let sz1 ← uvmalloc K pagetable sz (sz + 2 * PGSIZE) PTE_W
  if sz1 = 0 then
    procFreepagetable K pagetable sz
    return none
  uvmclear pagetable (sz1 - 2 * PGSIZE)
  match ← buildStack pagetable (sz1 - PGSIZE) sz1 argv with
  | none =>
    procFreepagetable K pagetable sz1
    return none
  | some (sp, argc) => return some ⟨pagetable, sz1, sp, argc, field elf 24 8⟩

/-- The loop over `path`: what is behind its last `/`. -/
def lastElement : (s last : List UInt8) → List UInt8
  | [], last => last
  | c :: s, last => lastElement s (if c = 0x2f then s else last)

def exec (i : Fin NPROC) (path : List UInt8) (ip : Option (List UInt8)) (argv : List Nat) : KM (Option Nat) := do
  match ip with
  | none => return none
  | some data =>
    let p := (← get).proc i
    match ← vm (buildImage K p.trapframe data argv) with
    | none => return none
    | some im =>
      vm (store64 (p.trapframe + tfA1) im.sp)
      let name := safestrcpy (lastElement path path) nameSize
      modifyProc i fun p => { p with name := name, pagetable := im.pagetable, sz := im.sz }
      vm (store64 (p.trapframe + tfEpc) im.entry)
      vm (store64 (p.trapframe + tfSp) im.sp)
      vm (procFreepagetable K p.pagetable p.sz)
      return some im.argc

/-! ### `sys_exec` -/

def fetchaddr (p : ProcMem) (addr : Nat) : VM (Option Nat) := do
  if addr ≥ p.sz ∨ (addr + 8) % 2 ^ 64 > p.sz then
    return none
  return (← copyin p.pagetable addr 8).map fun l => field l 0 8

/-- The loop of `strlen`; `none` if the `n` bytes at `a` have no NUL among them. -/
def strlenWithin (m : Bytes) : (n a : Nat) → Option Nat
  | 0, _ => none
  | n + 1, a => if m a = 0 then some 0 else (strlenWithin m n (a + 1)).map (· + 1)

/-- `none` stands for a `strlen` that would run past the `max` bytes of the buffer. -/
def fetchstr (p : ProcMem) (addr buf max : Nat) : VM (Option Int) := do
  if !(← copyinstr p.pagetable buf addr max) then
    return some (-1)
  return (strlenWithin (← get).mem max buf).map Int.ofNat

/-- The loop of `sys_exec`, with `n` rounds to go. Returns whether it has come to the null pointer, and
`argv`. -/
def fetchArgs (p : ProcMem) (uargv : Nat) : (n : Nat) → (argv : List Nat) → VM (Bool × List Nat)
  | 0, argv => return (false, argv)
  | n + 1, argv => do
    match ← fetchaddr p ((uargv + 8 * argv.length) % 2 ^ 64) with
    | none => return (false, argv)
    | some uarg =>
      if uarg = 0 then
        return (true, argv)
      let page ← kalloc
      if page = 0 then
        return (false, argv)
      -- `fetchstr`
      if !(← copyinstr p.pagetable page uarg PGSIZE) then
        return (false, argv ++ [page])
      fetchArgs p uargv n (argv ++ [page])

def freeArgs : (argv : List Nat) → VM Unit
  | [] => pure ()
  | a :: argv => do
    kfree K a
    freeArgs argv

def sysExec (i : Fin NPROC) (path : List UInt8) (ip : Option (List UInt8)) (uargv : Nat) : KM (Option Nat) := do
  let (ok, argv) ← vm (fetchArgs ((← get).proc i) uargv MAXARG [])
  let ret ← if ok then exec K i path ip argv else pure none
  vm (freeArgs K argv)
  return ret

/-! ### Runs -/

/-- A system call with its arguments. -/
inductive Call
  | fork
  | exec (path : List UInt8) (ip : Option (List UInt8)) (uargv : Nat)
  | sbrk (n : CInt)
  | exit (status : CInt)
  | wait (addr : Nat)
  | pipe (fdarray : Nat)
  | close (fd : Fin NOFILE)

def call (i : Fin NPROC) : Call → KM Unit
  | .fork => do let _ ← fork K i
  | .exec path ip uargv => do let _ ← sysExec K i path ip uargv
  | .sbrk n => do let _ ← growproc K i n
  | .exit status => exit K i status
  | .wait addr => do let _ ← wait K i addr
  | .pipe fdarray => do let _ ← sysPipe K i fdarray
  | .close fd => do let _ ← sysClose K i fd

inductive Step (s : Kern) : Kern → Prop
  | call {s'} (i : Fin NPROC) (c : Call) (live : (s.proc i).state = .runnable)
      (run : call K i c s = .ok ((), s')) : Step s s'
  /-- a store of the user program, through its page table -/
  | user {k b} (i : Fin NPROC) (va : Nat) (byte : UInt8) (live : (s.proc i).state = .runnable)
      (run : copyout (s.proc i).pagetable va [byte] s.kmem = .ok (b, k)) : Step s { s with kmem := k }
  /-- registers are saved to the trapframe -/
  | trap (i : Fin NPROC) (off : Nat) (byte : UInt8) (live : (s.proc i).state = .runnable) (lt : off < tfSize) :
      Step s { s with kmem := { s.kmem with mem := s.kmem.mem.fill ((s.proc i).trapframe + off) 1 byte } }

/-- Memory is `m` when the machine is switched on, and the other variables of the kernel are zero. -/
def zeroed (m : Bytes) : Kern where
  kmem := ⟨m, 0⟩
  proc _ := ⟨.unused, 0, none, 0, 0, 0, 0, fun _ => none, []⟩
  file _ := ⟨.fdNone, 0, false, false, 0⟩
  nextpid := 1
  initproc := none
  boot := []

/-- The states of `main` before `userinit`: after `kinit`, the kernel takes pages for its own page table, the
kernel stacks and the disk queues, and uses them as it likes. -/
inductive Booting : Kern → Prop
  | kinit {m k} (run : kinit K ⟨m, 0⟩ = .ok ((), k)) : Booting { zeroed m with kmem := k }
  | kalloc {s k p} (h : Booting s) (run : Xv6.kalloc s.kmem = .ok (p, k)) (hp : p ≠ 0) :
      Booting { s with kmem := k, boot := p :: s.boot }
  | write {s p off byte} (h : Booting s) (hp : p ∈ s.boot) (lt : off < PGSIZE) :
      Booting { s with kmem := { s.kmem with mem := s.kmem.mem.fill (p + off) 1 byte } }

/-- The kernel is up, and there was memory for the first process. -/
def Booted (s : Kern) : Prop := ∃ s₀, Booting K s₀ ∧ userinit K s₀ = .ok (true, s)

/-- The states between kernel operations. -/
def Reachable : Kern → Prop := Trans.Reach (Booted K) (Step K)

end Kern

end Xv6
