import Xv6.Proc
import Xv6.Vm

/-!
# Processes and their memory (`proc.c`, `file.c`, `pipe.c`)

What `struct proc` and `struct file` say about memory, and the functions that make, grow, copy and free the
memory of processes and pipes. A kernel operation runs to its end; the interleavings of `fork`, `exit` and
`wait` are the subject of `Xv6.Proc`.

A C function that returns a number or -1 returns an `Option` here.
-/

namespace Xv6

open Function (update)

inductive FileType
  | fdNone | fdPipe | fdInode | fdDevice
deriving DecidableEq, Repr

/-- `struct file`, without what belongs to an inode. -/
structure File where
  type : FileType
  ref : Nat
  readable : Bool
  writable : Bool
  pipe : Nat

/-- The part of `struct proc` that belongs to memory; null pointers are 0 or `none`. -/
structure ProcMem where
  state : ProcState
  pid : CInt
  parent : Option (Fin NPROC)
  xstate : CInt
  sz : Nat
  pagetable : Nat
  trapframe : Nat
  ofile : Fin NOFILE → Option (Fin NFILE)
  /-- the string in it, without the NUL -/
  name : List UInt8

structure Kern where
  kmem : Kmem
  proc : Fin NPROC → ProcMem
  file : Fin NFILE → File
  nextpid : CInt
  initproc : Option (Fin NPROC)
  /-- history: the pages that the kernel has taken for itself while booting -/
  boot : List Nat

abbrev KM := Prog Panic Kern

namespace Kern

/-- Runs a function of `kalloc.c` or `vm.c`. -/
def vm {α : Type} (x : VM α) : KM α := Prog.zoom Kern.kmem (fun k s => { s with kmem := k }) x

def modifyProc (i : Fin NPROC) (f : ProcMem → ProcMem) : KM Unit :=
  modify fun s => { s with proc := update s.proc i (f (s.proc i)) }

def modifyFile (f : Fin NFILE) (u : File → File) : KM Unit :=
  modify fun s => { s with file := update s.file f (u (s.file f)) }

variable (K : Layout)

/-! ### `proc.c` -/

def procPagetable (trapframe : Nat) : VM Nat := do
  let pagetable ← uvmcreate
  if pagetable = 0 then
    return 0
  if !(← mappages pagetable TRAMPOLINE PGSIZE K.trampoline (PTE_R ||| PTE_X)) then
    uvmfree K pagetable 0
    return 0
  if !(← mappages pagetable TRAPFRAME PGSIZE trapframe (PTE_R ||| PTE_W)) then
    uvmunmap K pagetable TRAMPOLINE 1 false
    uvmfree K pagetable 0
    return 0
  return pagetable

def procFreepagetable (pagetable sz : Nat) : VM Unit := do
  uvmunmap K pagetable TRAMPOLINE 1 false
  uvmunmap K pagetable TRAPFRAME 1 false
  uvmfree K pagetable sz

def freeproc (i : Fin NPROC) : KM Unit := do
  let p := (← get).proc i
  if p.trapframe ≠ 0 then
    vm (kfree K p.trapframe)
  if p.pagetable ≠ 0 then
    vm (procFreepagetable K p.pagetable p.sz)
  modifyProc i fun p =>
    { p with
      trapframe := 0, pagetable := 0, sz := 0, pid := 0, parent := none, name := [], xstate := 0, state := .unused }

def allocproc : KM (Option (Fin NPROC)) := do
  let s ← get
  match (List.finRange NPROC).find? fun i => (s.proc i).state = .unused with
  | none => return none
  | some i =>
    modify fun s => { s with nextpid := s.nextpid + 1 }
    modifyProc i fun p => { p with pid := s.nextpid, state := .used }
    let trapframe ← vm kalloc
    modifyProc i fun p => { p with trapframe := trapframe }
    if trapframe = 0 then
      freeproc K i
      return none
    let pagetable ← vm (procPagetable K trapframe)
    modifyProc i fun p => { p with pagetable := pagetable }
    if pagetable = 0 then
      freeproc K i
      return none
    return some i

def initcode : List UInt8 :=
  [0x17, 0x05, 0x00, 0x00, 0x13, 0x05, 0x45, 0x02,
   0x97, 0x05, 0x00, 0x00, 0x93, 0x85, 0x35, 0x02,
   0x93, 0x08, 0x70, 0x00, 0x73, 0x00, 0x00, 0x00,
   0x93, 0x08, 0x20, 0x00, 0x73, 0x00, 0x00, 0x00,
   0xef, 0xf0, 0x9f, 0xff, 0x2f, 0x69, 0x6e, 0x69,
   0x74, 0x00, 0x00, 0x24, 0x00, 0x00, 0x00, 0x00,
   0x00, 0x00, 0x00, 0x00]

/-- Offsets into `struct trapframe`. -/
def tfEpc : Nat := 24
def tfSp : Nat := 48
def tfA0 : Nat := 112
def tfA1 : Nat := 120
/-- `sizeof(struct trapframe)` -/
def tfSize : Nat := 288

/-- `sizeof(p->name)` -/
def nameSize : Nat := 16

/-- What `safestrcpy(s, t, n)` leaves in `s`, for strings without their NUL. -/
def safestrcpy (t : List UInt8) (n : Nat) : List UInt8 := t.take (n - 1)

/-- Returns whether the first page has been mapped. -/
def userinit : KM Bool := do
  match ← allocproc K with
  | none => Prog.fail .kerneltrap
  | some i =>
    let p := (← get).proc i
    modify fun s => { s with initproc := some i }
    let mapped ← vm (uvmfirst p.pagetable initcode)
    modifyProc i fun p => { p with sz := PGSIZE }
    vm (store64 (p.trapframe + tfEpc) 0)
    vm (store64 (p.trapframe + tfSp) PGSIZE)
    -- "initcode"
    let name := safestrcpy [0x69, 0x6e, 0x69, 0x74, 0x63, 0x6f, 0x64, 0x65] nameSize
    modifyProc i fun p => { p with name := name, state := .runnable }
    return mapped

/-- `sz + n` with a `uint64` and an `int`. -/
def addInt (sz : Nat) (n : CInt) : Nat := ((sz + n.toInt) % 2 ^ 64).toNat

def growproc (i : Fin NPROC) (n : CInt) : KM Bool := do
  let p := (← get).proc i
  if n.toInt > 0 then
    let sz ← vm (uvmalloc K p.pagetable p.sz (addInt p.sz n) PTE_W)
    if sz = 0 then
      return false
    modifyProc i fun p => { p with sz := sz }
  else if n.toInt < 0 then
    let sz ← vm (uvmdealloc K p.pagetable p.sz (addInt p.sz n))
    modifyProc i fun p => { p with sz := sz }
  return true

/-! ### `file.c` and `pipe.c` -/

def filealloc : KM (Option (Fin NFILE)) := do
  let s ← get
  match (List.finRange NFILE).find? fun f => (s.file f).ref = 0 with
  | none => return none
  | some f =>
    modifyFile f fun ff => { ff with ref := 1 }
    return some f

def filedup (f : Fin NFILE) : KM Unit := do
  if ((← get).file f).ref < 1 then
    Prog.fail .filedup
  modifyFile f fun ff => { ff with ref := ff.ref + 1 }

/-- Offsets into `struct pipe`, which starts with a lock of 24 bytes and 512 bytes of data. -/
def pipeNread : Nat := 536
def pipeNwrite : Nat := 540
def pipeReadopen : Nat := 544
def pipeWriteopen : Nat := 548

def store32 (a v : Nat) : VM Unit := modify fun s => { s with mem := s.mem.store a 4 v }

def load32 (a : Nat) : VM Nat := do return (← get).mem.load a 4

def pipeclose (pi : Nat) (writable : Bool) : VM Unit := do
  if writable then
    store32 (pi + pipeWriteopen) 0
  else
    store32 (pi + pipeReadopen) 0
  if (← load32 (pi + pipeReadopen)) = 0 ∧ (← load32 (pi + pipeWriteopen)) = 0 then
    kfree K pi

def fileclose (f : Fin NFILE) : KM Unit := do
  let ff := (← get).file f
  if ff.ref < 1 then
    Prog.fail .fileclose
  if ff.ref - 1 > 0 then
    modifyFile f fun ff => { ff with ref := ff.ref - 1 }
  else
    modifyFile f fun ff => { ff with ref := 0, type := .fdNone }
    -- `iput` of an inode does not touch pages
    if ff.type = .fdPipe then
      vm (pipeclose K ff.pipe ff.writable)

/-- The lock of the pipe is not modelled. -/
def pipealloc : KM (Option (Fin NFILE × Fin NFILE)) := do
  match ← filealloc with
  | none => return none
  | some f0 =>
    match ← filealloc with
    | none =>
      fileclose K f0
      return none
    | some f1 =>
      let pi ← vm kalloc
      if pi = 0 then
        fileclose K f0
        fileclose K f1
        return none
      vm (store32 (pi + pipeReadopen) 1)
      vm (store32 (pi + pipeWriteopen) 1)
      vm (store32 (pi + pipeNwrite) 0)
      vm (store32 (pi + pipeNread) 0)
      modifyFile f0 fun ff => { ff with type := .fdPipe, readable := true, writable := false, pipe := pi }
      modifyFile f1 fun ff => { ff with type := .fdPipe, readable := false, writable := true, pipe := pi }
      return some (f0, f1)

/-! ### `fork`, `exit`, `wait` -/

/-- The loop of `fork` over the open files. -/
def dupFiles (i np : Fin NPROC) : List (Fin NOFILE) → KM Unit
  | [] => pure ()
  | fd :: fds => do
    match ((← get).proc i).ofile fd with
    | none => pure ()
    | some f =>
      filedup f
      modifyProc np fun p => { p with ofile := update p.ofile fd (some f) }
    dupFiles i np fds

def fork (i : Fin NPROC) : KM (Option CInt) := do
  match ← allocproc K with
  | none => return none
  | some np =>
    let p := (← get).proc i
    let q := (← get).proc np
    if !(← vm (uvmcopy K p.pagetable q.pagetable p.sz)) then
      freeproc K np
      return none
    modifyProc np fun q => { q with sz := p.sz }
    vm (memmove q.trapframe p.trapframe tfSize)
    vm (store64 (q.trapframe + tfA0) 0)
    dupFiles i np (List.finRange NOFILE)
    modifyProc np fun q => { q with name := safestrcpy p.name nameSize, parent := some i, state := .runnable }
    return some q.pid

/-- The loop of `exit` over the open files. -/
def closeFiles (i : Fin NPROC) : List (Fin NOFILE) → KM Unit
  | [] => pure ()
  | fd :: fds => do
    match ((← get).proc i).ofile fd with
    | none => pure ()
    | some f =>
      fileclose K f
      modifyProc i fun p => { p with ofile := update p.ofile fd none }
    closeFiles i fds

def reparent (i : Fin NPROC) : KM Unit :=
  modify fun s =>
    { s with proc := fun j => if (s.proc j).parent = some i then { s.proc j with parent := s.initproc } else s.proc j }

def exit (i : Fin NPROC) (status : CInt) : KM Unit := do
  if (← get).initproc = some i then
    Prog.fail .initExiting
  closeFiles K i (List.finRange NOFILE)
  reparent i
  modifyProc i fun p => { p with xstate := status, state := .zombie }

/-- The bytes of an `n`-byte number in memory. -/
def bytesOf (n v : Nat) : List UInt8 := (List.range n).map fun k => UInt8.ofNat (v / 256 ^ k % 256)

/-- A call that waits for a child to exit leaves everything as it is until there is one. -/
def wait (i : Fin NPROC) (addr : Nat) : KM (Option CInt) := do
  let s ← get
  match (List.finRange NPROC).find? fun j => (s.proc j).parent = some i ∧ (s.proc j).state = .zombie with
  | none => return none
  | some j =>
    let pp := s.proc j
    if addr ≠ 0 then
      if !(← vm (copyout (s.proc i).pagetable addr (bytesOf 4 pp.xstate.toNat))) then
        return none
    freeproc K j
    return some pp.pid

/-! ### `sys_pipe` and `sys_close` -/

def fdalloc (i : Fin NPROC) (f : Fin NFILE) : KM (Option (Fin NOFILE)) := do
  let p := (← get).proc i
  match (List.finRange NOFILE).find? fun fd => (p.ofile fd).isNone with
  | none => return none
  | some fd =>
    modifyProc i fun p => { p with ofile := update p.ofile fd (some f) }
    return some fd

def clearFd (i : Fin NPROC) (fd : Fin NOFILE) : KM Unit :=
  modifyProc i fun p => { p with ofile := update p.ofile fd none }

def sysPipe (i : Fin NPROC) (fdarray : Nat) : KM Bool := do
  match ← pipealloc K with
  | none => return false
  | some (rf, wf) =>
    match ← fdalloc i rf with
    | none =>
      fileclose K rf
      fileclose K wf
      return false
    | some fd0 =>
      match ← fdalloc i wf with
      | none =>
        clearFd i fd0
        fileclose K rf
        fileclose K wf
        return false
      | some fd1 =>
        let pagetable := ((← get).proc i).pagetable
        let ok ← vm do
          if !(← copyout pagetable fdarray (bytesOf 4 fd0)) then
            return false
          copyout pagetable ((fdarray + 4) % 2 ^ 64) (bytesOf 4 fd1)
        if !ok then
          clearFd i fd0
          clearFd i fd1
          fileclose K rf
          fileclose K wf
        return ok

def sysClose (i : Fin NPROC) (fd : Fin NOFILE) : KM Bool := do
  match ((← get).proc i).ofile fd with
  | none => return false
  | some f =>
    clearFd i fd
    fileclose K f
    return true

end Kern

end Xv6
