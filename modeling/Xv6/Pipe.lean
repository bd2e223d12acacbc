import Xv6.Lib.Trans
import Xv6.Proc

/-!
# Reading and writing a pipe (`pipe.c`)

Any number of processes call `pipewrite` and `piperead` on one pipe, and close its ends. A step is one round
of a loop of these functions, or the code up to the next lock operation; a process that sleeps may be woken
at any time. Whether `killed` is true, and whether `copyin` and `copyout` find the page, is left open: a read
whose whole buffer is mapped is marked `valid`.

The calls of `pipewrite` are numbered; `src c i` is byte `i` of the buffer of call `c`. `put`, `taken` and
`done` are history: the bytes put into the ring with the call they come from, the bytes taken out, and how
many bytes each call has put in.
-/

namespace Xv6

def PIPESIZE : Nat := 512

/-- `struct pipe`, without its lock. -/
structure Pipe where
  data : Nat → UInt8
  /-- number of bytes read, a `uint` -/
  nread : Nat
  /-- number of bytes written, a `uint` -/
  nwrite : Nat
  readopen : Bool
  writeopen : Bool

namespace Pipe

/-- `pi->nwrite == pi->nread + PIPESIZE` -/
def full (pi : Pipe) : Bool := pi.nwrite == (pi.nread + PIPESIZE) % 2 ^ 32

/-- `pi->nread == pi->nwrite` -/
def empty (pi : Pipe) : Bool := pi.nread == pi.nwrite

/-- `pi->data[pi->nwrite++ % PIPESIZE] = ch` -/
def push (pi : Pipe) (ch : UInt8) : Pipe :=
  { pi with data := Function.update pi.data (pi.nwrite % PIPESIZE) ch, nwrite := (pi.nwrite + 1) % 2 ^ 32 }

/-- `pi->data[pi->nread % PIPESIZE]` -/
def front (pi : Pipe) : UInt8 := pi.data (pi.nread % PIPESIZE)

/-- `pi->nread++` -/
def pop (pi : Pipe) : Pipe := { pi with nread := (pi.nread + 1) % 2 ^ 32 }

end Pipe

/-- Where a process is. From `writeLoop` to `writeDone` and from `readWait` to `readDone` it holds the lock,
except when it sleeps. -/
inductive PipePc
  | out
  /-- `pipewrite`, before `acquire(&pi->lock)` or on the way back from `sleep` -/
  | write (c : Nat) (n : CInt) (i : Nat)
  /-- at `while(i < n)` -/
  | writeLoop (c : Nat) (n : CInt) (i : Nat)
  | writeDone (c : Nat) (n : CInt) (i : Nat)
  /-- `piperead`, before `acquire(&pi->lock)` or on the way back from `sleep` -/
  | read (valid : Bool) (n : CInt)
  /-- at `while(pi->nread == pi->nwrite && pi->writeopen)` -/
  | readWait (valid : Bool) (n : CInt)
  /-- at `for(i = 0; i < n; i++)` -/
  | readCopy (valid : Bool) (n : CInt) (i : Nat)
  | readDone (valid : Bool) (n : CInt) (i : Nat)
  /-- at `release(&pi->lock); return -1` -/
  | fail
deriving DecidableEq

structure PipeSys (P : Type) where
  pipe : Pipe
  lock : Option P
  pc : P → PipePc
  put : List (Nat × UInt8)
  taken : List UInt8
  done : Nat → Nat
  next : Nat

namespace PipeSys

variable {P : Type} [DecidableEq P]

def goto (s : PipeSys P) (p : P) (k : PipePc) : PipeSys P := { s with pc := Function.update s.pc p k }

/-- `pi->data[pi->nwrite++ % PIPESIZE] = ch`, by call `c` -/
def push (s : PipeSys P) (c : Nat) (ch : UInt8) : PipeSys P :=
  { s with
    pipe := s.pipe.push ch
    put := s.put ++ [(c, ch)]
    done := Function.update s.done c (s.done c + 1) }

/-- `ch = pi->data[pi->nread++ % PIPESIZE]` -/
def pop (s : PipeSys P) : PipeSys P := { s with pipe := s.pipe.pop, taken := s.taken ++ [s.pipe.front] }

/-- A step, with the process that returns and the value it returns. -/
inductive Step (src : Nat → Nat → UInt8) (s : PipeSys P) : Option (P × Int) → PipeSys P → Prop
  -- `pipewrite`
  | pipewrite {p} (n : CInt) (pc : s.pc p = .out) :
      Step src s none { s.goto p (.write s.next n 0) with next := s.next + 1 }
  | writeAcquire {p c n i} (pc : s.pc p = .write c n i)
      (free : s.lock = none) : Step src s none { s.goto p (.writeLoop c n i) with lock := some p }
  /-- `pi->readopen == 0 || killed(pr)`, where nothing is known of `killed` -/
  | writeFail {p c n i} (pc : s.pc p = .writeLoop c n i) (lt : (i : Int) < n.toInt) : Step src s none (s.goto p .fail)
  /-- `wakeup(&pi->nread)`, `sleep(&pi->nwrite, &pi->lock)` -/
  | writeSleep {p c n i} (pc : s.pc p = .writeLoop c n i)
      (lt : (i : Int) < n.toInt) (hopen : s.pipe.readopen = true) (full : s.pipe.full = true) :
      Step src s none { s.goto p (.write c n i) with lock := none }
  | writeBreak {p c n i} (pc : s.pc p = .writeLoop c n i)
      (lt : (i : Int) < n.toInt) (hopen : s.pipe.readopen = true) (room : s.pipe.full = false) :
      Step src s none (s.goto p (.writeDone c n i))
  | writeByte {p c n i} (pc : s.pc p = .writeLoop c n i)
      (lt : (i : Int) < n.toInt) (hopen : s.pipe.readopen = true) (room : s.pipe.full = false) :
      Step src s none ((s.push c (src c i)).goto p (.writeLoop c n (i + 1)))
  | writeExit {p c n i} (pc : s.pc p = .writeLoop c n i)
      (ge : n.toInt ≤ i) : Step src s none (s.goto p (.writeDone c n i))
  | writeReturn {p c n i} (pc : s.pc p = .writeDone c n i) :
      Step src s (some (p, i)) { s.goto p .out with lock := none }
  -- `piperead`
  | piperead {p} (valid : Bool) (n : CInt) (pc : s.pc p = .out) : Step src s none (s.goto p (.read valid n))
  | readAcquire {p valid n} (pc : s.pc p = .read valid n)
      (free : s.lock = none) : Step src s none { s.goto p (.readWait valid n) with lock := some p }
  /-- `killed(pr)` -/
  | readFail {p valid n} (pc : s.pc p = .readWait valid n)
      (empty : s.pipe.empty = true) (hopen : s.pipe.writeopen = true) : Step src s none (s.goto p .fail)
  /-- `sleep(&pi->nread, &pi->lock)` -/
  | readSleep {p valid n} (pc : s.pc p = .readWait valid n)
      (empty : s.pipe.empty = true) (hopen : s.pipe.writeopen = true) :
      Step src s none { s.goto p (.read valid n) with lock := none }
  | readStart {p valid n} (pc : s.pc p = .readWait valid n)
      (go : ¬ (s.pipe.empty = true ∧ s.pipe.writeopen = true)) : Step src s none (s.goto p (.readCopy valid n 0))
  | readEmpty {p valid n i} (pc : s.pc p = .readCopy valid n i)
      (lt : (i : Int) < n.toInt) (empty : s.pipe.empty = true) : Step src s none (s.goto p (.readDone valid n i))
  | readByte {p valid n i} (pc : s.pc p = .readCopy valid n i)
      (lt : (i : Int) < n.toInt) (some : s.pipe.empty = false) :
      Step src s none (s.pop.goto p (.readCopy valid n (i + 1)))
  /-- `copyout` fails, after the byte has been taken out -/
  | readBreak {p n i} (pc : s.pc p = .readCopy false n i)
      (lt : (i : Int) < n.toInt) (some : s.pipe.empty = false) : Step src s none (s.pop.goto p (.readDone false n i))
  | readExit {p valid n i} (pc : s.pc p = .readCopy valid n i)
      (ge : n.toInt ≤ i) : Step src s none (s.goto p (.readDone valid n i))
  | readReturn {p valid n i} (pc : s.pc p = .readDone valid n i) :
      Step src s (some (p, i)) { s.goto p .out with lock := none }
  | failReturn {p} (pc : s.pc p = .fail) : Step src s (some (p, -1)) { s.goto p .out with lock := none }
  -- `pipeclose`
  | closeWrite (free : s.lock = none) : Step src s none { s with pipe.writeopen := false }
  | closeRead (free : s.lock = none) : Step src s none { s with pipe.readopen := false }

/-- `pipealloc` has just returned. -/
structure Init (s : PipeSys P) : Prop where
  nread : s.pipe.nread = 0
  nwrite : s.pipe.nwrite = 0
  readopen : s.pipe.readopen = true
  writeopen : s.pipe.writeopen = true
  lock : s.lock = none
  pc : ∀ p, s.pc p = .out
  put : s.put = []
  taken : s.taken = []
  done : ∀ c, s.done c = 0
  next : s.next = 0

/-- The states reached while the calls of `pipewrite` have the buffers `src`. -/
def Reachable (src : Nat → Nat → UInt8) : PipeSys P → Prop :=
  Trans.Reach Init fun s s' => ∃ ret, Step src s ret s'

end PipeSys

end Xv6
