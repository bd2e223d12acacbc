import Xv6.Pipe

/-!
# Processes with pipes between them

Any number of processes share any number of pipes, as user programs see them: `read` and `write` of one byte, `close`,
`fork`. The lock of a pipe is held for a round of the loop of `pipewrite` or `piperead`, up to the return or up to `sleep`,
which gives the lock back and sleeps in one step; so a round is one step here. No process is killed, and `copyin` and
`copyout` succeed.

A process has an end of a pipe open if it is in its `ofile`. The files of the pipe are shared by all processes that have
it open: `fileclose` calls `pipeclose` when the last of them closes it.
-/

namespace Xv6

open Function (update)

inductive PipeEnd
  | read
  | write
deriving DecidableEq

def PipeEnd.other : PipeEnd → PipeEnd
  | .read => .write
  | .write => .read

namespace Pipe

def isOpen (pi : Pipe) : PipeEnd → Bool
  | .read => pi.readopen
  | .write => pi.writeopen

def setClosed (pi : Pipe) : PipeEnd → Pipe
  | .read => { pi with readopen := false }
  | .write => { pi with writeopen := false }

/-- `pi->nwrite - pi->nread` -/
def count (pi : Pipe) : Nat := (pi.nwrite + 2 ^ 32 - pi.nread) % 2 ^ 32

/-- `pipealloc` -/
def alloc (data : Nat → UInt8) : Pipe := ⟨data, 0, 0, true, true⟩

end Pipe

structure Pipes (P K : Type) where
  pipe : K → Pipe
  ofile : P → K → PipeEnd → Bool
  /-- A process that sleeps: the end `read` stands for `&pi->nread`, where readers sleep, and `write` for `&pi->nwrite`. -/
  chan : P → Option (K × PipeEnd)

/-- How a round of the loop ends. -/
inductive Round (α : Type)
  | sleep
  | ret (r : α)

namespace Pipes

variable {P K : Type} [DecidableEq P] [DecidableEq K]

def wakeup (s : Pipes P K) (c : K × PipeEnd) : Pipes P K :=
  { s with chan := fun p => if s.chan p = some c then none else s.chan p }

def sleep (s : Pipes P K) (p : P) (c : K × PipeEnd) : Pipes P K := { s with chan := update s.chan p (some c) }

def setPipe (s : Pipes P K) (k : K) (pi : Pipe) : Pipes P K := { s with pipe := update s.pipe k pi }

/-- `write(fd, &ch, 1)` returns -1 if nobody can read. -/
def pipewrite (s : Pipes P K) (p : P) (k : K) (ch : UInt8) : Round Int × Pipes P K :=
  if (s.pipe k).readopen = false then
    (.ret (-1), s)
  else if (s.pipe k).full then
    (.sleep, (s.wakeup (k, .read)).sleep p (k, .write))
  else
    (.ret 1, (s.setPipe k ((s.pipe k).push ch)).wakeup (k, .read))

/-- `read(fd, &ch, 1)` returns 1 and a byte, or 0. -/
def piperead (s : Pipes P K) (p : P) (k : K) : Round (Option UInt8) × Pipes P K :=
  if (s.pipe k).empty ∧ (s.pipe k).writeopen then
    (.sleep, s.sleep p (k, .read))
  else if (s.pipe k).empty then
    (.ret none, s.wakeup (k, .write))
  else
    (.ret (some (s.pipe k).front), (s.setPipe k (s.pipe k).pop).wakeup (k, .write))

/-- The other end has nothing to wait for. -/
def pipeclose (s : Pipes P K) (k : K) (e : PipeEnd) : Pipes P K :=
  (s.setPipe k ((s.pipe k).setClosed e)).wakeup (k, e.other)

def setOfile (s : Pipes P K) (p : P) (k : K) (e : PipeEnd) (v : Bool) : Pipes P K :=
  { s with ofile := update s.ofile p (update (s.ofile p) k (update (s.ofile p k) e v)) }

/-- `close`, or the closing of an open file in `exit` -/
def fileclose [Fintype P] (s : Pipes P K) (p : P) (k : K) (e : PipeEnd) : Pipes P K :=
  if s.ofile p k e then
    if ∃ q, (s.setOfile p k e false).ofile q k e = true then
      s.setOfile p k e false
    else
      (s.setOfile p k e false).pipeclose k e
  else
    s

/-- The child has what the parent has open. -/
def fork (s : Pipes P K) (p c : P) : Pipes P K := { s with ofile := update s.ofile c (s.ofile p) }

end Pipes

end Xv6
