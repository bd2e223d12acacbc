import Xv6.Lib.Trans
import Xv6.Pipes

/-!
# A token in a pipe (`interprocess.c`)

The parent puts one byte into a pipe and creates the children; each child takes the byte before it prints its message and
puts it back afterwards, for some number of rounds. Parameters: `n` children, `rounds c` rounds and the message `msg c` of
child `c`. `printf` writes a message byte by byte. The results of `read` and `write` are not looked at.

A run begins when `pipe` has returned. `fork` succeeds, and no process is killed. `wait` goes on when there is a zombie.
`exit` closes the two ends one after the other.
-/

namespace Xv6

namespace Interprocess

variable {n : Nat}

inductive ChildPc
  | unborn
  /-- at `for (int j = 0; j < 200; j++)` -/
  | loop (j : Nat)
  | read (j : Nat)
  /-- in `printf`, with `k` bytes written -/
  | print (j k : Nat)
  | write (j : Nat)
  /-- in `exit`, before the read end is closed -/
  | exitRead
  /-- in `exit`, before the write end is closed -/
  | exitWrite
  | zombie
  | reaped
deriving DecidableEq

inductive ParentPc
  | write
  /-- before child `i` is created -/
  | fork (i : Nat)
  /-- `i` children have been waited for -/
  | wait (i : Nat)
  | exitRead
  | exitWrite
  | zombie
deriving DecidableEq

structure State (n : Nat) where
  pipes : Pipes (Option (Fin n)) Unit
  parent : ParentPc
  child : Fin n → ChildPc
  buf : Fin n → UInt8
  /-- what has been printed, with the child that has printed it -/
  out : List (Fin n × UInt8)

def State.setChild (s : State n) (c : Fin n) (k : ChildPc) : State n := { s with child := Function.update s.child c k }

/-- The parent, among the processes. -/
abbrev parentProc : Option (Fin n) := none

/-- A call of a child that returns, with the result. -/
inductive Event (n : Nat)
  | tau
  | read (c : Fin n) (r : Int)
  | write (c : Fin n) (r : Int)

/-- The value that `read` returns. -/
def readRet (r : Option UInt8) : Int := if r.isSome then 1 else 0

/-- The byte `c` of the parent, `$`. -/
def token : UInt8 := '$'.toUInt8

inductive Step (rounds : Fin n → Nat) (msg : Fin n → List UInt8) (s : State n) : Event n → State n → Prop
  -- `main`
  | parentWrite {r t} (pc : s.parent = .write)
      (awake : s.pipes.chan parentProc = none) (call : s.pipes.pipewrite parentProc () token = (.ret r, t)) :
      Step rounds msg s .tau { s with pipes := t, parent := .fork 0 }
  | parentWriteSleep {t} (pc : s.parent = .write)
      (awake : s.pipes.chan parentProc = none) (call : s.pipes.pipewrite parentProc () token = (.sleep, t)) :
      Step rounds msg s .tau { s with pipes := t }
  | fork {i} (lt : i < n) (pc : s.parent = .fork i) : Step rounds msg s .tau
        { s.setChild ⟨i, lt⟩ (.loop 0) with pipes := s.pipes.fork parentProc (some ⟨i, lt⟩), parent := .fork (i + 1) }
  | forked {i} (ge : n ≤ i) (pc : s.parent = .fork i) : Step rounds msg s .tau { s with parent := .wait 0 }
  | wait {i c} (lt : i < n) (pc : s.parent = .wait i) (zombie : s.child c = .zombie) :
      Step rounds msg s .tau { s.setChild c .reaped with parent := .wait (i + 1) }
  | waited {i} (ge : n ≤ i) (pc : s.parent = .wait i) : Step rounds msg s .tau { s with parent := .exitRead }
  | parentExitRead (pc : s.parent = .exitRead) :
      Step rounds msg s .tau { s with pipes := s.pipes.fileclose parentProc () .read, parent := .exitWrite }
  | parentExitWrite (pc : s.parent = .exitWrite) :
      Step rounds msg s .tau { s with pipes := s.pipes.fileclose parentProc () .write, parent := .zombie }
  -- `create_child`
  | round {c j} (pc : s.child c = .loop j) (lt : j < rounds c) : Step rounds msg s .tau (s.setChild c (.read j))
  | lastRound {c j} (pc : s.child c = .loop j) (ge : rounds c ≤ j) : Step rounds msg s .tau (s.setChild c .exitRead)
  | read {c j r t} (pc : s.child c = .read j) (awake : s.pipes.chan (some c) = none)
      (call : s.pipes.piperead (some c) () = (.ret r, t)) : Step rounds msg s (.read c (readRet r))
        { s.setChild c (.print j 0) with pipes := t, buf := Function.update s.buf c (r.getD (s.buf c)) }
  | readSleep {c j t} (pc : s.child c = .read j)
      (awake : s.pipes.chan (some c) = none) (call : s.pipes.piperead (some c) () = (.sleep, t)) :
      Step rounds msg s .tau { s with pipes := t }
  | putc {c j k ch} (pc : s.child c = .print j k) (byte : (msg c)[k]? = some ch) :
      Step rounds msg s .tau { s.setChild c (.print j (k + 1)) with out := s.out ++ [(c, ch)] }
  | printed {c j k} (pc : s.child c = .print j k) (last : (msg c)[k]? = none) :
      Step rounds msg s .tau (s.setChild c (.write j))
  | write {c j r t} (pc : s.child c = .write j)
      (awake : s.pipes.chan (some c) = none) (call : s.pipes.pipewrite (some c) () (s.buf c) = (.ret r, t)) :
      Step rounds msg s (.write c r) { s.setChild c (.loop (j + 1)) with pipes := t }
  | writeSleep {c j t} (pc : s.child c = .write j)
      (awake : s.pipes.chan (some c) = none) (call : s.pipes.pipewrite (some c) () (s.buf c) = (.sleep, t)) :
      Step rounds msg s .tau { s with pipes := t }
  | exitRead {c} (pc : s.child c = .exitRead) :
      Step rounds msg s .tau { s.setChild c .exitWrite with pipes := s.pipes.fileclose (some c) () .read }
  | exitWrite {c} (pc : s.child c = .exitWrite) :
      Step rounds msg s .tau { s.setChild c .zombie with pipes := s.pipes.fileclose (some c) () .write }

/-- `pipe(p)` has returned. -/
structure Init (s : State n) : Prop where
  pipe : ∃ data, s.pipes.pipe () = Pipe.alloc data
  ofile : ∀ p k e, s.pipes.ofile p k e = (p == parentProc)
  chan : ∀ p, s.pipes.chan p = none
  parent : s.parent = .write
  child : ∀ c, s.child c = .unborn
  out : s.out = []

def Reachable (rounds : Fin n → Nat) (msg : Fin n → List UInt8) : State n → Prop :=
  Trans.Reach Init fun s s' => ∃ e, Step rounds msg s e s'

/-- Between the return of `read` and the end of `write`. -/
def ChildPc.Holds : ChildPc → Bool
  | .print _ _ => true
  | .write _ => true
  | _ => false

/-- The children that have the byte. -/
def State.holders (s : State n) : Finset (Fin n) := Finset.univ.filter fun c => (s.child c).Holds

end Interprocess

end Xv6
