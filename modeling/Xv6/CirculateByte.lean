import Xv6.Lib.Trans
import Xv6.Pipes

/-!
# A byte in a ring of processes (`circulate_byte.c`)

`N` children and the parent form a ring: child `i` reads pipe `i` and writes pipe `i + 1`, the parent reads pipe `N` and
writes pipe `0`. The parent sends a byte around the ring `L` times and then closes its write end; each child exits when
its pipe is at its end. Every process starts with all `2 * (N + 1)` ends open and closes those it does not need, while the
others may already be running.

A run begins when the pipes have been created. `fork` succeeds and no process is killed. `wait` goes on when there is a
zombie. `exit` closes what is still open, in the order of the descriptors.
-/

namespace Xv6

namespace Circulate

variable {N : Nat}

/-- An end of a pipe: `p[k][0]` or `p[k][1]`. -/
abbrev Fd (N : Nat) := Fin (N + 1) × PipeEnd

/-- `none` is the parent. -/
abbrev Proc (N : Nat) := Option (Fin N)

inductive Pc (N : Nat)
  | unborn
  /-- `main`, before child `i` is created -/
  | fork (i : Nat)
  /-- closing the ends that are not used -/
  | close (todo : List (Fd N))
  | send
  /-- at `while (loops_done < NUM_LOOPS)` -/
  | loop
  | read
  | write
  /-- `close(p[0][1])` -/
  | stopWrite
  /-- `close(p[NUM_CHILDREN][0])` -/
  | stopRead
  /-- `i` children have been waited for -/
  | wait (i : Nat)
  | exit (status : Int) (todo : List (Fd N))
  | zombie (status : Int)
  | reaped

structure State (N : Nat) where
  pipes : Pipes (Proc N) (Fin (N + 1))
  pc : Proc N → Pc N
  buf : Proc N → UInt8
  loopsDone : Nat

def State.goto (s : State N) (p : Proc N) (k : Pc N) : State N := { s with pc := Function.update s.pc p k }

def State.setBuf (s : State N) (p : Proc N) (b : UInt8) : State N := { s with buf := Function.update s.buf p b }

/-- `'A'` -/
def theByte : UInt8 := 'A'.toUInt8

/-- The loop at the start of `circulate`. -/
def childCloses (idx : Fin N) : List (Fd N) :=
  (List.finRange (N + 1)).flatMap fun k =>
    (if k ≠ idx.castSucc then [(k, .read)] else []) ++ (if k ≠ idx.succ then [(k, .write)] else [])

/-- The loop of the parent. -/
def parentCloses : List (Fd N) :=
  (List.finRange (N + 1)).flatMap fun k =>
    (if k ≠ 0 then [(k, .write)] else []) ++ (if k ≠ Fin.last N then [(k, .read)] else [])

/-- All descriptors, in the order in which `pipe` has made them. -/
def allFds : List (Fd N) := (List.finRange (N + 1)).flatMap fun k => [(k, .read), (k, .write)]

inductive Step (L : Nat) (s : State N) : State N → Prop
  -- `main`
  | fork {i} (lt : i < N) (pc : s.pc none = .fork i) : Step L s
        { (s.goto (some ⟨i, lt⟩) (.close (childCloses ⟨i, lt⟩))).goto none (.fork (i + 1)) with
          pipes := s.pipes.fork none (some ⟨i, lt⟩) }
  | forked {i} (ge : N ≤ i) (pc : s.pc none = .fork i) : Step L s (s.goto none (.close parentCloses))
  | parentClosed (pc : s.pc none = .close []) : Step L s ((s.setBuf none theByte).goto none .send)
  | send {r t} (pc : s.pc none = .send)
      (awake : s.pipes.chan none = none) (call : s.pipes.pipewrite none 0 (s.buf none) = (.ret r, t)) :
      Step L s { s.goto none (if r = 1 then .loop else .stopWrite) with pipes := t }
  | sendSleep {t} (pc : s.pc none = .send)
      (awake : s.pipes.chan none = none) (call : s.pipes.pipewrite none 0 (s.buf none) = (.sleep, t)) :
      Step L s { s with pipes := t }
  | enter (pc : s.pc none = .loop) (lt : s.loopsDone < L) : Step L s (s.goto none .read)
  | leave (pc : s.pc none = .loop) (ge : L ≤ s.loopsDone) : Step L s (s.goto none .stopWrite)
  | parentRead {b t} (pc : s.pc none = .read)
      (awake : s.pipes.chan none = none) (call : s.pipes.piperead none (Fin.last N) = (.ret (some b), t)) :
      Step L s { (s.setBuf none b).goto none .write with pipes := t }
  /-- `if (n != 1) break;` -/
  | parentEof {t} (pc : s.pc none = .read)
      (awake : s.pipes.chan none = none) (call : s.pipes.piperead none (Fin.last N) = (.ret none, t)) :
      Step L s { s.goto none .stopWrite with pipes := t }
  | parentReadSleep {t} (pc : s.pc none = .read)
      (awake : s.pipes.chan none = none) (call : s.pipes.piperead none (Fin.last N) = (.sleep, t)) :
      Step L s { s with pipes := t }
  | parentWrite {t} (pc : s.pc none = .write)
      (awake : s.pipes.chan none = none) (call : s.pipes.pipewrite none 0 (s.buf none) = (.ret 1, t)) :
      Step L s { s.goto none .loop with pipes := t, loopsDone := s.loopsDone + 1 }
  /-- `if (write(..) != 1) break;` -/
  | parentWriteFail {r t} (pc : s.pc none = .write)
      (awake : s.pipes.chan none = none) (call : s.pipes.pipewrite none 0 (s.buf none) = (.ret r, t)) (ne : r ≠ 1) :
      Step L s { s.goto none .stopWrite with pipes := t }
  | parentWriteSleep {t} (pc : s.pc none = .write)
      (awake : s.pipes.chan none = none) (call : s.pipes.pipewrite none 0 (s.buf none) = (.sleep, t)) :
      Step L s { s with pipes := t }
  | stopWrite (pc : s.pc none = .stopWrite) :
      Step L s { s.goto none .stopRead with pipes := s.pipes.fileclose none 0 .write }
  | stopRead (pc : s.pc none = .stopRead) :
      Step L s { s.goto none (.wait 0) with pipes := s.pipes.fileclose none (Fin.last N) .read }
  | wait {i c st} (lt : i < N) (pc : s.pc none = .wait i)
      (zombie : s.pc (some c) = .zombie st) : Step L s ((s.goto (some c) .reaped).goto none (.wait (i + 1)))
  | waited {i} (ge : N ≤ i) (pc : s.pc none = .wait i) : Step L s (s.goto none (.exit 0 allFds))
  -- `circulate`
  | childClosed {c} (pc : s.pc (some c) = .close []) : Step L s (s.goto (some c) .read)
  | read {c b t} (pc : s.pc (some c) = .read)
      (awake : s.pipes.chan (some c) = none) (call : s.pipes.piperead (some c) c.castSucc = (.ret (some b), t)) :
      Step L s { (s.setBuf (some c) b).goto (some c) .write with pipes := t }
  | eof {c t} (pc : s.pc (some c) = .read)
      (awake : s.pipes.chan (some c) = none) (call : s.pipes.piperead (some c) c.castSucc = (.ret none, t)) :
      Step L s { s.goto (some c) (.exit 0 allFds) with pipes := t }
  | readSleep {c t} (pc : s.pc (some c) = .read)
      (awake : s.pipes.chan (some c) = none) (call : s.pipes.piperead (some c) c.castSucc = (.sleep, t)) :
      Step L s { s with pipes := t }
  | write {c t} (pc : s.pc (some c) = .write)
      (awake : s.pipes.chan (some c) = none) (call : s.pipes.pipewrite (some c) c.succ (s.buf (some c)) = (.ret 1, t)) :
      Step L s { s.goto (some c) .read with pipes := t }
  | writeFail {c r t} (pc : s.pc (some c) = .write) (awake : s.pipes.chan (some c) = none)
      (call : s.pipes.pipewrite (some c) c.succ (s.buf (some c)) = (.ret r, t)) (ne : r ≠ 1) :
      Step L s { s.goto (some c) (.exit 1 allFds) with pipes := t }
  | writeSleep {c t} (pc : s.pc (some c) = .write) (awake : s.pipes.chan (some c) = none)
      (call : s.pipes.pipewrite (some c) c.succ (s.buf (some c)) = (.sleep, t)) : Step L s { s with pipes := t }
  -- both
  | close {p fd todo} (pc : s.pc p = .close (fd :: todo)) :
      Step L s { s.goto p (.close todo) with pipes := s.pipes.fileclose p fd.1 fd.2 }
  | exitClose {p st fd todo} (pc : s.pc p = .exit st (fd :: todo)) :
      Step L s { s.goto p (.exit st todo) with pipes := s.pipes.fileclose p fd.1 fd.2 }
  | exited {p st} (pc : s.pc p = .exit st []) : Step L s (s.goto p (.zombie st))

/-- The pipes have been created. -/
structure Init (s : State N) : Prop where
  pipe : ∀ k, ∃ data, s.pipes.pipe k = Pipe.alloc data
  ofile : ∀ p k e, s.pipes.ofile p k e = p.isNone
  chan : ∀ p, s.pipes.chan p = none
  parent : s.pc none = .fork 0
  child : ∀ c, s.pc (some c) = .unborn
  loopsDone : s.loopsDone = 0

def Reachable (L : Nat) : State N → Prop := Trans.Reach Init (Step L)

/-- A process that has read a byte and has not passed it on: it is in `write`, or `write` has failed. -/
def Pc.Passing : Pc N → Bool
  | .write => true
  | .exit st _ => st = 1
  | .zombie st => st = 1
  | _ => false

/-- A process in `exit`, or past it. -/
def Pc.Exits : Pc N → Bool
  | .exit _ _ => true
  | .zombie _ => true
  | .reaped => true
  | _ => false

/-- The parent is past its loop. -/
def Pc.Left : Pc N → Bool
  | .stopWrite => true
  | .stopRead => true
  | .wait _ => true
  | .exit _ _ => true
  | .zombie _ => true
  | _ => false

/-- The bytes in the pipes and the processes that have one. -/
def State.bytes (s : State N) : Nat := ∑ k, (s.pipes.pipe k).count + ∑ p, (s.pc p).Passing.toNat

end Circulate

end Xv6
