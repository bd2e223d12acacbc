import Xv6.Pipe

/-!
# Calls that sleep until something happens: `pipewrite`, `piperead`, `consoleread`, `sys_sleep`, `wait`

The machine of the process table with the pipes, the console and the clock. `wait` is part of the process table
already; a process in one of the other four calls is at `.syscall` there, and `pc` says where in the call it is.
All of them hold the lock of their data from one loop test to the next, except in `sleep`, test `killed` before they
sleep, and test their condition again when they come back.

A step is the code between two lock operations, where a critical section of one `p->lock` is one step. Interrupt handlers
and `pipeclose` change the data while its lock is free; their calls of `wakeup` are the steps `wakeup` of the process
table. The pipes are numbered as `pipealloc` makes them. `copyin` and `copyout` can fail at any time.
-/

namespace Xv6

def INPUT_BUF_SIZE : Nat := 128

/-- `cons`, without its lock; the indices are `uint`. -/
structure Cons where
  buf : Nat → UInt8
  r : BitVec 32
  w : BitVec 32
  e : BitVec 32

namespace Cons

/-- `cons.buf[i % INPUT_BUF_SIZE]` -/
def get (x : Cons) (i : BitVec 32) : UInt8 := x.buf (i.toNat % INPUT_BUF_SIZE)

/-- The loop of `C('U')`, which takes at most `cons.e - cons.w` turns. -/
def killLine : Nat → Cons → Cons
  | 0, x => x
  | k + 1, x => if x.e ≠ x.w ∧ x.get (x.e - 1) ≠ 0x0a then killLine k { x with e := x.e - 1 } else x

/-- `consoleintr(c)`, without `procdump` and the echo. -/
def intr (x : Cons) (c : UInt8) : Cons :=
  if c = 0x10 then x -- C('P')
  else if c = 0x15 then killLine (x.e - x.w).toNat x -- C('U')
  else if c = 0x08 ∨ c = 0x7f then if x.e ≠ x.w then { x with e := x.e - 1 } else x
  else if c ≠ 0 ∧ (x.e - x.r).toNat < INPUT_BUF_SIZE then
    let c := if c = 0x0d then 0x0a else c
    let y := { x with buf := Function.update x.buf (x.e.toNat % INPUT_BUF_SIZE) c, e := x.e + 1 }
    if c = 0x0a ∨ c = 0x04 ∨ (y.e - y.r).toNat = INPUT_BUF_SIZE then { y with w := y.e } else y
  else x

end Cons

inductive LoopLock
  | pipe (pi : Nat)
  | cons
  | ticks
deriving DecidableEq

/-- A call, with the local variables of its loop. -/
inductive LoopCall
  | pipewrite (pi : Nat) (n : CInt) (i : Nat)
  | piperead (pi : Nat) (n : CInt)
  | consoleread (target : BitVec 32) (n : CInt)
  | sleep (n : CInt) (ticks0 : BitVec 32)
deriving DecidableEq

namespace LoopCall

/-- `&pi->nread`; the slots of the process table are channels too. -/
def nread (pi : Nat) : Nat := NPROC + 2 + 2 * pi

/-- `&pi->nwrite` -/
def nwrite (pi : Nat) : Nat := NPROC + 3 + 2 * pi

/-- What the call sleeps on. -/
def chan : LoopCall → Nat
  | pipewrite pi _ _ => nwrite pi
  | piperead pi _ => nread pi
  | consoleread _ _ => NPROC
  | sleep _ _ => NPROC + 1

def lk : LoopCall → LoopLock
  | pipewrite pi _ _ | piperead pi _ => .pipe pi
  | consoleread _ _ => .cons
  | sleep _ _ => .ticks

end LoopCall

inductive LoopPc
  | out
  /-- `acquire` at the start of the call -/
  | enter (c : LoopCall)
  /-- at the test of the loop, with the lock held -/
  | loop (c : LoopCall)
  /-- `wakeup(&pi->nread)` in the loop of `pipewrite`, at slot `j` -/
  | wakeup (pi : Nat) (n : CInt) (i j : Nat)
  /-- `sleep`: `acquire(&p->lock)` -/
  | sleepAcquire (c : LoopCall)
  /-- `release(lk)` -/
  | sleepRelease (c : LoopCall)
  /-- `p->chan = chan`, `p->state = SLEEPING`, `sched` -/
  | sleepSched (c : LoopCall)
  /-- off the CPU, or back from `sched` and before `acquire(lk)` -/
  | asleep (c : LoopCall)
  /-- `for(i = 0; i < n; i++)` in `piperead` -/
  | copy (pi : Nat) (n : CInt) (i : Nat)
  | finish (pi chan j : Nat)
  /-- `release(lk)` and `return` -/
  | ret (lk : LoopLock)
deriving DecidableEq

/-- Points with no spinlock held. -/
def LoopPc.preemptible : LoopPc → Bool
  | .out | .enter _ | .asleep _ => true
  | _ => false

/-- In `wait`. -/
def ProcPc.inWait : ProcPc → Bool
  | .wait _ | .waitScan .. | .waitCheck .. | .waitSleep _ | .waitSleepRelease _ | .waitSleepSched _ | .waitSleepAcquire _
  | .waitRet .. => true
  | _ => false

structure LoopSys where
  sys : ProcSys
  pipe : Nat → Pipe
  cons : Cons
  ticks : BitVec 32
  lock : LoopLock → Option Nat
  pc : Nat → LoopPc

namespace LoopSys

section
variable (s : LoopSys)

def goto (p : Nat) (k : LoopPc) : LoopSys := { s with pc := Function.update s.pc p k }

def setLock (lk : LoopLock) (x : Option Nat) : LoopSys := { s with lock := Function.update s.lock lk x }

def setPipe (pi : Nat) (x : Pipe) : LoopSys := { s with pipe := Function.update s.pipe pi x }

def setCons (x : Cons) : LoopSys := { s with cons := x }

def modify (i : Nat) (f : Proc → Proc) : LoopSys := { s with sys := s.sys.modify i f }

/-- Process `p` runs and is at `k` in one of the calls. -/
def At (p : Nat) (k : LoopPc) : Prop := s.sys.At p .syscall ∧ s.pc p = k

/-- The lock is acquired: `ticks0 = ticks` in `sys_sleep`. -/
def start : LoopCall → LoopCall
  | .sleep n _ => .sleep n s.ticks
  | c => c

/-- The loop comes to its call of `killed`. -/
def Tests : LoopCall → Prop
  | .pipewrite pi n i => (i : Int) < n.toInt ∧ (s.pipe pi).readopen = true
  | .piperead pi _ => (s.pipe pi).empty = true ∧ (s.pipe pi).writeopen = true
  | .consoleread _ n => 0 < n.toInt ∧ s.cons.r = s.cons.w
  | .sleep n ticks0 => (s.ticks - ticks0).toNat < n.toNat

/-- `killed(p)` returns `b`. -/
def Killed (p : Nat) (b : Bool) : Prop := (s.sys.proc p).lock = none ∧ (s.sys.proc p).killed = b

end

/-- A step of the process table leaves process `q`, which is at `k` in one of the calls, where it is: it can be woken,
killed and scheduled, and preempted where it holds no lock. -/
structure Stays (s s' : ProcSys) (q : Nat) (k : LoopPc) : Prop where
  pc : s'.pc q = s.pc q
  state : (s.proc q).state = .running →
    (s'.proc q).state = .running ∨ k.preemptible = true ∧ (s'.proc q).state = .runnable

/-- A call is made. -/
inductive Fresh : LoopCall → Prop
  | pipewrite (pi : Nat) (n : CInt) : Fresh (.pipewrite pi n 0)
  | piperead (pi : Nat) (n : CInt) : Fresh (.piperead pi n)
  | consoleread (n : CInt) : Fresh (.consoleread n n)
  | sleep (n : CInt) : Fresh (.sleep n 0)

inductive Step (s : LoopSys) : LoopSys → Prop
  | table {sys} (h : s.sys.Step sys) (stays : ∀ q, s.pc q ≠ .out → Stays s.sys sys q (s.pc q)) : Step s { s with sys }
  | call {p c} (at_ : s.At p .out) (fresh : Fresh c) : Step s (s.goto p (.enter c))
  | acquire {p c} (at_ : s.At p (.enter c)) (free : s.lock c.lk = none) :
      Step s ((s.setLock c.lk (some p)).goto p (.loop (s.start c)))
  | killed {p c} (at_ : s.At p (.loop c)) (tests : s.Tests c) (h : s.Killed p true) : Step s (s.goto p (.ret c.lk))
  -- `pipewrite`
  | writeEnd {p pi i n} (at_ : s.At p (.loop (.pipewrite pi n i))) (ge : n.toInt ≤ i) :
      Step s (s.goto p (.finish pi (LoopCall.nread pi) 0))
  | writeClosed {p pi i n} (at_ : s.At p (.loop (.pipewrite pi n i)))
      (lt : (i : Int) < n.toInt) (closed : (s.pipe pi).readopen = false) : Step s (s.goto p (.ret (.pipe pi)))
  | writeFull {p pi i n} (at_ : s.At p (.loop (.pipewrite pi n i)))
      (tests : s.Tests (.pipewrite pi n i)) (h : s.Killed p false) (full : (s.pipe pi).full = true) :
      Step s (s.goto p (.wakeup pi n i 0))
  /-- `copyin` fails -/
  | writeBreak {p pi i n} (at_ : s.At p (.loop (.pipewrite pi n i)))
      (tests : s.Tests (.pipewrite pi n i)) (h : s.Killed p false) (room : (s.pipe pi).full = false) :
      Step s (s.goto p (.finish pi (LoopCall.nread pi) 0))
  | writeByte {p pi i n} (ch : UInt8) (at_ : s.At p (.loop (.pipewrite pi n i)))
      (tests : s.Tests (.pipewrite pi n i)) (h : s.Killed p false) (room : (s.pipe pi).full = false) :
      Step s ((s.setPipe pi ((s.pipe pi).push ch)).goto p (.loop (.pipewrite pi n (i + 1))))
  | wakeupSelf {p pi i n} (at_ : s.At p (.wakeup pi n i p)) : Step s (s.goto p (.wakeup pi n i (p + 1)))
  | wakeupNext {p pi i j n} (at_ : s.At p (.wakeup pi n i j)) (lt : j < NPROC) (ne : j ≠ p)
      (free : (s.sys.proc j).lock = none) :
      Step s ((s.modify j (Proc.wakeup (some (LoopCall.nread pi)))).goto p (.wakeup pi n i (j + 1)))
  | wakeupDone {p pi i n} (at_ : s.At p (.wakeup pi n i NPROC)) : Step s (s.goto p (.sleepAcquire (.pipewrite pi n i)))
  -- `piperead`
  | readEmpty {p pi n} (at_ : s.At p (.loop (.piperead pi n)))
      (tests : s.Tests (.piperead pi n)) (h : s.Killed p false) : Step s (s.goto p (.sleepAcquire (.piperead pi n)))
  | readStart {p pi n} (at_ : s.At p (.loop (.piperead pi n)))
      (go : ¬ s.Tests (.piperead pi n)) : Step s (s.goto p (.copy pi n 0))
  | readByte {p pi i n} (at_ : s.At p (.copy pi n i)) (lt : (i : Int) < n.toInt)
      (some : (s.pipe pi).empty = false) : Step s ((s.setPipe pi (s.pipe pi).pop).goto p (.copy pi n (i + 1)))
  /-- `copyout` fails -/
  | readBreak {p pi i n} (at_ : s.At p (.copy pi n i)) (lt : (i : Int) < n.toInt) (some : (s.pipe pi).empty = false) :
      Step s ((s.setPipe pi (s.pipe pi).pop).goto p (.finish pi (LoopCall.nwrite pi) 0))
  | readEnd {p pi i n} (at_ : s.At p (.copy pi n i))
      (done : n.toInt ≤ i ∨ (s.pipe pi).empty = true) : Step s (s.goto p (.finish pi (LoopCall.nwrite pi) 0))
  -- `consoleread`
  | consoleEnd {p target n} (at_ : s.At p (.loop (.consoleread target n)))
      (le : n.toInt ≤ 0) : Step s (s.goto p (.ret .cons))
  | consoleEmpty {p target n} (at_ : s.At p (.loop (.consoleread target n)))
      (tests : s.Tests (.consoleread target n)) (h : s.Killed p false) :
      Step s (s.goto p (.sleepAcquire (.consoleread target n)))
  /-- `C('D')`, which is kept if something has been read -/
  | consoleEof {p target n} (at_ : s.At p (.loop (.consoleread target n)))
      (lt : 0 < n.toInt) (some : s.cons.r ≠ s.cons.w) (eof : s.cons.get s.cons.r = 0x04) :
      Step s ((s.setCons { s.cons with r := if n.toNat < target.toNat then s.cons.r else s.cons.r + 1 }).goto p (.ret .cons))
  /-- a newline, or `copyout` fails -/
  | consoleBreak {p target n} (at_ : s.At p (.loop (.consoleread target n)))
      (lt : 0 < n.toInt) (some : s.cons.r ≠ s.cons.w) (ne : s.cons.get s.cons.r ≠ 0x04) :
      Step s ((s.setCons { s.cons with r := s.cons.r + 1 }).goto p (.ret .cons))
  | consoleByte {p target n} (at_ : s.At p (.loop (.consoleread target n)))
      (lt : 0 < n.toInt) (some : s.cons.r ≠ s.cons.w) (ne : s.cons.get s.cons.r ≠ 0x04) (line : s.cons.get s.cons.r ≠ 0x0a) :
      Step s ((s.setCons { s.cons with r := s.cons.r + 1 }).goto p (.loop (.consoleread target (n - 1))))
  -- `sys_sleep`
  | ticksEnd {p n ticks0} (at_ : s.At p (.loop (.sleep n ticks0)))
      (go : ¬ s.Tests (.sleep n ticks0)) : Step s (s.goto p (.ret .ticks))
  | ticksSleep {p n ticks0} (at_ : s.At p (.loop (.sleep n ticks0)))
      (tests : s.Tests (.sleep n ticks0)) (h : s.Killed p false) : Step s (s.goto p (.sleepAcquire (.sleep n ticks0)))
  -- `sleep`
  | sleepAcquire {p c} (at_ : s.At p (.sleepAcquire c)) (free : (s.sys.proc p).lock = none) :
      Step s ((s.modify p fun x => { x with lock := some p }).goto p (.sleepRelease c))
  | sleepRelease {p c} (at_ : s.At p (.sleepRelease c)) : Step s ((s.setLock c.lk none).goto p (.sleepSched c))
  | sleepSched {p c} (at_ : s.At p (.sleepSched c)) :
      Step s ((s.modify p fun x => { x with lock := none, state := .sleeping, chan := some c.chan }).goto p (.asleep c))
  | sleepReturn {p c} (at_ : s.At p (.asleep c)) (free : s.lock c.lk = none) :
      Step s ((s.setLock c.lk (some p)).goto p (.loop c))
  -- after the loop
  | finishSelf {p pi chan} (at_ : s.At p (.finish pi chan p)) : Step s (s.goto p (.finish pi chan (p + 1)))
  | finishNext {p pi chan j} (at_ : s.At p (.finish pi chan j)) (lt : j < NPROC) (ne : j ≠ p)
      (free : (s.sys.proc j).lock = none) :
      Step s ((s.modify j (Proc.wakeup (some chan))).goto p (.finish pi chan (j + 1)))
  | finishDone {p pi chan} (at_ : s.At p (.finish pi chan NPROC)) : Step s (s.goto p (.ret (.pipe pi)))
  | ret {p lk} (at_ : s.At p (.ret lk)) : Step s ((s.setLock lk none).goto p .out)
  -- the other side
  | pipeclose {pi} (writable : Bool) (free : s.lock (.pipe pi) = none) :
      Step s (s.setPipe pi (if writable then { s.pipe pi with writeopen := false } else { s.pipe pi with readopen := false }))
  | consoleintr (c : UInt8) (free : s.lock .cons = none) : Step s (s.setCons (s.cons.intr c))
  | clockintr (free : s.lock .ticks = none) : Step s { s with ticks := s.ticks + 1 }

/-- The system has booted, and every pipe is as `pipealloc` makes it. -/
structure Init (s : LoopSys) : Prop where
  sys : s.sys.Init
  nread : ∀ pi, (s.pipe pi).nread = 0
  nwrite : ∀ pi, (s.pipe pi).nwrite = 0
  readopen : ∀ pi, (s.pipe pi).readopen = true
  writeopen : ∀ pi, (s.pipe pi).writeopen = true
  lock : ∀ lk, s.lock lk = none
  pc : ∀ p, s.pc p = .out

def Reachable (s : LoopSys) : Prop := Trans.Reach Init Step s

/-- Process `p` is in `pipewrite`, `piperead`, `consoleread`, `sys_sleep` or `wait`. -/
def InCall (s : LoopSys) (p : Nat) : Prop := s.pc p ≠ .out ∨ (s.sys.pc p).inWait = true

/-- Process `p` has found `killed` to be 0 and is going to sleep, but does not hold `p->lock` yet. -/
def Window (s : LoopSys) (p : Nat) : Prop :=
  (∃ pi n i j, s.pc p = .wakeup pi n i j) ∨ (∃ c, s.pc p = .sleepAcquire c) ∨ ∃ addr, s.sys.pc p = .waitSleep addr

/-- In this step `kill` hits a process in its window. -/
def KillsLate (s s' : LoopSys) : Prop :=
  ∃ p, s.Window p ∧ (s.sys.proc p).killed = false ∧ (s'.sys.proc p).killed = true

/-! ### Runs of `sys_sleep` -/

/-- The clock ticks in a step. -/
def tickOf (s s' : LoopSys) : Nat := if s'.ticks = s.ticks then 0 else 1

/-- A check of `while(ticks - ticks0 < n)`: the clock ticks since `ticks0` was read, and whether the loop ends. -/
structure Check where
  elapsed : Nat
  returns : Bool
deriving DecidableEq

/-- The check that process `p` makes in a step. -/
def checkOf (p elapsed : Nat) (s s' : LoopSys) : Option Check :=
  match s.pc p, s'.pc p with
  | .loop _, .ret _ => some ⟨elapsed, true⟩
  | .loop _, .sleepAcquire _ => some ⟨elapsed, false⟩
  | _, _ => none

/-- Process `p`, which nobody kills, has called `sys_sleep(n)` and not returned: the clock ticks since it has read
`ticks`, and its checks. Other processes and the clock take any steps. -/
inductive SleepRun (p : Nat) (n : CInt) : (elapsed : Nat) → List Check → LoopSys → Prop
  | start {s ticks0} (reach : Reachable s) (at_ : s.At p (.enter (.sleep n ticks0))) (free : s.lock .ticks = none) :
      SleepRun p n 0 [] ((s.setLock .ticks (some p)).goto p (.loop (s.start (.sleep n ticks0))))
  | step {s s' elapsed cs} (run : SleepRun p n elapsed cs s)
      (inside : s.pc p ≠ .ret .ticks) (alive : (s.sys.proc p).killed = false) (st : Step s s') :
      SleepRun p n (elapsed + tickOf s s') (cs ++ (checkOf p elapsed s s').toList) s'

end LoopSys

end Xv6
