import Xv6.Proc

/-!
# `sleep`, `wakeup` and the scheduler (`proc.c`)

Any number of processes and CPUs run arbitrary kernel code over a shared state `sh`: they acquire and
release spinlocks, change `sh`, and call `sleep` and `wakeup`, whose code is taken step by step from one
lock operation to the next. An interrupt handler is code of the process it interrupts, or of the CPU
itself when it runs no process (`Agent.cpu`).

`Rule` singles out a channel, its lock and what the sleepers wait for, and `Keeps` says what the callers
owe it: `sleep` on the channel is called with the lock held and the condition false, and who makes a
condition true holds the lock and calls `wakeup` before releasing it, `exit` before it makes the condition
true and everybody else after (`Duty`). Nothing is asked of other channels and locks.
-/

namespace Xv6

open Function (update)

variable {N : Nat} {C L Ch σ : Type}

/-- Who executes: a process, or the scheduler of a CPU. -/
inductive Agent (N : Nat) (C : Type)
  | proc (p : Fin N)
  | cpu (c : C)
deriving DecidableEq

inductive SleepPc (L Ch : Type)
  /-- any code outside `sleep`, `wakeup` and `sched` -/
  | run
  /-- `sleep`: `acquire(&p->lock)` -/
  | sleepAcquire (chan : Ch) (lk : L)
  /-- `release(lk)` -/
  | sleepRelease (chan : Ch) (lk : L)
  /-- `p->chan = chan`, `p->state = SLEEPING` -/
  | sleepSet (chan : Ch) (lk : L)
  /-- `exit`: `release(&wait_lock)`, with `p->lock` held -/
  | exitRelease (lk : L)
  /-- in `sched`, on the way to the scheduler; called by `sleep` or by another -/
  | sched (slept : Bool)
  /-- in `sched`, off the CPU -/
  | off (slept : Bool)
  /-- back from the scheduler, with `p->lock` held -/
  | resume (slept : Bool)
  /-- `wakeup(chan)` at slot `i` -/
  | wakeup (chan : Ch) (i : Nat)
deriving DecidableEq

/-- What an agent has done since it acquired the lock of the rule. -/
inductive Duty
  | none
  /-- made a condition true, without a call of `wakeup` -/
  | owes
  /-- called `wakeup` -/
  | paid
deriving DecidableEq

/-- A condition is made true. -/
def Duty.make : Duty → Duty
  | .paid => .paid
  | _ => .owes

structure SleepSys (N : Nat) (C L Ch σ : Type) where
  state : Fin N → ProcState
  chan : Fin N → Option Ch
  plock : Fin N → Option (Agent N C)
  lock : L → Option (Agent N C)
  /-- `c->proc` -/
  cpu : C → Option (Fin N)
  pc : Agent N C → SleepPc L Ch
  sh : σ
  duty : Agent N C → Duty

/-- A channel, the lock `sleep` is called with, and what each process waits for there. -/
structure Rule (N : Nat) (L Ch σ : Type) where
  chan : Ch
  lk : L
  cond : Fin N → σ → Prop

/-- What a step does, for programs to be put together from steps. -/
inductive SleepAct (L Ch σ : Type)
  | acquire (l : L)
  | release (l : L)
  /-- `sh` is changed, and no condition becomes true -/
  | update (sh : σ)
  /-- `sh` is changed, and a condition becomes true -/
  | make (sh : σ)
  | sleep (chan : Ch) (lk : L)
  | exit (lk : L)
  | wakeup (chan : Ch)
  /-- inside these, `yield` or the scheduler -/
  | inside

namespace SleepSys

section
variable [DecidableEq C] [DecidableEq L] [DecidableEq Ch] (s : SleepSys N C L Ch σ)

/-- The agent has a CPU. -/
def On : Agent N C → Prop
  | .proc p => ∃ c, s.cpu c = some p
  | .cpu c => s.cpu c = none

def goto (a : Agent N C) (k : SleepPc L Ch) : SleepSys N C L Ch σ :=
  { s with pc := update s.pc a k }

def setLock (l : L) (x : Option (Agent N C)) : SleepSys N C L Ch σ :=
  { s with lock := update s.lock l x }

def setPlock (p : Fin N) (x : Option (Agent N C)) : SleepSys N C L Ch σ :=
  { s with plock := update s.plock p x }

def setState (p : Fin N) (x : ProcState) : SleepSys N C L Ch σ :=
  { s with state := update s.state p x }

def setChan (p : Fin N) (x : Option Ch) : SleepSys N C L Ch σ :=
  { s with chan := update s.chan p x }

def setCpu (c : C) (x : Option (Fin N)) : SleepSys N C L Ch σ :=
  { s with cpu := update s.cpu c x }

def setDuty (a : Agent N C) (d : Duty) : SleepSys N C L Ch σ :=
  { s with duty := update s.duty a d }

/-- The body of the loop of `wakeup(chan)` for process `q`. -/
def wake (chan : Ch) (q : Fin N) : SleepSys N C L Ch σ :=
  if s.state q = .sleeping ∧ s.chan q = some chan then s.setState q .runnable else s

end

variable [DecidableEq C] [DecidableEq L] [DecidableEq Ch]

inductive Step (R : Rule N L Ch σ) (s : SleepSys N C L Ch σ) : Agent N C → SleepAct L Ch σ → SleepSys N C L Ch σ → Prop
  | acquire {a l} (on : s.On a) (pc : s.pc a = .run) (h : s.lock l = none) :
      Step R s a (.acquire l) ((s.setLock l (some a)).setDuty a (if l = R.lk then .none else s.duty a))
  | release {a l} (on : s.On a) (pc : s.pc a = .run)
      (h : s.lock l = some a) : Step R s a (.release l) (s.setLock l none)
  | update {a sh} (on : s.On a) (pc : s.pc a = .run)
      (keep : ∀ p, R.cond p sh → R.cond p s.sh) : Step R s a (.update sh) { s with sh }
  | make {a sh} (on : s.On a) (pc : s.pc a = .run) (new : ∃ p, R.cond p sh ∧ ¬ R.cond p s.sh) :
      Step R s a (.make sh) ({ s with sh }.setDuty a (s.duty a).make)
  -- `sleep`
  | sleep {p chan lk} (on : s.On (.proc p)) (pc : s.pc (.proc p) = .run) (h : s.lock lk = some (.proc p)) :
      Step R s (.proc p) (.sleep chan lk) (s.goto (.proc p) (.sleepAcquire chan lk))
  | sleepAcquire {p chan lk} (on : s.On (.proc p))
      (pc : s.pc (.proc p) = .sleepAcquire chan lk) (h : s.plock p = none) : Step R s (.proc p) .inside
        ((s.setPlock p (some (.proc p))).goto (.proc p) (.sleepRelease chan lk))
  | sleepRelease {p chan lk} (on : s.On (.proc p)) (pc : s.pc (.proc p) = .sleepRelease chan lk) :
      Step R s (.proc p) .inside ((s.setLock lk none).goto (.proc p) (.sleepSet chan lk))
  | sleepSet {p chan lk} (on : s.On (.proc p)) (pc : s.pc (.proc p) = .sleepSet chan lk) :
      Step R s (.proc p) .inside (((s.setChan p (some chan)).setState p .sleeping).goto (.proc p) (.sched true))
  /-- `p->chan = 0`, `release(&p->lock)`; the `acquire(lk)` at the end of `sleep` is the next acquire of
  the process, after the interrupts that come before it -/
  | resumeSleep {p} (on : s.On (.proc p)) (pc : s.pc (.proc p) = .resume true) :
      Step R s (.proc p) .inside (((s.setChan p none).setPlock p none).goto (.proc p) .run)
  -- `exit`, and the slot until `fork` has made the next process in it `RUNNABLE`
  /-- `acquire(&p->lock)`, `p->state = ZOMBIE` -/
  | exit {p lk} (on : s.On (.proc p))
      (pc : s.pc (.proc p) = .run) (h : s.lock lk = some (.proc p)) (free : s.plock p = none) :
      Step R s (.proc p) (.exit lk)
        (((s.setPlock p (some (.proc p))).setState p .zombie).goto (.proc p) (.exitRelease lk))
  | exitRelease {p lk} (on : s.On (.proc p)) (pc : s.pc (.proc p) = .exitRelease lk) :
      Step R s (.proc p) .inside ((s.setLock lk none).goto (.proc p) (.sched false))
  /-- `freeproc`, `allocproc` and `p->state = RUNNABLE` in `fork` -/
  | reuse {a q x} (on : s.On a) (pc : s.pc a = .run) (off : s.pc (.proc q) = .off false) (h : s.plock q = none)
      (state : s.state q = .unused ∨ s.state q = .used ∨ s.state q = .zombie)
      (new : x = .unused ∨ x = .used ∨ x = .runnable) : Step R s a .inside ((s.setChan q none).setState q x)
  -- `yield`, `sched` and `scheduler`
  | yield {p} (on : s.On (.proc p)) (pc : s.pc (.proc p) = .run)
      (h : s.plock p = none) (nolock : ∀ l, s.lock l ≠ some (.proc p)) : Step R s (.proc p) .inside
        (((s.setPlock p (some (.proc p))).setState p .runnable).goto (.proc p) (.sched false))
  /-- `swtch`, and in the scheduler `c->proc = 0`, `release(&p->lock)` -/
  | swtch {p c slept} (on : s.cpu c = some p) (pc : s.pc (.proc p) = .sched slept) :
      Step R s (.proc p) .inside (((s.setCpu c none).setPlock p none).goto (.proc p) (.off slept))
  /-- `acquire(&p->lock)`, `p->state = RUNNING`, `c->proc = p`, `swtch` -/
  | schedule {p c slept} (on : s.cpu c = none)
      (idle : s.pc (.cpu c) = .run) (pc : s.pc (.proc p) = .off slept) (h : s.plock p = none)
      (state : s.state p = .runnable) :
      Step R s (.cpu c) .inside ((((s.setCpu c (some p)).setPlock p (some (.proc p))).setState p
        .running).goto (.proc p) (.resume slept))
  /-- `release(&p->lock)` in `yield` or `forkret` -/
  | resumeYield {p} (on : s.On (.proc p)) (pc : s.pc (.proc p) = .resume false) :
      Step R s (.proc p) .inside ((s.setPlock p none).goto (.proc p) .run)
  -- `wakeup`
  | wakeup {a chan} (on : s.On a) (pc : s.pc a = .run) : Step R s a (.wakeup chan)
        ((s.setDuty a (if chan = R.chan then .paid else s.duty a)).goto a (.wakeup chan 0))
  | wakeupSelf {p chan} (on : s.On (.proc p)) (pc : s.pc (.proc p) = .wakeup chan p) :
      Step R s (.proc p) .inside (s.goto (.proc p) (.wakeup chan (p + 1)))
  | wakeupOther {a : Agent N C} {q : Fin N} {chan : Ch} (on : s.On a)
      (pc : s.pc a = .wakeup chan q) (ne : a ≠ .proc q) (h : s.plock q = none) :
      Step R s a .inside ((s.wake chan q).goto a (.wakeup chan (q + 1)))
  | wakeupDone {a chan} (on : s.On a) (pc : s.pc a = .wakeup chan N) : Step R s a .inside (s.goto a .run)
  /-- `kill` of a sleeping process -/
  | kill {a q} (on : s.On a) (pc : s.pc a = .run)
      (h : s.plock q = none) (state : s.state q = .sleeping) : Step R s a .inside (s.setState q .runnable)

/-- What the rule asks of a step of `a`. -/
def Keeps (R : Rule N L Ch σ) (s : SleepSys N C L Ch σ) (a : Agent N C) : SleepAct L Ch σ → Prop
  | .make _ => s.lock R.lk = some a
  | .sleep chan lk =>
    (chan = R.chan → lk = R.lk ∧ ∀ p, a = .proc p → ¬ R.cond p s.sh) ∧ (lk = R.lk → s.duty a ≠ .owes)
  | .release l | .exit l => l = R.lk → s.duty a ≠ .owes
  | .acquire _ | .update _ | .wakeup _ | .inside => True

/-- No process has run yet, and no lock is held. -/
structure Init (s : SleepSys N C L Ch σ) : Prop where
  state : ∀ p, s.state p ≠ .sleeping ∧ s.state p ≠ .running
  plock : ∀ p, s.plock p = none
  lock : ∀ l, s.lock l = none
  cpu : ∀ c, s.cpu c = none
  proc : ∀ p, s.pc (.proc p) = .off false
  idle : ∀ c, s.pc (.cpu c) = .run

/-- Some agent takes a step that keeps the rule. -/
def Next (R : Rule N L Ch σ) (s s' : SleepSys N C L Ch σ) : Prop :=
  ∃ a e, Step R s a e s' ∧ Keeps R s a e

end SleepSys

end Xv6
