import Xv6.Lib.Trans
import Xv6.Sleep

/-!
# Spinlocks, interrupts and the scheduler (`spinlock.c`, `proc.c`, `swtch.S`)

Any number of CPUs run the kernel threads of the processes and their own scheduler threads. A thread is the
list of the statements it still has to execute (`Instr`): a call puts the body of the function in front, and
`.any` stands for kernel code that is not modelled, which calls the functions here in any order, and computes.
The statements are fine enough for a CPU to be interrupted between `intr_get` and `intr_off` in `push_off`, and for
others to see a lock between the steps of `acquire` and `release`; `swtch` saves and loads one register at a time.

A trap can come whenever interrupts are on. Its handler is kernel code of the thread it interrupts, and `sret`
turns interrupts on again. A thread in user space is kernel code that leaves interrupts on: `usertrap` and
`usertrapret` do to it what a handler does.

`yield`, `sleep` and `exit` are called so that `sched` is called with `p->lock` as the only lock held. The
rest of the kernel also releases what it acquires before a handler returns. Of the fields of `struct proc` those are here
that these functions look at. `pid`, `nextpid` and `noff` are natural numbers where the source has an `int`: a run here is
one of the source as long as less than 2^31 processes have been made and no CPU has that many open calls of `push_off`.

`snap`, `depth` and `entry` are history, which no statement looks at: the registers of a thread at its last call
of `swtch`, the calls of `push_off` that it has to match with `pop_off`, and whether interrupts were on when it
last called `push_off` with no such call open. `allocproc` starts a thread with one open call, that of the scheduler.
-/

namespace Xv6

open Function (update)

/-- A register that `swtch` saves: `ra`, `sp`, `s0` to `s11`. -/
abbrev Reg := Fin 14

inductive SpinLock (N : Nat) (L : Type)
  | proc (p : Fin N)
  | wait
  | other (l : L)
deriving DecidableEq

/-- A pointer to sleep on; `p` is where the parent sleeps in `wait`. -/
abbrev Chan (N : Nat) (Ch : Type) := Option (Fin N ⊕ Ch)

inductive SchedPanic
  | acquire
  | release
  /-- "pop_off - interruptible" -/
  | popOffInterruptible
  | popOff
  /-- "sched p->lock" -/
  | schedLock
  /-- "sched locks" -/
  | schedLocks
  /-- "sched running" -/
  | schedRunning
  /-- "sched interruptible" -/
  | schedInterruptible
  /-- "init exiting" -/
  | initExiting
  /-- "zombie exit" -/
  | zombieExit
deriving DecidableEq

inductive Instr (N : Nat) (L Ch : Type)
  /-- any kernel code; it has called `push_off` itself this many times more than `pop_off` -/
  | any (pushes : Nat)
  /-- the end of a trap handler -/
  | sret
  /-- any critical sections of other locks -/
  | leaf
  | panic (e : SchedPanic)
  -- `push_off`: `old = intr_get()`, `intr_off()`, the rest
  | pushOff
  | intrOff (old : Bool)
  | noffInc (old : Bool)
  -- `pop_off`: the tests, `c->noff -= 1`, the rest
  | popOff
  | noffDec
  | popOn
  -- `acquire`: `if(holding(lk))`, `while(__sync_lock_test_and_set(..))`, `lk->cpu = mycpu()`
  | acquire (lk : SpinLock N L)
  | testHolding (lk : SpinLock N L)
  | testAndSet (lk : SpinLock N L)
  | setCpu (lk : SpinLock N L)
  -- `release`: `if(!holding(lk))`, `lk->cpu = 0`, `__sync_lock_release(..)`
  | release (lk : SpinLock N L)
  | clearCpu (lk : SpinLock N L)
  | unlock (lk : SpinLock N L)
  -- `sched` up to the return of `swtch`, `mycpu()->intena = intena`
  | sched
  | restore (intena : Bool)
  /-- `yield`: `p->state = RUNNABLE` -/
  | yieldState (p : Fin N)
  -- `sleep`: `p->chan = chan; p->state = SLEEPING`, `p->chan = 0`
  | sleepState (p : Fin N) (chan : Chan N Ch)
  | clearChan (p : Fin N)
  -- `scheduler`: `for(;;)`, `intr_on()`, the loop over the table, `if(p->state == RUNNABLE)`, `c->proc = 0`
  | scheduler
  | intrOn
  | scan (ps : List (Fin N))
  | dispatch (p : Fin N)
  | clearProc
  -- `wakeup`: the loop, `if(p->state == SLEEPING && p->chan == chan)`
  | wakeup (chan : Chan N Ch) (ps : List (Fin N))
  | wakeOne (chan : Chan N Ch) (q : Fin N)
  -- `kill`: the loop, `if(p->pid == pid)`
  | kill (pid : Nat) (ps : List (Fin N))
  | killOne (pid : Nat) (q : Fin N) (ps : List (Fin N))
  -- `allocproc`: the loop, `if(p->state == UNUSED)`, `p->context`
  | alloc (ps : List (Fin N))
  | allocOne (q : Fin N) (ps : List (Fin N))
  | initContext (np : Fin N)
  -- `fork`: `uvmcopy`, `np->parent = p`, `np->state = RUNNABLE`
  | copy (np : Fin N)
  | setParent (np : Fin N)
  | forkState (np : Fin N)
  -- `exit`: `reparent`, `wakeup(p->parent)`, `p->state = ZOMBIE`
  | reparent (p : Fin N) (ps : List (Fin N))
  | wakeParent (p : Fin N)
  | zombie (p : Fin N)
  -- `wait`: the loop over the table, `if(pp->state == ZOMBIE)`, `if(!havekids || killed(p))`
  | waitScan (p : Fin N) (ps : List (Fin N)) (havekids : Bool)
  | waitOne (p pp : Fin N) (ps : List (Fin N))
  | waitKilled (p : Fin N)

/-- `struct spinlock`: `locked` has who set it. -/
structure Spin (C : Type) where
  locked : Option C
  cpu : Option C

/-- What a CPU executes. -/
inductive Exec (N : Nat) (C : Type)
  | run (t : Agent N C)
  /-- `swtch(&old->context, &new->context)`, before instruction `i` -/
  | swtch (old new : Agent N C) (i : Nat)
  /-- the loop at the end of `panic` -/
  | halted (t : Agent N C) (e : SchedPanic)

/-- `struct cpu`, its registers and the interrupt-enable bit of `sstatus`. -/
structure Cpu (N : Nat) (C W : Type) where
  proc : Option (Fin N)
  noff : Nat
  intena : Bool
  intr : Bool
  regs : Reg → W
  exec : Exec N C

structure SchedProc (N : Nat) (Ch : Type) where
  state : ProcState
  chan : Chan N Ch
  killed : Bool
  pid : Nat
  parent : Option (Fin N)

structure SchedSys (N : Nat) (C L Ch W : Type) where
  cpu : C → Cpu N C W
  proc : Fin N → SchedProc N Ch
  lock : SpinLock N L → Spin C
  nextpid : Nat
  initproc : Fin N
  context : Agent N C → Reg → W
  /-- what `allocproc` writes into `p->context` -/
  newContext : Fin N → Reg → W
  code : Agent N C → List (Instr N L Ch)
  snap : Agent N C → Reg → W
  depth : Agent N C → Nat
  entry : Agent N C → Option Bool

variable {N : Nat} {C L Ch W : Type}

namespace SchedProc

/-- `freeproc` -/
def freeproc (x : SchedProc N Ch) : SchedProc N Ch :=
  { x with pid := 0, parent := none, chan := none, killed := false, state := .unused }

variable [DecidableEq Ch]

/-- The body of the loop of `wakeup(chan)`. -/
def wakeup (chan : Chan N Ch) (x : SchedProc N Ch) : SchedProc N Ch :=
  if x.state = .sleeping ∧ x.chan = chan then { x with state := .runnable } else x

/-- The body of `kill` for a process with the right `pid`. -/
def kill (x : SchedProc N Ch) : SchedProc N Ch :=
  { x with killed := true, state := if x.state = .sleeping then .runnable else x.state }

end SchedProc

namespace Instr

/-- `proc` -/
def table : List (Fin N) := List.finRange N

def acquireBody (lk : SpinLock N L) : List (Instr N L Ch) := [.pushOff, .testHolding lk, .testAndSet lk, .setCpu lk]

def releaseBody (lk : SpinLock N L) : List (Instr N L Ch) := [.clearCpu lk, .unlock lk, .popOff]

/-- `p` is `myproc()` here and below. -/
def yieldBody (p : Fin N) : List (Instr N L Ch) := [.acquire (.proc p), .yieldState p, .sched, .release (.proc p)]

def sleepBody (p : Fin N) (chan : Chan N Ch) (lk : SpinLock N L) : List (Instr N L Ch) :=
  [.acquire (.proc p), .release lk, .sleepState p chan, .sched, .clearChan p, .release (.proc p), .acquire lk]

/-- The body of the outer loop of `scheduler`. -/
def schedulerBody : List (Instr N L Ch) := [.intrOn, .scan table, .scheduler]

/-- The body of the inner loop. -/
def scanBody (p : Fin N) (ps : List (Fin N)) : List (Instr N L Ch) :=
  [.acquire (.proc p), .dispatch p, .release (.proc p), .scan ps]

/-- `forkret` up to the code that is not modelled. -/
def forkretBody (p : Fin N) : List (Instr N L Ch) := [.release (.proc p), .any 0]

/-- `fork` from `release(&np->lock)` on. -/
def forkBody (np : Fin N) : List (Instr N L Ch) :=
  [.release (.proc np), .acquire .wait, .setParent np, .release .wait, .acquire (.proc np), .forkState np,
    .release (.proc np)]

/-- `exit` from `acquire(&wait_lock)` on. -/
def exitBody (p : Fin N) : List (Instr N L Ch) :=
  [.acquire .wait, .reparent p table, .wakeParent p, .acquire (.proc p), .zombie p, .release .wait, .sched,
    .panic .zombieExit]

def waitBody (p : Fin N) : List (Instr N L Ch) := [.acquire .wait, .waitScan p table false]

end Instr

namespace SchedSys

section
variable [DecidableEq C] [DecidableEq L] (s : SchedSys N C L Ch W)

def goto (t : Agent N C) (k : List (Instr N L Ch)) : SchedSys N C L Ch W :=
  { s with code := update s.code t k }

def setCpu (c : C) (f : Cpu N C W → Cpu N C W) : SchedSys N C L Ch W :=
  { s with cpu := update s.cpu c (f (s.cpu c)) }

def setProc (p : Fin N) (f : SchedProc N Ch → SchedProc N Ch) : SchedSys N C L Ch W :=
  { s with proc := update s.proc p (f (s.proc p)) }

def setLock (lk : SpinLock N L) (f : Spin C → Spin C) : SchedSys N C L Ch W :=
  { s with lock := update s.lock lk (f (s.lock lk)) }

/-- `swtch` is called. -/
def swtch (c : C) (old new : Agent N C) : SchedSys N C L Ch W :=
  { s.setCpu c fun x => { x with exec := .swtch old new 0 } with
    snap := update s.snap old (s.cpu c).regs }

/-- `holding(lk)` on CPU `c` -/
def Holding (c : C) (lk : SpinLock N L) : Prop := (s.lock lk).locked ≠ none ∧ (s.lock lk).cpu = some c

end

variable [DecidableEq C] [DecidableEq L] [DecidableEq Ch]

/-- CPU `c` executes a statement that only looks at the state: what is to be executed in its place. -/
inductive Expands (s : SchedSys N C L Ch W) (c : C) : Instr N L Ch → List (Instr N L Ch) → Prop
  | leafNext (lk : SpinLock N L) : Expands s c .leaf [.acquire lk, .release lk, .leaf]
  | leafDone : Expands s c .leaf []
  -- `push_off`, `pop_off`, `acquire` and `release`
  | pushOff : Expands s c .pushOff [.intrOff (s.cpu c).intr]
  | popOff (intr : (s.cpu c).intr = false) (noff : 1 ≤ (s.cpu c).noff) : Expands s c .popOff [.noffDec]
  | acquire {lk} : Expands s c (.acquire lk) (Instr.acquireBody lk)
  | testHolding {lk} (h : ¬ s.Holding c lk) : Expands s c (.testHolding lk) []
  | release {lk} (h : s.Holding c lk) : Expands s c (.release lk) (Instr.releaseBody lk)
  -- `scheduler`
  | scheduler : Expands s c .scheduler Instr.schedulerBody
  | scanNext {p ps} : Expands s c (.scan (p :: ps)) (Instr.scanBody p ps)
  | scanDone : Expands s c (.scan []) []
  | dispatchSkip {p} (state : (s.proc p).state ≠ .runnable) : Expands s c (.dispatch p) []
  -- `wakeup` and `kill`
  | wakeupNext {chan q ps} (my : (s.cpu c).proc ≠ some q) :
      Expands s c (.wakeup chan (q :: ps)) [.acquire (.proc q), .wakeOne chan q, .release (.proc q), .wakeup chan ps]
  | wakeupSelf {chan q ps} (my : (s.cpu c).proc = some q) : Expands s c (.wakeup chan (q :: ps)) [.wakeup chan ps]
  | wakeupDone {chan} : Expands s c (.wakeup chan []) []
  | killNext {pid q ps} : Expands s c (.kill pid (q :: ps)) [.acquire (.proc q), .killOne pid q ps]
  | killDone {pid} : Expands s c (.kill pid []) []
  | killOther {pid q ps} (h : (s.proc q).pid ≠ pid) : Expands s c (.killOne pid q ps) [.release (.proc q), .kill pid ps]
  -- `allocproc` and `fork`
  | allocNext {q ps} : Expands s c (.alloc (q :: ps)) [.acquire (.proc q), .allocOne q ps]
  | allocNone : Expands s c (.alloc []) []
  | allocUsed {q ps} (h : (s.proc q).state ≠ .unused) : Expands s c (.allocOne q ps) [.release (.proc q), .alloc ps]
  | copy {np} : Expands s c (.copy np) (.leaf :: Instr.forkBody np)
  -- `exit`
  | reparentNext {p pp ps} (h : (s.proc pp).parent ≠ some p) : Expands s c (.reparent p (pp :: ps)) [.reparent p ps]
  | reparentDone {p} : Expands s c (.reparent p []) []
  | wakeParent {p} : Expands s c (.wakeParent p) [.wakeup ((s.proc p).parent.map Sum.inl) Instr.table]
  -- `wait`
  | waitNext {p pp ps havekids} (h : (s.proc pp).parent ≠ some p) :
      Expands s c (.waitScan p (pp :: ps) havekids) [.waitScan p ps havekids]
  | waitChild {p pp ps havekids} (h : (s.proc pp).parent = some p) :
      Expands s c (.waitScan p (pp :: ps) havekids) [.acquire (.proc pp), .waitOne p pp ps]
  /-- `copyout` fails -/
  | waitFail {p pp ps} (h : (s.proc pp).state = .zombie) :
      Expands s c (.waitOne p pp ps) [.release (.proc pp), .release .wait]
  | waitAlive {p pp ps} (h : (s.proc pp).state ≠ .zombie) :
      Expands s c (.waitOne p pp ps) [.release (.proc pp), .waitScan p ps true]
  | waitNone {p} : Expands s c (.waitScan p [] false) [.release .wait]
  | waitTest {p} : Expands s c (.waitScan p [] true) [.acquire (.proc p), .waitKilled p]
  | waitKilled {p} (h : (s.proc p).killed = true) : Expands s c (.waitKilled p) [.release (.proc p), .release .wait]
  | waitSleep {p} (h : (s.proc p).killed = false) : Expands s c (.waitKilled p)
        (.release (.proc p) :: (Instr.sleepBody p (some (.inl p)) .wait ++ [.waitScan p Instr.table false]))

/-- Thread `t` on CPU `c` executes a statement: the state after it, and what is to be executed in its place. -/
inductive Does (s : SchedSys N C L Ch W) (c : C) (t : Agent N C) :
    Instr N L Ch → SchedSys N C L Ch W → List (Instr N L Ch) → Prop
  | sret : Does s c t .sret (s.setCpu c fun x => { x with intr := true }) []
  -- `push_off` and `pop_off`
  | intrOff {old} : Does s c t (.intrOff old) { s.setCpu c fun x => { x with intr := false } with
          entry := update s.entry t (if s.depth t = 0 then some (s.cpu c).intr else s.entry t) } [.noffInc old]
  | noffInc {old} : Does s c t (.noffInc old)
        { s.setCpu c fun x => { x with intena := if x.noff = 0 then old else x.intena, noff := x.noff + 1 } with
          depth := update s.depth t (s.depth t + 1) } []
  | noffDec : Does s c t .noffDec { s.setCpu c fun x => { x with noff := x.noff - 1 } with
          depth := update s.depth t (s.depth t - 1) } [.popOn]
  | popOn : Does s c t .popOn
        (s.setCpu c fun x => { x with intr := if x.noff = 0 ∧ x.intena = true then true else x.intr }) []
  -- `acquire` and `release`
  | testAndSet {lk} (h : (s.lock lk).locked = none) :
      Does s c t (.testAndSet lk) (s.setLock lk fun x => { x with locked := some c }) []
  | setCpu {lk} : Does s c t (.setCpu lk) (s.setLock lk fun x => { x with cpu := some c }) []
  | clearCpu {lk} : Does s c t (.clearCpu lk) (s.setLock lk fun x => { x with cpu := none }) []
  | unlock {lk} : Does s c t (.unlock lk) (s.setLock lk fun x => { x with locked := none }) []
  -- `sched`, `yield` and `sleep`
  | sched {p} (my : (s.cpu c).proc = some p) (lock : s.Holding c (.proc p)) (locks : (s.cpu c).noff = 1)
      (running : (s.proc p).state ≠ .running) (intr : (s.cpu c).intr = false) :
      Does s c t .sched (s.swtch c (.proc p) (.cpu c)) [.restore (s.cpu c).intena]
  | restore {intena} : Does s c t (.restore intena) (s.setCpu c fun x => { x with intena }) []
  | yieldState {p} : Does s c t (.yieldState p) (s.setProc p fun x => { x with state := .runnable }) []
  | sleepState {p chan} : Does s c t (.sleepState p chan) (s.setProc p fun x => { x with chan, state := .sleeping }) []
  | clearChan {p} : Does s c t (.clearChan p) (s.setProc p fun x => { x with chan := none }) []
  -- `scheduler`
  | intrOn : Does s c t .intrOn (s.setCpu c fun x => { x with intr := true }) []
  | dispatch {p} (state : (s.proc p).state = .runnable) : Does s c t (.dispatch p)
        (((s.setProc p fun x => { x with state := .running }).setCpu c fun x => { x with proc := some p }).swtch c
          (.cpu c) (.proc p)) [.clearProc]
  | clearProc : Does s c t .clearProc (s.setCpu c fun x => { x with proc := none }) []
  -- `wakeup` and `kill`
  | wakeOne {chan q} : Does s c t (.wakeOne chan q) (s.setProc q (SchedProc.wakeup chan)) []
  | killFound {pid q ps} (h : (s.proc q).pid = pid) :
      Does s c t (.killOne pid q ps) (s.setProc q SchedProc.kill) [.release (.proc q)]
  -- `allocproc`; `allocpid` is one step
  | allocFound {q ps} (h : (s.proc q).state = .unused) : Does s c t (.allocOne q ps)
        ({ s with nextpid := s.nextpid + 1 }.setProc q fun x => { x with pid := s.nextpid, state := .used })
        [.leaf, .initContext q]
  | initContext {np} : Does s c t (.initContext np) { s.goto (.proc np) (Instr.forkretBody np) with
          context := update s.context (.proc np) (s.newContext np), snap := update s.snap (.proc np) (s.newContext np)
          depth := update s.depth (.proc np) 1, entry := update s.entry (.proc np) none } [.leaf, .copy np]
  /-- `kalloc` fails: `freeproc(p)`, `release(&p->lock)` -/
  | allocFail {np} : Does s c t (.initContext np) (s.setProc np SchedProc.freeproc) [.leaf, .release (.proc np)]
  -- `fork`
  | copyFail {np} : Does s c t (.copy np) (s.setProc np SchedProc.freeproc) [.leaf, .release (.proc np)]
  | setParent {np} : Does s c t (.setParent np) (s.setProc np fun x => { x with parent := (s.cpu c).proc }) []
  | forkState {np} : Does s c t (.forkState np) (s.setProc np fun x => { x with state := .runnable }) []
  -- `exit` and `wait`
  | reparentChild {p pp ps} (h : (s.proc pp).parent = some p) :
      Does s c t (.reparent p (pp :: ps)) (s.setProc pp fun x => { x with parent := some s.initproc })
        [.wakeup (some (.inl s.initproc)) Instr.table, .reparent p ps]
  | zombie {p} : Does s c t (.zombie p) (s.setProc p fun x => { x with state := .zombie }) []
  | waitFree {p pp ps} (h : (s.proc pp).state = .zombie) :
      Does s c t (.waitOne p pp ps) (s.setProc pp SchedProc.freeproc) [.leaf, .release (.proc pp), .release .wait]

/-- A statement panics. -/
inductive Panics (s : SchedSys N C L Ch W) (c : C) : Instr N L Ch → SchedPanic → Prop
  | acquire {lk} (h : s.Holding c lk) : Panics s c (.testHolding lk) .acquire
  | release {lk} (h : ¬ s.Holding c lk) : Panics s c (.release lk) .release
  | popOffInterruptible (h : (s.cpu c).intr = true) : Panics s c .popOff .popOffInterruptible
  | popOff (h : (s.cpu c).noff < 1) : Panics s c .popOff .popOff
  | schedLock {p} (my : (s.cpu c).proc = some p) (h : ¬ s.Holding c (.proc p)) : Panics s c .sched .schedLock
  | schedLocks (h : (s.cpu c).noff ≠ 1) : Panics s c .sched .schedLocks
  | schedRunning {p} (my : (s.cpu c).proc = some p) (h : (s.proc p).state = .running) : Panics s c .sched .schedRunning
  | schedInterruptible (h : (s.cpu c).intr = true) : Panics s c .sched .schedInterruptible
  | panic (e : SchedPanic) : Panics s c (.panic e) e

/-- What kernel code with `m` calls of `push_off` open calls, and its open calls then. -/
inductive Calls (s : SchedSys N C L Ch W) (c : C) (t : Agent N C) : Nat → List (Instr N L Ch) → Nat → Prop
  | pushOff {m} : Calls s c t m [.pushOff] (m + 1)
  | popOff {m} : Calls s c t (m + 1) [.popOff] m
  | acquire {m} (lk : SpinLock N L) : Calls s c t m [.acquire lk] m
  | release {m} (lk : SpinLock N L) : Calls s c t m [.release lk] m
  | wakeup {m} (chan : Chan N Ch) : Calls s c t m [.wakeup chan Instr.table] m
  | kill {m p} (pid : Nat) (my : (s.cpu c).proc = some p) : Calls s c t m [.kill pid Instr.table] m
  | yield {m p} (my : (s.cpu c).proc = some p) (depth : s.depth t = 0) : Calls s c t m (Instr.yieldBody p) m
  | sleep {m p} (chan : Chan N Ch) (lk : SpinLock N L) (my : (s.cpu c).proc = some p)
      (depth : s.depth t = 1) (held : (s.lock lk).locked = some c) : Calls s c t m (Instr.sleepBody p chan lk) m
  | fork {m p} (my : (s.cpu c).proc = some p) (depth : s.depth t = 0) : Calls s c t m [.alloc Instr.table] m
  | exit {m p} (my : (s.cpu c).proc = some p) (depth : s.depth t = 0) (init : p ≠ s.initproc) :
      Calls s c t m (Instr.exitBody p) m
  | exitInit {m} (my : (s.cpu c).proc = some s.initproc) : Calls s c t m [.panic .initExiting] m
  | wait {m p} (my : (s.cpu c).proc = some p) (depth : s.depth t = 0) : Calls s c t m (Instr.waitBody p) m

/-- A step of CPU `c`. -/
inductive Step (s : SchedSys N C L Ch W) (c : C) : SchedSys N C L Ch W → Prop
  | expand {t i is k}
      (on : (s.cpu c).exec = .run t) (code : s.code t = i :: k) (h : s.Expands c i is) : Step s c (s.goto t (is ++ k))
  | instr {s' t i is k} (on : (s.cpu c).exec = .run t) (code : s.code t = i :: k) (does : s.Does c t i s' is) :
      Step s c (s'.goto t (is ++ k))
  | panic {t i k e} (on : (s.cpu c).exec = .run t) (code : s.code t = i :: k) (h : s.Panics c i e) :
      Step s c (s.setCpu c fun x => { x with exec := .halted t e })
  | call {t m m' is k} (on : (s.cpu c).exec = .run t) (code : s.code t = .any m :: k) (h : s.Calls c t m is m') :
      Step s c (s.goto t (is ++ .any m' :: k))
  /-- unmodelled code ends, if something waits for that -/
  | ret {t i k} (on : (s.cpu c).exec = .run t) (code : s.code t = .any 0 :: i :: k) (depth : s.depth t = 0) :
      Step s c (s.goto t (i :: k))
  | intrOn {t m k} (on : (s.cpu c).exec = .run t) (code : s.code t = .any m :: k) (depth : s.depth t = 0) :
      Step s c (s.setCpu c fun x => { x with intr := true })
  | intrOff {t m k} (on : (s.cpu c).exec = .run t) (code : s.code t = .any m :: k) :
      Step s c (s.setCpu c fun x => { x with intr := false })
  | compute {t} (regs : Reg → W) (on : (s.cpu c).exec = .run t) : Step s c (s.setCpu c fun x => { x with regs })
  | trap {t} (on : (s.cpu c).exec = .run t) (intr : (s.cpu c).intr = true) :
      Step s c ((s.setCpu c fun x => { x with intr := false }).goto t (.any 0 :: .sret :: s.code t))
  -- `swtch`
  | save {old new : Agent N C} {r : Reg} (on : (s.cpu c).exec = .swtch old new r) :
      Step s c { s.setCpu c fun x => { x with exec := .swtch old new (r + 1) } with
        context := update s.context old (update (s.context old) r ((s.cpu c).regs r)) }
  | load {old new : Agent N C} {r : Reg} (on : (s.cpu c).exec = .swtch old new (14 + r)) : Step s c (s.setCpu c fun x =>
        { x with exec := .swtch old new (14 + r + 1), regs := update x.regs r (s.context new r) })
  | swtchRet {old new} (on : (s.cpu c).exec = .swtch old new 28) :
      Step s c (s.setCpu c fun x => { x with exec := .run new })

/-- After `userinit`: every CPU enters `scheduler`, and `initproc` is to run. -/
structure Init (s : SchedSys N C L Ch W) : Prop where
  proc : ∀ c, (s.cpu c).proc = none
  noff : ∀ c, (s.cpu c).noff = 0
  intr : ∀ c, (s.cpu c).intr = false
  exec : ∀ c, (s.cpu c).exec = .run (.cpu c)
  code : ∀ c, s.code (.cpu c) = [.scheduler]
  depth : ∀ c, s.depth (.cpu c) = 0
  lock : ∀ lk, s.lock lk = ⟨none, none⟩
  unused : ∀ p, p ≠ s.initproc → (s.proc p).state = .unused
  init : (s.proc s.initproc).state = .runnable
  context : ∀ p, s.context (.proc p) = s.newContext p
  snap : ∀ t, s.snap t = s.context t
  initCode : s.code (.proc s.initproc) = Instr.forkretBody s.initproc
  initDepth : s.depth (.proc s.initproc) = 1
  initEntry : s.entry (.proc s.initproc) = none
  off : ∀ p, p ≠ s.initproc → s.code (.proc p) = []

def Reachable (s : SchedSys N C L Ch W) : Prop := Trans.Reach Init (fun s s' => ∃ c, Step s c s') s

end SchedSys

end Xv6
