import Xv6.Param

/-!
# The process table (`proc.c`): `fork`, `exit`, `wait`, `kill` and faults

The machine of the processes. A step is the code between two lock operations; a critical section of one
`p->lock` in which no other lock is taken is one step, which needs the lock free. `np->lock` in `fork`,
`wait_lock`, and `p->lock` in `exit` and `sleep` are held over several steps. `swtch` and the
scheduler's `release(&p->lock)` end the step of the process that calls `sched`. A process runs when its
state is `RUNNING`, on any number of CPUs.

The rest of the kernel appears as its effect on the table: a process in another system call can sleep on
any channel, be woken, and change its user memory (`writable`: where `copyout` succeeds); any process
that holds no spinlock can be preempted. `kalloc` can fail whenever it is called.

`uid`, `hit`, `forker`, `freed` and `trace` are history, which no step looks at: the process a slot
holds, whether that process has been the target of `kill` or faulted, the process whose `fork` made it,
the children freed by the present call of `wait`, and what has happened, latest first.
-/

namespace Xv6

open Function (update)

/-- `int` -/
abbrev CInt := BitVec 32

inductive ProcState
  | unused
  | used
  | sleeping
  | runnable
  | running
  | zombie
deriving DecidableEq, Repr

/-- `struct proc`; `lock` is the process that holds `p->lock`, `chan` and `parent` point to slots of the
table by their index (other channels have other numbers). -/
structure Proc where
  lock : Option Nat
  state : ProcState
  chan : Option Nat
  killed : Bool
  xstate : CInt
  pid : CInt
  parent : Option Nat

/-- Where a process is in the kernel. -/
inductive ProcPc
  /-- no thread: the slot is free, still in `fork`, or a zombie's -/
  | off
  | user
  /-- `usertrap`, past the first test of `killed` -/
  | syscall
  /-- `usertrap`, before the last test of `killed` -/
  | sysret
  | allocproc (i : Nat)
  /-- in `fork`, with `np->lock` held -/
  | fork (np : Nat)
  /-- `acquire(&wait_lock)`, `np->parent = p` -/
  | forkParent (np : Nat)
  /-- `acquire(&np->lock)`, `np->state = RUNNABLE` -/
  | forkRunnable (np : Nat)
  /-- `exit` up to `acquire(&wait_lock)` -/
  | exit (status : CInt)
  | reparent (status : CInt) (i : Nat)
  /-- `wakeup(initproc)` in `reparent`, at slot `j` -/
  | reparentWakeup (status : CInt) (i j : Nat)
  /-- `wakeup(p->parent)`, at slot `j` -/
  | exitWakeup (status : CInt) (j : Nat)
  /-- `acquire(&p->lock)`, `p->state = ZOMBIE` -/
  | exitLock (status : CInt)
  /-- `release(&wait_lock)` -/
  | exitRelease
  | exitSched
  /-- `wait` up to `acquire(&wait_lock)` -/
  | wait (addr : Nat)
  /-- the scan of `wait` at slot `i` -/
  | waitScan (addr i : Nat) (havekids : Bool)
  /-- `if(!havekids || killed(p))` -/
  | waitCheck (addr : Nat) (havekids : Bool)
  /-- `sleep(p, &wait_lock)`: `acquire(&p->lock)` -/
  | waitSleep (addr : Nat)
  /-- `release(lk)` -/
  | waitSleepRelease (addr : Nat)
  /-- `p->state = SLEEPING`, `sched` -/
  | waitSleepSched (addr : Nat)
  /-- back from `sched`: `acquire(lk)` -/
  | waitSleepAcquire (addr : Nat)
  /-- `release(&wait_lock)`, `return`; `none` is -1 -/
  | waitRet (addr : Nat) (r : Option CInt)
  | kill (pid : CInt) (i : Nat)
deriving DecidableEq, Repr

/-- What has happened, by `uid`. -/
inductive ProcEv
  /-- process `c` called `exit(status)` -/
  | exit (c : Nat) (status : CInt)
  /-- `wait(addr)` of process `w` freed `c`, whose pid it returns, and copied `status` out, if `addr` is not 0 -/
  | reap (w c : Nat) (pid : CInt) (addr : Nat) (status : Option CInt)
  /-- `wait` of process `w` returned `r` after freeing the processes `freed` -/
  | waitRet (w : Nat) (r : Option CInt) (freed : List Nat)
  /-- `kill(pid)` returned 0, at slot `i` -/
  | kill (pid : CInt) (i : Nat)
deriving DecidableEq, Repr

structure ProcSys where
  proc : Nat → Proc
  waitLock : Option Nat
  nextpid : CInt
  pc : Nat → ProcPc
  writable : Nat → Nat → Bool
  uid : Nat → Nat
  nextUid : Nat
  hit : Nat → Bool
  forker : Nat → Option Nat
  freed : Nat → List Nat
  trace : List ProcEv

/-- The slot `userinit` gets. -/
def initproc : Nat := 0

/-- Points with no spinlock held, where a timer interrupt can call `yield`. -/
def ProcPc.preemptible : ProcPc → Bool
  | .user | .syscall | .sysret | .allocproc _ | .forkParent _ | .forkRunnable _ | .exit _ | .wait _
  | .waitSleepAcquire _ | .kill _ _ => true
  | _ => false

namespace Proc

/-- `freeproc`; memory and name are not part of the model. -/
def freeproc (x : Proc) : Proc :=
  { x with pid := 0, parent := none, chan := none, killed := false, xstate := 0, state := .unused }

/-- The body of the loop of `wakeup(chan)`. -/
def wakeup (chan : Option Nat) (x : Proc) : Proc :=
  if x.state = .sleeping ∧ x.chan = chan then { x with state := .runnable } else x

/-- The body of `kill` for a process with the right `pid`. -/
def kill (x : Proc) : Proc :=
  { x with killed := true, state := if x.state = .sleeping then .runnable else x.state }

end Proc

namespace ProcSys

section
variable (s : ProcSys)

def goto (p : Nat) (k : ProcPc) : ProcSys := { s with pc := update s.pc p k }

def modify (i : Nat) (f : Proc → Proc) : ProcSys :=
  { s with proc := update s.proc i (f (s.proc i)) }

def emit (e : ProcEv) : ProcSys := { s with trace := e :: s.trace }

/-- `allocproc` at `found`: slot `i` gets a pid and is kept locked. -/
def found (p i : Nat) : ProcSys :=
  ({ s with nextpid := s.nextpid + 1, uid := update s.uid i s.nextUid,
            nextUid := s.nextUid + 1, hit := update s.hit i false }.modify i fun x =>
      { x with lock := some p, pid := s.nextpid, state := .used }).goto p (.fork i)

/-- Process `p` calls `exit(status)`. -/
def callExit (p : Nat) (status : CInt) : ProcSys :=
  (s.goto p (.exit status)).emit (.exit (s.uid p) status)

/-- `wait` frees the zombie in slot `i`. -/
def reap (p addr i : Nat) : ProcSys :=
  (({ s with freed := update s.freed p (s.uid i :: s.freed p) }.modify i Proc.freeproc).goto p
    (.waitRet addr (some (s.proc i).pid))).emit
    (.reap (s.uid p) (s.uid i) (s.proc i).pid addr (if addr = 0 then none else some (s.proc i).xstate))

/-- `kill` finds its pid in slot `i`. -/
def killAt (p : Nat) (pid : CInt) (i : Nat) : ProcSys :=
  (({ s with hit := update s.hit i (s.hit i || decide ((s.proc i).state ≠ ProcState.unused)) }.modify i
    Proc.kill).goto p .sysret).emit (.kill pid i)

/-- Process `p` runs and is at `k`. -/
def At (p : Nat) (k : ProcPc) : Prop := p < NPROC ∧ (s.proc p).state = .running ∧ s.pc p = k

end

/-- The steps of process `p` that only look at the table and go on. -/
inductive Look (s : ProcSys) (p : Nat) : ProcPc → ProcPc → Prop
  -- `usertrap` and `syscall`
  | ecall (lock : (s.proc p).lock = none) (h : (s.proc p).killed = false) : Look s p .user .syscall
  | interrupt : Look s p .user .sysret
  | usertrapret (lock : (s.proc p).lock = none) (h : (s.proc p).killed = false) : Look s p .sysret .user
  | sysFork : Look s p .syscall (.allocproc 0)
  | sysKill (pid : CInt) : Look s p .syscall (.kill pid 0)
  | sysOther : Look s p .syscall .sysret
  -- `allocproc`: `release(&p->lock)` of a slot in use, `return 0`
  | allocNext {i} (lt : i < NPROC) (lock : (s.proc i).lock = none)
      (h : (s.proc i).state ≠ .unused) : Look s p (.allocproc i) (.allocproc (i + 1))
  | allocNone : Look s p (.allocproc NPROC) .sysret
  -- `reparent` and the two `wakeup` loops of `exit`
  | reparentNext {i status} (lt : i < NPROC) (h : (s.proc i).parent ≠ some p) :
      Look s p (.reparent status i) (.reparent status (i + 1))
  | reparentDone {status} : Look s p (.reparent status NPROC) (.exitWakeup status 0)
  | reparentWakeupSelf {i status} : Look s p (.reparentWakeup status i p) (.reparentWakeup status i (p + 1))
  | reparentWakeupDone {i status} : Look s p (.reparentWakeup status i NPROC) (.reparent status (i + 1))
  | exitWakeupSelf {status} : Look s p (.exitWakeup status p) (.exitWakeup status (p + 1))
  | exitWakeupDone {status} : Look s p (.exitWakeup status NPROC) (.exitLock status)
  -- `wait`
  | waitNext {addr i havekids} (lt : i < NPROC) (h : (s.proc i).parent ≠ some p) :
      Look s p (.waitScan addr i havekids) (.waitScan addr (i + 1) havekids)
  | waitChild {addr i havekids} (lt : i < NPROC) (h : (s.proc i).parent = some p)
      (lock : (s.proc i).lock = none) (hz : (s.proc i).state ≠ .zombie) :
      Look s p (.waitScan addr i havekids) (.waitScan addr (i + 1) true)
  | waitCopyout {addr i havekids} (lt : i < NPROC) (h : (s.proc i).parent = some p)
      (lock : (s.proc i).lock = none) (hz : (s.proc i).state = .zombie) (ha : addr ≠ 0)
      (hw : s.writable p addr = false) : Look s p (.waitScan addr i havekids) (.waitRet addr none)
  | waitScanned {addr havekids} : Look s p (.waitScan addr NPROC havekids) (.waitCheck addr havekids)
  | waitNoKids {addr} : Look s p (.waitCheck addr false) (.waitRet addr none)
  | waitKilled {addr} (lock : (s.proc p).lock = none) (h : (s.proc p).killed = true) :
      Look s p (.waitCheck addr true) (.waitRet addr none)
  | waitSleep {addr} (lock : (s.proc p).lock = none) (h : (s.proc p).killed = false) :
      Look s p (.waitCheck addr true) (.waitSleep addr)
  -- `kill`: not this slot, `return -1`
  | killNext {i pid} (lt : i < NPROC) (lock : (s.proc i).lock = none)
      (h : (s.proc i).pid ≠ pid) : Look s p (.kill pid i) (.kill pid (i + 1))
  | killNone {pid} : Look s p (.kill pid NPROC) .sysret

inductive Step (s : ProcSys) : ProcSys → Prop
  | look {p k k'} (at_ : s.At p k) (h : s.Look p k k') : Step s (s.goto p k')
  -- the scheduler, and the rest of the kernel
  | run {i} (lt : i < NPROC) (lock : (s.proc i).lock = none) (h : (s.proc i).state = .runnable) :
      Step s (s.modify i fun x => { x with state := .running, chan := none })
  | yield {p k} (at_ : s.At p k) (hk : k.preemptible = true)
      (lock : (s.proc p).lock = none) : Step s (s.modify p fun x => { x with state := .runnable })
  | sleep {p c k} (at_ : s.At p k) (hk : k = .syscall ∨ ∃ status, k = .exit status) (lock : (s.proc p).lock = none) :
      Step s (s.modify p fun x => { x with state := .sleeping, chan := some c })
  | wakeup {i} (c : Nat) (lt : i < NPROC) (lock : (s.proc i).lock = none) : Step s (s.modify i (Proc.wakeup (some c)))
  | memory {p} (w : Nat → Bool) (at_ : s.At p .syscall) : Step s { s with writable := update s.writable p w }
  -- `usertrap`
  | fault {p} (at_ : s.At p .user) (lock : (s.proc p).lock = none) :
      Step s (({ s with hit := update s.hit p true }.modify p fun x => { x with killed := true }).goto p .sysret)
  | exitKilled {p k} (at_ : s.At p k) (hk : k = .user ∨ k = .sysret)
      (lock : (s.proc p).lock = none) (h : (s.proc p).killed = true) (init : p ≠ initproc) : Step s (s.callExit p (-1))
  | sysExit {p} (status : CInt) (at_ : s.At p .syscall) (init : p ≠ initproc) : Step s (s.callExit p status)
  | sysWait {p} (addr : Nat) (at_ : s.At p .syscall) :
      Step s ({ s with freed := update s.freed p [] }.goto p (.wait addr))
  -- `fork`
  | allocFound {p i} (at_ : s.At p (.allocproc i)) (lt : i < NPROC)
      (lock : (s.proc i).lock = none) (h : (s.proc i).state = .unused) : Step s (s.found p i)
  /-- `kalloc` fails in `allocproc` or `uvmcopy`: `freeproc(np)`, `release(&np->lock)` -/
  | forkFail {p np} (at_ : s.At p (.fork np)) :
      Step s ((s.modify np fun x => { x.freeproc with lock := none }).goto p .sysret)
  | forkRelease {p np} (w : Nat → Bool) (at_ : s.At p (.fork np)) :
      Step s (({ s with writable := update s.writable np w }.modify np fun x =>
        { x with lock := none }).goto p (.forkParent np))
  | forkParent {p np} (at_ : s.At p (.forkParent np)) (lock : s.waitLock = none) :
      Step s (({ s with forker := update s.forker (s.uid np) (some (s.uid p)) }.modify np
        fun x => { x with parent := some p }).goto p (.forkRunnable np))
  | forkRunnable {p np} (at_ : s.At p (.forkRunnable np)) (lock : (s.proc np).lock = none) :
      Step s (((s.goto p .sysret).modify np fun x => { x with state := .runnable }).goto np .user)
  -- `exit`
  | exitAcquire {p status} (at_ : s.At p (.exit status)) (lock : s.waitLock = none) :
      Step s ({ s with waitLock := some p }.goto p (.reparent status 0))
  | reparentChild {p i status} (at_ : s.At p (.reparent status i)) (lt : i < NPROC) (h : (s.proc i).parent = some p) :
      Step s ((s.modify i fun x => { x with parent := some initproc }).goto p (.reparentWakeup status i 0))
  | reparentWakeup {p i j status}
      (at_ : s.At p (.reparentWakeup status i j)) (lt : j < NPROC) (ne : j ≠ p) (lock : (s.proc j).lock = none) :
      Step s ((s.modify j (Proc.wakeup (some initproc))).goto p (.reparentWakeup status i (j + 1)))
  | exitWakeup {p j status} (at_ : s.At p (.exitWakeup status j))
      (lt : j < NPROC) (ne : j ≠ p) (lock : (s.proc j).lock = none) :
      Step s ((s.modify j (Proc.wakeup (s.proc p).parent)).goto p (.exitWakeup status (j + 1)))
  | exitZombie {p status} (at_ : s.At p (.exitLock status)) (lock : (s.proc p).lock = none) :
      Step s ((s.modify p fun x => { x with lock := some p, xstate := status, state := .zombie }).goto p .exitRelease)
  | exitRelease {p} (h : s.pc p = .exitRelease) : Step s ({ s with waitLock := none }.goto p .exitSched)
  | exitSched {p} (h : s.pc p = .exitSched) : Step s ((s.modify p fun x => { x with lock := none }).goto p .off)
  -- `wait`
  | waitAcquire {p addr k} (at_ : s.At p k)
      (hk : k = .wait addr ∨ k = .waitSleepAcquire addr) (lock : s.waitLock = none) :
      Step s ({ s with waitLock := some p }.goto p (.waitScan addr 0 false))
  | waitReap {p addr i havekids}
      (at_ : s.At p (.waitScan addr i havekids)) (lt : i < NPROC) (h : (s.proc i).parent = some p)
      (lock : (s.proc i).lock = none) (hz : (s.proc i).state = .zombie)
      (hw : addr = 0 ∨ s.writable p addr = true) : Step s (s.reap p addr i)
  | waitSleepAcquire {p addr} (at_ : s.At p (.waitSleep addr)) (lock : (s.proc p).lock = none) :
      Step s ((s.modify p fun x => { x with lock := some p }).goto p (.waitSleepRelease addr))
  | waitSleepRelease {p addr} (at_ : s.At p (.waitSleepRelease addr)) :
      Step s ({ s with waitLock := none }.goto p (.waitSleepSched addr))
  | waitSleepSched {p addr} (at_ : s.At p (.waitSleepSched addr)) :
      Step s ((s.modify p fun x => { x with lock := none, state := .sleeping, chan := some p }).goto p
        (.waitSleepAcquire addr))
  | waitRet {p addr r} (at_ : s.At p (.waitRet addr r)) :
      Step s (({ s with waitLock := none }.goto p .sysret).emit (.waitRet (s.uid p) r (s.freed p)))
  -- `kill`
  | killFound {p i pid} (at_ : s.At p (.kill pid i)) (lt : i < NPROC)
      (lock : (s.proc i).lock = none) (h : (s.proc i).pid = pid) : Step s (s.killAt p pid i)

/-- The table `userinit` leaves: one process, on its way to user space. -/
def boot (writable : Nat → Nat → Bool) : ProcSys where
  proc i := if i = initproc then ⟨none, .runnable, none, false, 0, 1, none⟩
    else ⟨none, .unused, none, false, 0, 0, none⟩
  waitLock := none
  nextpid := 2
  pc i := if i = initproc then .user else .off
  writable
  uid _ := 0
  nextUid := 1
  hit _ := false
  forker _ := none
  freed _ := []
  trace := []

def Init (s : ProcSys) : Prop := ∃ w, s = boot w

end ProcSys

end Xv6
