import Xv6.Sleep

/-!
# Sleep-locks (`sleeplock.c`)

One sleep-lock among everything else the kernel does: `lk` is its spinlock `lk->lk`, and `chan` its
address, on which `acquiresleep` sleeps. A process runs `acquiresleep`, `releasesleep` and `holdingsleep`
one after the other, `releasesleep` only when it has come back from `acquiresleep`. Between their steps
stands other code, of interrupts for instance, which does not use the spinlock, write the fields of the
sleep-lock or sleep on it.
-/

namespace Xv6

variable {N : Nat} {C L Ch τ : Type}

structure SleepLock where
  locked : Bool
  pid : CInt
deriving DecidableEq

/-- Where a process is in the functions of the sleep-lock. -/
inductive SleepLockPc
  | out
  /-- `acquiresleep`: `while (lk->locked)`, with the spinlock held -/
  | test
  /-- in `sleep(lk, &lk->lk)`, or woken and before the `acquire` that ends it -/
  | asleep
  /-- `lk->locked = 1` done, before `release(&lk->lk)` -/
  | taken
  /-- between `acquiresleep` and `releasesleep` -/
  | held
  /-- `releasesleep`: before `lk->locked = 0` -/
  | clear
  /-- before `wakeup(lk)` -/
  | cleared
  /-- before `release(&lk->lk)` -/
  | woken
  /-- `holdingsleep`, called between `acquiresleep` and `releasesleep` or not -/
  | holding (between : Bool)
deriving DecidableEq

structure SleepLockSys (N : Nat) (C L Ch τ : Type) where
  sys : SleepSys N C L Ch (SleepLock × τ)
  pc : Fin N → SleepLockPc

/-- Who sleeps on the sleep-lock waits for `lk->locked = 0`. -/
def sleepLockRule (N : Nat) (τ : Type) (chan : Ch) (lk : L) : Rule N L Ch (SleepLock × τ) where
  chan := chan
  lk := lk
  cond _ sh := sh.1.locked = false

/-- What other code does. -/
def Foreign (chan : Ch) (lk : L) (sl : SleepLock) : SleepAct L Ch (SleepLock × τ) → Prop
  | .acquire l | .release l | .exit l => l ≠ lk
  | .sleep c l => c ≠ chan ∧ l ≠ lk
  | .update sh | .make sh => sh.1 = sl
  | .wakeup _ | .inside => True

namespace SleepLockSys

variable [DecidableEq C] [DecidableEq L] [DecidableEq Ch]

def lock (s : SleepLockSys N C L Ch τ) : SleepLock := s.sys.sh.1

/-- `p` has come to `x`, and the rest of the system to `sys`. -/
def put (s : SleepLockSys N C L Ch τ) (sys : SleepSys N C L Ch (SleepLock × τ)) (p : Fin N)
    (x : SleepLockPc) : SleepLockSys N C L Ch τ where
  sys := sys
  pc := Function.update s.pc p x

/-- A step of process `p`, or of other code of any agent. -/
inductive Step (chan : Ch) (lk : L) (s : SleepLockSys N C L Ch τ) : SleepLockSys N C L Ch τ → Prop
  | other {s' a e} (h : s.sys.Step (sleepLockRule N τ chan lk) a e s')
      (foreign : Foreign chan lk s.lock e) : Step chan lk s { s with sys := s' }
  -- `acquiresleep`
  | acquire {s' p} (pc : s.pc p = .out) (h : s.sys.Step (sleepLockRule N τ chan lk) (.proc p) (.acquire lk) s') :
      Step chan lk s (s.put s' p .test)
  | sleep {s' p} (pc : s.pc p = .test) (locked : s.lock.locked = true)
      (h : s.sys.Step (sleepLockRule N τ chan lk) (.proc p) (.sleep chan lk) s') : Step chan lk s (s.put s' p .asleep)
  | reacquire {s' p} (pc : s.pc p = .asleep) (h : s.sys.Step (sleepLockRule N τ chan lk) (.proc p) (.acquire lk) s') :
      Step chan lk s (s.put s' p .test)
  | take {s' p pid} (pc : s.pc p = .test) (locked : s.lock.locked = false)
      (h : s.sys.Step (sleepLockRule N τ chan lk) (.proc p) (.update (⟨true, pid⟩, s.sys.sh.2)) s') :
      Step chan lk s (s.put s' p .taken)
  | release {s' p} (pc : s.pc p = .taken) (h : s.sys.Step (sleepLockRule N τ chan lk) (.proc p) (.release lk) s') :
      Step chan lk s (s.put s' p .held)
  -- `releasesleep`
  | releasesleep {s' p} (pc : s.pc p = .held) (h : s.sys.Step (sleepLockRule N τ chan lk) (.proc p) (.acquire lk) s') :
      Step chan lk s (s.put s' p .clear)
  | clear {s' p e} (pc : s.pc p = .clear)
      (act : e = .update (⟨false, 0⟩, s.sys.sh.2) ∨ e = .make (⟨false, 0⟩, s.sys.sh.2))
      (h : s.sys.Step (sleepLockRule N τ chan lk) (.proc p) e s') : Step chan lk s (s.put s' p .cleared)
  | wakeup {s' p} (pc : s.pc p = .cleared) (h : s.sys.Step (sleepLockRule N τ chan lk) (.proc p) (.wakeup chan) s') :
      Step chan lk s (s.put s' p .woken)
  | released {s' p} (pc : s.pc p = .woken) (h : s.sys.Step (sleepLockRule N τ chan lk) (.proc p) (.release lk) s') :
      Step chan lk s (s.put s' p .out)
  -- `holdingsleep`
  | holdingsleep {s' p} {between : Bool} (pc : s.pc p = if between then .held else .out)
      (h : s.sys.Step (sleepLockRule N τ chan lk) (.proc p) (.acquire lk) s') :
      Step chan lk s (s.put s' p (.holding between))
  | holdingRet {s' p between} (pc : s.pc p = .holding between)
      (h : s.sys.Step (sleepLockRule N τ chan lk) (.proc p) (.release lk) s') :
      Step chan lk s (s.put s' p (if between then .held else .out))

/-- `initsleeplock` done. -/
structure Init (s : SleepLockSys N C L Ch τ) : Prop where
  sys : s.sys.Init
  lock : s.lock = ⟨false, 0⟩
  pc : ∀ p, s.pc p = .out

end SleepLockSys

end Xv6
