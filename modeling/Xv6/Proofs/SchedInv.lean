import Xv6.Lib.Exclusive
import Xv6.Sched

/-!
# One CPU per process

The code that a thread still has to execute says which locks its CPU must hold now (`Wt`), as a type system for
locks would: `sched` is only reached with `p->lock` as the only lock, a state is only changed under the lock of its process,
and a handler ends with nothing held. Every CPU runs well-typed code (`On`), and a process that no CPU has,
but that can be made to run, rests in `swtch` with code that is well typed once its lock is held (`Rests`).
-/

namespace Xv6

variable {N : Nat} {C L Ch W : Type}

/-- What a CPU has taken: its locks, and how often `push_off` was called beside that. -/
structure LockSet (N : Nat) (L : Type) where
  locks : List (SpinLock N L)
  pushes : Nat

namespace LockSet

def only (p : Fin N) : LockSet N L := ⟨[.proc p], 0⟩

end LockSet

namespace Instr

def Parked : List (Instr N L Ch) → Prop
  | .sched :: _ => True
  | .release _ :: k | .clearCpu _ :: k | .unlock _ :: k | .popOff :: k | .noffDec :: k | .popOn :: k => Parked k
  | _ => False

/-- What a statement of thread `t` that `k` follows needs of its CPU. -/
def Needs (t : Agent N C) (k : List (Instr N L Ch)) (x : LockSet N L) : Instr N L Ch → Prop
  | .any m => x.pushes = m
  | .sret => x = ⟨[], 0⟩
  | .popOff | .noffDec | .testAndSet _ => 1 ≤ x.pushes
  | .setCpu lk | .clearCpu lk | .unlock lk => lk ∈ x.locks
  | .sched | .restore _ => ∃ p, t = .proc p ∧ x = .only p
  | .yieldState p | .sleepState p _ | .zombie p => t = .proc p ∧ .proc p ∈ x.locks ∧ Parked k
  | .intrOn => x = ⟨[], 0⟩
  | .scheduler | .scan _ => (∃ c, t = .cpu c) ∧ x = ⟨[], 0⟩
  | .dispatch p => (∃ c, t = .cpu c) ∧ x = .only p
  | .clearProc => ∃ c, t = .cpu c
  | .wakeOne _ q | .killOne _ q _ | .allocOne q _ | .initContext q | .copy q | .forkState q => .proc q ∈ x.locks
  | .panic e => e = .zombieExit ∨ e = .initExiting
  | .waitScan p _ _ => t = .proc p ∧ x = ⟨[.wait], 0⟩
  | .waitOne p pp _ => t = .proc p ∧ x = ⟨[.proc pp, .wait], 0⟩
  | .waitKilled p => t = .proc p ∧ x = ⟨[.proc p, .wait], 0⟩
  | _ => True

def midway : Instr N L Ch → Bool
  | .intrOff _ | .noffInc _ | .popOn | .unlock _ | .restore _ => true
  | _ => false

def Calm (k : List (Instr N L Ch)) : Prop := ∀ i ∈ k.head?, i.midway = false

@[simp]
theorem calm_nil : Calm ([] : List (Instr N L Ch)) := by simp [Calm]

@[simp]
theorem calm_cons {i : Instr N L Ch} {k : List (Instr N L Ch)} : Calm (i :: k) ↔ i.midway = false := by simp [Calm]

/-- What can follow a statement. A handler can have interrupted `push_off`, with interrupts on. -/
def Next (k : List (Instr N L Ch)) : Instr N L Ch → Prop
  | .sret => Calm k ∨ ∃ k', k = .intrOff true :: k'
  | .clearCpu lk => ∃ k', k = .unlock lk :: k'
  | _ => Calm k

/-- The processes that code is about to make: after `allocproc` has found the slot. -/
def forks : List (Instr N L Ch) → List (Fin N)
  | .initContext np :: k | .copy np :: k | .forkState np :: k => np :: forks k
  | _ :: k => forks k
  | [] => []

def made : List (Instr N L Ch) → List (Fin N)
  | .copy np :: k | .forkState np :: k => np :: made k
  | _ :: k => made k
  | [] => []

theorem mem_forks_of_made {k : List (Instr N L Ch)} {np : Fin N} (h : np ∈ made k) : np ∈ forks k := by
  fun_induction made k with
  | case1 np k ih | case2 np k ih =>
    rcases List.mem_cons.1 h with rfl | h
    · exact List.mem_cons_self
    · exact List.mem_cons_of_mem _ (ih h)
  | case3 i k _ _ ih =>
    have hk := ih h
    unfold forks
    split <;> simp_all
  | case4 => cases h

variable [DecidableEq L]

def eff (x : LockSet N L) : Instr N L Ch → LockSet N L
  | .any _ | .waitScan _ _ _ | .waitOne _ _ _ | .waitKilled _ => ⟨[], 0⟩
  | .pushOff | .intrOff _ | .noffInc _ => ⟨x.locks, x.pushes + 1⟩
  | .popOff | .noffDec => ⟨x.locks, x.pushes - 1⟩
  | .acquire lk => ⟨lk :: x.locks, x.pushes⟩
  | .testAndSet lk => ⟨lk :: x.locks, x.pushes - 1⟩
  | .release lk => ⟨x.locks.erase lk, x.pushes⟩
  | .unlock lk => ⟨x.locks.erase lk, x.pushes + 1⟩
  | .killOne _ q _ | .allocOne q _ | .initContext q | .copy q => ⟨x.locks.erase (.proc q), x.pushes⟩
  | _ => x

/-- Code of thread `t` can go on on a CPU that has taken `x`. -/
def Wt (t : Agent N C) : List (Instr N L Ch) → LockSet N L → Prop
  | [], _ => True
  | i :: k, x => i.Needs t k x ∧ i.Next k ∧ Wt t k (i.eff x)

variable {t : Agent N C} {i : Instr N L Ch} {is k : List (Instr N L Ch)} {x : LockSet N L} {p : Fin N}

theorem Parked.mem_locks (hp : Parked k) (h : Wt (C := C) (.proc p) k x) : .proc p ∈ x.locks := by
  fun_induction Parked k generalizing x with
  | case1 k =>
    obtain ⟨⟨q, hq, rfl⟩, -⟩ := h
    cases hq
    exact List.mem_singleton_self _
  | case2 lk k ih | case4 lk k ih => exact List.mem_of_mem_erase (ih hp h.2.2)
  | case3 lk k ih | case5 k ih | case6 k ih | case7 k ih =>
    have hmem := ih hp h.2.2
    exact hmem
  | case8 => exact hp.elim

theorem wt_yieldBody (hk : Calm k) (h : Wt (C := C) (.proc p) k ⟨[], 0⟩) : Wt (C := C) (.proc p) (yieldBody p ++ k) ⟨[], 0⟩ := by
  simp [yieldBody, Wt, Needs, Next, midway, eff, Parked, LockSet.only, hk, h]

theorem wt_sleepBody {chan : Chan N Ch} {lk : SpinLock N L} (hk : Calm k) (h : Wt (C := C) (.proc p) k ⟨[lk], 0⟩) :
    Wt (C := C) (.proc p) (sleepBody p chan lk ++ k) ⟨[lk], 0⟩ := by
  have he : [.proc p, lk].erase lk = [.proc p] := by
    rcases eq_or_ne (.proc p) lk with rfl | hne
    · simp
    · simp [List.erase_cons_tail, hne]
  simp [sleepBody, Wt, Needs, Next, midway, eff, Parked, LockSet.only, he, hk, h]

theorem wt_exitBody (hk : Calm k) (h : Wt (C := C) (.proc p) k (.only p)) :
    Wt (C := C) (.proc p) (exitBody p ++ k) ⟨[], 0⟩ := by
  simp_all [exitBody, Wt, Needs, Next, midway, eff, Parked, LockSet.only, List.erase_cons_tail]

end Instr

namespace SchedSys

open Instr

section
variable (s : SchedSys N C L Ch W)

/-- CPU `c` has taken `x`. -/
structure Holds (c : C) (x : LockSet N L) : Prop where
  nodup : x.locks.Nodup
  mem : ∀ lk, lk ∈ x.locks ↔ (s.lock lk).locked = some c
  noff : (s.cpu c).noff = x.locks.length + x.pushes

/-- Between the steps of `push_off`, `pop_off` and `release`. -/
def Head (c : C) : List (Instr N L Ch) → Prop
  | .intrOff old :: _ => (s.cpu c).intr = old
  | .noffInc _ :: _ | .popOn :: _ => (s.cpu c).intr = false
  | .unlock lk :: _ => (s.lock lk).cpu = none
  | _ => True

variable [DecidableEq L]

/-- The scheduler of `c` is in `swtch` and has given the CPU to `p`. -/
structure Waits (c : C) (p : Fin N) : Prop where
  proc : (s.cpu c).proc = some p
  code : ∃ k, s.code (.cpu c) = .clearProc :: k ∧ Calm k ∧ Wt (C := C) (.cpu c) k (.only p)
  depth : s.depth (.cpu c) = 1

/-- `p` is in `swtch`, or has not run yet. -/
structure Rests (p : Fin N) : Prop where
  code : (∃ intena k, s.code (.proc p) = .restore intena :: k ∧ Calm k ∧ Wt (C := C) (.proc p) k (.only p)) ∨
    s.code (.proc p) = forkretBody p
  depth : s.depth (.proc p) = 1

def Live (p : Fin N) : Prop :=
  (s.proc p).state = .running ∨ Parked (s.code (.proc p)) ∧
    ((s.proc p).state = .runnable ∨ (s.proc p).state = .sleeping ∨ (s.proc p).state = .zombie)

/-- Who runs on `c`: a process, or the scheduler, perhaps just back from a process. -/
inductive Who (c : C) : Agent N C → Prop
  | proc {p} (waits : s.Waits c p) (live : s.Live p) : Who c (.proc p)
  | idle (proc : (s.cpu c).proc = none) : Who c (.cpu c)
  | back {p k} (proc : (s.cpu c).proc = some p)
      (code : s.code (.cpu c) = .clearProc :: k) (lock : (s.lock (.proc p)).locked = some c) (rests : s.Rests p) :
      Who c (.cpu c)

structure Runs (c : C) (t : Agent N C) : Prop where
  who : s.Who c t
  held : ∃ x, s.Holds c x ∧ Wt t (s.code t) x
  depth : s.depth t = (s.cpu c).noff
  intr : (s.cpu c).intr = true → (s.cpu c).noff = 0
  head : s.Head c (s.code t)

/-- In `swtch`, from the scheduler to `p` or back. -/
structure Switches (c : C) (old new : Agent N C) (p : Fin N) : Prop where
  waits : s.Waits c p
  rests : s.Rests p
  holds : s.Holds c (.only p)
  intr : (s.cpu c).intr = false
  way : old = .cpu c ∧ new = .proc p ∧ (s.proc p).state = .running ∨ old = .proc p ∧ new = .cpu c

/-- Panics that do not happen. -/
def Bad : SchedPanic → Prop
  | .popOff | .popOffInterruptible | .schedLocks | .schedInterruptible => True
  | _ => False

structure Halts (c : C) (t : Agent N C) (e : SchedPanic) : Prop where
  proc : ∀ p, t = .proc p → (s.cpu c).proc = some p
  own : ∀ p, (s.cpu c).proc = some p → (s.proc p).state = .running ∨ (s.lock (.proc p)).locked = some c
  panic : ¬ Bad e

def On (c : C) : Prop :=
  match (s.cpu c).exec with
  | .run t => s.Runs c t
  | .swtch old new _ => ∃ p, s.Switches c old new p
  | .halted t e => s.Halts c t e

/-- The processes in the making are nobody else's. -/
structure Forks : Prop where
  used : ∀ t, ∀ np ∈ forks (s.code t), (s.proc np).state = .used
  uniq : Exclusive fun t np => np ∈ forks (s.code t)
  nodup : ∀ t, (forks (s.code t)).Nodup
  rests : ∀ t, ∀ np ∈ made (s.code t), s.Rests np

structure Inv : Prop where
  on : ∀ c, s.On c
  uniq : Exclusive fun c p => (s.cpu c).proc = some p
  off : ∀ p, (s.proc p).state = .runnable ∨ (s.proc p).state = .sleeping → (∀ c, (s.cpu c).proc ≠ some p) → s.Rests p
  spin : ∀ lk c, (s.lock lk).cpu = some c → (s.lock lk).locked = some c
  fork : s.Forks

end

variable {s s' : SchedSys N C L Ch W} {c c' : C} {t t' old new : Agent N C} {i : Instr N L Ch}
  {is k : List (Instr N L Ch)} {x : LockSet N L} {p q : Fin N}

def Belongs (s : SchedSys N C L Ch W) (c : C) (t : Agent N C) : Prop :=
  t = .cpu c ∨ ∃ p, t = .proc p ∧ (s.cpu c).proc = some p

/-- What thread `t` on CPU `c` leaves as it is when it goes from `s` to `s'`. -/
structure Change (s s' : SchedSys N C L Ch W) (c : C) (t : Agent N C) : Prop where
  cpu : ∀ c', c' ≠ c → s'.cpu c' = s.cpu c'
  locked : ∀ lk c', c' ≠ c → ((s'.lock lk).locked = some c' ↔ (s.lock lk).locked = some c')
  lockCpu : ∀ lk c', c' ≠ c → (s.lock lk).locked = some c' → (s'.lock lk).cpu = (s.lock lk).cpu
  thread : ∀ t', t' ≠ t → (∀ q k, t' = .proc q → s.code t ≠ .initContext q :: k) →
    s'.code t' = s.code t' ∧ s'.depth t' = s.depth t'
  running : ∀ q, t ≠ .proc q → (s.proc q).state = .running → (s'.proc q).state = .running
  state : ∀ q, (s.lock (.proc q)).locked ≠ some c → (s'.proc q).state = (s.proc q).state

theorem Holds.frame (h : s.Holds c x) (hcpu : s'.cpu c = s.cpu c)
    (hl : ∀ lk, (s'.lock lk).locked = some c ↔ (s.lock lk).locked = some c) : s'.Holds c x :=
  ⟨h.nodup, fun lk => (h.mem lk).trans (hl lk).symm, by rw [hcpu]; exact h.noff⟩

theorem Live.ne_used (h : s.Live p) : (s.proc p).state ≠ .used := by
  intro hu
  rcases h with h | ⟨-, h | h | h⟩ <;> cases hu.symm.trans h

namespace Change

variable (hc : Change s s' c t) (hne : c' ≠ c)
include hc hne

theorem other_holds (hx : s.Holds c' x) : s'.Holds c' x := hx.frame (hc.cpu _ hne) fun lk => hc.locked lk c' hne

theorem other_sched (ht : s.Belongs c t) :
    s'.code (.cpu c') = s.code (.cpu c') ∧ s'.depth (.cpu c') = s.depth (.cpu c') := by
  refine hc.thread _ ?_ (by rintro q k ⟨⟩)
  rintro rfl
  rcases ht with hc' | ⟨p, hp, -⟩
  · cases hc'
    exact hne rfl
  · cases hp

end Change

theorem Calm.head (h : Calm k) : s.Head c k := by
  unfold Head
  split <;> simp_all [midway]

namespace Expands

variable (h : s.Expands c i is)
include h

theorem ne_clearProc : i ≠ .clearProc := by
  rintro rfl
  cases h

theorem parked (hp : Parked (i :: k)) : Parked (is ++ k) := by
  cases h <;> first | exact hp | exact False.elim hp

theorem forks_eq : forks (is ++ k) = forks (i :: k) := by
  cases h <;> rfl

theorem made_eq : made (is ++ k) = made (i :: k) := by
  cases h <;> rfl

theorem head (hk : i.Next k) : s.Head c (is ++ k) := by
  cases h <;> first | exact trivial | exact Calm.head hk | rfl

end Expands

theorem Holds.eq_of_noff_zero (h : s.Holds c x) (h0 : (s.cpu c).noff = 0) : x = ⟨[], 0⟩ := by
  obtain ⟨locks, pushes⟩ := x
  have hn := h.noff
  simp only at hn
  have hl : locks.length = 0 := by omega
  have hp : pushes = 0 := by omega
  rw [List.length_eq_zero_iff.1 hl, hp]

theorem Holds.eq_of_noff_one {lk : SpinLock N L} (h : s.Holds c x) (h1 : (s.cpu c).noff = 1)
    (hlk : (s.lock lk).locked = some c) : x = ⟨[lk], 0⟩ := by
  obtain ⟨locks, pushes⟩ := x
  have hmem := (h.mem lk).2 hlk
  have hn := h.noff
  have hpos := List.length_pos_of_mem hmem
  simp only at hn hmem hpos
  have hl : locks.length = 1 := by omega
  have hp : pushes = 0 := by omega
  obtain ⟨lk', rfl⟩ := List.length_eq_one_iff.1 hl
  rw [hp, List.mem_singleton.1 hmem]

namespace Calls

variable {m m' : Nat}

theorem forks_eq (h : s.Calls c t m is m') : forks (is ++ .any m' :: k) = forks (.any m :: k) := by
  cases h <;> rfl

theorem made_eq (h : s.Calls c t m is m') : made (is ++ .any m' :: k) = made (.any m :: k) := by
  cases h <;> rfl

theorem head (h : s.Calls c t m is m') : s.Head c (is ++ .any m' :: k) := by
  cases h <;> exact trivial

end Calls

section
variable [DecidableEq L]

theorem Waits.wt (h : s.Waits c p) : Wt (C := C) (.cpu c) (s.code (.cpu c)) (.only p) := by
  obtain ⟨k, hk, hw⟩ := h.code
  rw [hk]
  exact ⟨⟨c, rfl⟩, hw⟩

theorem Rests.wt (h : s.Rests p) : Wt (C := C) (.proc p) (s.code (.proc p)) (.only p) := by
  rcases h.code with ⟨b, k, hk, hw⟩ | hk <;> rw [hk]
  · exact ⟨⟨p, rfl, rfl⟩, hw⟩
  · simp [forkretBody, Wt, Needs, Next, midway, eff, LockSet.only]

theorem Rests.frame (h : s.Rests p) (hthread : s'.code (.proc p) = s.code (.proc p) ∧ s'.depth (.proc p) = s.depth (.proc p)) :
    s'.Rests p :=
  ⟨by rw [hthread.1]; exact h.code, by rw [hthread.2]; exact h.depth⟩

theorem Rests.head (h : s.Rests p) : s.Head c (s.code (.proc p)) := by
  rcases h.code with ⟨b, k, hk, -⟩ | hk <;> rw [hk] <;> exact trivial

theorem Waits.head (h : s.Waits c p) : s.Head c (s.code (.cpu c)) := by
  obtain ⟨k, hk, -⟩ := h.code
  rw [hk]
  exact trivial

theorem On.run (h : s.On c) (he : (s.cpu c).exec = .run t) : s.Runs c t := by
  unfold On at h
  rw [he] at h
  exact h

theorem On.switch {j : Nat} (h : s.On c) (he : (s.cpu c).exec = .swtch old new j) : ∃ p, s.Switches c old new p := by
  unfold On at h
  rw [he] at h
  exact h

theorem Runs.on (h : s.Runs c t) (he : (s.cpu c).exec = .run t) : s.On c := by
  unfold On
  rw [he]
  exact h

theorem Switches.on {j : Nat} (h : s.Switches c old new p) (he : (s.cpu c).exec = .swtch old new j) : s.On c := by
  unfold On
  rw [he]
  exact ⟨p, h⟩

/-- A process that a CPU has can only be touched by that CPU. -/
theorem On.own (h : s.On c) (hp : (s.cpu c).proc = some p) :
    (s.proc p).state = .running ∨ (s.lock (.proc p)).locked = some c := by
  unfold On at h
  split at h
  · obtain ⟨x, hx, hw⟩ := h.held
    rcases h.who with ⟨waits, live⟩ | hn | ⟨hp', -, hl, -⟩
    · cases waits.proc.symm.trans hp
      exact live.imp_right fun hk => (hx.mem _).1 (hk.1.mem_locks hw)
    · cases hn.symm.trans hp
    · cases hp'.symm.trans hp
      exact .inr hl
  · obtain ⟨q, hq⟩ := h
    cases hq.waits.proc.symm.trans hp
    exact .inr ((hq.holds.mem _).1 (List.mem_singleton_self _))
  · exact h.own p hp

theorem Who.belongs (h : s.Who c t) : s.Belongs c t := by
  rcases h with ⟨waits, -⟩ | - | -
  · exact .inr ⟨_, rfl, waits.proc⟩
  · exact .inl rfl
  · exact .inl rfl

theorem Head.frame (h : s.Head c k) (hx : s.Holds c x) (hw : Wt t k x) (hcpu : s'.cpu c = s.cpu c)
    (hl : ∀ lk, (s.lock lk).locked = some c → (s'.lock lk).cpu = (s.lock lk).cpu) : s'.Head c k := by
  unfold Head at h ⊢
  split at h
  · rw [hcpu]; exact h
  · rw [hcpu]; exact h
  · rw [hcpu]; exact h
  · rw [hl _ ((hx.mem _).1 hw.1)]; exact h
  · trivial

namespace Change

variable (hc : Change s s' c t) (hne : c' ≠ c) (ht : s.Belongs c t) (h : s.Inv)
  (hi : ∀ q k, s.code t = .initContext q :: k → (s.lock (.proc q)).locked = some c)
include hc hne ht

theorem other_waits (hw : s.Waits c' p) : s'.Waits c' p := by
  obtain ⟨hcode, hdepth⟩ := hc.other_sched hne ht
  exact ⟨by rw [hc.cpu _ hne]; exact hw.proc, by rw [hcode]; exact hw.code, by rw [hdepth]; exact hw.depth⟩

include h

theorem other_ne (hp : (s.cpu c').proc = some p) : t ≠ .proc p := by
  rintro rfl
  rcases ht with hc' | ⟨q, hq, hcq⟩
  · cases hc'
  · cases hq
    exact hne (h.uniq _ _ _ hp hcq)

include hi

theorem other_proc (hp : (s.cpu c').proc = some p) :
    s'.code (.proc p) = s.code (.proc p) ∧ s'.depth (.proc p) = s.depth (.proc p) := by
  refine hc.thread _ (hc.other_ne hne ht h hp).symm ?_
  rintro q k hq hcode
  cases hq
  have hused := h.fork.used t p (by rw [hcode]; exact List.mem_cons_self)
  rcases (h.on c').own hp with hr | hl'
  · rw [hused] at hr
    cases hr
  · exact hne (Option.some.inj (hl'.symm.trans (hi p k hcode)))

theorem other_rests (hp : (s.cpu c').proc = some p) (hw : s.Rests p) : s'.Rests p :=
  hw.frame (hc.other_proc hne ht h hi hp)

theorem other_thread (hw : s.Who c' t') : s'.code t' = s.code t' ∧ s'.depth t' = s.depth t' := by
  rcases hw with ⟨waits, -⟩ | - | -
  · exact hc.other_proc hne ht h hi waits.proc
  · exact hc.other_sched hne ht
  · exact hc.other_sched hne ht

theorem other_runs (hr : s.Runs c' t') : s'.Runs c' t' := by
  obtain ⟨hcode, hdepth⟩ := hc.other_thread hne ht h hi hr.who
  obtain ⟨x, hx, hw⟩ := hr.held
  refine ⟨?_, ⟨x, hc.other_holds hne hx, by rw [hcode]; exact hw⟩, ?_, ?_, ?_⟩
  · rcases hr.who with ⟨waits, live⟩ | hn | ⟨hp, hk, hl, hrests⟩
    · refine .proc (hc.other_waits hne ht waits) (live.imp (hc.running _ (hc.other_ne hne ht h waits.proc)) ?_)
      rintro ⟨hk, hstate⟩
      -- `p->lock` is held by the other CPU
      have hlock := (hx.mem _).1 (hk.mem_locks hw)
      rw [hcode, hc.state _ fun hl => hne (Option.some.inj (hlock.symm.trans hl))]
      exact ⟨hk, hstate⟩
    · exact .idle (by rw [hc.cpu _ hne]; exact hn)
    · exact .back (by rw [hc.cpu _ hne]; exact hp) (hcode.trans hk) ((hc.locked _ _ hne).2 hl)
        (hc.other_rests hne ht h hi hp hrests)
  · rw [hdepth, hc.cpu _ hne]; exact hr.depth
  · rw [hc.cpu _ hne]; exact hr.intr
  · rw [hcode]; exact hr.head.frame hx hw (hc.cpu _ hne) fun lk => hc.lockCpu lk c' hne

theorem other_on : s'.On c' := by
  have hon := h.on c'
  unfold On at hon ⊢
  rw [hc.cpu _ hne]
  split at hon
  · exact hc.other_runs hne ht h hi hon
  · obtain ⟨p, hp⟩ := hon
    refine ⟨p, hc.other_waits hne ht hp.waits, hc.other_rests hne ht h hi hp.waits.proc hp.rests,
      hc.other_holds hne hp.holds, by rw [hc.cpu _ hne]; exact hp.intr, ?_⟩
    exact hp.way.imp_left fun ⟨ho, hn, hr⟩ => ⟨ho, hn, hc.running _ (hc.other_ne hne ht h hp.waits.proc) hr⟩
  · refine ⟨fun p hp => by rw [hc.cpu _ hne]; exact hon.proc p hp, fun p hp => ?_, hon.panic⟩
    rw [hc.cpu _ hne] at hp
    exact (hon.own p hp).imp (hc.running _ (hc.other_ne hne ht h hp)) (hc.locked _ _ hne).2

end Change

theorem On.belongs {j : Nat} (h : s.On c) (he : (s.cpu c).exec = .swtch old new j) : s.Belongs c old ∧ s.Belongs c new := by
  obtain ⟨p, hp⟩ := h.switch he
  rcases hp.way with ⟨rfl, rfl, -⟩ | ⟨rfl, rfl⟩
  · exact ⟨.inl rfl, .inr ⟨p, rfl, hp.waits.proc⟩⟩
  · exact ⟨.inr ⟨p, rfl, hp.waits.proc⟩, .inl rfl⟩

theorem Inv.belongs_unique (h : s.Inv) (hb : s.Belongs c t) (hb' : s.Belongs c' t) : c = c' := by
  rcases hb with rfl | ⟨p, rfl, hp⟩ <;> rcases hb' with hc | ⟨q, hq, hp'⟩
  · exact Agent.cpu.inj hc
  · cases hq
  · cases hc
  · cases hq
    exact h.uniq _ _ _ hp hp'

/-- A process with work to do that no CPU has. -/
def Idle (s : SchedSys N C L Ch W) (p : Fin N) : Prop :=
  (s.proc p).state = .runnable ∨ (s.proc p).state = .sleeping

theorem Runs.initContext (h : s.Runs c t) (hcode : s.code t = .initContext q :: k) :
    (s.lock (.proc q)).locked = some c := by
  obtain ⟨x, hx, hw⟩ := h.held
  rw [hcode] at hw
  exact (hx.mem _).1 hw.1

theorem Inv.run_at (h : s.Inv) (hon : (s.cpu c).exec = .run t) (hcode : s.code t = k) :
    s.Runs c t ∧ ∃ x, s.Holds c x ∧ Wt t k x :=
  ⟨(h.on c).run hon, hcode ▸ ((h.on c).run hon).held⟩

theorem Inv.of_change (h : s.Inv) (ht : s.Belongs c t) (hc : Change s s' c t)
    (hi : ∀ q k, s.code t = .initContext q :: k → (s.lock (.proc q)).locked = some c) (hself : s'.On c)
    (hproc : ∀ p, (s'.cpu c).proc = some p → (s.cpu c).proc = some p ∨ ∀ c', c' ≠ c → (s.cpu c').proc ≠ some p)
    (hoff : ∀ p, s'.Idle p → (∀ c, (s'.cpu c).proc ≠ some p) → s'.Rests p)
    (hspin : ∀ lk c, (s'.lock lk).cpu = some c → (s'.lock lk).locked = some c) (hfork : s'.Forks) : s'.Inv := by
  refine ⟨fun c' => ?_, h.uniq.step (i := c) (fun c' hne p hp => ?_) hproc, hoff, hspin, hfork⟩
  · rcases eq_or_ne c' c with rfl | hne
    · exact hself
    · exact hc.other_on hne ht h hi
  · rw [hc.cpu _ hne] at hp
    exact hp

theorem Inv.run_step (h : s.Inv) (hon : (s.cpu c).exec = .run t) (hc : Change s s' c t)
    (hback : ∀ p k, s.code t = .clearProc :: k → (s.lock (.proc p)).locked = some c →
      s'.code t = .clearProc :: k ∧ (s'.lock (.proc p)).locked = some c) (hexec : (s'.cpu c).exec = .run t)
    (hproc : (s'.cpu c).proc = (s.cpu c).proc) (hlive : ∀ p, t = .proc p → s.Live p → s'.Live p)
    (hheld : ∃ x, s'.Holds c x ∧ Wt t (s'.code t) x) (hdepth : s'.depth t = (s'.cpu c).noff)
    (hintr : (s'.cpu c).intr = true → (s'.cpu c).noff = 0) (hhead : s'.Head c (s'.code t))
    (hoff : ∀ p, t ≠ .proc p → s'.Idle p → s.Idle p ∨ s'.Rests p)
    (hspin : ∀ lk c, (s'.lock lk).cpu = some c → (s'.lock lk).locked = some c) (hforks : s'.Forks) : s'.Inv := by
  have hr := (h.on c).run hon
  have ht := hr.who.belongs
  have hcpus : ∀ c', (s'.cpu c').proc = (s.cpu c').proc := by
    intro c'
    rcases eq_or_ne c' c with rfl | hne
    · exact hproc
    · rw [hc.cpu _ hne]
  refine h.of_change ht hc (fun q k => hr.initContext) (Runs.on ⟨?_, hheld, hdepth, hintr, hhead⟩ hexec)
    (fun p hp => .inl (hproc.symm.trans hp)) (fun p hidle hno => ?_) hspin hforks
  · rcases hr.who with ⟨waits, live⟩ | hn | ⟨hp, hk, hl, hrests⟩
    · obtain ⟨hcode, hd⟩ := hc.thread (.cpu c) (by rintro ⟨⟩) (by rintro q k ⟨⟩)
      exact .proc ⟨hproc.trans waits.proc, by rw [hcode]; exact waits.code, by rw [hd]; exact waits.depth⟩
        (hlive _ rfl live)
    · exact .idle (hproc.trans hn)
    · obtain ⟨hk', hl'⟩ := hback _ _ hk hl
      refine .back (hproc.trans hp) hk' hl' (hrests.frame (hc.thread _ (by rintro ⟨⟩) fun q k _ hi => ?_))
      cases hk.symm.trans hi
  · have hpt : t ≠ .proc p := by
      rintro rfl
      rcases ht with hc' | ⟨q, hq, hcq⟩
      · cases hc'
      · cases hq
        exact hno c (hproc.trans hcq)
    rcases hoff p hpt hidle with hidle' | hr'
    · refine (h.off p hidle' fun c' hp => hno c' ((hcpus c').trans hp)).frame (hc.thread (.proc p) hpt.symm ?_)
      rintro q k hq hk
      cases hq
      have hused := h.fork.used t p (by rw [hk]; exact List.mem_cons_self)
      rcases hidle' with hp | hp <;> cases hused.symm.trans hp
    · exact hr'

theorem Who.ne_used (h : s.Who c (.proc p)) : (s.proc p).state ≠ .used := by
  cases h with
  | proc _ live => exact live.ne_used

theorem Who.not_used (h : s.Who c t) (p : Fin N) (ht : t = .proc p) : (s.proc p).state ≠ .used := by
  subst ht
  exact h.ne_used

theorem Forks.mono (h : s.Forks) (hthread : ∀ t', t' ≠ t → s'.code t' = s.code t' ∧ s'.depth t' = s.depth t')
    (hnot : ∀ p, t = .proc p → (s.proc p).state ≠ .used) (hsub : (forks (s'.code t)).Sublist (forks (s.code t)))
    (hmade : ∀ np ∈ made (s'.code t), np ∈ made (s.code t))
    (hstate : ∀ t', ∀ np ∈ forks (s'.code t'), (s.proc np).state = .used → (s'.proc np).state = .used) : s'.Forks := by
  have hsubs : ∀ t', (forks (s'.code t')).Sublist (forks (s.code t')) := by
    intro t'
    rcases eq_or_ne t' t with rfl | hne
    · exact hsub
    · rw [(hthread t' hne).1]
  have hmades : ∀ t', ∀ np ∈ made (s'.code t'), np ∈ made (s.code t') := by
    intro t' np hnp
    rcases eq_or_ne t' t with rfl | hne
    · exact hmade np hnp
    · rw [← (hthread t' hne).1]; exact hnp
  refine ⟨fun t' np hnp => ?_, h.uniq.mono fun t' np hnp => (hsubs t').subset hnp, fun t' => (h.nodup t').sublist (hsubs t'),
    fun t' np hnp => ?_⟩
  · exact hstate t' np hnp (h.used t' np ((hsubs t').subset hnp))
  · have hold := hmades t' np hnp
    obtain ⟨hcode, hd⟩ := hthread (.proc np) (by
      rintro rfl
      exact hnot np rfl (h.used t' np (mem_forks_of_made hold)))
    exact (h.rests t' np hold).frame ⟨hcode, hd⟩

theorem Inv.not_proc (h : s.Inv) (hlock : (s.lock (.proc p)).locked = some c) (hs : (s.proc p).state = .runnable)
    (hn : (s.cpu c).proc = none) (c' : C) : (s.cpu c').proc ≠ some p := by
  intro hp
  rcases (h.on c').own hp with hr | hl
  · cases hs.symm.trans hr
  · cases hlock.symm.trans hl
    cases hn.symm.trans hp

theorem Inv.swtch_step {j : Nat} (h : s.Inv) (hon : (s.cpu c).exec = .swtch old new j)
    (hcpu' : ∀ c', c' ≠ c → s'.cpu c' = s.cpu c') (hproc : (s'.cpu c).proc = (s.cpu c).proc) (hcode : s'.code = s.code)
    (hdepth : s'.depth = s.depth) (hlock : s'.lock = s.lock) (hprocs : s'.proc = s.proc)
    (hself : ∀ p, s.Switches c old new p → s'.On c) : s'.Inv := by
  obtain ⟨p, hp⟩ := (h.on c).switch hon
  refine h.of_change (t := .cpu c) (.inl rfl) ⟨hcpu', fun _ _ _ => by rw [hlock], fun _ _ _ _ => by rw [hlock],
    fun _ _ _ => by rw [hcode, hdepth]; exact ⟨rfl, rfl⟩, fun q _ hq => by rw [hprocs]; exact hq, fun q _ => by rw [hprocs]⟩ ?_
    (hself p hp) (fun q hq => .inl (hproc.symm.trans hq)) (fun q hidle hno => ?_) (by rw [hlock]; exact h.spin) ?_
  · intro q k hk
    obtain ⟨k', hk', -⟩ := hp.waits.code
    cases hk'.symm.trans hk
  · unfold Idle at hidle
    rw [hprocs] at hidle
    refine (h.off q hidle fun c' hc' => hno c' ?_).frame (by rw [hcode, hdepth]; exact ⟨rfl, rfl⟩)
    rcases eq_or_ne c' c with rfl | hne
    · rw [hproc]; exact hc'
    · rw [hcpu' c' hne]; exact hc'
  · refine ⟨?_, ?_, ?_, fun t' np hnp => ?_⟩
    · rw [hcode, hprocs]; exact h.fork.used
    · rw [hcode]; exact h.fork.uniq
    · rw [hcode]; exact h.fork.nodup
    · rw [hcode] at hnp
      exact (h.fork.rests t' np hnp).frame (by rw [hcode, hdepth]; exact ⟨rfl, rfl⟩)

theorem Inv.swtch_move {j j' : Nat} {regs : Reg → W} (h : s.Inv) (hon : (s.cpu c).exec = .swtch old new j)
    (hcpu' : ∀ c', c' ≠ c → s'.cpu c' = s.cpu c') (hcpu : s'.cpu c = { s.cpu c with exec := .swtch old new j', regs })
    (hcode : s'.code = s.code) (hdepth : s'.depth = s.depth) (hlock : s'.lock = s.lock) (hprocs : s'.proc = s.proc) :
    s'.Inv := by
  refine h.swtch_step hon hcpu' (by rw [hcpu]) hcode hdepth hlock hprocs fun p hp => ?_
  refine Switches.on (p := p) (j := j') ⟨⟨?_, ?_, ?_⟩, hp.rests.frame (by rw [hcode, hdepth]; exact ⟨rfl, rfl⟩),
    ⟨hp.holds.nodup, ?_, ?_⟩, ?_, ?_⟩ (by rw [hcpu])
  · rw [hcpu]; exact hp.waits.proc
  · rw [hcode]; exact hp.waits.code
  · rw [hdepth]; exact hp.waits.depth
  · rw [hlock]; exact hp.holds.mem
  · rw [hcpu]; exact hp.holds.noff
  · rw [hcpu]; exact hp.intr
  · rw [hprocs]; exact hp.way

theorem Forks.context (h : s.Forks) (hcode : s.code t = .initContext q :: k)
    (hnot : ∀ p, t = .proc p → (s.proc p).state ≠ .used) (hproc : s'.proc = s.proc)
    (ht : s'.code t = .leaf :: .copy q :: k) (hnew : s'.Rests q) (hq : s'.code (.proc q) = forkretBody q)
    (hother : ∀ t', t' ≠ t → t' ≠ .proc q → s'.code t' = s.code t' ∧ s'.depth t' = s.depth t') : s'.Forks := by
  have hmem : q ∈ forks (s.code t) := by
    rw [hcode]
    exact List.mem_cons_self
  have hforks : ∀ t', (forks (s'.code t')).Sublist (forks (s.code t')) := by
    intro t'
    rcases eq_or_ne t' t with rfl | hne
    · rw [ht, hcode]; exact List.Sublist.refl _
    rcases eq_or_ne t' (.proc q) with rfl | hne'
    · rw [hq]; exact List.nil_sublist _
    · rw [(hother t' hne hne').1]
  have hrests : ∀ t' np, np ∈ made (s.code t') → np ≠ q → s'.Rests np := by
    intro t' np hnp hne
    refine (h.rests t' np hnp).frame (hother _ ?_ fun he => hne (Agent.proc.inj he))
    rintro rfl
    exact hnot np rfl (h.used t' np (mem_forks_of_made hnp))
  refine ⟨fun t' np hnp => ?_, h.uniq.mono fun t' np hnp => (hforks t').subset hnp, fun t' => (h.nodup t').sublist (hforks t'),
    fun t' np hnp => ?_⟩
  · rw [hproc]; exact h.used t' np ((hforks t').subset hnp)
  rcases eq_or_ne t' t with rfl | hne
  · rw [ht] at hnp
    rcases List.mem_cons.1 hnp with rfl | hnp
    · exact hnew
    have hnd := h.nodup t'
    rw [hcode] at hnd
    exact hrests t' np (by rw [hcode]; exact hnp) fun he => (List.nodup_cons.1 hnd).1 (he ▸ mem_forks_of_made hnp)
  rcases eq_or_ne t' (.proc q) with rfl | hne'
  · rw [hq] at hnp; cases hnp
  · rw [(hother t' hne hne').1] at hnp
    exact hrests t' np hnp fun he => hne (h.uniq _ _ _ (he ▸ mem_forks_of_made hnp) hmem)

theorem Inv.quiet_step (h : s.Inv) (hon : (s.cpu c).exec = .run t)
    (hback : ∀ p k, s.code t = .clearProc :: k → (s.lock (.proc p)).locked = some c → s'.code t = .clearProc :: k)
    (hcpu : ∀ c', c' ≠ c → s'.cpu c' = s.cpu c')
    (hthread : ∀ t', t' ≠ t → s'.code t' = s.code t' ∧ s'.depth t' = s.depth t') (hlock : s'.lock = s.lock)
    (hstate : ∀ q, (s'.proc q).state = (s.proc q).state) (hexec : (s'.cpu c).exec = .run t)
    (hproc : (s'.cpu c).proc = (s.cpu c).proc) (hparked : ∀ p, t = .proc p → Parked (s.code t) → Parked (s'.code t))
    (hheld : ∃ x, s'.Holds c x ∧ Wt t (s'.code t) x) (hdepth : s.depth t = (s.cpu c).noff → s'.depth t = (s'.cpu c).noff)
    (hintr : (s'.cpu c).intr = true → (s'.cpu c).noff = 0) (hhead : s'.Head c (s'.code t))
    (hforks : (forks (s'.code t)).Sublist (forks (s.code t))) (hmade : ∀ np ∈ made (s'.code t), np ∈ made (s.code t)) :
    s'.Inv := by
  have hr := (h.on c).run hon
  refine h.run_step hon ⟨hcpu, fun _ _ _ => by rw [hlock], fun _ _ _ _ => by rw [hlock], fun t' hne _ => hthread t' hne,
    fun q _ hq => (hstate q).trans hq, fun q _ => hstate q⟩ (fun p k hk hl => ⟨hback p k hk hl, by rw [hlock]; exact hl⟩) hexec hproc ?_
    hheld (hdepth hr.depth) hintr hhead (fun p _ hidle => .inl ?_) (by rw [hlock]; exact h.spin)
    (h.fork.mono hthread hr.who.not_used hforks hmade fun _ np _ hu => (hstate np).trans hu)
  · rintro p rfl live
    unfold Live at live ⊢
    rw [hstate p]
    exact live.imp_right fun hk => ⟨hparked p rfl hk.1, hk.2⟩
  · unfold Idle at hidle ⊢
    rwa [hstate p] at hidle

theorem Init.inv (h : s.Init) : s.Inv := by
  have hforks : ∀ t, forks (s.code t) = [] ∧ made (s.code t) = [] := by
    intro t
    cases t with
    | cpu c =>
      rw [h.code c]
      exact ⟨rfl, rfl⟩
    | proc p =>
      rcases eq_or_ne p s.initproc with rfl | hne
      · rw [h.initCode]
        exact ⟨rfl, rfl⟩
      · rw [h.off p hne]
        exact ⟨rfl, rfl⟩
  refine ⟨fun c => ?_, fun c _ p hp => ?_, fun p hidle _ => ?_, fun lk c hl => ?_, ⟨?_, ?_, ?_, ?_⟩⟩
  · refine Runs.on ⟨.idle (h.proc c), ⟨⟨[], 0⟩, ⟨List.nodup_nil, fun lk => ?_, h.noff c⟩, ?_⟩, ?_, fun _ => h.noff c, ?_⟩ (h.exec c)
    · rw [h.lock lk]; simp
    · rw [h.code c]; exact ⟨⟨⟨c, rfl⟩, rfl⟩, calm_nil, trivial⟩
    · rw [h.depth c, h.noff c]
    · rw [h.code c]; exact trivial
  · cases (h.proc c).symm.trans hp
  · have hp : p = s.initproc := by
      by_contra hne
      rcases hidle with hs | hs <;> cases (h.unused p hne).symm.trans hs
    subst hp
    exact ⟨.inr h.initCode, h.initDepth⟩
  · rw [h.lock lk] at hl; cases hl
  · intro t np hnp
    rw [(hforks t).1] at hnp
    cases hnp
  · intro t _ np hnp
    simp only [(hforks t).1] at hnp
    cases hnp
  · intro t
    rw [(hforks t).1]
    exact List.nodup_nil
  · intro t np hnp
    rw [(hforks t).2] at hnp
    cases hnp

end

end SchedSys

end Xv6
