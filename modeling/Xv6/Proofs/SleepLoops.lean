import Xv6.Proofs.ProcThread
import Xv6.SleepLoops

/-!
# Killed and asleep

`kill` makes a sleeping process `RUNNABLE`, and cannot get at one that holds its own `p->lock` on the way to
`SLEEPING`. What is left is the window between the test of `killed` and `acquire(&p->lock)` in `sleep`: a process that is
killed there goes to sleep. In runs without that, no killed process sleeps in one of the calls.
-/

namespace Xv6

open Function

def ProcPc.dozing : ProcPc → Bool
  | .waitSleep _ | .waitSleepRelease _ | .waitSleepSched _ => true
  | _ => false

namespace LoopPc

def dozing : LoopPc → Bool
  | .wakeup .. | .sleepAcquire _ | .sleepRelease _ | .sleepSched _ => true
  | _ => false

def locked : LoopPc → Bool
  | .sleepRelease _ | .sleepSched _ => true
  | _ => false

end LoopPc

namespace ProcSys

variable {s s' : ProcSys} {p q i : Nat} {k : ProcPc} {f : Proc → Proc}

theorem Thread.of_syscall (hs : ProcPc.syscall.StateOk (s.proc p).state)
    (hk : (s.proc p).killed = true → s.hit p = true) : Thread s p .syscall := by
  refine ⟨fun e => ?_, fun i e => ?_, hs, fun np e => ?_, fun st e => ?_, fun j e => ?_, fun _ => hk, fun n e => ?_,
    fun addr e => ?_⟩ <;> cases e

/-- While `q` holds its own lock, nobody sets its `killed`, and only `q` releases the lock. -/
theorem Step.locked (ht : Threads s) (h : Step s s') (hl : (s.proc q).lock = some q) :
    (s'.proc q).killed = (s.proc q).killed ∧
      ((s'.proc q).lock = some q ∨ s.pc q = .exitSched ∨ ∃ addr, s.pc q = .waitSleepSched addr) := by
  have hfree : ∀ {i}, (s.proc i).lock = none → q ≠ i := by
    rintro i hi rfl
    cases hl.symm.trans hi
  have hfork : ∀ {p np}, s.At p (.fork np) → q ≠ np := by
    rintro p np hat rfl
    cases hl.symm.trans ((ht.at_ hat).lock q rfl)
    cases hat.2.1.symm.trans ((ht.at_ hat).making q rfl)
  have hsame : s'.proc q = s.proc q → (s'.proc q).killed = (s.proc q).killed ∧
      ((s'.proc q).lock = some q ∨ s.pc q = .exitSched ∨ ∃ addr, s.pc q = .waitSleepSched addr) := by
    intro hq
    exact ⟨congrArg Proc.killed hq, .inl ((congrArg Proc.lock hq).trans hl)⟩
  -- a write of `parent` needs no lock
  have hparent : ∀ i y, (((s.modify i fun x => { x with parent := y }).proc q).killed = (s.proc q).killed) ∧
      ((s.modify i fun x => { x with parent := y }).proc q).lock = some q := by
    intro i y
    rcases eq_or_ne q i with rfl | hne
    · rw [modify_self]
      exact ⟨rfl, hl⟩
    · rw [modify_of_ne hne]
      exact ⟨rfl, hl⟩
  cases h with
  | look | exitKilled | sysExit | sysWait | memory | exitAcquire | exitRelease | waitAcquire | waitSleepRelease | waitRet =>
    exact hsame rfl
  | run _ lock | yield _ _ lock | sleep _ _ lock | wakeup _ _ lock | fault _ lock | allocFound _ _ lock
  | forkRunnable _ lock | reparentWakeup _ _ _ lock | exitWakeup _ _ _ lock | exitZombie _ lock | waitReap _ _ _ lock
  | waitSleepAcquire _ lock | killFound _ _ lock => exact hsame (update_of_ne (hfree lock) ..)
  | forkFail at_ | forkRelease _ at_ => exact hsame (update_of_ne (hfork at_) ..)
  | forkParent | reparentChild => exact ⟨(hparent ..).1, .inl (hparent ..).2⟩
  | exitSched hpc =>
    rename_i p
    rcases eq_or_ne q p with rfl | hne
    · refine ⟨?_, .inr (.inl hpc)⟩
      rw [ProcSys.goto, modify_self]
    · exact hsame (update_of_ne hne ..)
  | waitSleepSched at_ =>
    rename_i p addr
    rcases eq_or_ne q p with rfl | hne
    · refine ⟨?_, .inr (.inr ⟨addr, at_.2.2⟩)⟩
      rw [ProcSys.goto, modify_self]
    · exact hsame (update_of_ne hne ..)

theorem Step.dozing (h : Step s s') (hq : (s'.pc q).dozing = true) :
    (s.pc q).dozing = true ∨ (s'.proc q).killed = false := by
  have hgoto : ∀ {p k} {x : ProcSys}, (k.dozing = true → (x.pc p).dozing = true) →
      ((x.goto p k).pc q).dozing = true → (x.pc q).dozing = true := by
    intro p k x hk hd
    rcases eq_or_ne q p with rfl | hne
    · rw [goto_self] at hd
      exact hk hd
    · rwa [goto_of_ne hne] at hd
  cases h with
  | look at_ hl =>
    rename_i p k k'
    rcases eq_or_ne q p with rfl | hne
    · rw [goto_self] at hq
      cases hl with
      | waitSleep _ hk => exact .inr hk
      | _ => cases hq
    · rw [goto_of_ne hne] at hq
      exact .inl hq
  | run | yield | sleep | wakeup | memory => exact .inl hq
  | fault | exitKilled | sysExit | sysWait | allocFound | forkFail | forkRelease | forkParent | exitAcquire | reparentChild
  | reparentWakeup | exitWakeup | exitZombie | exitRelease | exitSched | waitAcquire | waitReap | waitSleepSched | waitRet
  | killFound => exact .inl (hgoto (fun hk => by cases hk) hq)
  | forkRunnable => exact .inl (hgoto (fun hk => by cases hk) (hgoto (fun hk => by cases hk) hq))
  | waitSleepAcquire at_ | waitSleepRelease at_ =>
    refine .inl (hgoto (fun _ => ?_) hq)
    exact congrArg ProcPc.dozing at_.2.2

/-- A process that sleeps slept before, or has gone to sleep itself. -/
theorem Step.asleep (ht : Threads s) (h : Step s s') (hq : (s'.proc q).state = .sleeping) :
    ((s.proc q).state = .sleeping ∧ s'.pc q = s.pc q ∧ (s'.proc q).killed = (s.proc q).killed) ∨
    (s.proc q).state = .running ∧ ((s'.pc q).inWait = false ∨
      (s.pc q).dozing = true ∧ (s'.proc q).killed = (s.proc q).killed) := by
  have hrun : ∀ {p k}, s.At p k → (s.proc q).state = .sleeping → q ≠ p := by
    rintro p k hat hs rfl
    cases hat.2.1.symm.trans hs
  have hzombie : ∀ {p}, s.pc p = .exitRelease ∨ s.pc p = .exitSched → (s.proc q).state = .sleeping → q ≠ p := by
    rintro p hpc hs rfl
    have hst := (ht.thread q).state
    rcases hpc with hpc | hpc <;> rw [hpc] at hst <;> cases hst.symm.trans hs
  have hsame : s'.proc q = s.proc q → ((s.proc q).state = .sleeping → s'.pc q = s.pc q) →
      (s.proc q).state = .sleeping ∧ s'.pc q = s.pc q ∧ (s'.proc q).killed = (s.proc q).killed := by
    intro hproc hpc
    rw [hproc] at hq ⊢
    exact ⟨hq, hpc hq, rfl⟩
  -- slot `i` becomes `x`, and is not put to sleep
  have hmod : ∀ {i x}, s'.proc = update s.proc i x → ((s.proc q).state = .sleeping → s'.pc q = s.pc q) →
      (x.state = .sleeping → (s.proc i).state = .sleeping ∧ x.killed = (s.proc i).killed) →
      (s.proc q).state = .sleeping ∧ s'.pc q = s.pc q ∧ (s'.proc q).killed = (s.proc q).killed := by
    intro i x hproc hpc hx
    rcases eq_or_ne q i with rfl | hne
    · have hself : s'.proc q = x := by rw [hproc, update_self]
      rw [hself] at hq ⊢
      exact ⟨(hx hq).1, hpc (hx hq).1, (hx hq).2⟩
    · exact hsame (by rw [hproc, update_of_ne hne]) hpc
  have hwake : ∀ {c i}, (Proc.wakeup c (s.proc i)).state = .sleeping →
      (s.proc i).state = .sleeping ∧ (Proc.wakeup c (s.proc i)).killed = (s.proc i).killed := by
    intro c i hs
    unfold Proc.wakeup at hs ⊢
    split at hs
    · cases hs
    · rw [if_neg ‹_›]
      exact ⟨hs, rfl⟩
  cases h with
  | look at_ | exitKilled at_ | sysExit _ at_ | sysWait _ at_ | exitAcquire at_ | waitAcquire at_ | waitSleepRelease at_
  | waitRet at_ => exact .inl (hsame rfl fun hs => update_of_ne (hrun at_ hs) ..)
  | memory => exact .inl (hsame rfl fun _ => rfl)
  | exitRelease hpc => exact .inl (hsame rfl fun hs => update_of_ne (hzombie (.inl hpc) hs) ..)
  | exitSched hpc =>
    exact .inl (hmod rfl (fun hs => update_of_ne (hzombie (.inr hpc) hs) ..) fun hs => ⟨hs, rfl⟩)
  | run | yield => exact .inl (hmod rfl (fun _ => rfl) fun hs => by cases hs)
  | sleep at_ hk hlock =>
    rename_i p c k
    rcases eq_or_ne q p with rfl | hne
    · refine .inr ⟨at_.2.1, .inl ?_⟩
      change (s.pc q).inWait = false
      rw [at_.2.2]
      rcases hk with rfl | ⟨status, rfl⟩ <;> rfl
    · exact .inl (hsame (update_of_ne hne ..) fun _ => rfl)
  | wakeup => exact .inl (hmod rfl (fun _ => rfl) hwake)
  | reparentWakeup at_ | exitWakeup at_ =>
    exact .inl (hmod rfl (fun hs => update_of_ne (hrun at_ hs) ..) hwake)
  | allocFound at_ | forkFail at_ | exitZombie at_ | waitReap at_ =>
    exact .inl (hmod rfl (fun hs => update_of_ne (hrun at_ hs) ..) fun hs => by cases hs)
  | fault at_ =>
    refine .inl (hmod rfl (fun hs => update_of_ne (hrun at_ hs) ..) fun hs => ?_)
    cases at_.2.1.symm.trans hs
  | forkRelease _ at_ | forkParent at_ | reparentChild at_ | waitSleepAcquire at_ =>
    exact .inl (hmod rfl (fun hs => update_of_ne (hrun at_ hs) ..) fun hs => ⟨hs, rfl⟩)
  | forkRunnable at_ hlock =>
    rename_i p np
    refine .inl (hmod rfl (fun hs => ?_) fun hs => by cases hs)
    have hnp : q ≠ np := by
      rintro rfl
      cases hs.symm.trans ((ht.at_ at_).making q rfl)
    exact (update_of_ne hnp ..).trans (update_of_ne (hrun at_ hs) ..)
  | waitSleepSched at_ =>
    rename_i p addr
    rcases eq_or_ne q p with rfl | hne
    · refine .inr ⟨at_.2.1, .inr ⟨congrArg ProcPc.dozing at_.2.2, ?_⟩⟩
      rw [ProcSys.goto, modify_self]
    · exact .inl (hsame (update_of_ne hne ..) fun _ => update_of_ne hne ..)
  | killFound at_ =>
    refine .inl (hmod rfl (fun hs => update_of_ne (hrun at_ hs) ..) fun hs => ?_)
    unfold Proc.kill at hs
    dsimp only at hs
    split at hs
    · cases hs
    · exact absurd hs ‹_›

theorem killAt_self {pid : CInt} : (s.killAt p pid i).proc i = (s.proc i).kill := update_self (f := s.proc) ..

theorem killAt_of_ne {pid : CInt} (h : q ≠ i) : (s.killAt p pid i).proc q = s.proc q := update_of_ne h ..

theorem killAt_pc {pid : CInt} (h : q ≠ p) : (s.killAt p pid i).pc q = s.pc q := update_of_ne h ..

end ProcSys

namespace LoopSys

variable {s s' : LoopSys} {p q : Nat} {k k' : LoopPc} {c : LoopCall}

/-- What holds in a run in which `kill` hits nobody in its window. -/
structure Inv (s : LoopSys) : Prop where
  threads : s.sys.Threads
  pc : ∀ p, s.pc p ≠ .out → s.sys.pc p = .syscall
  locked : ∀ p, (s.pc p).locked = true → (s.sys.proc p).lock = some p
  dozing : ∀ p, (s.pc p).dozing = true ∨ (s.sys.pc p).dozing = true → (s.sys.proc p).killed = false
  asleep : ∀ p, s.InCall p → (s.sys.proc p).state = .sleeping → (s.sys.proc p).killed = false

theorem Init.inv (h : s.Init) : s.Inv := by
  obtain ⟨w, hw⟩ := h.sys
  have hpc : ∀ p, (s.sys.pc p).dozing = false ∧ (s.sys.pc p).inWait = false := by
    intro p
    rw [hw]
    unfold ProcSys.boot
    dsimp only
    split <;> exact ⟨rfl, rfl⟩
  refine ⟨hw ▸ ProcSys.Threads.boot w, fun p hp => absurd (h.pc p) hp, fun p hp => ?_, fun p hp => ?_, fun p hp => ?_⟩
  · rw [h.pc p] at hp
    cases hp
  · rw [h.pc p, (hpc p).1] at hp
    rcases hp with hp | hp <;> cases hp
  · rcases hp with hp | hp
    · exact absurd (h.pc p) hp
    · cases (hpc p).2.symm.trans hp

theorem Inv.window_or_locked (h : s.Inv) (hd : (s.pc p).dozing = true ∨ (s.sys.pc p).dozing = true) :
    s.Window p ∨ (s.sys.proc p).lock = some p := by
  rcases hd with hd | hd
  · cases hk : s.pc p <;> rw [hk] at hd <;> try cases hd
    · exact .inl (.inl ⟨_, _, _, _, hk⟩)
    · exact .inl (.inr (.inl ⟨_, hk⟩))
    · exact .inr (h.locked p (congrArg LoopPc.locked hk))
    · exact .inr (h.locked p (congrArg LoopPc.locked hk))
  · have ht := h.threads.thread p
    cases hk : s.sys.pc p <;> rw [hk] at hd ht <;> try cases hd
    · exact .inl (.inr (.inr ⟨_, hk⟩))
    · exact .inr (ht.lock p rfl)
    · exact .inr (ht.lock p rfl)

theorem Inv.table {sys : ProcSys} (h : s.Inv) (hst : s.sys.Step sys)
    (stays : ∀ q, s.pc q ≠ .out → Stays s.sys sys q (s.pc q)) (hk : ¬ s.KillsLate { s with sys }) :
    Inv { s with sys } := by
  have hkilled : ∀ p, (s.pc p).dozing = true ∨ (s.sys.pc p).dozing = true → (sys.proc p).killed = false := by
    intro p hd
    have hp := h.dozing p hd
    rcases h.window_or_locked hd with hw | hl
    · rw [← Bool.not_eq_true]
      exact fun ht => hk ⟨p, hw, hp, ht⟩
    · exact (hst.locked h.threads hl).1.trans hp
  refine ⟨h.threads.step hst, fun p hp => (stays p hp).pc.trans (h.pc p hp), fun p hp => ?_, fun p hp => ?_,
    fun p hp hs => ?_⟩
  · have hsys := h.pc p (by rintro e; rw [e] at hp; cases hp)
    rcases (hst.locked h.threads (h.locked p hp)).2 with hl | hl | ⟨addr, hl⟩
    · exact hl
    · cases hsys.symm.trans hl
    · cases hsys.symm.trans hl
  · rcases hp with hp | hp
    · exact hkilled p (.inl hp)
    · exact (hst.dozing hp).elim (fun hd => hkilled p (.inr hd)) id
  · rcases hst.asleep h.threads hs with ⟨hs, hpc, hkp⟩ | ⟨hr, hw⟩
    · refine hkp.trans (h.asleep p (hp.imp_right fun hw => ?_) hs)
      exact (congrArg ProcPc.inWait hpc).symm.trans hw
    · rcases hp with hp | hp
      · -- who runs in one of the four calls is not put to sleep by the process table
        rcases (stays p hp).state hr with hr | ⟨-, hr⟩ <;> cases hr.symm.trans hs
      · rcases hw with hw | ⟨hd, -⟩
        · cases hw.symm.trans hp
        · exact hkilled p (.inr hd)

theorem Inv.act (h : s.Inv) (hat : s.At p k) (hpc : s'.pc = update s.pc p k') (ht : s'.sys.Threads)
    (hsys : s'.sys.pc = s.sys.pc) (hkilled : ∀ q, (s'.sys.proc q).killed = (s.sys.proc q).killed)
    (hother : ∀ q, q ≠ p → ((s.sys.proc q).lock = some q → (s'.sys.proc q).lock = some q) ∧
      ((s'.sys.proc q).state = .sleeping → (s.sys.proc q).state = .sleeping))
    (hl : k'.locked = true → (s'.sys.proc p).lock = some p)
    (hd : k'.dozing = true ∨ (s'.sys.proc p).state = .sleeping → (s.sys.proc p).killed = false) : s'.Inv := by
  have hself : s'.pc p = k' := by rw [hpc, update_self]
  have hne : ∀ q, q ≠ p → s'.pc q = s.pc q := fun q hq => by rw [hpc, update_of_ne hq]
  obtain ⟨⟨-, -, hsc⟩, hk⟩ := hat
  refine ⟨ht, fun q hq => ?_, fun q hq => ?_, fun q hq => ?_, fun q hq hs => ?_⟩
  · rw [hsys]
    rcases eq_or_ne q p with rfl | hqp
    · exact hsc
    · exact h.pc q (hne q hqp ▸ hq)
  · rcases eq_or_ne q p with rfl | hqp
    · exact hl (hself ▸ hq)
    · exact (hother q hqp).1 (h.locked q (hne q hqp ▸ hq))
  · rw [hkilled]
    rw [hsys] at hq
    rcases eq_or_ne q p with rfl | hqp
    · rw [hself, hsc] at hq
      exact hd (.inl (hq.resolve_right Bool.false_ne_true))
    · exact h.dozing q (hne q hqp ▸ hq)
  · rw [hkilled]
    rcases eq_or_ne q p with rfl | hqp
    · exact hd (.inr hs)
    · refine h.asleep q ?_ ((hother q hqp).2 hs)
      unfold InCall at hq ⊢
      rwa [hne q hqp, hsys] at hq

theorem Inv.goto (h : s.Inv) (hat : s.At p k) (hsys : s'.sys = s.sys) (hpc : s'.pc = update s.pc p k')
    (hl : k'.locked = true → k.locked = true)
    (hd : k'.dozing = true → k.dozing = true ∨ (s.sys.proc p).killed = false) : s'.Inv := by
  refine h.act hat hpc (hsys ▸ h.threads) (by rw [hsys]) (fun q => by rw [hsys]) (fun q _ => by rw [hsys]; exact ⟨id, id⟩)
    (fun hk' => ?_) fun hk' => ?_
  · rw [hsys]
    exact h.locked p (hat.2 ▸ hl hk')
  · rcases hk' with hk' | hs
    · exact (hd hk').elim (fun hdk => h.dozing p (.inl (hat.2 ▸ hdk))) id
    · rw [hsys, hat.1.2.1] at hs
      cases hs

theorem Inv.wakeup {chan : Option Nat} {j : Nat} (h : s.Inv) (hat : s.At p k) (hj : j ≠ p) (hl : k'.locked = false)
    (hd : k'.dozing = true → k.dozing = true) : Inv ((s.modify j (Proc.wakeup chan)).goto p k') := by
  have hproc : ∀ q, ((s.sys.modify j (Proc.wakeup chan)).proc q).killed = (s.sys.proc q).killed ∧
      ((s.sys.modify j (Proc.wakeup chan)).proc q).lock = (s.sys.proc q).lock ∧
      (((s.sys.modify j (Proc.wakeup chan)).proc q).state = .sleeping → (s.sys.proc q).state = .sleeping) := by
    intro q
    rcases eq_or_ne q j with rfl | hne
    · rw [ProcSys.modify_self]
      unfold Proc.wakeup
      split
      · exact ⟨rfl, rfl, fun hs => by cases hs⟩
      · exact ⟨rfl, rfl, id⟩
    · rw [ProcSys.modify_of_ne hne]
      exact ⟨rfl, rfl, id⟩
  refine h.act hat rfl (h.threads.rely fun _ => .wakeup chan) rfl (fun q => (hproc q).1)
    (fun q _ => ⟨(hproc q).2.1.trans, (hproc q).2.2⟩) (fun hk' => by cases hl.symm.trans hk') fun hk' => ?_
  rcases hk' with hk' | hs
  · exact h.dozing p (.inl (hat.2 ▸ hd hk'))
  · cases hat.1.2.1.symm.trans ((hproc p).2.2 hs)

theorem Inv.own {f : Proc → Proc} (h : s.Inv) (hat : s.At p k) (hk : k.dozing = true)
    (hlock : ∀ q, (s.sys.proc p).lock = some q → (f (s.sys.proc p)).lock = some q ∨ q = p)
    (hparent : (f (s.sys.proc p)).parent = (s.sys.proc p).parent)
    (hkilled : (f (s.sys.proc p)).killed = (s.sys.proc p).killed)
    (hstate : (f (s.sys.proc p)).state = .running ∨ (f (s.sys.proc p)).state = .sleeping)
    (hl : k'.locked = true → (f (s.sys.proc p)).lock = some p) : Inv ((s.modify p f).goto p k') := by
  have ht := h.threads.at_ hat.1
  have hself : (s.sys.modify p f).proc p = f (s.sys.proc p) := ProcSys.modify_self
  have hne : ∀ q, q ≠ p → (s.sys.modify p f).proc q = s.sys.proc q := fun q hq => ProcSys.modify_of_ne hq
  refine h.act hat rfl ?_ rfl (fun q => ?_) (fun q hq => ?_) (fun hk' => ?_) fun _ => h.dozing p (.inl (hat.2 ▸ hk))
  · refine h.threads.act (fun q hq => h.threads.own hat.1.2.1 hlock hparent hq) hat.1.2.2
      (.of_syscall ?_ fun e => ?_) fun np e => by cases e
    · change ProcPc.syscall.StateOk ((s.sys.modify p f).proc p).state
      rw [hself]
      exact .of_preemptible rfl (hstate.imp_right .inr)
    · refine ht.hit rfl (hkilled.symm.trans ?_)
      rwa [← hself]
  · rcases eq_or_ne q p with rfl | hq
    · exact (congrArg Proc.killed hself).trans hkilled
    · exact congrArg Proc.killed (hne q hq)
  · change ((s.sys.proc q).lock = some q → ((s.sys.modify p f).proc q).lock = some q) ∧
      (((s.sys.modify p f).proc q).state = .sleeping → (s.sys.proc q).state = .sleeping)
    rw [hne q hq]
    exact ⟨id, id⟩
  · exact (congrArg Proc.lock hself).trans (hl hk')

theorem Inv.step (h : s.Inv) (hst : Step s s') (hk : ¬ s.KillsLate s') : s'.Inv := by
  cases hst with
  | table hst stays => exact h.table hst stays hk
  | call at_ | acquire at_ | killed at_ | writeEnd at_ | writeClosed at_ | writeBreak at_ | writeByte _ at_ | readStart at_
  | readByte at_ | readBreak at_ | readEnd at_ | consoleEnd at_ | consoleEof at_ | consoleBreak at_ | consoleByte at_
  | ticksEnd at_ | sleepReturn at_ | finishSelf at_ | finishDone at_ | ret at_ =>
    exact h.goto at_ rfl rfl (fun e => by cases e) fun e => by cases e
  | writeFull at_ _ hf | readEmpty at_ _ hf | consoleEmpty at_ _ hf | ticksSleep at_ _ hf =>
    exact h.goto at_ rfl rfl (fun e => by cases e) fun _ => .inr hf.2
  | wakeupSelf at_ | wakeupDone at_ => exact h.goto at_ rfl rfl (fun e => by cases e) fun _ => .inl rfl
  | sleepRelease at_ => exact h.goto at_ rfl rfl (fun _ => rfl) fun _ => .inl rfl
  | wakeupNext at_ _ ne => exact h.wakeup at_ ne rfl fun _ => rfl
  | finishNext at_ _ ne => exact h.wakeup at_ ne rfl fun e => by cases e
  | sleepAcquire at_ free =>
    refine h.own at_ rfl (fun q e => ?_) rfl rfl (.inl at_.1.2.1) fun _ => rfl
    cases free.symm.trans e
  | sleepSched at_ =>
    have hl := h.locked _ (congrArg LoopPc.locked at_.2)
    refine h.own at_ rfl (fun q e => .inr ?_) rfl rfl (.inr rfl) fun e => by cases e
    exact (Option.some.inj (hl.symm.trans e)).symm
  | pipeclose | consoleintr | clockintr => exact ⟨h.threads, h.pc, h.locked, h.dozing, h.asleep⟩

/-- In a run in which `kill` hits nobody between the test of `killed` and the `acquire(&p->lock)` of `sleep`, no
killed process is `SLEEPING` in `pipewrite`, `piperead`, `consoleread`, `sys_sleep` or `wait`. -/
theorem no_lost_kill (h : Trans.Reach Init (fun s s' => Step s s' ∧ ¬ s.KillsLate s') s) :
    ∀ p, s.InCall p → (s.sys.proc p).killed = true → (s.sys.proc p).state ≠ .sleeping := by
  have hinv : s.Inv := by
    refine Trans.Reach.inv (P := Inv) (fun _ hi => hi.inv) ?_ h
    rintro s s' hinv ⟨hst, hk⟩
    exact hinv.step hst hk
  intro p hp hkilled hs
  cases hkilled.symm.trans (hinv.asleep p hp hs)

theorem not_killsLate (h : ∀ p, (s'.sys.proc p).killed = (s.sys.proc p).killed) : ¬ s.KillsLate s' := by
  rintro ⟨p, -, hf, ht⟩
  cases hf.symm.trans ((h p).symm.trans ht)

theorem not_killsLate_update {i : Nat} {x : Proc} (h : s'.sys.proc = update s.sys.proc i x)
    (hx : x.killed = (s.sys.proc i).killed) : ¬ s.KillsLate s' := by
  refine not_killsLate fun p => ?_
  rw [h]
  rcases eq_or_ne p i with rfl | hne
  · rw [update_self, hx]
  · rw [update_of_ne hne]

/-- The first process has a child, which calls `piperead` on an empty pipe and gets into its window; the first process
has come to the child in `kill`. -/
theorem window_reached : ∃ s, Trans.Reach Init (fun s s' => Step s s' ∧ ¬ s.KillsLate s') s ∧ s.sys.At 0 (.kill 2 1) ∧
    s.At 1 (.sleepAcquire (.piperead 0 1)) ∧ s.sys.proc 1 = ⟨none, .running, none, false, 0, 2, some 0⟩ ∧
    ∀ q, s.pc q ≠ .out → q = 1 := by
  let s₀ : LoopSys :=
    { sys := .boot fun _ _ => true
      pipe := fun _ => ⟨fun _ => 0, 0, 0, true, true⟩
      cons := ⟨fun _ => 0, 0, 0, 0⟩
      ticks := 0
      lock := fun _ => none
      pc := fun _ => .out }
  have h0 : Trans.Reach Init (fun s s' => Step s s' ∧ ¬ s.KillsLate s') s₀ := .of_init
    ⟨⟨_, rfl⟩, fun _ => rfl, fun _ => rfl, fun _ => rfl, fun _ => rfl, fun _ => rfl, fun _ => rfl⟩
  have hat : ∀ {s : ProcSys} {p k}, p < NPROC → (s.proc p).state = .running → s.pc p = k → s.At p k :=
    fun h1 h2 h3 => ⟨h1, h2, h3⟩
  have h1 := h0.tail ⟨.table (.run (i := 0) (by decide) rfl rfl) fun q hq => absurd rfl hq, not_killsLate_update rfl rfl⟩
  have h2 := h1.tail ⟨.table (.look (p := 0) (hat (by decide) rfl rfl) (.ecall rfl rfl)) fun q hq => absurd rfl hq,
    not_killsLate fun _ => rfl⟩
  have h3 := h2.tail ⟨.table (.look (p := 0) (hat (by decide) rfl rfl) .sysFork) fun q hq => absurd rfl hq,
    not_killsLate fun _ => rfl⟩
  have h4 := h3.tail ⟨.table (.look (p := 0) (hat (by decide) rfl rfl) (.allocNext (by decide) rfl (by decide)))
    fun q hq => absurd rfl hq, not_killsLate fun _ => rfl⟩
  have h5 := h4.tail ⟨.table (.allocFound (p := 0) (i := 1) (hat (by decide) rfl rfl) (by decide) rfl rfl)
    fun q hq => absurd rfl hq, not_killsLate_update rfl rfl⟩
  have h6 := h5.tail ⟨.table (.forkRelease (p := 0) (fun _ => true) (hat (k := .fork 1) (by decide) rfl rfl))
    fun q hq => absurd rfl hq, not_killsLate_update rfl rfl⟩
  have h7 := h6.tail ⟨.table (.forkParent (p := 0) (hat (k := .forkParent 1) (by decide) rfl rfl) rfl)
    fun q hq => absurd rfl hq, not_killsLate_update rfl rfl⟩
  have h8 := h7.tail ⟨.table (.forkRunnable (p := 0) (hat (k := .forkRunnable 1) (by decide) rfl rfl) rfl)
    fun q hq => absurd rfl hq, not_killsLate_update rfl rfl⟩
  have h9 := h8.tail ⟨.table (.look (p := 0) (hat (by decide) rfl rfl) (.usertrapret rfl rfl)) fun q hq => absurd rfl hq,
    not_killsLate fun _ => rfl⟩
  have h10 := h9.tail ⟨.table (.look (p := 0) (hat (by decide) rfl rfl) (.ecall rfl rfl)) fun q hq => absurd rfl hq,
    not_killsLate fun _ => rfl⟩
  have h11 := h10.tail ⟨.table (.look (p := 0) (hat (by decide) rfl rfl) (.sysKill 2)) fun q hq => absurd rfl hq,
    not_killsLate fun _ => rfl⟩
  have h12 := h11.tail ⟨.table (.look (p := 0) (hat (by decide) rfl rfl) (.killNext (by decide) rfl (by decide)))
    fun q hq => absurd rfl hq, not_killsLate fun _ => rfl⟩
  have h13 := h12.tail ⟨.table (.run (i := 1) (by decide) rfl rfl) fun q hq => absurd rfl hq, not_killsLate_update rfl rfl⟩
  have h14 := h13.tail ⟨.table (.look (p := 1) (hat (by decide) rfl rfl) (.ecall rfl rfl)) fun q hq => absurd rfl hq,
    not_killsLate fun _ => rfl⟩
  have h15 := h14.tail ⟨.call (p := 1) ⟨hat (by decide) rfl rfl, rfl⟩ (.piperead 0 1), not_killsLate fun _ => rfl⟩
  have h16 := h15.tail ⟨.acquire (p := 1) (c := .piperead 0 1) ⟨hat (by decide) rfl rfl, rfl⟩ rfl, not_killsLate fun _ => rfl⟩
  have h17 := h16.tail ⟨.readEmpty (show At _ 1 (.loop (.piperead 0 1)) from ⟨hat (by decide) rfl rfl, rfl⟩) ⟨rfl, rfl⟩ ⟨rfl, rfl⟩,
    not_killsLate fun _ => rfl⟩
  refine ⟨_, h17, hat (by decide) rfl rfl, ⟨hat (by decide) rfl rfl, rfl⟩, rfl, fun q hq => ?_⟩
  by_contra hne
  refine hq ?_
  change update (update (update (fun _ => LoopPc.out) 1 _) 1 _) 1 _ q = .out
  rw [update_of_ne hne, update_of_ne hne, update_of_ne hne]

theorem falls_asleep {R : LoopSys → LoopSys → Prop} (hR : ∀ s s', Step s s' → ¬ s.KillsLate s' → R s s')
    (h : Trans.Reach Init R s) (hat : s.At p (.sleepAcquire c)) (hlock : (s.sys.proc p).lock = none) :
    ∃ s', Trans.Reach Init R s' ∧ s'.pc = update s.pc p (.asleep c) ∧ s'.sys.pc = s.sys.pc ∧
      s'.sys.proc = update s.sys.proc p
        { s.sys.proc p with lock := none, state := .sleeping, chan := some c.chan } := by
  obtain ⟨⟨hlt, hrun, hsys⟩, -⟩ := id hat
  have h1 := h.tail (hR _ _ (.sleepAcquire hat hlock) (not_killsLate_update rfl rfl))
  have hself : ((s.sys.modify p fun x => { x with lock := some p }).proc p) = { s.sys.proc p with lock := some p } :=
    ProcSys.modify_self
  have hrun' : ((s.sys.modify p fun x => { x with lock := some p }).proc p).state = .running := by rw [hself, hrun]
  have h2 := h1.tail (hR _ _ (.sleepRelease (p := p) (c := c) ⟨⟨hlt, hrun', hsys⟩, update_self ..⟩)
    (not_killsLate fun _ => rfl))
  have h3 := h2.tail (hR _ _ (.sleepSched (p := p) (c := c) ⟨⟨hlt, hrun', hsys⟩, update_self ..⟩)
    (not_killsLate_update rfl rfl))
  refine ⟨_, h3, ?_, rfl, ?_⟩
  · change update (update (update s.pc p _) p _) p _ = _
    rw [update_idem, update_idem]
  · simp only [LoopSys.goto, LoopSys.setLock, LoopSys.modify, ProcSys.modify, update_self, update_idem]

theorem kill_child (hat : s.sys.At 0 (.kill 2 1)) (hpc : ∀ q, s.pc q ≠ .out → q = 1) (hlock : (s.sys.proc 1).lock = none)
    (hpid : (s.sys.proc 1).pid = 2) : Step s { s with sys := s.sys.killAt 0 2 1 } := by
  refine .table (.killFound hat (by decide) hlock hpid) fun q hq => ?_
  obtain rfl := hpc q hq
  refine ⟨?_, fun hs => .inl ?_⟩
  · exact ProcSys.killAt_pc (by decide)
  · rw [ProcSys.killAt_self]
    unfold Proc.kill
    rw [hs]
    rfl

/-- The child sleeps before it is killed. -/
theorem no_lost_kill_asleep : ∃ s, Trans.Reach Init (fun s s' => Step s s' ∧ ¬ s.KillsLate s') s ∧ s.InCall 1 ∧
    (s.sys.proc 1).killed = true ∧ (s.sys.proc 1).state ≠ .sleeping := by
  obtain ⟨s, h, hkill, hat, hproc, hpc⟩ := window_reached
  obtain ⟨s', h', hpc', hsys', hproc'⟩ := falls_asleep (fun _ _ hst hk => ⟨hst, hk⟩) h hat (by rw [hproc])
  have hself : s'.sys.proc 1 = ⟨none, .sleeping, some (LoopCall.nread 0), false, 0, 2, some 0⟩ := by
    rw [hproc', hproc, update_self]
    rfl
  have hat' : s'.sys.At 0 (.kill 2 1) := by
    refine ⟨hkill.1, ?_, hsys' ▸ hkill.2.2⟩
    rw [hproc', update_of_ne (by decide)]
    exact hkill.2.1
  have hlast : s'.pc 1 = .asleep (.piperead 0 1) := by rw [hpc', update_self]
  have hout : ∀ q, s'.pc q ≠ .out → q = 1 := by
    intro q hq
    by_contra hne
    rw [hpc', update_of_ne hne] at hq
    exact hne (hpc q hq)
  have hdead : (s'.sys.killAt 0 2 1).proc 1 = (s'.sys.proc 1).kill := ProcSys.killAt_self
  have hk : ¬ s'.KillsLate { s' with sys := s'.sys.killAt 0 2 1 } := by
    rintro ⟨p, hw, hf, ht⟩
    rcases eq_or_ne p 1 with rfl | hne
    · rcases hw with ⟨_, _, _, _, hw⟩ | ⟨_, hw⟩ | ⟨_, hw⟩
      · cases hlast.symm.trans hw
      · cases hlast.symm.trans hw
      · rw [hsys', hat.1.2.2] at hw
        cases hw
    · rw [ProcSys.killAt_of_ne hne] at ht
      cases hf.symm.trans ht
  have hreach := h'.tail ⟨kill_child hat' hout (by rw [hself]) (by rw [hself]), hk⟩
  have hcall : InCall { s' with sys := s'.sys.killAt 0 2 1 } 1 := .inl fun e => by cases hlast.symm.trans e
  refine ⟨_, hreach, hcall, ?_, no_lost_kill hreach 1 hcall ?_⟩ <;> rw [hdead] <;> rfl

/-- The child is killed in its window, and sleeps. -/
theorem lost_kill : ∃ s, Reachable s ∧ s.pc 1 = .asleep (.piperead 0 1) ∧ (s.sys.proc 1).killed = true ∧
    (s.sys.proc 1).state = .sleeping := by
  obtain ⟨s, h, hkill, hat, hproc, hpc⟩ := window_reached
  obtain ⟨s₀, hi, hrun⟩ := h
  have h1 : Reachable s := ⟨s₀, hi, hrun.lift id fun _ _ hst => hst.1⟩
  have h2 := h1.tail (kill_child hkill hpc (by rw [hproc]) (by rw [hproc]))
  have hdead : (s.sys.killAt 0 2 1).proc 1 = ⟨none, .running, none, true, 0, 2, some 0⟩ := by
    rw [ProcSys.killAt_self, hproc]
    rfl
  have hsys : (s.sys.killAt 0 2 1).pc 1 = .syscall := (ProcSys.killAt_pc (by decide)).trans hat.1.2.2
  obtain ⟨s', h', hpc', -, hproc'⟩ := falls_asleep (fun _ _ hst _ => hst) h2 (p := 1) (c := .piperead 0 1)
    ⟨⟨by decide, by rw [hdead], hsys⟩, hat.2⟩ (by rw [hdead])
  refine ⟨s', h', ?_, ?_, ?_⟩
  · rw [hpc', update_self]
  · rw [hproc', update_self, hdead]
  · rw [hproc', update_self]

end LoopSys

end Xv6
