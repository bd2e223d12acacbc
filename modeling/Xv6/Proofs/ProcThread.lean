import Xv6.Proc

/-!
# What a process knows between its steps

`Thread s p k` is the assertion of process `p` at point `k`: the locks it holds, its own state, the
child it is making, how far it has scanned the table. `Rely s s' q` is what the steps of the other
processes can do to process `q`; assertions survive it (`Thread.rely`), and each kind of write to the
table has its own lemma.
-/

namespace Xv6

open Function

namespace ProcPc

def holdsWait : ProcPc → Bool
  | .reparent .. | .reparentWakeup .. | .exitWakeup .. | .exitLock .. | .exitRelease | .waitScan ..
  | .waitCheck .. | .waitSleep .. | .waitSleepRelease .. | .waitRet .. => true
  | _ => false

def holds (p : Nat) : ProcPc → Option Nat
  | .fork np => some np
  | .exitRelease | .exitSched | .waitSleepRelease _ | .waitSleepSched _ => some p
  | _ => none

def making : ProcPc → Option Nat
  | .fork np | .forkParent np | .forkRunnable np => some np
  | _ => none

def exiting : ProcPc → Option CInt
  | .exit st | .reparent st _ | .reparentWakeup st _ _ | .exitWakeup st _ | .exitLock st => some st
  | _ => none

/-- The slots up to here have no child of the process. -/
def scanned : ProcPc → Nat
  | .reparent _ i => i
  | .reparentWakeup _ i _ => i + 1
  | .exitWakeup .. | .exitLock .. => NPROC
  | .waitScan _ i false => i
  | .waitCheck _ false => NPROC
  | _ => 0

/-- In `wait`: what it returns if it has freed a child. -/
def freed : ProcPc → Option (Option CInt)
  | .wait _ | .waitScan .. | .waitCheck .. | .waitSleep .. | .waitSleepRelease .. | .waitSleepSched ..
  | .waitSleepAcquire .. => some none
  | .waitRet _ r => some r
  | _ => none

/-- Past the test of `killed` at the start of `usertrap`, up to the last one. -/
def inSyscall : ProcPc → Bool
  | .syscall | .allocproc _ | .fork _ | .forkParent _ | .forkRunnable _ | .wait _ | .waitScan ..
  | .waitCheck .. | .waitSleep .. | .waitSleepRelease .. | .waitSleepSched .. | .waitSleepAcquire ..
  | .waitRet .. | .kill .. => true
  | _ => false

theorem holdsWait_of_scanned {k : ProcPc} (h : 0 < k.scanned) : k.holdsWait = true := by
  cases k <;> simp [scanned] at h <;> rfl

def StateOk : ProcPc → ProcState → Prop
  | .off, st => st = .unused ∨ st = .used ∨ st = .zombie
  | .exitRelease, st | .exitSched, st => st = .zombie
  | k, st => st = .running ∨ k.preemptible = true ∧ (st = .runnable ∨ st = .sleeping)

theorem StateOk.off_of_used {k : ProcPc} {st : ProcState} (h : k.StateOk st)
    (hst : st = .unused ∨ st = .used) : k = .off := by
  rcases hst with rfl | rfl <;> cases k <;> simp [StateOk] at h ⊢

theorem StateOk.of_preemptible {k : ProcPc} {st : ProcState} (hk : k.preemptible = true)
    (hst : st = .running ∨ st = .runnable ∨ st = .sleeping) : k.StateOk st := by
  rcases hst with rfl | rfl | rfl <;> cases k <;> simp [StateOk, preemptible] at hk ⊢

theorem StateOk.sched {k : ProcPc} {st st' : ProcState} (h : k.StateOk st)
    (hst : st = .sleeping ∧ st' = .runnable ∨ st = .runnable ∧ st' = .running) : k.StateOk st' := by
  rcases hst with ⟨rfl, rfl⟩ | ⟨rfl, rfl⟩ <;> cases k <;> simp [StateOk, preemptible] at h ⊢

end ProcPc

namespace ProcSys

variable {s s' s'' : ProcSys} {p q i : Nat} {k k' : ProcPc} {f : Proc → Proc} {addr : Nat} {status : CInt}

/-- A call of `wait` that returns `r` has freed no child, or one that has the pid `r`. -/
def Freed (s : ProcSys) (p : Nat) : Option CInt → Prop
  | none => s.freed p = []
  | some pid => ∃ c addr st, s.freed p = [c] ∧ .reap (s.uid p) c pid addr st ∈ s.trace

theorem Freed.mono {r : Option CInt} (h : s.Freed p r) (hf : s'.freed p = s.freed p) (hu : s'.uid p = s.uid p)
    (ht : ∀ e ∈ s.trace, e ∈ s'.trace) : s'.Freed p r := by
  cases r with
  | none => exact hf.trans h
  | some pid =>
    obtain ⟨c, addr, st, hc, hm⟩ := h
    exact ⟨c, addr, st, hf.trans hc, hu ▸ ht _ hm⟩

/-- What holds of process `p` at point `k`. -/
structure Thread (s : ProcSys) (p : Nat) (k : ProcPc) : Prop where
  wait : k.holdsWait = true → s.waitLock = some p
  lock : ∀ i, k.holds p = some i → (s.proc i).lock = some p
  state : k.StateOk (s.proc p).state
  making : ∀ np, k.making = some np → (s.proc np).state = .used
  exiting : ∀ st, k.exiting = some st → p ≠ initproc ∧ .exit (s.uid p) st ∈ s.trace
  scanned : ∀ j < k.scanned, (s.proc j).parent ≠ some p
  hit : k.inSyscall = true → (s.proc p).killed = true → s.hit p = true
  freed : ∀ r, k.freed = some r → s.Freed p r
  ret : ∀ addr, k = .waitRet addr none → (∀ j < NPROC, (s.proc j).parent ≠ some p) ∨ s.hit p = true ∨
    addr ≠ 0 ∧ s.writable p addr = false

/-- What the others can do to process `q`; a slot without a thread has no more than its state. -/
structure Rely (s s' : ProcSys) (q : Nat) : Prop where
  pc : s'.pc q = s.pc q
  state : (s.pc q).StateOk (s.proc q).state → (s.pc q).StateOk (s'.proc q).state
  lock : ∀ j, (s.proc j).lock = some q → (s'.proc j).lock = some q
  used : ∀ j, (s.pc q).making = some j → (s.proc j).state = .used → (s'.proc j).state = .used
  wait : s.waitLock = some q → s'.waitLock = some q ∧
    ∀ j, (s'.proc j).parent = some q → (s.proc j).parent = some q
  trace : ∀ e ∈ s.trace, e ∈ s'.trace
  freed : s'.freed q = s.freed q
  uid : s.pc q ≠ .off → s'.uid q = s.uid q
  killed : s.pc q ≠ .off → (s'.proc q).killed = true → (s.proc q).killed = true ∨ s'.hit q = true
  hit : s.pc q ≠ .off → s.hit q = true → s'.hit q = true
  writable : s.pc q ≠ .off → s'.writable q = s.writable q

theorem Thread.rely (h : Thread s q (s.pc q)) (hr : Rely s s' q) : Thread s' q (s'.pc q) := by
  rw [hr.pc]
  refine ⟨fun hw => (hr.wait (h.wait hw)).1, fun i hi => hr.lock i (h.lock i hi), hr.state h.state,
    fun np hn => hr.used np hn (h.making np hn), fun st hst => ?_, fun j hj => ?_, fun hin hk => ?_,
    fun r hf => ?_, fun addr ha => ?_⟩
  · rw [hr.uid (by rintro e; rw [e] at hst; cases hst)]
    exact (h.exiting st hst).imp id (hr.trace _)
  · have hw := h.wait (ProcPc.holdsWait_of_scanned (Nat.zero_lt_of_lt hj))
    exact fun e => h.scanned j hj ((hr.wait hw).2 j e)
  · have hoff : s.pc q ≠ .off := by rintro e; rw [e] at hin; cases hin
    rcases hr.killed hoff hk with hk | hk
    · exact hr.hit hoff (h.hit hin hk)
    · exact hk
  · exact (h.freed r hf).mono hr.freed (hr.uid (by rintro e; rw [e] at hf; cases hf)) hr.trace
  · have hw := h.wait (by rw [ha]; rfl)
    have hoff : s.pc q ≠ .off := by rw [ha]; nofun
    rw [hr.writable hoff]
    exact (h.ret addr ha).imp (fun hn j hj e => hn j hj ((hr.wait hw).2 j e)) (.imp (hr.hit hoff) id)

namespace Rely

theorem refl (s : ProcSys) (q : Nat) : Rely s s q :=
  ⟨rfl, id, fun _ => id, fun _ _ => id, fun h => ⟨h, fun _ => id⟩, fun _ => id, rfl, fun _ => rfl,
    fun _ => .inl, fun _ => id, fun _ => rfl⟩

theorem trans (h : Rely s s' q) (h' : Rely s' s'' q) : Rely s s'' q := by
  have hoff : s.pc q ≠ .off → s'.pc q ≠ .off := by rw [h.pc]; exact id
  refine ⟨h'.pc.trans h.pc, fun hst => ?_, fun j hj => h'.lock j (h.lock j hj), fun j hj hu => ?_,
    fun hw => ?_, fun e he => h'.trace e (h.trace e he), h'.freed.trans h.freed,
    fun ho => (h'.uid (hoff ho)).trans (h.uid ho), fun ho hk => ?_,
    fun ho hh => h'.hit (hoff ho) (h.hit ho hh), fun ho => (h'.writable (hoff ho)).trans (h.writable ho)⟩
  · have := h'.state
    rw [h.pc] at this
    exact this (h.state hst)
  · exact h'.used j (by rw [h.pc]; exact hj) (h.used j hj hu)
  · obtain ⟨hw', hp⟩ := h.wait hw
    exact ⟨(h'.wait hw').1, fun j hj => hp j ((h'.wait hw').2 j hj)⟩
  · rcases h'.killed (hoff ho) hk with hk | hk
    · exact (h.killed ho hk).imp id (h'.hit (hoff ho))
    · exact .inr hk

theorem goto (hq : q ≠ p) : Rely s (s.goto p k) q :=
  { refl s q with pc := update_of_ne hq .. }

theorem emit (e : ProcEv) : Rely s (s.emit e) q :=
  { refl s q with trace := fun _ h => List.mem_cons_of_mem _ h }

theorem setWaitLock {w : Option Nat} (h : s.waitLock ≠ some q) : Rely s { s with waitLock := w } q :=
  { refl s q with wait := fun e => absurd e h }

theorem setWritable {w : Nat → Bool} (h : s.pc q ≠ .off → q ≠ p) :
    Rely s { s with writable := update s.writable p w } q :=
  { refl s q with writable := fun ho => update_of_ne (h ho) .. }

theorem setFreed {l : List Nat} (h : q ≠ p) : Rely s { s with freed := update s.freed p l } q :=
  { refl s q with freed := update_of_ne h .. }

theorem setForker {g : Nat → Option Nat} : Rely s { s with forker := g } q :=
  { refl s q with }

theorem setHit {b : Bool} (h : s.pc q ≠ .off → q = p → s.hit p = true → b = true) :
    Rely s { s with hit := update s.hit p b } q := by
  refine { refl s q with killed := fun _ => .inl, hit := fun ho hh => ?_ }
  by_cases hq : q = p
  · subst hq; dsimp only; rw [update_self]; exact h ho rfl hh
  · dsimp only; rw [update_of_ne hq]; exact hh

theorem setUid {u n : Nat} {pid : CInt} (h : s.pc q ≠ .off → q ≠ p) :
    Rely s { s with nextpid := pid, uid := update s.uid p u, nextUid := n } q :=
  { refl s q with uid := fun ho => update_of_ne (h ho) .. }

theorem modify (hparent : s.waitLock = some q → (f (s.proc i)).parent = some q →
      (s.proc i).parent = some q) (hlock : (s.proc i).lock = some q → (f (s.proc i)).lock = some q)
    (hused : (s.pc q).making = some i → (s.proc i).state = .used → (f (s.proc i)).state = .used)
    (hstate : i = q → (s.pc q).StateOk (s.proc i).state → (s.pc q).StateOk (f (s.proc i)).state)
    (hkilled : s.pc q ≠ .off → i = q → (f (s.proc i)).killed = true →
      (s.proc i).killed = true ∨ s.hit q = true) : Rely s (s.modify i f) q := by
  have self : (s.modify i f).proc i = f (s.proc i) := update_self ..
  have other : ∀ {j}, j ≠ i → (s.modify i f).proc j = s.proc j := fun h => update_of_ne h ..
  refine { refl s q with state := fun h => ?_, lock := fun j h => ?_, used := fun j hj h => ?_,
                         wait := fun h => ⟨h, fun j hj => ?_⟩, killed := fun ho h => ?_ }
  · by_cases hq : q = i
    · subst hq; rw [self]; exact hstate rfl h
    · rw [other hq]; exact h
  · by_cases hji : j = i
    · subst hji; rw [self]; exact hlock h
    · rw [other hji]; exact h
  · by_cases hji : j = i
    · subst hji; rw [self]; exact hused hj h
    · rw [other hji]; exact h
  · by_cases hji : j = i
    · subst hji; rw [self] at hj; exact hparent h hj
    · rw [other hji] at hj; exact hj
  · by_cases hq : q = i
    · subst hq; rw [self] at h; exact hkilled ho rfl h
    · rw [other hq] at h; exact .inl h

theorem wakeup (c : Option Nat) : Rely s (s.modify i (Proc.wakeup c)) q := by
  refine .modify ?_ ?_ ?_ ?_ ?_ <;> unfold Proc.wakeup <;> split
  · exact fun _ => id
  · exact fun _ => id
  · exact id
  · exact id
  · rename_i hc; intro _ e; rw [hc.1] at e; cases e
  · exact fun _ => id
  · rename_i hc; exact fun _ hk => hk.sched (.inl ⟨hc.1, rfl⟩)
  · exact fun _ => id
  · exact fun _ _ => .inl
  · exact fun _ _ => .inl

end Rely

/-! ### The steps -/

theorem goto_self : (s.goto p k).pc p = k := update_self ..

theorem goto_of_ne (h : q ≠ p) : (s.goto p k).pc q = s.pc q := update_of_ne h ..

theorem modify_self : (s.modify i f).proc i = f (s.proc i) := update_self ..

theorem modify_of_ne {j : Nat} (h : j ≠ i) : (s.modify i f).proc j = s.proc j :=
  update_of_ne h ..

theorem found_self : (s.found p i).proc i =
    { s.proc i with lock := some p, pid := s.nextpid, state := .used } := update_self ..

theorem found_of_ne {j : Nat} (h : j ≠ i) : (s.found p i).proc j = s.proc j :=
  update_of_ne h ..

namespace Thread

theorem of_look (h : Thread s p k) (hl : s.Look p k k') (hs : (s.proc p).state = .running) : Thread s p k' := by
  cases hl with
  | ecall _ hk =>
    exact ⟨nofun, nofun, .inl hs, nofun, nofun, nofun,
      fun _ e => absurd (hk.symm.trans e) Bool.false_ne_true, nofun, nofun⟩
  | interrupt | usertrapret | sysOther | allocNone | killNone =>
    exact ⟨nofun, nofun, .inl hs, nofun, nofun, nofun, nofun, nofun, nofun⟩
  | sysFork | sysKill | allocNext | killNext =>
    exact ⟨nofun, nofun, .inl hs, nofun, nofun, nofun, h.hit, nofun, nofun⟩
  | @reparentNext i st lt hi =>
    refine ⟨h.wait, nofun, .inl hs, nofun, h.exiting, fun j hj => ?_, nofun, nofun, nofun⟩
    exact (Nat.lt_succ_iff_lt_or_eq.1 hj).elim (h.scanned j) fun e => e ▸ hi
  | reparentDone | reparentWakeupSelf | reparentWakeupDone | exitWakeupSelf | exitWakeupDone =>
    exact ⟨h.wait, nofun, .inl hs, nofun, h.exiting, h.scanned, nofun, nofun, nofun⟩
  | @waitNext addr i hk lt hi =>
    refine ⟨h.wait, nofun, .inl hs, nofun, nofun, ?_, h.hit, h.freed, nofun⟩
    cases hk with
    | true => nofun
    | false => exact fun j hj => (Nat.lt_succ_iff_lt_or_eq.1 hj).elim (h.scanned j) fun e => e ▸ hi
  | waitChild | waitSleep =>
    exact ⟨h.wait, nofun, .inl hs, nofun, nofun, nofun, h.hit, h.freed, nofun⟩
  | waitCopyout _ _ _ _ ha hw =>
    refine ⟨h.wait, nofun, .inl hs, nofun, nofun, nofun, h.hit, h.freed, ?_⟩
    rintro _ ⟨⟩
    exact .inr (.inr ⟨ha, hw⟩)
  | @waitScanned addr hk =>
    refine ⟨h.wait, nofun, .inl hs, nofun, nofun, ?_, h.hit, h.freed, nofun⟩
    cases hk with
    | true => nofun
    | false => exact h.scanned
  | waitNoKids =>
    refine ⟨h.wait, nofun, .inl hs, nofun, nofun, nofun, h.hit, h.freed, ?_⟩
    rintro _ ⟨⟩
    exact .inl h.scanned
  | waitKilled _ hk =>
    refine ⟨h.wait, nofun, .inl hs, nofun, nofun, nofun, h.hit, h.freed, ?_⟩
    rintro _ ⟨⟩
    exact .inr (.inl (h.hit rfl hk))

end Thread

/-- The assertions of all processes, and no two of them make the same child. -/
structure Threads (s : ProcSys) : Prop where
  thread : ∀ p, Thread s p (s.pc p)
  inj : ∀ p q np, (s.pc p).making = some np → (s.pc q).making = some np → p = q

namespace Threads

theorem act (h : Threads s) (ho : ∀ q, q ≠ p → Rely s s' q) (hpc : s'.pc p = k) (hp : Thread s' p k)
    (hm : ∀ np, k.making = some np → ∀ q, q ≠ p → (s.pc q).making ≠ some np) : Threads s' := by
  refine ⟨fun q => ?_, fun q r np hq hr => ?_⟩
  · by_cases hq : q = p
    · subst hq; rw [hpc]; exact hp
    · exact (h.thread q).rely (ho q hq)
  · by_cases hqp : q = p <;> by_cases hrp : r = p
    · rw [hqp, hrp]
    · rw [hqp, hpc] at hq
      rw [(ho r hrp).pc] at hr
      exact absurd hr (hm np hq r hrp)
    · rw [hrp, hpc] at hr
      rw [(ho q hqp).pc] at hq
      exact absurd hq (hm np hr q hqp)
    · rw [(ho q hqp).pc] at hq
      rw [(ho r hrp).pc] at hr
      exact h.inj q r np hq hr

theorem rely (h : Threads s) (ho : ∀ q, Rely s s' q) : Threads s' where
  thread q := (h.thread q).rely (ho q)
  inj p q np hp hq := by
    rw [(ho p).pc] at hp
    rw [(ho q).pc] at hq
    exact h.inj p q np hp hq

section
variable (h : Threads s)
include h

theorem making_ne (hi : (s.proc i).state ≠ .used) : (s.pc q).making ≠ some i := fun e =>
  hi ((h.thread q).making i e)

theorem off_of_used (hi : (s.proc i).state = .unused ∨ (s.proc i).state = .used) : s.pc i = .off :=
  (h.thread i).state.off_of_used hi

theorem at_ (hat : s.At p k) : Thread s p k := hat.2.2 ▸ h.thread p

theorem look (hat : s.At p k) (hl : s.Look p k k') : Threads (s.goto p k') := by
  have ht := (h.at_ hat).of_look hl hat.2.1
  refine h.act (fun q hq => .goto hq) goto_self
    ⟨ht.wait, ht.lock, ht.state, ht.making, ht.exiting, ht.scanned, ht.hit, ht.freed, ht.ret⟩ ?_
  intro np hm
  cases hl <;> cases hm

/-- `p` writes its own slot only, with no effect on lock and parent. -/
theorem own (hs : (s.proc p).state = .running) (hlock : ∀ q, (s.proc p).lock = some q →
    (f (s.proc p)).lock = some q ∨ q = p) (hpar : (f (s.proc p)).parent = (s.proc p).parent)
    (hq : q ≠ p) : Rely s (s.modify p f) q :=
  .modify (fun _ e => hpar ▸ e) (fun e => (hlock q e).resolve_right hq)
    (fun e => absurd e (h.making_ne (by rw [hs]; nofun))) (fun e => absurd e.symm hq)
    fun _ e => absurd e.symm hq

theorem run (hst : (s.proc i).state = .runnable) :
    Threads (s.modify i fun x => { x with state := .running, chan := none }) :=
  h.rely fun q => .modify (fun _ => id) id (fun e => absurd e (h.making_ne (by rw [hst]; nofun)))
    (fun _ hk => hk.sched (.inr ⟨hst, rfl⟩)) fun _ _ => .inl

theorem sched {st : ProcState} {c : Option Nat} (hat : s.At p k) (hk : k.preemptible = true)
    (hst : st = .runnable ∨ st = .sleeping) :
    Threads (s.modify p fun x => { x with state := st, chan := c }) := by
  refine h.rely fun q => .modify (fun _ => id) id
    (fun e => absurd e (h.making_ne (by rw [hat.2.1]; nofun))) (fun e _ => ?_) fun _ _ => .inl
  subst e
  rw [hat.2.2]
  exact .of_preemptible hk (.inr hst)

theorem memory (w : Nat → Bool) (hat : s.At p .syscall) :
    Threads { s with writable := update s.writable p w } := by
  have ht := h.at_ hat
  exact h.act (fun _ hq => .setWritable fun _ => hq) hat.2.2
    ⟨nofun, nofun, ht.state, nofun, nofun, nofun, ht.hit, nofun, nofun⟩ nofun

theorem fault (hat : s.At p .user) :
    Threads (({ s with hit := update s.hit p true }.modify p fun x =>
      { x with killed := true }).goto p .sysret) := by
  refine h.act (fun q hq => ?_) goto_self
    ⟨nofun, nofun, .inl ?_, nofun, nofun, nofun, nofun, nofun, nofun⟩ nofun
  · have h1 : Rely s { s with hit := update s.hit p true } q := .setHit fun _ e => absurd e hq
    exact (h1.trans ((h.rely fun _ => .setHit fun _ _ _ => rfl).own hat.2.1 (fun _ => .inl) rfl hq)).trans
      (.goto hq)
  · rw [ProcSys.goto, modify_self]; exact hat.2.1

theorem callExit (status : CInt) (hat : s.At p k) (hi : p ≠ initproc) : Threads (s.callExit p status) :=
  h.act (fun q hq => (Rely.goto hq).trans (.emit _)) goto_self
    ⟨nofun, nofun, .inl hat.2.1, nofun, fun _ e => by cases e; exact ⟨hi, List.mem_cons_self ..⟩, nofun, nofun,
      nofun, nofun⟩ nofun

theorem sysWait (addr : Nat) (hat : s.At p .syscall) :
    Threads ({ s with freed := update s.freed p [] }.goto p (.wait addr)) :=
  h.act (fun _ hq => (Rely.setFreed hq).trans (.goto hq)) goto_self
    ⟨nofun, nofun, .inl hat.2.1, nofun, nofun, nofun, (h.at_ hat).hit,
      fun _ e => by cases e; exact update_self .., nofun⟩ nofun

theorem found (hat : s.At p (.allocproc i)) (hlock : (s.proc i).lock = none)
    (hst : (s.proc i).state = .unused) : Threads (s.found p i) := by
  have hoff := h.off_of_used (.inl hst)
  have hne : ∀ {q}, s.pc q ≠ .off → q ≠ i := fun ho e => ho (e ▸ hoff)
  have hpi : p ≠ i := hne (by rw [hat.2.2]; nofun)
  refine h.act (k := .fork i) (fun q hq => ?_) goto_self ⟨nofun, fun j e => ?_, .inl ?_, fun j e => ?_,
    nofun, nofun, fun _ hk => ?_, nofun, nofun⟩ fun np e q _ => ?_
  · have h1 : Rely s { s with nextpid := s.nextpid + 1, uid := update s.uid i s.nextUid, nextUid := s.nextUid + 1, hit := update s.hit i false } q :=
      (Rely.setUid hne).trans (.setHit fun ho e => absurd e (hne ho))
    refine (h1.trans (.modify (fun _ => id) (fun e => ?_) (fun _ _ => rfl) (fun e _ => ?_)
      fun ho e => absurd e.symm (hne ho))).trans (.goto hq)
    · exact absurd (hlock.symm.trans e) nofun
    · subst e
      exact (show s.pc i = .off from hoff) ▸ .inr (.inl rfl)
  · cases e; rw [found_self]
  · rw [found_of_ne hpi]; exact hat.2.1
  · cases e; rw [found_self]
  · rw [found_of_ne hpi] at hk
    exact (update_of_ne hpi ..).trans ((h.at_ hat).hit rfl hk)
  · cases e; exact h.making_ne (by rw [hst]; nofun)

theorem forkFail {np : Nat} (hat : s.At p (.fork np)) :
    Threads ((s.modify np fun x => { x.freeproc with lock := none }).goto p .sysret) := by
  have ht := h.at_ hat
  have hlock := ht.lock np rfl
  have hused := ht.making np rfl
  have hoff := h.off_of_used (.inr hused)
  have hne : p ≠ np := fun e => by rw [← e, hat.2.2] at hoff; cases hoff
  refine h.act (fun q hq => .trans (.modify (fun _ (e : none = some q) => absurd e nofun) (fun e => ?_)
    (fun e _ => ?_) (fun e _ => ?_) fun _ _ (e : false = true) => absurd e nofun) (.goto hq)) goto_self
    ⟨nofun, nofun, .inl ?_, nofun, nofun, nofun, nofun, nofun, nofun⟩ nofun
  · exact absurd (Option.some.inj (hlock.symm.trans e)).symm hq
  · exact absurd (h.inj q p np e (by rw [hat.2.2]; rfl)) hq
  · rw [← e, hoff]; exact .inl rfl
  · rw [ProcSys.goto, modify_of_ne hne]; exact hat.2.1

theorem forkRelease {np : Nat} (w : Nat → Bool) (hat : s.At p (.fork np)) :
    Threads (({ s with writable := update s.writable np w }.modify np fun x =>
      { x with lock := none }).goto p (.forkParent np)) := by
  have ht := h.at_ hat
  have hlock := ht.lock np rfl
  have hused := ht.making np rfl
  have hoff := h.off_of_used (.inr hused)
  have hne : p ≠ np := fun e => by rw [← e, hat.2.2] at hoff; cases hoff
  refine h.act (fun q hq => .trans (Rely.setWritable (w := w) fun ho e => ho (e ▸ hoff)) (.trans (.modify (fun _ => id) (fun e => ?_) (fun _ => id)
    (fun _ => id) fun _ _ => .inl) (.goto hq))) goto_self
    ⟨nofun, nofun, .inl ?_, fun j e => ?_, nofun, nofun, fun _ hk => ?_, nofun, nofun⟩ fun j e q hq e' => ?_
  · exact absurd (Option.some.inj (hlock.symm.trans e)).symm hq
  · rw [ProcSys.goto, modify_of_ne hne]; exact hat.2.1
  · cases e; rw [ProcSys.goto, modify_self]; exact hused
  · rw [ProcSys.goto, modify_of_ne hne] at hk; exact ht.hit rfl hk
  · cases e; exact hq (h.inj q p np e' (by rw [hat.2.2]; rfl))

theorem forkParent {np : Nat} {g : Nat → Option Nat} (hat : s.At p (.forkParent np)) (hlock : s.waitLock = none) :
    Threads (({ s with forker := g }.modify np fun x => { x with parent := some p }).goto p
      (.forkRunnable np)) := by
  have ht := h.at_ hat
  have hused := ht.making np rfl
  have hoff := h.off_of_used (.inr hused)
  have hne : p ≠ np := fun e => by rw [← e, hat.2.2] at hoff; cases hoff
  refine h.act (fun q hq => .trans (Rely.setForker (g := g)) (.trans
    (.modify (fun e => absurd (hlock.symm.trans e) nofun) id (fun _ => id) (fun _ => id) fun _ _ => .inl)
    (.goto hq))) goto_self
    ⟨nofun, nofun, .inl ?_, fun j e => ?_, nofun, nofun, fun _ hk => ?_, nofun, nofun⟩ fun j e q hq e' => ?_
  · rw [ProcSys.goto, modify_of_ne hne]; exact hat.2.1
  · cases e; rw [ProcSys.goto, modify_self]; exact hused
  · rw [ProcSys.goto, modify_of_ne hne] at hk; exact ht.hit rfl hk
  · cases e; exact hq (h.inj q p np e' (by rw [hat.2.2]; rfl))

theorem forkRunnable {np : Nat} (hat : s.At p (.forkRunnable np)) :
    Threads (((s.goto p .sysret).modify np fun x => { x with state := .runnable }).goto np .user) := by
  have hused := (h.at_ hat).making np rfl
  have h1 : Threads (s.goto p .sysret) := h.act (fun q hq => .goto hq) goto_self
    ⟨nofun, nofun, .inl hat.2.1, nofun, nofun, nofun, nofun, nofun, nofun⟩ nofun
  have hnp : ∀ q, ((s.goto p .sysret).pc q).making ≠ some np := fun q e => by
    by_cases hq : q = p
    · subst hq; rw [goto_self] at e; cases e
    · rw [goto_of_ne hq] at e
      exact hq (h.inj q p np e (by rw [hat.2.2]; rfl))
  refine h1.act (fun q hq => .trans (.modify (fun _ => id) id (fun e => absurd e (hnp q))
    (fun e => absurd e.symm hq) fun _ _ => .inl) (.goto hq)) goto_self
    ⟨nofun, nofun, .inr ⟨rfl, .inl ?_⟩, nofun, nofun, nofun, nofun, nofun, nofun⟩ nofun
  rw [ProcSys.goto, modify_self]

theorem exitAcquire (hat : s.At p (.exit status)) (hlock : s.waitLock = none) :
    Threads ({ s with waitLock := some p }.goto p (.reparent status 0)) :=
  h.act (fun q hq => .trans (Rely.setWaitLock (w := some p) (by rw [hlock]; nofun)) (.goto hq)) goto_self
    ⟨fun _ => rfl, nofun, .inl hat.2.1, nofun, (h.at_ hat).exiting, nofun, nofun, nofun, nofun⟩ nofun

theorem waitLock_ne (hat : s.At p k) (hk : k.holdsWait = true) (hq : q ≠ p) : s.waitLock ≠ some q := by
  rw [(h.at_ hat).wait hk]
  exact fun e => hq (Option.some.inj e).symm

theorem reparentChild (hat : s.At p (.reparent status i)) (hi : (s.proc i).parent = some p) :
    Threads ((s.modify i fun x => { x with parent := some initproc }).goto p
      (.reparentWakeup status i 0)) := by
  have ht := h.at_ hat
  have hinit := (ht.exiting status rfl).1
  refine h.act (fun q hq => .trans (.modify (fun e => absurd e (h.waitLock_ne hat rfl hq)) id (fun _ => id)
    (fun _ => id) fun _ _ => .inl) (.goto hq)) goto_self
    ⟨ht.wait, nofun, .inl ?_, nofun, ht.exiting, fun j hj => ?_, nofun, nofun, nofun⟩ nofun
  · by_cases hp : p = i
    · subst hp; rw [ProcSys.goto, modify_self]; exact hat.2.1
    · rw [ProcSys.goto, modify_of_ne hp]; exact hat.2.1
  · by_cases hji : j = i
    · subst hji; rw [ProcSys.goto, modify_self]; exact fun e => hinit (Option.some.inj e).symm
    · rw [ProcSys.goto, modify_of_ne hji]
      exact ht.scanned j (lt_of_le_of_ne (Nat.le_of_lt_succ hj) hji)

theorem exitWakeup {c : Option Nat} {j : Nat} (hat : s.At p k) (hj : j ≠ p)
    (hk : k.holdsWait = true ∧ k.exiting = some status)
    (hk' : k'.holdsWait = true ∧ k'.exiting = some status) (hsc : k'.scanned = k.scanned)
    (hoff : k'.StateOk .running) : Threads ((s.modify j (Proc.wakeup c)).goto p k') := by
  have ht := h.at_ hat
  have hr : Rely s (s.modify j (Proc.wakeup c)) p := .wakeup c
  have hp : (s.modify j (Proc.wakeup c)).proc p = s.proc p := modify_of_ne (Ne.symm hj)
  have hnone : k'.making = none ∧ k'.inSyscall = false ∧ k'.freed = none ∧
      (∀ i, k'.holds p ≠ some i) ∧ ∀ addr, k' ≠ .waitRet addr none := by
    cases k' <;> simp [ProcPc.exiting] at hk' <;>
      simp [ProcPc.making, ProcPc.inSyscall, ProcPc.freed, ProcPc.holds]
  obtain ⟨h1, h2, h3, h4, h5⟩ := hnone
  refine h.act (fun q hq => (Rely.wakeup c).trans (.goto hq)) goto_self
    ⟨fun _ => ht.wait hk.1, fun i e => absurd e (h4 i), ?_, fun np e => ?_, fun st e => ?_, fun j hj => ?_,
      fun e => ?_, fun n e => ?_, fun addr e => absurd e (h5 addr)⟩ fun np e => ?_
  · rw [ProcSys.goto, hp, hat.2.1]; exact hoff
  · rw [h1] at e; cases e
  · rw [hk'.2] at e; exact ht.exiting st (hk.2.trans e)
  · rw [hsc] at hj
    exact fun e => ht.scanned j hj ((hr.wait (ht.wait hk.1)).2 j e)
  · rw [h2] at e; cases e
  · rw [h3] at e; cases e
  · rw [h1] at e; cases e

theorem exitZombie (hat : s.At p (.exitLock status)) (hlock : (s.proc p).lock = none) :
    Threads ((s.modify p fun x => { x with lock := some p, xstate := status, state := .zombie }).goto p
      .exitRelease) := by
  refine h.act (fun q hq => (h.own hat.2.1 (fun r e => absurd (hlock.symm.trans e) nofun) rfl hq).trans
    (.goto hq)) goto_self ⟨(h.at_ hat).wait, fun j e => ?_, ?_, nofun, nofun, nofun, nofun, nofun, nofun⟩ nofun
  · cases e; rw [ProcSys.goto, modify_self]
  · rw [ProcSys.goto, modify_self]; rfl

theorem exitRelease (hpc : s.pc p = .exitRelease) :
    Threads ({ s with waitLock := none }.goto p .exitSched) := by
  have ht : Thread s p .exitRelease := hpc ▸ h.thread p
  refine h.act (fun q hq => .trans (Rely.setWaitLock (w := none) ?_) (.goto hq)) goto_self
    ⟨nofun, ht.lock, ht.state, nofun, nofun, nofun, nofun, nofun, nofun⟩ nofun
  rw [ht.wait rfl]
  exact fun e => hq (Option.some.inj e).symm

theorem exitSched (hpc : s.pc p = .exitSched) :
    Threads ((s.modify p fun x => { x with lock := none }).goto p .off) := by
  have ht : Thread s p .exitSched := hpc ▸ h.thread p
  have hz : (s.proc p).state = .zombie := ht.state
  refine h.act (fun q hq => .trans (.modify (fun _ => id) (fun e => ?_) (fun _ => id) (fun _ => id)
    fun _ _ => .inl) (.goto hq)) goto_self
    ⟨nofun, nofun, .inr (.inr ?_), nofun, nofun, nofun, nofun, nofun, nofun⟩ nofun
  · exact absurd (Option.some.inj ((ht.lock p rfl).symm.trans e)).symm hq
  · rw [ProcSys.goto, modify_self]; exact hz

theorem waitAcquire (hat : s.At p k) (hk : k = .wait addr ∨ k = .waitSleepAcquire addr) (hlock : s.waitLock = none) :
    Threads ({ s with waitLock := some p }.goto p (.waitScan addr 0 false)) := by
  have ht := h.at_ hat
  have hin : k.inSyscall = true ∧ k.freed = some none := by rcases hk with rfl | rfl <;> exact ⟨rfl, rfl⟩
  exact h.act (fun q hq => .trans (Rely.setWaitLock (w := some p) (by rw [hlock]; nofun)) (.goto hq)) goto_self
    ⟨fun _ => rfl, nofun, .inl hat.2.1, nofun, nofun, nofun, fun _ => ht.hit hin.1,
      fun n e => ht.freed n (hin.2.trans e), nofun⟩ nofun

theorem reap {havekids : Bool} (hat : s.At p (.waitScan addr i havekids))
    (hlock : (s.proc i).lock = none) (hz : (s.proc i).state = .zombie) : Threads (s.reap p addr i) := by
  have ht := h.at_ hat
  have hpi : p ≠ i := fun e => by rw [← e, hat.2.1] at hz; cases hz
  refine h.act (k := .waitRet addr (some (s.proc i).pid)) (fun q hq => .trans (Rely.setFreed
    (l := s.uid i :: s.freed p) hq) (.trans (.modify (fun _ (e : none = some q) => absurd e nofun)
    (fun e => absurd (hlock.symm.trans e) nofun) (fun _ e => absurd (hz.symm.trans e) nofun) (fun e hst => ?_)
    fun _ _ (e : false = true) => absurd e nofun) (.trans (.goto hq) (.emit _)))) goto_self
    ⟨ht.wait, nofun, .inl ?_, nofun, nofun, nofun, fun _ hk => ?_, fun n e => ?_, nofun⟩ nofun
  · -- a zombie that still has its thread holds its lock
    subst e
    have hth := h.thread i
    change (s.pc i).StateOk (s.proc i).state at hst
    change (s.pc i).StateOk .unused
    have hoff : s.pc i = .off := by
      rw [hz] at hst
      cases hk : s.pc i <;> rw [hk] at hst hth <;> first
        | rfl
        | exact absurd (hlock.symm.trans (hth.lock i rfl)) nofun
        | (simp [ProcPc.StateOk] at hst)
    rw [hoff]; exact .inl rfl
  · rw [ProcSys.reap, ProcSys.emit, ProcSys.goto, modify_of_ne hpi]; exact hat.2.1
  · rw [ProcSys.reap, ProcSys.emit, ProcSys.goto, modify_of_ne hpi] at hk
    exact ht.hit rfl hk
  · cases e
    refine ⟨s.uid i, addr, _, (update_self ..).trans ?_, List.mem_cons_self ..⟩
    rw [show s.freed p = [] from ht.freed none rfl]

theorem waitSleepAcquire (hat : s.At p (.waitSleep addr)) (hlock : (s.proc p).lock = none) :
    Threads ((s.modify p fun x => { x with lock := some p }).goto p (.waitSleepRelease addr)) := by
  have ht := h.at_ hat
  refine h.act (fun q hq => (h.own hat.2.1 (fun r e => absurd (hlock.symm.trans e) nofun) rfl hq).trans
    (.goto hq)) goto_self
    ⟨ht.wait, fun j e => ?_, .inl ?_, nofun, nofun, nofun, fun _ hk => ?_, ht.freed, nofun⟩ nofun
  · cases e; rw [ProcSys.goto, modify_self]
  · rw [ProcSys.goto, modify_self]; exact hat.2.1
  · rw [ProcSys.goto, modify_self] at hk; exact ht.hit rfl hk

theorem waitSleepRelease (hat : s.At p (.waitSleepRelease addr)) :
    Threads ({ s with waitLock := none }.goto p (.waitSleepSched addr)) := by
  have ht := h.at_ hat
  exact h.act (fun q hq => .trans (Rely.setWaitLock (w := none) (h.waitLock_ne hat rfl hq)) (.goto hq)) goto_self
    ⟨nofun, ht.lock, ht.state, nofun, nofun, nofun, ht.hit, ht.freed, nofun⟩ nofun

theorem waitSleepSched (hat : s.At p (.waitSleepSched addr)) :
    Threads ((s.modify p fun x => { x with lock := none, state := .sleeping, chan := some p }).goto p
      (.waitSleepAcquire addr)) := by
  have ht := h.at_ hat
  refine h.act (fun q hq => (h.own hat.2.1 (fun r e => .inr ?_) rfl hq).trans (.goto hq)) goto_self
    ⟨nofun, nofun, .inr ⟨rfl, .inr ?_⟩, nofun, nofun, nofun, fun _ hk => ?_, ht.freed, nofun⟩ nofun
  · exact (Option.some.inj ((ht.lock p rfl).symm.trans e)).symm
  · rw [ProcSys.goto, modify_self]
  · rw [ProcSys.goto, modify_self] at hk; exact ht.hit rfl hk

theorem waitRet {r : Option CInt} (e : ProcEv) (hat : s.At p (.waitRet addr r)) :
    Threads (({ s with waitLock := none }.goto p .sysret).emit e) :=
  h.act (fun _ hq => .trans (Rely.setWaitLock (w := none) (h.waitLock_ne hat rfl hq))
    (.trans (.goto hq) (.emit _))) goto_self
    ⟨nofun, nofun, .inl hat.2.1, nofun, nofun, nofun, nofun, nofun, nofun⟩ nofun

theorem killAt {pid : CInt} (hat : s.At p (.kill pid i)) : Threads (s.killAt p pid i) := by
  have hkill : (Proc.kill (s.proc i)).state = (s.proc i).state ∨
      (s.proc i).state = .sleeping ∧ (Proc.kill (s.proc i)).state = .runnable := by
    unfold Proc.kill; dsimp only; split
    · rename_i hs; exact .inr ⟨hs, rfl⟩
    · exact .inl rfl
  have hlive : ∀ q, s.pc q ≠ .off → i = q →
      (s.hit i || decide ((s.proc i).state ≠ ProcState.unused)) = true := by
    rintro q ho rfl
    rw [Bool.or_eq_true, decide_eq_true_iff]
    exact .inr fun e => ho (h.off_of_used (.inl e))
  refine h.act (fun q hq => .trans (Rely.setHit fun ho e _ => hlive q ho e.symm) (.trans (.modify (fun _ => id)
    id (fun _ e => ?_) (fun e hst => ?_) fun ho e _ => .inr ?_) (.trans (.goto hq) (.emit _)))) goto_self
    ⟨nofun, nofun, .inl ?_, nofun, nofun, nofun, nofun, nofun, nofun⟩ nofun
  · rcases hkill with hk | ⟨hs, -⟩
    · exact hk.trans e
    · exact absurd (hs.symm.trans e) nofun
  · rcases hkill with hk | ⟨hs, hr⟩
    · exact hk ▸ hst
    · exact hst.sched (.inl ⟨hs, hr⟩)
  · subst e
    exact (update_self ..).trans (hlive i ho rfl)
  · by_cases hp : p = i
    · subst hp
      rw [ProcSys.killAt, ProcSys.emit, ProcSys.goto, modify_self]
      exact (hkill.resolve_right fun e => absurd (hat.2.1.symm.trans e.1) nofun).trans hat.2.1
    · rw [ProcSys.killAt, ProcSys.emit, ProcSys.goto, modify_of_ne hp]; exact hat.2.1

theorem step (hs : Step s s') : Threads s' := by
  cases hs with
  | look at_ hl => exact h.look at_ hl
  | run _ _ hr => exact h.run hr
  | yield at_ hk => exact h.sched at_ hk (.inl rfl)
  | sleep at_ hk => exact h.sched at_ (by rcases hk with rfl | ⟨_, rfl⟩ <;> rfl) (.inr rfl)
  | wakeup c => exact h.rely fun _ => .wakeup _
  | memory w at_ => exact h.memory w at_
  | fault at_ => exact h.fault at_
  | exitKilled at_ _ _ _ hi => exact h.callExit _ at_ hi
  | sysExit st at_ hi => exact h.callExit st at_ hi
  | sysWait addr at_ => exact h.sysWait addr at_
  | allocFound at_ _ hl hst => exact h.found at_ hl hst
  | forkFail at_ => exact h.forkFail at_
  | forkRelease w at_ => exact h.forkRelease w at_
  | forkParent at_ hl => exact h.forkParent at_ hl
  | forkRunnable at_ => exact h.forkRunnable at_
  | exitAcquire at_ hl => exact h.exitAcquire at_ hl
  | reparentChild at_ _ hi => exact h.reparentChild at_ hi
  | reparentWakeup at_ _ ne | exitWakeup at_ _ ne => exact h.exitWakeup at_ ne ⟨rfl, rfl⟩ ⟨rfl, rfl⟩ rfl (.inl rfl)
  | exitZombie at_ hl => exact h.exitZombie at_ hl
  | exitRelease hpc => exact h.exitRelease hpc
  | exitSched hpc => exact h.exitSched hpc
  | waitAcquire at_ hk hl => exact h.waitAcquire at_ hk hl
  | waitReap at_ _ _ hl hz => exact h.reap at_ hl hz
  | waitSleepAcquire at_ hl => exact h.waitSleepAcquire at_ hl
  | waitSleepRelease at_ => exact h.waitSleepRelease at_
  | waitSleepSched at_ => exact h.waitSleepSched at_
  | waitRet at_ => exact h.waitRet _ at_
  | killFound at_ => exact h.killAt at_

end

theorem boot (w : Nat → Nat → Bool) : Threads (boot w) := by
  refine ⟨fun p => ?_, fun p q np hp => ?_⟩
  · by_cases hp : p = initproc
    · subst hp
      exact ⟨nofun, nofun, .inr ⟨rfl, .inl rfl⟩, nofun, nofun, nofun, nofun, nofun, nofun⟩
    · have hpc : (ProcSys.boot w).pc p = .off := if_neg hp
      have hst : ((ProcSys.boot w).proc p).state = .unused := by simp [ProcSys.boot, hp]
      rw [hpc]
      exact ⟨nofun, nofun, .inl hst, nofun, nofun, nofun, nofun, nofun, nofun⟩
  · by_cases hi : p = initproc <;> simp [ProcSys.boot, hi, ProcPc.making] at hp

end Threads

end ProcSys

end Xv6
