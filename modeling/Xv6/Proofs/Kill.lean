import Xv6.Proofs.ExitWait

/-!
# Whom `kill` hits

A free slot has pid 0, so `kill(0)` finds one: it returns 0, and the `killed` flag it leaves there is
not cleared by `allocproc`. In runs where this does not happen (`KillsFree`), `kill` hits the process with
its pid, and `killed` is set only by `kill` of that process or by a fault.
-/

namespace Xv6

open Function

namespace ProcSys

variable {s s' : ProcSys} {p q i : Nat} {k k' : ProcPc} {f : Proc → Proc}

/-- What `kill` is to do, with `step` as the steps of the machine. -/
structure KillOk (step : ProcSys → ProcSys → Prop) (s : ProcSys) : Prop where
  target : ∀ s' pid i, step s s' → s'.trace = .kill pid i :: s.trace →
    (s.proc i).state ≠ .unused ∧ (s.proc i).pid = pid ∧ s'.proc i = (s.proc i).kill ∧
      ∀ j, j ≠ i → s'.proc j = s.proc j
  killed : ∀ i, (s.proc i).state ≠ .unused → (s.proc i).killed = true → s.hit i = true
  fresh : ∀ p np, s.pc p = .fork np → (s.proc np).killed = false

/-- In this step `kill(0)` looks at a free slot. -/
def KillsFree (s s' : ProcSys) : Prop :=
  ∃ p i, s.pc p = .kill 0 i ∧ i < NPROC ∧ (s.proc i).state = .unused ∧ s'.pc p ≠ s.pc p

/-- The steps in which `kill(0)` does not look at a free slot. -/
def KillStep (s s' : ProcSys) : Prop := Step s s' ∧ ¬ KillsFree s s'

/-- The part of the invariant that `kill` rests on. -/
structure Flags (s : ProcSys) : Prop where
  free : ∀ i, (s.proc i).state = .unused → (s.proc i).killed = false ∧ (s.proc i).pid = 0
  killed : ∀ i, (s.proc i).state ≠ .unused → (s.proc i).killed = true → s.hit i = true
  fresh : ∀ p np, s.pc p = .fork np → (s.proc np).killed = false

namespace Flags

theorem of_eq (h : Flags s) (hproc : s'.proc = s.proc) (hpc : s'.pc = s.pc) (hhit : s'.hit = s.hit) :
    Flags s' :=
  ⟨hproc ▸ h.free, hproc ▸ hhit ▸ h.killed, hproc ▸ hpc ▸ h.fresh⟩

theorem goto (h : Flags s) (hk : ∀ np, k ≠ .fork np) : Flags (s.goto p k) := by
  refine ⟨h.free, h.killed, fun q np hq => h.fresh q np ?_⟩
  by_cases hqp : q = p
  · subst hqp; rw [goto_self] at hq; exact absurd hq (hk np)
  · rwa [goto_of_ne hqp] at hq

theorem keep (h : Flags s) (hproc : s'.proc = s.proc) (hhit : s'.hit = s.hit)
    (hpc : s'.pc = update s.pc p k) (hk : ∀ np, k ≠ .fork np) : Flags s' :=
  (h.goto hk).of_eq hproc hpc hhit

theorem modify (h : Flags s) (hf : (f (s.proc i)).killed = (s.proc i).killed)
    (hp : (f (s.proc i)).pid = (s.proc i).pid)
    (hu : (f (s.proc i)).state = .unused ↔ (s.proc i).state = .unused) : Flags (s.modify i f) := by
  have key : ∀ j, ((s.modify i f).proc j).killed = (s.proc j).killed ∧
      ((s.modify i f).proc j).pid = (s.proc j).pid ∧
      (((s.modify i f).proc j).state = .unused ↔ (s.proc j).state = .unused) := fun j => by
    by_cases hj : j = i
    · subst hj; rw [modify_self]; exact ⟨hf, hp, hu⟩
    · rw [modify_of_ne hj]; exact ⟨rfl, rfl, Iff.rfl⟩
  refine ⟨fun j hj => ?_, fun j hj hk => ?_, fun q np hq => ?_⟩
  · obtain ⟨h1, h2, h3⟩ := key j
    rw [h1, h2]; exact h.free j (h3.1 hj)
  · obtain ⟨h1, -, h3⟩ := key j
    exact h.killed j (fun e => hj (h3.2 e)) (h1 ▸ hk)
  · rw [(key np).1]; exact h.fresh q np hq

theorem own (h : Flags s) (hs : (s.proc p).state = .running)
    (hf : (f (s.proc p)).killed = (s.proc p).killed) (hp : (f (s.proc p)).pid = (s.proc p).pid)
    (hu : (f (s.proc p)).state ≠ .unused) : Flags (s.modify p f) :=
  h.modify hf hp (iff_of_false hu (by rw [hs]; nofun))

theorem free_slot (h : Flags s) (hk : (f (s.proc i)).killed = false) (hp : (f (s.proc i)).pid = 0)
    (hu : (f (s.proc i)).state = .unused) : Flags (s.modify i f) := by
  refine ⟨fun j hj => ?_, fun j hj hjk => ?_, fun q np hq => ?_⟩
  · by_cases hji : j = i
    · subst hji; rw [modify_self]; exact ⟨hk, hp⟩
    · rw [modify_of_ne hji] at hj ⊢; exact h.free j hj
  · have hji : j ≠ i := by rintro rfl; rw [modify_self] at hj; exact hj hu
    rw [modify_of_ne hji] at hj hjk; exact h.killed j hj hjk
  · by_cases hni : np = i
    · subst hni; rw [modify_self]; exact hk
    · rw [modify_of_ne hni]; exact h.fresh q np hq

theorem wakeup (c : Option Nat) (h : Flags s) : Flags (s.modify i (Proc.wakeup c)) := by
  refine h.modify ?_ ?_ ?_ <;> unfold Proc.wakeup <;> split <;> try rfl
  rename_i hs
  rw [hs.1]
  exact iff_of_false nofun nofun

theorem mark {b : Bool} (h : Flags s) (hb : b = true) (hi : (s.proc i).state ≠ .unused)
    (hfork : ∀ q, s.pc q ≠ .fork i) (hp : (f (s.proc i)).pid = (s.proc i).pid)
    (hu : (f (s.proc i)).state ≠ .unused) :
    Flags ({ s with hit := update s.hit i b }.modify i f) := by
  refine ⟨fun j hj => ?_, fun j hj hk => ?_, fun q np hq => ?_⟩
  · have hji : j ≠ i := by rintro rfl; rw [modify_self] at hj; exact hu hj
    rw [modify_of_ne hji] at hj ⊢; exact h.free j hj
  · by_cases hji : j = i
    · subst hji; exact (update_self ..).trans hb
    · rw [modify_of_ne hji] at hj hk
      exact (update_of_ne hji ..).trans (h.killed j hj hk)
  · have hni : np ≠ i := by rintro rfl; exact hfork q hq
    rw [modify_of_ne hni]; exact h.fresh q np hq

theorem found (h : Flags s) (hst : (s.proc i).state = .unused) : Flags (s.found p i) := by
  have hk := (h.free i hst).1
  refine ⟨fun j hj => ?_, fun j hj hjk => ?_, fun q np hq => ?_⟩
  · have hji : j ≠ i := by rintro rfl; rw [found_self] at hj; cases hj
    rw [found_of_ne hji] at hj ⊢; exact h.free j hj
  · have hji : j ≠ i := by
      rintro rfl
      rw [found_self] at hjk; exact absurd (hk.symm.trans hjk) Bool.false_ne_true
    rw [found_of_ne hji] at hj hjk
    exact (update_of_ne hji ..).trans (h.killed j hj hjk)
  · by_cases hni : np = i
    · subst hni; rw [found_self]; exact hk
    · rw [found_of_ne hni]
      refine h.fresh q np ?_
      by_cases hqp : q = p
      · subst hqp
        rw [show (s.found q i).pc q = .fork i from goto_self] at hq
        cases hq; exact absurd rfl hni
      · rwa [show (s.found p i).pc q = s.pc q from goto_of_ne hqp] at hq

theorem step (h : Flags s) (ht : Threads s) (hs : KillStep s s') : Flags s' := by
  obtain ⟨hs, hfree⟩ := hs
  have hrun : ∀ {p k}, s.At p k → (s.proc p).state ≠ .unused := fun hat => by rw [hat.2.1]; nofun
  cases hs with
  | look at_ hl => exact h.goto fun np => by cases hl <;> nofun
  | run _ _ hr => exact h.modify rfl rfl (iff_of_false nofun (by rw [hr]; nofun))
  | yield at_ | sleep at_ => exact h.own at_.2.1 rfl rfl nofun
  | wakeup c => exact h.wakeup _
  | memory => exact h.of_eq rfl rfl rfl
  | fault at_ =>
    refine (h.mark rfl (hrun at_) (fun q hq => ?_) rfl (hrun at_)).goto nofun
    exact absurd (at_.2.1.symm.trans ((ht.thread q).making _ (congrArg ProcPc.making hq))) nofun
  | exitKilled | sysExit | sysWait | exitAcquire | exitRelease | waitAcquire | waitSleepRelease | waitRet => exact h.keep rfl rfl rfl nofun
  | allocFound _ _ _ hst => exact h.found hst
  | forkFail => exact .goto (h.free_slot rfl rfl rfl) nofun
  | @forkRelease p np w =>
    have h1 : Flags { s with writable := update s.writable np w } := h.of_eq rfl rfl rfl
    exact .goto (h1.modify rfl rfl Iff.rfl) nofun
  | @forkParent p np =>
    have h1 : Flags { s with forker := update s.forker (s.uid np) (some (s.uid p)) } :=
      h.of_eq rfl rfl rfl
    exact .goto (h1.modify rfl rfl Iff.rfl) nofun
  | @forkRunnable p np at_ =>
    have hnp : (s.proc np).state = .used := (ht.at_ at_).making np rfl
    have h1 : Flags (s.goto p .sysret) := h.goto nofun
    exact .goto (h1.modify rfl rfl (iff_of_false nofun fun e => absurd (hnp.symm.trans e) nofun)) nofun
  | reparentChild | exitSched => exact .goto (h.modify rfl rfl Iff.rfl) nofun
  | reparentWakeup | exitWakeup => exact .goto (h.wakeup _) nofun
  | exitZombie at_ | waitSleepSched at_ => exact .goto (h.own at_.2.1 rfl rfl nofun) nofun
  | @waitReap p addr i _ at_ =>
    have h1 : Flags { s with freed := update s.freed p (s.uid i :: s.freed p) } := h.of_eq rfl rfl rfl
    exact ((h1.free_slot rfl rfl rfl).goto (p := p) (k := .waitRet addr (some (s.proc i).pid)) nofun).of_eq
      rfl rfl rfl
  | waitSleepAcquire at_ => exact .goto (h.own at_.2.1 rfl rfl (hrun at_)) nofun
  | @killFound p i pid at_ lt hlock hpid =>
    -- a free slot has pid 0, and `kill(0)` does not look at one in this step
    have hi : (s.proc i).state ≠ .unused := fun e => by
      obtain rfl : 0 = pid := (h.free i e).2.symm.trans hpid
      refine hfree ⟨p, i, at_.2.2, lt, e, ?_⟩
      rw [at_.2.2, show (s.killAt p 0 i).pc p = .sysret from goto_self]; nofun
    have hu : (s.proc i).kill.state ≠ .unused := by
      unfold Proc.kill; dsimp only; split
      · nofun
      · exact hi
    refine ((h.mark ?_ hi (fun q hq => ?_) rfl hu).goto (p := p) (k := .sysret) nofun).of_eq rfl rfl rfl
    · rw [Bool.or_eq_true, decide_eq_true_iff]; exact .inr hi
    · have := (ht.thread q).lock i (by rw [hq]; rfl)
      rw [hlock] at this; cases this

theorem boot (w : Nat → Nat → Bool) : Flags (boot w) := by
  have hk : ∀ i, ((ProcSys.boot w).proc i).killed = false := fun i => by
    by_cases hi : i = initproc <;> simp [ProcSys.boot, hi]
  refine ⟨fun i hi => ⟨hk i, ?_⟩, fun i _ h => absurd ((hk i).symm.trans h) Bool.false_ne_true, fun _ np _ => hk np⟩
  by_cases he : i = initproc
  · subst he; cases hi
  · simp [ProcSys.boot, he]

end Flags

theorem reach_flags (h : Trans.Reach Init KillStep s) : Threads s ∧ Flags s :=
  h.inv (P := fun s => Threads s ∧ Flags s) (by rintro _ ⟨w, rfl⟩; exact ⟨.boot w, .boot w⟩)
    fun _ _ ⟨ht, hf⟩ hs => ⟨ht.step hs.1, hf.step ht hs⟩

theorem kill_event {pid : CInt} (hs : Step s s') (he : s'.trace = .kill pid i :: s.trace) :
    ∃ p, s.At p (.kill pid i) ∧ i < NPROC ∧ (s.proc i).pid = pid ∧ s' = s.killAt p pid i := by
  have hno : ∀ {P : Prop}, s.trace = .kill pid i :: s.trace → P :=
    fun h => absurd h.symm (List.cons_ne_self _ _)
  cases hs with
  | exitKilled | sysExit | waitReap | waitRet => cases (List.cons.inj he).1
  | @killFound p j pid' at_ lt _ hpid =>
    cases (List.cons.inj he).1
    exact ⟨p, at_, lt, hpid, rfl⟩
  | _ => exact hno he

/-- In every run in which `kill(0)` does not look at a free slot: `kill` returns 0 only for a process that
has the pid and changes no other, a process has `killed` set only if it was the target of `kill` or
faulted since it got its slot, and the process `allocproc` makes starts without it. -/
theorem kill_victim (h : Trans.Reach Init KillStep s) : KillOk KillStep s := by
  obtain ⟨-, hf⟩ := reach_flags h
  refine ⟨fun s' pid i hs he => ?_, hf.killed, hf.fresh⟩
  obtain ⟨p, hat, hlt, hpid, rfl⟩ := kill_event hs.1 he
  refine ⟨fun e => ?_, hpid, modify_self, fun j hj => modify_of_ne hj⟩
  obtain rfl : 0 = pid := (hf.free i e).2.symm.trans hpid
  refine hs.2 ⟨p, i, hat.2.2, hlt, e, ?_⟩
  rw [hat.2.2, show (s.killAt p 0 i).pc p = .sysret from goto_self]; nofun

theorem kill_victim_self : ∃ s, Trans.Reach Init KillStep s ∧ s.trace = [.kill 1 initproc] ∧
    (s.proc initproc).killed = true ∧ KillOk KillStep s := by
  have hstep : ∀ {s s' : ProcSys}, (∀ p i, s.pc p ≠ .kill 0 i) → Step s s' → KillStep s s' :=
    fun hk hs => ⟨hs, fun ⟨p, i, hp, _⟩ => hk p i hp⟩
  have hgoto : ∀ {s : ProcSys} {q k}, (∀ p i, s.pc p ≠ .kill 0 i) → (∀ i, k ≠ .kill 0 i) →
      ∀ p i, (s.goto q k).pc p ≠ .kill 0 i := by
    intro s q k h hk p i
    by_cases hp : p = q
    · subst hp; rw [goto_self]; exact hk i
    · rw [goto_of_ne hp]; exact h p i
  have hb : ∀ p i, (boot fun _ _ => true).pc p ≠ .kill 0 i := fun p i => by
    by_cases hp : p = initproc <;> simp [boot, hp]
  have h0 : Trans.Reach Init KillStep (boot fun _ _ => true) := .of_init ⟨_, rfl⟩
  have h1 := h0.tail (hstep hb (.run (i := 0) (by decide) rfl rfl))
  have h2 := h1.tail (hstep hb (.look (p := 0) ⟨by decide, rfl, rfl⟩ (.ecall rfl rfl)))
  have h3 := h2.tail (hstep (hgoto hb (by simp)) (.look (p := 0) ⟨by decide, rfl, rfl⟩ (.sysKill 1)))
  have h4 := h3.tail (hstep (hgoto (hgoto hb (by simp)) (by simp))
    (.killFound (p := 0) (i := 0) ⟨by decide, rfl, rfl⟩ (by decide) rfl rfl))
  exact ⟨_, h4, rfl, rfl, kill_victim h4⟩

/-- `kill(0)` by the only process: the free slot 1 has pid 0, so `kill` returns 0 and leaves `killed` set
there; the child that `fork` puts into the slot starts with it. -/
theorem kill_zero_free_slot : ∃ s₁ s₂ s₃ : ProcSys, Trans.Reach Init Step s₁ ∧ Step s₁ s₂ ∧
    s₂.trace = .kill 0 1 :: s₁.trace ∧ (s₁.proc 1).state = .unused ∧ ¬ KillOk Step s₁ ∧
    Trans.Reach Init Step s₃ ∧ s₃.pc initproc = .fork 1 ∧ (s₃.proc 1).killed = true ∧ s₃.hit 1 = false ∧
    ¬ KillOk Step s₃ := by
  have h0 : Trans.Reach Init Step (boot fun _ _ => true) := .of_init ⟨_, rfl⟩
  have h1 := h0.tail (.run (i := 0) (by decide) rfl rfl)
  have h2 := h1.tail (.look (p := 0) ⟨by decide, rfl, rfl⟩ (.ecall rfl rfl))
  have h3 := h2.tail (.look (p := 0) ⟨by decide, rfl, rfl⟩ (.sysKill 0))
  have h4 := h3.tail (.look (p := 0) ⟨by decide, rfl, rfl⟩ (.killNext (by decide) rfl (by decide)))
  have h5 := h4.tail (.killFound (p := 0) (i := 1) ⟨by decide, rfl, rfl⟩ (by decide) rfl rfl)
  have h6 := h5.tail (.look (p := 0) ⟨by decide, rfl, rfl⟩ (.usertrapret rfl rfl))
  have h7 := h6.tail (.look (p := 0) ⟨by decide, rfl, rfl⟩ (.ecall rfl rfl))
  have h8 := h7.tail (.look (p := 0) ⟨by decide, rfl, rfl⟩ .sysFork)
  have h9 := h8.tail (.look (p := 0) ⟨by decide, rfl, rfl⟩ (.allocNext (by decide) rfl nofun))
  have h10 := h9.tail (.allocFound (p := 0) (i := 1) ⟨by decide, rfl, rfl⟩ (by decide) rfl rfl)
  refine ⟨_, _, _, h4, .killFound (p := 0) (i := 1) ⟨by decide, rfl, rfl⟩ (by decide) rfl rfl, rfl, rfl,
    fun hk => ?_, h10, rfl, rfl, rfl, fun hk => ?_⟩
  · exact (hk.target _ 0 1 (.killFound (p := 0) (i := 1) ⟨by decide, rfl, rfl⟩ (by decide) rfl rfl) rfl).1 rfl
  · exact absurd (hk.fresh 0 1 rfl) (by decide)

end ProcSys

end Xv6
