import Xv6.SleepLoops

/-!
# `sys_sleep` and the clock

`ticks` is `ticks0` and the clock ticks since then, modulo `2 ^ 32`. The loop compares the difference with `n` as an
unsigned number: a negative `n` is a large one, and a check that comes late, after the counter has gone all the way
around, may find a small difference again.
-/

namespace Xv6

open Function

def LoopPc.holds : LoopPc → Option LoopLock
  | .loop c | .sleepAcquire c | .sleepRelease c => some c.lk
  | .wakeup pi _ _ _ | .copy pi _ _ | .finish pi _ _ => some (.pipe pi)
  | .ret lk => some lk
  | .out | .enter _ | .sleepSched _ | .asleep _ => none

def LoopPc.inLoop : LoopPc → Option LoopCall
  | .loop c | .sleepAcquire c | .sleepRelease c | .sleepSched c | .asleep c => some c
  | _ => none

namespace LoopSys

variable {s s' : LoopSys} {p q e : Nat} {n : CInt} {k k' : LoopPc} {lk : LoopLock} {cs : List Check}

/-! ### Locks -/

def Holds (s : LoopSys) : Prop := ∀ q lk, (s.pc q).holds = some lk → s.lock lk = some q

namespace Holds

theorem goto (h : s.Holds) (hpc : s'.pc = update s.pc q k') (hq : s.pc q = k) (hl : s'.lock = s.lock)
    (hk : k'.holds = k.holds) : s'.Holds := by
  intro r lk hr
  rw [hpc] at hr
  rw [hl]
  refine h r lk ?_
  rcases eq_or_ne r q with rfl | hne
  · rw [update_self, hk] at hr
    rwa [hq]
  · rwa [update_of_ne hne] at hr

theorem acquire (h : s.Holds) (hpc : s'.pc = update s.pc q k') (free : s.lock lk = none)
    (hl : s'.lock = update s.lock lk (some q)) (hk : k'.holds = some lk) : s'.Holds := by
  intro r l hr
  rw [hpc] at hr
  rw [hl]
  rcases eq_or_ne r q with rfl | hne
  · rw [update_self, hk] at hr
    cases hr
    exact update_self ..
  · rw [update_of_ne hne] at hr
    have hlock := h r l hr
    rw [update_of_ne, hlock]
    rintro rfl
    cases free.symm.trans hlock

theorem release (h : s.Holds) (hpc : s'.pc = update s.pc q k') (hq : (s.pc q).holds = some lk)
    (hl : s'.lock = update s.lock lk none) (hk : k'.holds = none) : s'.Holds := by
  intro r l hr
  rw [hpc] at hr
  rw [hl]
  rcases eq_or_ne r q with rfl | hne
  · rw [update_self, hk] at hr
    cases hr
  · rw [update_of_ne hne] at hr
    have hlock := h r l hr
    rw [update_of_ne, hlock]
    rintro rfl
    exact hne (Option.some.inj (hlock.symm.trans (h q l hq)))

theorem step (h : s.Holds) (hst : Step s s') : s'.Holds := by
  cases hst with
  | table | pipeclose | consoleintr | clockintr => exact h
  | call at_ | killed at_ | writeEnd at_ | writeClosed at_ | writeFull at_ | writeBreak at_ | writeByte _ at_ | wakeupSelf at_
  | wakeupNext at_ | wakeupDone at_ | readEmpty at_ | readStart at_ | readByte at_ | readBreak at_ | readEnd at_
  | consoleEnd at_ | consoleEmpty at_ | consoleEof at_ | consoleBreak at_ | consoleByte at_ | ticksEnd at_ | ticksSleep at_
  | sleepAcquire at_ | sleepSched at_ | finishSelf at_ | finishNext at_ | finishDone at_ =>
    exact h.goto rfl at_.2 rfl rfl
  | acquire at_ free =>
    refine h.acquire rfl free rfl (congrArg some ?_)
    unfold start
    split <;> rfl
  | sleepReturn at_ free => exact h.acquire rfl free rfl rfl
  | sleepRelease at_ | ret at_ => exact h.release rfl (congrArg LoopPc.holds at_.2) rfl rfl

theorem reach (h : s.Reachable) : s.Holds := by
  refine Trans.Reach.inv (P := Holds) (fun s hi q lk hq => ?_) (fun _ _ hi hst => hi.step hst) h
  rw [hi.pc q] at hq
  cases hq

end Holds

/-! ### One step -/

/-- What a step does while process `p` is in the loop of `c = sys_sleep(n)`: nothing but perhaps a clock tick, or `p` goes
one step further. -/
inductive Moves (p : Nat) (c : LoopCall) (s s' : LoopSys) : Prop
  | stays (pc : s'.pc p = s.pc p) (ticks : s'.ticks = s.ticks)
  | tick (pc : s'.pc p = s.pc p) (free : s.lock .ticks = none) (ticks : s'.ticks = s.ticks + 1)
  | returns (at_ : s.pc p = .loop c) (pc : s'.pc p = .ret .ticks) (ticks : s'.ticks = s.ticks)
      (go : ¬ s.Tests c ∨ (s.sys.proc p).killed = true)
  | sleeps (at_ : s.pc p = .loop c) (pc : s'.pc p = .sleepAcquire c) (ticks : s'.ticks = s.ticks) (tests : s.Tests c)
  | inside (at_ : ∀ c, s.pc p ≠ .loop c) (pc : (s'.pc p).inLoop = some c) (ticks : s'.ticks = s.ticks)

theorem Step.moves {t : BitVec 32} (hst : Step s s') (hp : (s.pc p).inLoop = some (.sleep n t)) :
    Moves p (.sleep n t) s s' := by
  -- a step of another process, or of a call that is not this one
  have hne : ∀ {q k'}, p ≠ q → s'.pc = update s.pc q k' → s'.ticks = s.ticks → Moves p (.sleep n t) s s' := by
    intro q k' hpq hpc ht
    refine .stays ?_ ht
    rw [hpc, update_of_ne hpq]
  have hother : ∀ {q k k'}, s.At q k → s'.pc = update s.pc q k' → s'.ticks = s.ticks →
      k.inLoop ≠ some (.sleep n t) → Moves p (.sleep n t) s s' := by
    intro q k k' hat hpc ht hk
    refine hne ?_ hpc ht
    rintro rfl
    exact hk (hat.2 ▸ hp)
  -- a step inside of `sleep`
  have hsleep : ∀ {q c k k'}, s.At q k → s'.pc = update s.pc q k' → s'.ticks = s.ticks → (∀ c, k ≠ .loop c) →
      k.inLoop = some c → k'.inLoop = some c → Moves p (.sleep n t) s s' := by
    intro q c k k' hat hpc ht hk hc hc'
    rcases eq_or_ne p q with rfl | hpq
    · refine .inside (fun c => hat.2 ▸ hk c) ?_ ht
      rw [hpc, update_self, hc', ← hc, ← hat.2, hp]
    · exact hne hpq hpc ht
  -- a step from the test of the loop
  have hcheck : ∀ {q c k'}, s.At q (.loop c) → s'.pc = update s.pc q k' → s'.ticks = s.ticks →
      (q = p → c = .sleep n t → Moves p (.sleep n t) s s') → Moves p (.sleep n t) s s' := by
    intro q c k' hat hpc ht hself
    rcases eq_or_ne p q with rfl | hpq
    · rw [hat.2] at hp
      exact hself rfl (Option.some.inj hp)
    · exact hne hpq hpc ht
  cases hst with
  | table | pipeclose | consoleintr => exact .stays rfl rfl
  | clockintr free => exact .tick rfl free rfl
  | call at_ | acquire at_ | wakeupSelf at_ | wakeupNext at_ | wakeupDone at_ | readByte at_ | readBreak at_ | readEnd at_
  | finishSelf at_ | finishNext at_ | finishDone at_ | ret at_ | writeEnd at_ | writeClosed at_ | writeFull at_
  | writeBreak at_ | writeByte _ at_ | readEmpty at_ | readStart at_ | consoleEnd at_ | consoleEmpty at_ | consoleEof at_
  | consoleBreak at_ | consoleByte at_ =>
    exact hother at_ rfl rfl fun e => by cases e
  | sleepAcquire at_ | sleepRelease at_ | sleepSched at_ | sleepReturn at_ =>
    exact hsleep at_ rfl rfl (fun _ e => by cases e) rfl rfl
  | killed at_ _ hk =>
    refine hcheck at_ rfl rfl ?_
    rintro rfl rfl
    exact .returns at_.2 (update_self ..) rfl (.inr hk.2)
  | ticksEnd at_ go =>
    refine hcheck at_ rfl rfl ?_
    rintro rfl e
    exact .returns (e ▸ at_.2) (update_self ..) rfl (.inl (e ▸ go))
  | ticksSleep at_ tests =>
    refine hcheck at_ rfl rfl ?_
    rintro rfl e
    exact .sleeps (e ▸ at_.2) (e ▸ update_self ..) rfl (e ▸ tests)

/-! ### Whole runs -/

theorem tickOf_eq_zero (h : s'.ticks = s.ticks) : tickOf s s' = 0 := if_pos h

theorem checkOf_of_stays (h : s'.pc p = s.pc p) : checkOf p e s s' = none := by
  unfold checkOf
  rw [h]
  cases s.pc p <;> rfl

theorem checkOf_of_inside (h : ∀ c, s.pc p ≠ .loop c) : checkOf p e s s' = none := by
  unfold checkOf
  cases hk : s.pc p with
  | loop c => exact absurd hk (h c)
  | _ => rfl

/-- `sys_sleep(n)` has read `t` from `ticks`. -/
structure Sleeping (p : Nat) (n : CInt) (t : BitVec 32) (e : Nat) (cs : List Check) (s : LoopSys) : Prop where
  reach : s.Reachable
  pc : (s.pc p).inLoop = some (.sleep n t) ∨ s.pc p = .ret .ticks
  ticks : s.ticks = t + BitVec.ofNat 32 e
  checks : ∀ c ∈ cs, c.returns = true ↔ n.toNat ≤ c.elapsed % 2 ^ 32
  /-- the lock is held until the first check, so it comes before any clock tick -/
  first : cs = [] ∧ e = 0 ∧ s.pc p = .loop (.sleep n t) ∨ ∃ c ∈ cs, c.elapsed = 0

namespace Sleeping

variable {t : BitVec 32}

theorem tests_iff (h : Sleeping p n t e cs s) : s.Tests (.sleep n t) ↔ e % 2 ^ 32 < n.toNat := by
  have hsub : s.ticks - t = BitVec.ofNat 32 e := by
    rw [h.ticks, BitVec.add_comm]
    exact BitVec.add_sub_cancel _ _
  rw [Tests, hsub, BitVec.toNat_ofNat]

/-- A check is made and says what the difference of the counters says. -/
theorem check {b : Bool} (h : Sleeping p n t e cs s) (hst : Step s s')
    (hb : b = true ↔ ¬ s.Tests (.sleep n t)) (hpc : (s'.pc p).inLoop = some (.sleep n t) ∨ s'.pc p = .ret .ticks)
    (ht : s'.ticks = s.ticks) : Sleeping p n t e (cs ++ [⟨e, b⟩]) s' := by
  refine ⟨h.reach.tail hst, hpc, ht.trans h.ticks, fun c hc => ?_, .inr ?_⟩
  · rcases List.mem_append.mp hc with hc | hc
    · exact h.checks c hc
    · rw [List.mem_singleton.mp hc, hb, h.tests_iff, not_lt]
  · rcases h.first with ⟨-, he, -⟩ | ⟨c, hc, h0⟩
    · exact ⟨⟨e, b⟩, by simp, he⟩
    · exact ⟨c, List.mem_append_left _ hc, h0⟩

theorem step (h : Sleeping p n t e cs s) (hin : s.pc p ≠ .ret .ticks) (alive : (s.sys.proc p).killed = false)
    (hst : Step s s') : Sleeping p n t (e + tickOf s s') (cs ++ (checkOf p e s s').toList) s' := by
  have hloop := h.pc.resolve_right hin
  cases hst.moves hloop with
  | stays pc ticks =>
    rw [tickOf_eq_zero ticks, checkOf_of_stays pc, Option.toList_none, List.append_nil]
    exact ⟨h.reach.tail hst, .inl (pc ▸ hloop), ticks.trans h.ticks, h.checks, pc ▸ h.first⟩
  | tick pc free ticks =>
    have hone : tickOf s s' = 1 := if_neg fun e => by
      rw [ticks] at e
      exact absurd (congrArg (· - s.ticks) e) (by simp)
    rw [hone, checkOf_of_stays pc, Option.toList_none, List.append_nil]
    refine ⟨h.reach.tail hst, .inl (pc ▸ hloop), ?_, h.checks, ?_⟩
    · rw [ticks, h.ticks, BitVec.ofNat_add, BitVec.add_assoc]
      rfl
    · refine h.first.imp_left fun hf => ?_
      have hlock := Holds.reach h.reach p .ticks (congrArg LoopPc.holds hf.2.2)
      cases free.symm.trans hlock
  | returns hat pc ticks go =>
    have hck : checkOf p e s s' = some ⟨e, true⟩ := by rw [checkOf, hat, pc]
    rw [tickOf_eq_zero ticks, hck]
    refine h.check hst ?_ (.inr pc) ticks
    simpa [alive] using go
  | sleeps hat pc ticks tests =>
    have hck : checkOf p e s s' = some ⟨e, false⟩ := by rw [checkOf, hat, pc]
    rw [tickOf_eq_zero ticks, hck]
    refine h.check hst ?_ (.inl (pc ▸ rfl)) ticks
    simpa using tests
  | inside hat pc ticks =>
    rw [tickOf_eq_zero ticks, checkOf_of_inside hat, Option.toList_none, List.append_nil]
    exact ⟨h.reach.tail hst, .inl pc, ticks.trans h.ticks, h.checks, h.first.imp_left fun hf => absurd hf.2.2 (hat _)⟩

end Sleeping

theorem SleepRun.sleeping (h : SleepRun p n e cs s) : ∃ t, Sleeping p n t e cs s := by
  induction h with
  | start reach at_ free =>
    rename_i s ticks0
    have hpc : ((s.setLock .ticks (some p)).goto p (.loop (.sleep n s.ticks))).pc p = .loop (.sleep n s.ticks) :=
      update_self ..
    refine ⟨s.ticks, reach.tail (.acquire at_ free), .inl (congrArg LoopPc.inLoop hpc), ?_, by simp, .inl ⟨rfl, rfl, hpc⟩⟩
    exact (BitVec.add_zero s.ticks).symm
  | step run inside alive st ih =>
    obtain ⟨t, ht⟩ := ih
    exact ⟨t, ht.step inside alive st⟩

/-- `sys_sleep(n)` returns at the first check that comes `max(n, 0)` clock ticks or more after its start, and not before,
exactly if `n` is not negative and no check comes so late that the counter has gone around to within `n` ticks of
`ticks0` again. -/
theorem sys_sleep_iff (h : SleepRun p n e cs s) (hcs : cs ≠ []) :
    (∀ c ∈ cs, c.returns = true ↔ max n.toInt 0 ≤ c.elapsed) ↔
      0 ≤ n.toInt ∧ ∀ c ∈ cs, n.toInt ≤ c.elapsed → n.toInt ≤ c.elapsed % 2 ^ 32 := by
  obtain ⟨t, ht⟩ := h.sleeping
  have hint := BitVec.toInt_eq_toNat_cond n
  have hlt := n.isLt
  constructor
  · intro hright
    have hn : 0 ≤ n.toInt := by
      obtain ⟨c, hc, h0⟩ := ht.first.resolve_left fun hf => hcs hf.1
      have h1 := hright c hc
      rw [ht.checks c hc, h0] at h1
      split at hint <;> omega
    refine ⟨hn, fun c hc hle => ?_⟩
    have h1 := hright c hc
    rw [ht.checks c hc] at h1
    split at hint <;> omega
  · rintro ⟨hn, hlate⟩ c hc
    have h1 := hlate c hc
    rw [ht.checks c hc]
    split at hint <;> omega

/-! ### Calls of the first process -/

/-- The first process has called `sys_sleep(n)`. -/
def sleepStart (n : CInt) : { s : LoopSys // SleepRun 0 n 0 [] s } :=
  let s₀ : LoopSys :=
    { sys := .boot fun _ _ => true
      pipe := fun _ => ⟨fun _ => 0, 0, 0, true, true⟩
      cons := ⟨fun _ => 0, 0, 0, 0⟩
      ticks := 0
      lock := fun _ => none
      pc := fun _ => .out }
  have h : Reachable s₀ := .of_init ⟨⟨_, rfl⟩, fun _ => rfl, fun _ => rfl, fun _ => rfl, fun _ => rfl, fun _ => rfl, fun _ => rfl⟩
  have h := h.tail (.table (.run (i := 0) (by decide) rfl rfl) fun q hq => absurd rfl hq)
  have h := h.tail (.table (.look (p := 0) ⟨by decide, rfl, rfl⟩ (.ecall rfl rfl)) fun q hq => absurd rfl hq)
  have h := h.tail (.call (p := 0) ⟨⟨by decide, rfl, rfl⟩, rfl⟩ (.sleep n))
  ⟨_, .start h ⟨⟨by decide, rfl, rfl⟩, rfl⟩ rfl⟩

/-- `sleep(1)` sleeps at its first check, and returns at the one after the next clock tick. -/
theorem sys_sleep_iff_one : ∃ s, SleepRun 0 1 1 [⟨0, false⟩, ⟨1, true⟩] s ∧
    ∀ c ∈ [(⟨0, false⟩ : Check), ⟨1, true⟩], c.returns = true ↔ max (1 : CInt).toInt 0 ≤ c.elapsed := by
  have hlt : 0 < NPROC := by decide
  have hmore : (0 - 0 : BitVec 32).toNat < (1 : CInt).toNat := by decide
  have hend : ¬ (0 + 1 - 0 : BitVec 32).toNat < (1 : CInt).toNat := by decide
  have h := (sleepStart 1).2
  have h := h.step (fun e => by cases e) rfl (.ticksSleep (p := 0) ⟨⟨hlt, rfl, rfl⟩, rfl⟩ hmore ⟨rfl, rfl⟩)
  have h := h.step (fun e => by cases e) rfl (.sleepAcquire (p := 0) ⟨⟨hlt, rfl, rfl⟩, rfl⟩ rfl)
  have h := h.step (fun e => by cases e) rfl (.sleepRelease (p := 0) ⟨⟨hlt, rfl, rfl⟩, rfl⟩)
  have h := h.step (fun e => by cases e) rfl (.sleepSched (p := 0) ⟨⟨hlt, rfl, rfl⟩, rfl⟩)
  have h := h.step (fun e => by cases e) rfl (.clockintr rfl)
  have h := h.step (fun e => by cases e) rfl (.table (.wakeup (i := 0) (LoopCall.chan (.sleep 1 0)) hlt rfl) fun q hq => by
    cases q with
    | zero => exact ⟨rfl, fun e => by cases e⟩
    | succ q => exact absurd rfl hq)
  have h := h.step (fun e => by cases e) rfl (.table (.run (i := 0) hlt rfl rfl) fun q hq => by
    cases q with
    | zero => exact ⟨rfl, fun e => by cases e⟩
    | succ q => exact absurd rfl hq)
  have h := h.step (fun e => by cases e) rfl (.sleepReturn (p := 0) ⟨⟨hlt, rfl, rfl⟩, rfl⟩ rfl)
  have h := h.step (fun e => by cases e) rfl (.ticksEnd (p := 0) ⟨⟨hlt, rfl, rfl⟩, rfl⟩ hend)
  exact ⟨_, h, (sys_sleep_iff h (by decide)).mpr ⟨by decide, by decide⟩⟩

/-- `sleep(-1)` sleeps at its first check. -/
theorem sys_sleep_negative : ∃ s, SleepRun 0 (-1) 0 [⟨0, false⟩] s ∧
    ¬ ∀ c ∈ [(⟨0, false⟩ : Check)], c.returns = true ↔ max (-1 : CInt).toInt 0 ≤ c.elapsed := by
  have hmore : (0 - 0 : BitVec 32).toNat < (-1 : CInt).toNat := by decide
  have h := (sleepStart (-1)).2.step (fun e => by cases e) rfl
    (.ticksSleep (p := 0) ⟨⟨by decide, rfl, rfl⟩, rfl⟩ hmore ⟨rfl, rfl⟩)
  exact ⟨_, h, by decide⟩

end LoopSys

end Xv6
