import Xv6.Proofs.NoLostWakeup
import Xv6.SleepLock

/-!
# Sleep-locks keep the rule of `sleep`

The functions of the sleep-lock call `sleep` only when they have found `lk->locked = 1`, and `wakeup` after
`lk->locked = 0`, always with the spinlock held, so nobody is left asleep on a free sleep-lock.
-/

namespace Xv6

open SleepSys
open Function (update update_eq_self update_of_ne update_self)

variable {N : Nat} {C L Ch τ : Type} {chan : Ch} {lk : L} {p q : Fin N} {x : SleepLockPc}

def SleepLockPc.critical : SleepLockPc → Prop
  | .test | .taken | .clear | .cleared | .woken | .holding _ => True
  | .out | .asleep | .held => False

def SleepLockPc.owns : SleepLockPc → Prop
  | .taken | .held | .clear | .holding true => True
  | .out | .test | .asleep | .cleared | .woken | .holding false => False

/-- Only `acquiresleep` gives the spinlock to `sleep`. -/
def CodeOk (lk : L) (x : SleepLockPc) : SleepPc L Ch → Prop
  | .sleepAcquire _ l | .sleepRelease _ l => l = lk → x = .asleep
  | .exitRelease l => l ≠ lk
  | _ => True

/-- What holds of process `p`, which is at `x` in the functions of the sleep-lock. -/
structure SleepLockThread (lk : L) (s : SleepSys N C L Ch (SleepLock × τ)) (p : Fin N) (x : SleepLockPc) :
    Prop where
  critical : x.critical → s.lock lk = some (.proc p)
  duty : x.critical → x ≠ .cleared → s.duty (.proc p) ≠ .owes
  code : CodeOk lk x (s.pc (.proc p))

theorem codeOk_run {t : SleepSys N C L Ch (SleepLock × τ)} (h : t.pc (.proc p) = .run) :
    CodeOk lk x (t.pc (.proc p)) := h ▸ trivial

namespace SleepLockThread

variable {t t' : SleepSys N C L Ch (SleepLock × τ)} {a : Agent N C} {e : SleepAct L Ch (SleepLock × τ)}
  {k : SleepPc L Ch}

theorem of_goto [DecidableEq C] (h : SleepLockThread lk t p x) (hpc : t'.pc = update t.pc a k)
    (hk : a = .proc p → CodeOk lk x k) (hlock : t'.lock lk = t.lock lk)
    (hduty : t.duty (.proc p) ≠ .owes → t'.duty (.proc p) ≠ .owes) : SleepLockThread lk t' p x := by
  refine ⟨fun hc => hlock.trans (h.critical hc), fun hc hx => hduty (h.duty hc hx), ?_⟩
  rw [hpc]
  by_cases hpa : Agent.proc p = a
  · rw [hpa, update_self]; exact hk hpa.symm
  · rw [update_of_ne hpa]; exact h.code

theorem other [DecidableEq C] [DecidableEq L] [DecidableEq Ch] {x : Fin N → SleepLockPc}
    (hi : t.Inv (sleepLockRule N τ chan lk)) (h : ∀ p, SleepLockThread lk t p (x p))
    (hs : t.Step (sleepLockRule N τ chan lk) a e t') (hf : Foreign chan lk t.sh.1 e) :
    t'.sh.1 = t.sh.1 ∧ ∀ p, SleepLockThread lk t' p (x p) := by
  have hgo : ∀ {t' : SleepSys N C L Ch (SleepLock × τ)} {k}, t'.pc = update t.pc a k →
      (∀ p, CodeOk lk (x p) k) → t'.lock = t.lock → t'.duty = t.duty →
      ∀ p, SleepLockThread lk t' p (x p) := fun hpc hk hlock hduty p =>
    (h p).of_goto hpc (fun _ => hk p) (congrFun hlock lk) (hduty ▸ id)
  cases hs with
  | @acquire _ l on pc hl =>
    have hdu : update t.duty a (if l = lk then .none else t.duty a) = t.duty := by
      rw [if_neg hf, update_eq_self]
    exact ⟨rfl, fun p => (h p).of_goto (update_eq_self a t.pc).symm (fun ha => ha ▸ (h p).code)
      (update_of_ne (Ne.symm hf) ..) (congrFun hdu _).trans_ne⟩
  | release on pc hl =>
    exact ⟨rfl, fun p => ⟨fun hc => (update_of_ne (Ne.symm hf) ..).trans ((h p).critical hc),
      (h p).duty, (h p).code⟩⟩
  | update => exact ⟨hf, fun p => ⟨(h p).critical, (h p).duty, (h p).code⟩⟩
  | make _ _ new =>
    obtain ⟨_, h1, h2⟩ := new
    exact absurd ((congrArg SleepLock.locked hf).symm.trans h1) h2
  | sleep =>
    exact ⟨rfl, fun p => (h p).of_goto rfl (fun _ e => absurd e hf.2) rfl id⟩
  | @sleepAcquire p c l on pc hl =>
    refine ⟨rfl, fun q => (h q).of_goto rfl ?_ rfl id⟩
    rintro ⟨⟩
    have hcode := (h p).code
    rw [pc] at hcode
    exact hcode
  | @sleepRelease p c l on pc =>
    refine ⟨rfl, fun q => ?_⟩
    have hcode := (h p).code
    rw [pc] at hcode
    by_cases hl : lk = l
    · -- `acquiresleep` gives up the spinlock
      subst hl
      refine ⟨fun hc => ?_, (h q).duty, ?_⟩
      · obtain rfl : p = q := Agent.proc.inj (Option.some.inj
          ((hi.at_ pc).2.2.lock.symm.trans ((h q).critical hc)))
        rw [hcode rfl] at hc
        exact hc.elim
      · by_cases hqp : Agent.proc q = Agent.proc p (C := C)
        · rw [hqp, goto_self]; trivial
        · rw [goto_of_ne hqp]; exact (h q).code
    · exact (h q).of_goto rfl (fun _ => trivial) (update_of_ne hl ..) id
  | sleepSet | resumeSleep | yield | swtch | resumeYield | wakeupSelf | wakeupDone =>
    exact ⟨rfl, hgo rfl (fun _ => trivial) rfl rfl⟩
  | schedule =>
    exact ⟨rfl, fun q => (h q).of_goto rfl (fun _ => trivial) rfl id⟩
  | exit =>
    exact ⟨rfl, hgo rfl (fun _ => hf) rfl rfl⟩
  | @exitRelease p l on pc =>
    have hcode := (h p).code
    rw [pc] at hcode
    exact ⟨rfl, fun q => (h q).of_goto rfl (fun _ => trivial) (update_of_ne (Ne.symm hcode) ..) id⟩
  | reuse | kill => exact ⟨rfl, fun p => ⟨(h p).critical, (h p).duty, (h p).code⟩⟩
  | @wakeup _ c on pc =>
    refine ⟨rfl, fun p => (h p).of_goto rfl (fun _ => trivial) rfl fun hd => ?_⟩
    by_cases hpa : Agent.proc p = a
    · subst hpa
      refine (update_self ..).trans_ne ?_
      split
      · nofun
      · exact hd
    · exact (update_of_ne hpa ..).trans_ne hd
  | @wakeupOther _ q c on pc =>
    rw [wake]
    split <;> exact ⟨rfl, hgo rfl (fun _ => trivial) rfl rfl⟩

end SleepLockThread

namespace SleepLockSys

variable {s s' : SleepLockSys N C L Ch τ} {t t' : SleepSys N C L Ch (SleepLock × τ)} {a : Agent N C}
  {e : SleepAct L Ch (SleepLock × τ)}

structure Inv (chan : Ch) (lk : L) (s : SleepLockSys N C L Ch τ) : Prop where
  rule : s.sys.Inv (sleepLockRule N τ chan lk)
  thread : ∀ p, SleepLockThread lk s.sys p (s.pc p)
  locked : ∀ p, (s.pc p).owns → s.lock.locked = true
  unique : ∀ p q, (s.pc p).owns → (s.pc q).owns → p = q

namespace Inv

section
variable (h : Inv chan lk s)
include h

theorem not_owns (hp : (s.pc p).owns) (hq : q ≠ p) : ¬ (s.pc q).owns := fun ho => hq (h.unique q p ho hp)

theorem not_owns_of_free (hf : s.lock.locked = false) : ¬ (s.pc q).owns := fun ho =>
  absurd ((h.locked q ho).symm.trans hf) nofun

theorem not_critical (hl : ∀ q, s.sys.lock lk = some (.proc q) → q = p) (hq : q ≠ p) :
    ¬ (s.pc q).critical := fun hc => hq (hl q ((h.thread q).critical hc))

variable [DecidableEq C] [DecidableEq L] [DecidableEq Ch]

theorem put (hs : s.sys.Step (sleepLockRule N τ chan lk) (.proc p) e t)
    (hk : s.sys.Keeps (sleepLockRule N τ chan lk) (.proc p) e)
    (hq : ∀ q, q ≠ p → SleepLockThread lk t q (s.pc q)) (hp : SleepLockThread lk t p x)
    (hlocked : ∀ q, q ≠ p → (s.pc q).owns → t.sh.1.locked = true)
    (hx : x.owns → t.sh.1.locked = true ∧ ∀ q, q ≠ p → ¬ (s.pc q).owns) : Inv chan lk (s.put t p x) := by
  have hself : (s.put t p x).pc p = x := update_self ..
  have hother : ∀ {q}, q ≠ p → (s.put t p x).pc q = s.pc q := fun hq => update_of_ne hq ..
  refine ⟨h.rule.step hs hk, fun q => ?_, fun q ho => ?_, fun q r ho ho' => ?_⟩
  · by_cases hqp : q = p
    · rw [hqp, hself]; exact hp
    · rw [hother hqp]; exact hq q hqp
  · by_cases hqp : q = p
    · rw [hqp, hself] at ho; exact (hx ho).1
    · rw [hother hqp] at ho; exact hlocked q hqp ho
  · by_cases hqp : q = p <;> by_cases hrp : r = p
    · rw [hqp, hrp]
    · rw [hqp, hself] at ho; rw [hother hrp] at ho'; exact absurd ho' ((hx ho).2 r hrp)
    · rw [hrp, hself] at ho'; rw [hother hqp] at ho; exact absurd ho ((hx ho').2 q hqp)
    · rw [hother hqp] at ho; rw [hother hrp] at ho'; exact h.unique q r ho ho'

/-- A step of `p` that changes nothing of the sleep-lock and does not take it. -/
theorem put_same (hs : s.sys.Step (sleepLockRule N τ chan lk) (.proc p) e t)
    (hk : s.sys.Keeps (sleepLockRule N τ chan lk) (.proc p) e)
    (hq : ∀ q, q ≠ p → SleepLockThread lk t q (s.pc q)) (hp : SleepLockThread lk t p x)
    (hsh : t.sh = s.sys.sh) (hx : x.owns → (s.pc p).owns) : Inv chan lk (s.put t p x) := by
  refine h.put hs hk hq hp (fun q _ ho => ?_) fun ho => ⟨?_, fun q => h.not_owns (hx ho)⟩
  · rw [hsh]; exact h.locked q ho
  · rw [hsh]; exact h.locked p (hx ho)

theorem acquire (hx : x.owns → (s.pc p).owns)
    (hs : s.sys.Step (sleepLockRule N τ chan lk) (.proc p) (.acquire lk) t) : Inv chan lk (s.put t p x) := by
  have hs' := hs
  cases hs' with
  | acquire on pc hl =>
    refine h.put_same hs trivial (fun q hq => ?_) ⟨fun _ => update_self .., fun _ _ => ?_, codeOk_run pc⟩
      rfl hx
    · have hno := h.not_critical (fun q' e => absurd (hl.symm.trans e) nofun) hq
      exact ⟨fun hc => absurd hc hno, fun hc => absurd hc hno, (h.thread q).code⟩
    · exact ((update_self ..).trans (if_pos rfl)).trans_ne nofun

theorem release (hx : x.owns → (s.pc p).owns) (hc : (s.pc p).critical) (hpc : s.pc p ≠ .cleared)
    (hxc : ¬ x.critical) (hs : s.sys.Step (sleepLockRule N τ chan lk) (.proc p) (.release lk) t) :
    Inv chan lk (s.put t p x) := by
  have hs' := hs
  cases hs' with
  | release on pc hl =>
    refine h.put_same hs (fun _ => (h.thread p).duty hc hpc) (fun q hq => ?_)
      ⟨fun hc => absurd hc hxc, fun hc => absurd hc hxc, codeOk_run pc⟩ rfl hx
    have hno := h.not_critical (fun q' e => (Agent.proc.inj (Option.some.inj (hl.symm.trans e))).symm) hq
    exact ⟨fun hc => absurd hc hno, fun hc => absurd hc hno, (h.thread q).code⟩

theorem sleep (hpc : s.pc p = .test) (hl : s.lock.locked = true)
    (hs : s.sys.Step (sleepLockRule N τ chan lk) (.proc p) (.sleep chan lk) t) :
    Inv chan lk (s.put t p .asleep) := by
  have hno : s.sys.duty (.proc p) ≠ .owes := (h.thread p).duty (hpc ▸ trivial) (hpc ▸ nofun)
  have hk : s.sys.Keeps (sleepLockRule N τ chan lk) (.proc p) (.sleep chan lk) :=
    ⟨fun _ => ⟨rfl, fun _ _ hc => absurd (hl.symm.trans hc) nofun⟩, fun _ => hno⟩
  have hs' := hs
  cases hs' with
  | sleep =>
    refine h.put_same hs hk (fun q hq => (h.thread q).of_goto rfl ?_ rfl id) ⟨nofun, nofun, ?_⟩ rfl nofun
    · exact fun e => absurd (Agent.proc.inj e).symm hq
    · rw [goto_self]; exact fun _ => rfl

theorem take {sh : SleepLock × τ} (hpc : s.pc p = .test) (hf : s.lock.locked = false) (hsh : sh.1.locked = true)
    (hs : s.sys.Step (sleepLockRule N τ chan lk) (.proc p) (.update sh) t) :
    Inv chan lk (s.put t p .taken) := by
  have hp := h.thread p
  rw [hpc] at hp
  have hs' := hs
  cases hs' with
  | update on pc keep =>
    exact h.put hs trivial (fun q _ => ⟨(h.thread q).critical, (h.thread q).duty, (h.thread q).code⟩)
      ⟨hp.critical, fun _ _ => hp.duty trivial nofun, codeOk_run pc⟩ (fun _ _ _ => hsh)
      fun _ => ⟨hsh, fun q _ => h.not_owns_of_free hf⟩

theorem clear {sh : SleepLock × τ} (hpc : s.pc p = .clear) (he : e = .update sh ∨ e = .make sh)
    (hs : s.sys.Step (sleepLockRule N τ chan lk) (.proc p) e t) : Inv chan lk (s.put t p .cleared) := by
  have hp := h.thread p
  have hno : ∀ q, q ≠ p → (s.pc q).owns → t.sh.1.locked = true := fun q hq ho =>
    absurd ho (h.not_owns (hpc ▸ trivial) hq)
  rw [hpc] at hp
  have hs' := hs
  rcases he with rfl | rfl
  · cases hs' with
    | update on pc keep =>
      exact h.put hs trivial (fun q _ => ⟨(h.thread q).critical, (h.thread q).duty, (h.thread q).code⟩)
        ⟨hp.critical, nofun, codeOk_run pc⟩ hno nofun
  · cases hs' with
    | make on pc new =>
      refine h.put hs (hp.critical trivial) (fun q hq => ⟨(h.thread q).critical, fun hc hx => ?_, (h.thread q).code⟩)
        ⟨hp.critical, nofun, codeOk_run pc⟩ hno nofun
      have hqp : Agent.proc q ≠ Agent.proc p (C := C) := fun e => hq (Agent.proc.inj e)
      exact (update_of_ne hqp ..).trans_ne ((h.thread q).duty hc hx)

theorem wakeup (hpc : s.pc p = .cleared)
    (hs : s.sys.Step (sleepLockRule N τ chan lk) (.proc p) (.wakeup chan) t) :
    Inv chan lk (s.put t p .woken) := by
  have hp := h.thread p
  rw [hpc] at hp
  have hs' := hs
  cases hs' with
  | wakeup on pc =>
    refine h.put_same hs trivial (fun q hq => ?_) ⟨hp.critical, fun _ _ => ?_, ?_⟩ rfl nofun
    · have hqp : Agent.proc q ≠ Agent.proc p (C := C) := fun e => hq (Agent.proc.inj e)
      exact (h.thread q).of_goto rfl (fun _ => trivial) rfl (update_of_ne hqp ..).trans_ne
    · exact ((update_self ..).trans (if_pos rfl)).trans_ne nofun
    · rw [goto_self]; trivial

omit h in
theorem keeps_of_foreign (hf : Foreign chan lk s.lock e) (hs : s.sys.Step (sleepLockRule N τ chan lk) a e t) :
    s.sys.Keeps (sleepLockRule N τ chan lk) a e := by
  cases hs with
  | release | exit => exact fun e => absurd e hf
  | sleep => exact ⟨fun e => absurd e hf.1, fun e => absurd e hf.2⟩
  | make _ _ new =>
    obtain ⟨_, h1, h2⟩ := new
    exact absurd ((congrArg SleepLock.locked hf).symm.trans h1) h2
  | _ => trivial

theorem other (hf : Foreign chan lk s.lock e) (hs : s.sys.Step (sleepLockRule N τ chan lk) a e t) :
    Inv chan lk { s with sys := t } := by
  obtain ⟨hsh, ht⟩ := SleepLockThread.other h.rule h.thread hs hf
  refine ⟨h.rule.step hs (keeps_of_foreign hf hs), ht, fun p ho => ?_, h.unique⟩
  exact (congrArg SleepLock.locked hsh).trans (h.locked p ho)

theorem step (hs : Step chan lk s s') : Inv chan lk s' := by
  cases hs with
  | other hs hf => exact h.other hf hs
  | acquire pc hs | reacquire pc hs => exact h.acquire nofun hs
  | sleep pc hl hs => exact h.sleep pc hl hs
  | take pc hf hs => exact h.take pc hf rfl hs
  | release pc hs => exact h.release (pc ▸ id) (pc ▸ trivial) (pc ▸ nofun) nofun hs
  | releasesleep pc hs => exact h.acquire (fun _ => pc ▸ trivial) hs
  | clear pc he hs => exact h.clear pc he hs
  | wakeup pc hs => exact h.wakeup pc hs
  | released pc hs => exact h.release nofun (pc ▸ trivial) (pc ▸ nofun) nofun hs
  | @holdingsleep _ _ between pc hs =>
    cases between with
    | true => exact h.acquire (fun _ => pc ▸ trivial) hs
    | false => exact h.acquire nofun hs
  | @holdingRet _ _ between pc hs =>
    cases between with
    | true => exact h.release (fun _ => pc ▸ trivial) (pc ▸ trivial) (pc ▸ nofun) nofun hs
    | false => exact h.release nofun (pc ▸ trivial) (pc ▸ nofun) nofun hs

end

theorem init (h : Init s) : Inv chan lk s := by
  have hno : ∀ p, ¬ (s.pc p).owns := fun p => by rw [h.pc p]; exact id
  refine ⟨.init h.sys, fun p => ?_, fun p ho => absurd ho (hno p), fun p _ ho => absurd ho (hno p)⟩
  rw [h.pc p]
  exact ⟨nofun, nofun, by rw [h.sys.proc p]; trivial⟩

theorem reach [DecidableEq C] [DecidableEq L] [DecidableEq Ch] (h : Trans.Reach Init (Step chan lk) s) :
    Inv chan lk s :=
  h.inv (fun _ => init) fun _ _ hi hs => hi.step hs

end Inv

end SleepLockSys

/-- In every run in which the callers of `sleep` and `wakeup` keep the rule, a process that sleeps on the
channel when the lock is free waits for something that is not so. The functions of a sleep-lock keep the
rule: nobody sleeps on a free sleep-lock when its spinlock is free, and one process at most is between
`acquiresleep` and `releasesleep`. -/
theorem no_lost_wakeup {N : Nat} {C L Ch σ τ : Type} [DecidableEq C] [DecidableEq L] [DecidableEq Ch] :
    (∀ (R : Rule N L Ch σ) (s : SleepSys N C L Ch σ), Trans.Reach SleepSys.Init (SleepSys.Next R) s →
      s.lock R.lk = none → ∀ p, s.state p = .sleeping → s.chan p = some R.chan → ¬ R.cond p s.sh) ∧
    ∀ (chan : Ch) (lk : L) (s : SleepLockSys N C L Ch τ),
      Trans.Reach SleepLockSys.Init (SleepLockSys.Step chan lk) s →
      (s.sys.lock lk = none → ∀ p, s.sys.state p = .sleeping → s.sys.chan p = some chan →
        s.lock.locked ≠ false) ∧
      ∀ p q, (s.pc p).owns → (s.pc q).owns → p = q := by
  refine ⟨fun R s h hl p hs hc => (SleepSys.Inv.reach h).not_sleeping hl hs hc, fun chan lk s h => ?_⟩
  have hi := SleepLockSys.Inv.reach h
  exact ⟨fun hl p hs hc => hi.rule.not_sleeping hl hs hc, hi.unique⟩

/-- Nothing has run yet: `N` processes, and the shared state `sh`. -/
def SleepSys.idle (N : Nat) (C L Ch : Type) {σ : Type} (sh : σ) : SleepSys N C L Ch σ where
  state _ := .runnable
  chan _ := none
  plock _ := none
  lock _ := none
  cpu _ := none
  pc
    | .proc _ => .off false
    | .cpu _ => .run
  sh := sh
  duty _ := .none

theorem SleepSys.init_idle (N : Nat) (C L Ch : Type) {σ : Type} (sh : σ) : (idle N C L Ch sh).Init :=
  ⟨fun _ => ⟨nofun, nofun⟩, fun _ => rfl, fun _ => rfl, fun _ => rfl, fun _ => rfl, fun _ => rfl⟩

/-- A process waits for a flag, and another for a sleep-lock that is held. -/
theorem no_lost_wakeup_waiting :
    (∃ s : SleepSys 1 Unit Unit Unit Bool, s.lock () = none ∧ s.state 0 = .sleeping ∧
      s.chan 0 = some () ∧ ¬ s.sh = true) ∧
    ∃ s : SleepLockSys 2 Bool Unit Unit Unit, s.sys.lock () = none ∧ s.sys.state 1 = .sleeping ∧
      s.sys.chan 1 = some () ∧ (s.pc 0).owns ∧ s.lock.locked ≠ false ∧ ¬ (s.pc 1).owns := by
  constructor
  · let R : Rule 1 Unit Unit Bool := ⟨(), (), fun _ sh => sh = true⟩
    have h0 : Trans.Reach SleepSys.Init (SleepSys.Next R) (.idle 1 Unit Unit Unit false) := .of_init (init_idle ..)
    have h1 := h0.tail ⟨_, _, .schedule (p := 0) (c := ()) rfl rfl rfl rfl rfl, trivial⟩
    have h2 := h1.tail ⟨_, _, .resumeYield (p := 0) ⟨(), rfl⟩ rfl, trivial⟩
    have h3 := h2.tail ⟨_, _, .acquire (a := .proc 0) (l := ()) ⟨(), rfl⟩ rfl rfl, trivial⟩
    have h4 := h3.tail ⟨.proc 0, .sleep () (), .sleep ⟨(), rfl⟩ rfl rfl,
      ⟨fun _ => ⟨rfl, fun _ _ => nofun⟩, fun _ => nofun⟩⟩
    have h5 := h4.tail ⟨_, _, .sleepAcquire (p := 0) ⟨(), rfl⟩ rfl rfl, trivial⟩
    have h6 := h5.tail ⟨_, _, .sleepRelease (p := 0) ⟨(), rfl⟩ rfl, trivial⟩
    have h7 := h6.tail ⟨_, _, .sleepSet (p := 0) ⟨(), rfl⟩ rfl, trivial⟩
    have h8 := h7.tail ⟨_, _, .swtch (p := 0) (c := ()) rfl rfl, trivial⟩
    exact ⟨_, rfl, rfl, rfl, (no_lost_wakeup (τ := Unit)).1 R _ h8 rfl 0 rfl rfl⟩
  · have h0 : Trans.Reach SleepLockSys.Init (SleepLockSys.Step () ())
        ⟨.idle 2 Bool Unit Unit (⟨false, 0⟩, ()), fun _ => .out⟩ :=
      .of_init ⟨init_idle .., rfl, fun _ => rfl⟩
    have h1 := h0.tail (.other (.schedule (p := 0) (c := false) rfl rfl rfl rfl rfl) trivial)
    have h2 := h1.tail (.other (.resumeYield (p := 0) ⟨false, rfl⟩ rfl) trivial)
    have h3 := h2.tail (.acquire (p := 0) rfl (.acquire ⟨false, rfl⟩ rfl rfl))
    have h4 := h3.tail (@SleepLockSys.Step.take 2 Bool Unit Unit Unit _ _ _ () () _ _ 0 1 rfl rfl
      (.update ⟨false, rfl⟩ rfl nofun))
    have h5 := h4.tail (.release (p := 0) rfl (.release ⟨false, rfl⟩ rfl rfl))
    have h6 := h5.tail (.other (.schedule (p := 1) (c := true) rfl rfl rfl rfl rfl) trivial)
    have h7 := h6.tail (.other (.resumeYield (p := 1) ⟨true, rfl⟩ rfl) trivial)
    have h8 := h7.tail (.acquire (p := 1) rfl (.acquire ⟨true, rfl⟩ rfl rfl))
    have h9 := h8.tail (.sleep (p := 1) rfl rfl (.sleep ⟨true, rfl⟩ rfl rfl))
    have h10 := h9.tail (.other (.sleepAcquire (p := 1) ⟨true, rfl⟩ rfl rfl) trivial)
    have h11 := h10.tail (.other (.sleepRelease (p := 1) ⟨true, rfl⟩ rfl) trivial)
    have h12 := h11.tail (.other (.sleepSet (p := 1) ⟨true, rfl⟩ rfl) trivial)
    have h13 := h12.tail (.other (.swtch (p := 1) (c := true) rfl rfl) trivial)
    obtain ⟨hl, hu⟩ := (no_lost_wakeup (σ := Unit)).2 () () _ h13
    refine ⟨_, rfl, rfl, rfl, ?_, hl rfl 1 rfl rfl, fun h => absurd (hu 0 1 ?_ h) nofun⟩ <;> trivial

end Xv6
