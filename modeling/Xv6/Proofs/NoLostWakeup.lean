import Xv6.Lib.Trans
import Xv6.Sleep

/-!
# No lost wakeup

A process is on its way to sleep, or asleep, on the channel of the rule from the moment `sleep` has
released the lock (`Committed`). If its condition is true, somebody holds the lock and either still owes
the wakeup or is in the loop of `wakeup` and has not come to the process yet (`Served`). The loop cannot
pass the process before it is `SLEEPING`, since `p->lock` is held until then. The same is asked for a
process that is to be passed by the `wakeup` of a holder who has called it already (`Threat`), so that the
holder may then make the condition true.
-/

namespace Xv6

namespace SleepSys

open Function

variable {N : Nat} {C L Ch σ : Type} {R : Rule N L Ch σ} {s s' : SleepSys N C L Ch σ} {a b : Agent N C}
  {e : SleepAct L Ch σ} {p q : Fin N} {k : SleepPc L Ch} {l lk : L} {chan : Ch}

/-- `p` has given up the lock to sleep on the channel. -/
def Committed (R : Rule N L Ch σ) (s : SleepSys N C L Ch σ) (p : Fin N) : Prop :=
  (∃ lk, s.pc (.proc p) = .sleepSet R.chan lk) ∨ s.state p = .sleeping ∧ s.chan p = some R.chan

/-- `p` is not to sleep on: its condition is true, or could be made true without another `wakeup`. -/
def Threat (R : Rule N L Ch σ) (s : SleepSys N C L Ch σ) (p : Fin N) : Prop :=
  R.cond p s.sh ∨ ∃ a, s.lock R.lk = some a ∧ s.duty a = .paid

def Served (R : Rule N L Ch σ) (s : SleepSys N C L Ch σ) (p : Fin N) : Prop :=
  ∃ a, s.lock R.lk = some a ∧ (s.duty a = .owes ∨ ∃ i ≤ p.val, s.pc a = .wakeup R.chan i)

structure Asks (R : Rule N L Ch σ) (s : SleepSys N C L Ch σ) (p : Fin N) (chan : Ch) (lk : L) :
    Prop where
  lock : s.lock lk = some (.proc p)
  rule : chan = R.chan → lk = R.lk ∧ ¬ R.cond p s.sh
  duty : lk = R.lk → s.duty (.proc p) ≠ .owes

def PcOk (R : Rule N L Ch σ) (s : SleepSys N C L Ch σ) (p : Fin N) : SleepPc L Ch → Prop
  | .sleepAcquire chan lk => s.state p ≠ .sleeping ∧ Asks R s p chan lk
  | .sleepRelease chan lk => s.state p ≠ .sleeping ∧ s.plock p = some (.proc p) ∧ Asks R s p chan lk
  | .exitRelease lk => s.state p ≠ .sleeping ∧ s.plock p = some (.proc p) ∧
      s.lock lk = some (.proc p) ∧ (lk = R.lk → s.duty (.proc p) ≠ .owes)
  | .sleepSet _ _ => s.state p ≠ .sleeping ∧ s.plock p = some (.proc p)
  | .resume _ => s.state p ≠ .sleeping ∧ s.plock p = some (.proc p)
  | .sched _ => s.plock p = some (.proc p)
  | .off _ => True
  | .run | .wakeup _ _ => s.state p ≠ .sleeping

structure Inv (R : Rule N L Ch σ) (s : SleepSys N C L Ch σ) : Prop where
  pc : ∀ p, PcOk R s p (s.pc (.proc p))
  served : ∀ p, Committed R s p → Threat R s p → Served R s p

structure Rely (R : Rule N L Ch σ) (s s' : SleepSys N C L Ch σ) (p : Fin N) : Prop where
  pc : s'.pc (.proc p) = s.pc (.proc p)
  state : s'.state p = .sleeping → s.state p = .sleeping
  plock : s.plock p = some (.proc p) → s'.plock p = some (.proc p)
  lock : ∀ l, s.lock l = some (.proc p) → s'.lock l = some (.proc p)
  duty : s'.duty (.proc p) = s.duty (.proc p)
  cond : s.lock R.lk = some (.proc p) → R.cond p s'.sh → R.cond p s.sh

theorem Asks.rely (h : Asks R s p chan lk) (hr : Rely R s s' p) : Asks R s' p chan lk := by
  refine ⟨hr.lock lk h.lock, fun hc => ?_, hr.duty ▸ h.duty⟩
  obtain ⟨hl, hn⟩ := h.rule hc
  exact ⟨hl, fun hc' => hn (hr.cond (hl ▸ h.lock) hc')⟩

theorem PcOk.rely (h : PcOk R s p (s.pc (.proc p))) (hr : Rely R s s' p) : PcOk R s' p (s'.pc (.proc p)) := by
  have hst : s.state p ≠ .sleeping → s'.state p ≠ .sleeping := mt hr.state
  rw [hr.pc]
  cases hk : s.pc (.proc p) <;> rw [hk] at h
  case sleepAcquire => exact ⟨hst h.1, h.2.rely hr⟩
  case sleepRelease => exact ⟨hst h.1, hr.plock h.2.1, h.2.2.rely hr⟩
  case exitRelease => exact ⟨hst h.1, hr.plock h.2.1, hr.lock _ h.2.2.1, hr.duty ▸ h.2.2.2⟩
  case sleepSet | resume => exact ⟨hst h.1, hr.plock h.2⟩
  case sched => exact hr.plock h
  case off => trivial
  case run | wakeup => exact hst h

theorem Threat.of_eq (h : Threat R s' p) (hlock : s'.lock R.lk = s.lock R.lk) (hduty : s'.duty = s.duty)
    (hsh : s'.sh = s.sh) : Threat R s p := by
  rwa [Threat, hlock, hduty, hsh] at h

theorem goto_self [DecidableEq C] : (s.goto a k).pc a = k := update_self ..

theorem goto_of_ne [DecidableEq C] (h : b ≠ a) : (s.goto a k).pc b = s.pc b :=
  update_of_ne h ..

theorem Committed.of_update [DecidableEq C] (hp : Committed R s' p) (hpc : s'.pc = Function.update s.pc a k)
    (hk : ∀ lk, k ≠ .sleepSet R.chan lk)
    (hst : s'.state p = .sleeping → s'.chan p = some R.chan → Committed R s p) : Committed R s p := by
  rcases hp with ⟨lk, hp⟩ | ⟨hp, hch⟩
  · rw [hpc] at hp
    by_cases hpa : Agent.proc p = a
    · rw [hpa, update_self] at hp; exact absurd hp (hk lk)
    · rw [update_of_ne hpa] at hp; exact .inl ⟨lk, hp⟩
  · exact hst hp hch

namespace Inv

theorem act (h : Inv R s) (ho : ∀ q, a ≠ .proc q → Rely R s s' q)
    (hp : ∀ p, a = .proc p → PcOk R s' p (s'.pc (.proc p)))
    (hs : ∀ p, Committed R s' p → Threat R s' p → Served R s' p) : Inv R s' := by
  refine ⟨fun q => ?_, hs⟩
  by_cases hq : a = .proc q
  · exact hp q hq
  · exact (h.pc q).rely (ho q hq)

section
variable (h : Inv R s)
include h

theorem not_threat (hl : ∀ b, s.lock R.lk = some b → s.duty b ≠ .owes ∧ ∀ i, s.pc b ≠ .wakeup R.chan i)
    (hp : Committed R s p) : ¬ Threat R s p := fun hc => by
  obtain ⟨b, hb, ho | ⟨i, -, hi⟩⟩ := h.served p hp hc
  · exact (hl b hb).1 ho
  · exact (hl b hb).2 i hi

theorem at_ (hpc : s.pc (.proc p) = k) : PcOk R s p k := hpc ▸ h.pc p

theorem update {sh : σ} (hpc : s.pc a = .run) (hkeep : ∀ p, R.cond p sh → R.cond p s.sh) :
    Inv R { s with sh } := by
  refine h.act (a := a) (fun q _ => ⟨rfl, id, id, fun _ => id, rfl, fun _ => hkeep q⟩) ?_
    fun p hp hc => h.served p hp (hc.imp (hkeep p) id)
  rintro p rfl
  exact (show ({ s with sh } : SleepSys N C L Ch σ).pc (.proc p) = .run from hpc) ▸ h.at_ hpc

theorem setState {c : Fin N → Option Ch} {x : ProcState} (hx : x ≠ .sleeping) (hc : ∀ p, p ≠ q → c p = s.chan p) :
    Inv R ({ s with chan := c }.setState q x) := by
  have hq : ∀ p, Function.update s.state q x p = .sleeping → p ≠ q := by
    rintro p e rfl
    exact hx ((update_self ..).symm.trans e)
  have hstate : ∀ p, Function.update s.state q x p = .sleeping → s.state p = .sleeping := fun p e =>
    (update_of_ne (hq p e) ..).symm.trans e
  refine ⟨fun p => (h.pc p).rely ⟨rfl, hstate p, id, fun _ => id, rfl, fun _ => id⟩, fun p hp ht => ?_⟩
  have hp' : Committed R s p := hp.imp id fun ⟨e, hch⟩ => ⟨hstate p e, (hc p (hq p e)).symm.trans hch⟩
  exact h.served p hp' ht

theorem reuse {x : ProcState} (hx : x = .unused ∨ x = .used ∨ x = .runnable) :
    Inv R ((s.setChan q none).setState q x) := by
  refine h.setState ?_ fun p hp => update_of_ne hp ..
  rcases hx with rfl | rfl | rfl <;> nofun

theorem kill : Inv R (s.setState q .runnable) := h.setState nofun fun _ _ => rfl

variable [DecidableEq C] {state : Fin N → ProcState}

theorem served_goto {ch : Fin N → Option Ch} {plock : Fin N → Option (Agent N C)}
    {cpu : C → Option (Fin N)} (hold : ∀ i, s.pc a ≠ .wakeup R.chan i) (hk : ∀ lk, k ≠ .sleepSet R.chan lk)
    (hst : ∀ p, state p = .sleeping → ch p = some R.chan → Committed R s p) :
    ∀ p, Committed R ({ s with state, chan := ch, plock, cpu }.goto a k) p →
      Threat R ({ s with state, chan := ch, plock, cpu }.goto a k) p →
      Served R ({ s with state, chan := ch, plock, cpu }.goto a k) p := by
  intro p hp ht
  obtain ⟨b, hb, hw⟩ := h.served p (hp.of_update rfl hk (hst p)) ht
  refine ⟨b, hb, hw.imp id fun ⟨i, hi, hpb⟩ => ⟨i, hi, ?_⟩⟩
  have hba : b ≠ a := by rintro rfl; exact hold i hpb
  rw [goto_of_ne hba]; exact hpb

theorem served_release [DecidableEq L] (hold : ∀ i, s.pc a ≠ .wakeup R.chan i)
    (hl : s.lock l = some a) (ho : l = R.lk → s.duty a ≠ .owes) (hpc : s'.pc = Function.update s.pc a k)
    (hcom : Committed R s' p → Committed R s p) (hlock : s'.lock = Function.update s.lock l none)
    (hduty : s'.duty = s.duty) (hsh : s'.sh = s.sh) (hp : Committed R s' p) (ht : Threat R s' p) : Served R s' p := by
  by_cases hlk : R.lk = l
  · subst hlk
    have hnone : s'.lock R.lk = none := by rw [hlock, update_self]
    have hcond : R.cond p s.sh := hsh ▸ ht.resolve_right fun ⟨b, hb, _⟩ => absurd (hnone.symm.trans hb) nofun
    refine absurd (.inl hcond) (h.not_threat (fun b hb => ?_) (hcom hp))
    obtain rfl : b = a := Option.some.inj (hb.symm.trans hl)
    exact ⟨ho rfl, hold⟩
  · have hkeep : s'.lock R.lk = s.lock R.lk := by rw [hlock, update_of_ne hlk]
    obtain ⟨b, hb, hw⟩ := h.served p (hcom hp) (ht.of_eq hkeep hduty hsh)
    refine ⟨b, hkeep.trans hb, hw.imp (hduty ▸ id) fun ⟨i, hi, e⟩ => ⟨i, hi, ?_⟩⟩
    have hba : b ≠ a := by rintro rfl; exact hold i e
    rw [hpc, update_of_ne hba]; exact e

theorem acquire [DecidableEq L] (hpc : s.pc a = .run) (hl : s.lock l = none) :
    Inv R ((s.setLock l (some a)).setDuty a (if l = R.lk then .none else s.duty a)) := by
  have hkeep : ∀ {l' b}, s.lock l' = some b → Function.update s.lock l (some a) l' = some b := fun {l' b} hb => by
    have hne : l' ≠ l := by rintro rfl; rw [hl] at hb; cases hb
    exact (update_of_ne hne ..).trans hb
  refine h.act (a := a) (fun q hq => ⟨rfl, id, id, fun l' => hkeep, update_of_ne (Ne.symm hq) ..,
    fun _ => id⟩) ?_ fun p hp hc => ?_
  · rintro p rfl
    exact (show (s.setLock l none).pc (.proc p) = .run from hpc) ▸ h.at_ hpc
  · by_cases hlk : R.lk = l
    · -- the holder starts with no `wakeup` called, and there was nobody to serve `p` before
      subst hlk
      have hcond : R.cond p s.sh := hc.resolve_right fun ⟨b, hb, hd⟩ => by
        have hb : Function.update s.lock R.lk (some a) R.lk = some b := hb
        rw [update_self] at hb
        cases hb
        have hd : Function.update s.duty a (if R.lk = R.lk then .none else s.duty a) a = .paid := hd
        rw [update_self, if_pos rfl] at hd
        cases hd
      refine absurd (.inl hcond) (h.not_threat (fun b hb => ?_) hp)
      exact absurd (hl.symm.trans hb) nofun
    · have hdu : Function.update s.duty a (if l = R.lk then .none else s.duty a) = s.duty := by
        rw [if_neg (Ne.symm hlk), update_eq_self]
      have hlo : Function.update s.lock l (some a) R.lk = s.lock R.lk := update_of_ne hlk ..
      obtain ⟨b, hb, hw⟩ := h.served p hp (hc.of_eq hlo hdu rfl)
      exact ⟨b, hlo.trans hb, hw.imp (congrFun hdu b).trans id⟩

theorem release [DecidableEq L] (hpc : s.pc a = .run) (hl : s.lock l = some a)
    (ho : l = R.lk → s.duty a ≠ .owes) : Inv R (s.setLock l none) := by
  refine h.act (a := a) (fun q hq => ⟨rfl, id, id, fun l' hl' => ?_, rfl, fun _ => id⟩) ?_ fun p =>
    h.served_release (by rw [hpc]; nofun) hl ho (update_eq_self ..).symm id rfl rfl rfl
  · have hne : l' ≠ l := by rintro rfl; exact hq (Option.some.inj (hl.symm.trans hl'))
    exact (update_of_ne hne ..).trans hl'
  · rintro p rfl
    exact (show (s.setLock l none).pc (.proc p) = .run from hpc) ▸ h.at_ hpc

/-- The holder makes a condition true. If it has called `wakeup` before, nobody is left to be woken. -/
theorem make {sh : σ} (hpc : s.pc a = .run) (hl : s.lock R.lk = some a) :
    Inv R ({ s with sh }.setDuty a (s.duty a).make) := by
  refine h.act (a := a) (fun q hq => ⟨rfl, id, id, fun _ => id, update_of_ne (Ne.symm hq) ..,
    fun hq' _ => absurd (Option.some.inj (hl.symm.trans hq')) hq⟩) ?_ fun p hp _ => ⟨a, hl, .inl ?_⟩
  · rintro p rfl
    exact (show ({ s with sh } : SleepSys N C L Ch σ).pc (.proc p) = .run from hpc) ▸ h.at_ hpc
  · refine (update_self ..).trans ?_
    cases hd : s.duty a with
    | none | owes => rfl
    | paid =>
      refine absurd (.inr ⟨a, hl, hd⟩) (h.not_threat (fun b hb => ?_) (show Committed R s p from hp))
      obtain rfl : b = a := Option.some.inj (hb.symm.trans hl)
      exact ⟨by rw [hd]; nofun, by rw [hpc]; nofun⟩

theorem sleep (hpc : s.pc (.proc p) = .run) (hask : Asks R s p chan lk) :
    Inv R (s.goto (.proc p) (.sleepAcquire chan lk)) := by
  refine h.act (a := .proc p) (fun q hq => ⟨goto_of_ne (Ne.symm hq), id, id, fun _ => id, rfl, fun _ => id⟩) ?_
    (h.served_goto (by rw [hpc]; nofun) nofun fun _ h1 h2 => .inr ⟨h1, h2⟩)
  rintro _ ⟨⟩
  rw [goto_self]
  exact ⟨h.at_ hpc, hask.lock, hask.rule, hask.duty⟩

theorem sleepAcquire (hpc : s.pc (.proc p) = .sleepAcquire chan lk) :
    Inv R ((s.setPlock p (some (.proc p))).goto (.proc p) (.sleepRelease chan lk)) := by
  have hk := h.at_ hpc
  refine h.act (a := .proc p) (fun q hq => ⟨goto_of_ne (Ne.symm hq), id, fun e => ?_, fun _ => id, rfl,
    fun _ => id⟩) ?_
    (h.served_goto (by rw [hpc]; nofun) nofun fun _ h1 h2 => .inr ⟨h1, h2⟩)
  · have hqp : q ≠ p := fun e => hq (congrArg Agent.proc e.symm)
    exact (update_of_ne hqp ..).trans e
  · rintro _ ⟨⟩
    rw [goto_self]
    exact ⟨hk.1, update_self .., hk.2.lock, hk.2.rule, hk.2.duty⟩

/-- `release(lk)` in `sleep`: the condition of the caller is still false, and it owes nothing. -/
theorem sleepRelease [DecidableEq L] (hpc : s.pc (.proc p) = .sleepRelease chan lk) :
    Inv R ((s.setLock lk none).goto (.proc p) (.sleepSet chan lk)) := by
  obtain ⟨hst, hpl, hask⟩ := h.at_ hpc
  refine h.act (a := .proc p) (fun q hq => ⟨goto_of_ne (Ne.symm hq), id, id, fun l' hl' => ?_, rfl,
    fun _ => id⟩) ?_ fun q hq hc => ?_
  · have hne : l' ≠ lk := by rintro rfl; exact hq (Option.some.inj (hask.lock.symm.trans hl'))
    exact (update_of_ne hne ..).trans hl'
  · rintro _ ⟨⟩
    rw [goto_self]
    exact ⟨hst, hpl⟩
  · by_cases hqp : q = p
    · -- the caller itself: its condition is false, and nobody holds the lock
      subst hqp
      rcases hq with ⟨lk', hq⟩ | ⟨hq, -⟩
      · rw [goto_self] at hq
        cases hq
        obtain ⟨rfl, hn⟩ := hask.rule rfl
        rcases hc with hc | ⟨b, hb, -⟩
        · exact absurd hc hn
        · exact absurd ((update_self ..).symm.trans hb) nofun
      · exact absurd hq hst
    · refine h.served_release (by rw [hpc]; nofun) hask.lock hask.duty rfl (fun hq => ?_) rfl rfl rfl hq hc
      exact hq.imp (fun ⟨lk', e⟩ => ⟨lk', by rwa [goto_of_ne fun e => hqp (Agent.proc.inj e)] at e⟩) id

theorem sleepSet (hpc : s.pc (.proc p) = .sleepSet chan lk) :
    Inv R (((s.setChan p (some chan)).setState p .sleeping).goto (.proc p) (.sched true)) := by
  obtain ⟨-, hpl⟩ := h.at_ hpc
  refine h.act (a := .proc p) (fun q hq => ⟨goto_of_ne (Ne.symm hq), fun e => ?_, id, fun _ => id, rfl,
    fun _ => id⟩) ?_ (h.served_goto (by rw [hpc]; nofun) nofun fun q h1 h2 => ?_)
  · have hqp : q ≠ p := fun e => hq (congrArg Agent.proc e.symm)
    exact (update_of_ne hqp ..).symm.trans e
  · rintro _ ⟨⟩
    rw [goto_self]
    exact hpl
  · by_cases hqp : q = p
    · subst hqp
      have h2 : Function.update s.chan q (some chan) q = some R.chan := h2
      rw [update_self] at h2
      cases h2
      exact .inl ⟨lk, hpc⟩
    · exact .inr ⟨(update_of_ne hqp ..).symm.trans h1, (update_of_ne hqp ..).symm.trans h2⟩

theorem switch {x : ProcState} {ch : Fin N → Option Ch} {plock : Fin N → Option (Agent N C)}
    {cpu : C → Option (Fin N)} (hold : ∀ i, s.pc (.proc p) ≠ .wakeup R.chan i) (hk : ∀ lk, k ≠ .sleepSet R.chan lk)
    (hst : ∀ q, q ≠ p → state q = s.state q ∧ plock q = s.plock q ∧ ch q = s.chan q)
    (hp : state p = x) (hx : x = .sleeping → s.state p = .sleeping ∧ ch p = s.chan p)
    (hok : PcOk R ({ s with state, chan := ch, plock, cpu }.goto (.proc p) k) p k) :
    Inv R ({ s with state, chan := ch, plock, cpu }.goto (.proc p) k) := by
  refine h.act (a := .proc p) (fun q hq => ?_) ?_ (h.served_goto hold hk fun q h1 h2 => .inr ?_)
  · have hqp : q ≠ p := fun e => hq (congrArg Agent.proc e.symm)
    obtain ⟨h1, h2, -⟩ := hst q hqp
    exact ⟨goto_of_ne (Ne.symm hq), h1 ▸ id, h2 ▸ id, fun _ => id, rfl, fun _ => id⟩
  · rintro _ ⟨⟩
    rw [goto_self]
    exact hok
  · by_cases hqp : q = p
    · subst hqp
      obtain ⟨h3, h4⟩ := hx (hp.symm.trans h1)
      exact ⟨h3, h4 ▸ h2⟩
    · obtain ⟨h3, -, h4⟩ := hst q hqp
      exact ⟨h3 ▸ h1, h4 ▸ h2⟩

theorem yield (hpc : s.pc (.proc p) = .run) :
    Inv R (((s.setPlock p (some (.proc p))).setState p .runnable).goto (.proc p) (.sched false)) :=
  h.switch (by rw [hpc]; nofun) nofun
    (fun _ hq => ⟨update_of_ne hq .., update_of_ne hq .., rfl⟩) (update_self ..)
    nofun (update_self ..)

theorem swtch {c : C} {x : Bool} (hpc : s.pc (.proc p) = .sched x) :
    Inv R (((s.setCpu c none).setPlock p none).goto (.proc p) (.off x)) :=
  h.switch (by rw [hpc]; nofun) nofun (fun _ hq => ⟨rfl, update_of_ne hq .., rfl⟩) rfl
    (fun e => ⟨e, rfl⟩) trivial

theorem schedule {c : C} {x : Bool} (hpc : s.pc (.proc p) = .off x) :
    Inv R ((((s.setCpu c (some p)).setPlock p (some (.proc p))).setState p .running).goto (.proc p)
      (.resume x)) := by
  refine h.switch (by rw [hpc]; nofun) nofun
    (fun _ hq => ⟨update_of_ne hq .., update_of_ne hq .., rfl⟩) (update_self ..)
    nofun ⟨?_, update_self ..⟩
  rw [show (_ : SleepSys N C L Ch σ).state p = .running from update_self ..]
  nofun

theorem resumeSleep (hpc : s.pc (.proc p) = .resume true) :
    Inv R (((s.setChan p none).setPlock p none).goto (.proc p) .run) := by
  have hst := (h.at_ hpc).1
  exact h.switch (by rw [hpc]; nofun) nofun
    (fun _ hq => ⟨rfl, update_of_ne hq .., update_of_ne hq ..⟩) rfl
    (fun e => absurd e hst) hst

theorem resumeYield (hpc : s.pc (.proc p) = .resume false) : Inv R ((s.setPlock p none).goto (.proc p) .run) := by
  have hst := (h.at_ hpc).1
  exact h.switch (by rw [hpc]; nofun) nofun (fun _ hq => ⟨rfl, update_of_ne hq .., rfl⟩) rfl
    (fun e => absurd e hst) hst

theorem exit (hpc : s.pc (.proc p) = .run) (hl : s.lock lk = some (.proc p))
    (ho : lk = R.lk → s.duty (.proc p) ≠ .owes) :
    Inv R (((s.setPlock p (some (.proc p))).setState p .zombie).goto (.proc p) (.exitRelease lk)) := by
  refine h.switch (by rw [hpc]; nofun) nofun
    (fun _ hq => ⟨update_of_ne hq .., update_of_ne hq .., rfl⟩) (update_self ..)
    nofun ⟨?_, update_self .., hl, ho⟩
  rw [show (_ : SleepSys N C L Ch σ).state p = .zombie from update_self ..]
  nofun

theorem exitRelease [DecidableEq L] (hpc : s.pc (.proc p) = .exitRelease lk) :
    Inv R ((s.setLock lk none).goto (.proc p) (.sched false)) := by
  obtain ⟨-, hpl, hl, ho⟩ := h.at_ hpc
  refine h.act (a := .proc p) (fun q hq => ⟨goto_of_ne (Ne.symm hq), id, id, fun l' hl' => ?_, rfl,
    fun _ => id⟩) ?_ fun q => h.served_release (by rw [hpc]; nofun) hl ho rfl
      (fun hq => hq.of_update rfl nofun fun h1 h2 => .inr ⟨h1, h2⟩) rfl rfl rfl
  · have hne : l' ≠ lk := by rintro rfl; exact hq (Option.some.inj (hl.symm.trans hl'))
    exact (update_of_ne hne ..).trans hl'
  · rintro _ ⟨⟩
    rw [goto_self]
    exact hpl

theorem step_of_run {duty : Agent N C → Duty}
    (hrun : ∀ p, state p ≠ .sleeping → PcOk R ({ s with state, duty }.goto a k) p k)
    (ha : ∀ p, a = .proc p → s.state p ≠ .sleeping) (hst : ∀ p, state p = .sleeping → s.state p = .sleeping)
    (hduty : ∀ b, b ≠ a → duty b = s.duty b)
    (hs : ∀ p, Committed R ({ s with state, duty }.goto a k) p → Threat R ({ s with state, duty }.goto a k) p →
      Served R ({ s with state, duty }.goto a k) p) : Inv R ({ s with state, duty }.goto a k) := by
  refine h.act (a := a) (fun q hq => ⟨goto_of_ne (Ne.symm hq), hst q, id, fun _ => id, hduty _ (Ne.symm hq),
    fun _ => id⟩) ?_ hs
  rintro p rfl
  rw [goto_self]
  exact hrun p (mt (hst p) (ha p rfl))

/-- A call of `wakeup` pays what is owed on its channel: the loop starts before every process. -/
theorem wakeup [DecidableEq Ch] (hpc : s.pc a = .run) :
    Inv R ((s.setDuty a (if chan = R.chan then .paid else s.duty a)).goto a (.wakeup chan 0)) := by
  have hself : Function.update s.duty a (if chan = R.chan then .paid else s.duty a) a =
      if chan = R.chan then .paid else s.duty a := update_self ..
  have hother : ∀ b, b ≠ a → Function.update s.duty a (if chan = R.chan then .paid else s.duty a) b =
      s.duty b := fun b hb => update_of_ne hb ..
  refine h.step_of_run (a := a) (fun _ => id) ?_ (fun _ => id) hother fun p hp ht => ?_
  · rintro p rfl; exact h.at_ hpc
  have hp' : Committed R s p := hp.of_update rfl nofun fun h1 h2 => .inr ⟨h1, h2⟩
  by_cases hch : chan = R.chan ∧ s.lock R.lk = some a
  · exact ⟨a, hch.2, .inr ⟨0, Nat.zero_le _, by rw [goto_self, hch.1]⟩⟩
  · -- another than `a` holds the lock, or `a` calls on another channel
    have hdu : ∀ b, s.lock R.lk = some b →
        Function.update s.duty a (if chan = R.chan then .paid else s.duty a) b = s.duty b := by
      intro b hb
      by_cases hba : b = a
      · subst hba; rw [hself, if_neg fun e => hch ⟨e, hb⟩]
      · exact hother b hba
    have ht' : Threat R s p := ht.imp id fun ⟨b, hb, e⟩ => ⟨b, hb, (hdu b hb).symm.trans e⟩
    obtain ⟨b, hb, hw⟩ := h.served p hp' ht'
    refine ⟨b, hb, hw.imp (hdu b hb).trans fun ⟨i, hi, e⟩ => ⟨i, hi, ?_⟩⟩
    have hba : b ≠ a := by rintro rfl; rw [hpc] at e; cases e
    rw [goto_of_ne hba]; exact e

theorem served_round {i : Nat} (hpc : s.pc a = .wakeup chan i)
    (hk : ∀ lk, k ≠ .sleepSet R.chan lk) (hst : ∀ p, state p = .sleeping → s.state p = .sleeping)
    (hpass : ∀ p, Committed R s p → Committed R ({ s with state }.goto a k) p → chan = R.chan → i ≤ p.val →
      ∃ j ≤ p.val, k = .wakeup R.chan j) :
    ∀ p, Committed R ({ s with state }.goto a k) p → Threat R ({ s with state }.goto a k) p →
      Served R ({ s with state }.goto a k) p := by
  intro p hp hc
  have hp' : Committed R s p := hp.of_update rfl hk fun h1 h2 => .inr ⟨hst p h1, h2⟩
  obtain ⟨b, hb, hw⟩ := h.served p hp' hc
  refine ⟨b, hb, hw.imp id ?_⟩
  rintro ⟨j, hj, e⟩
  by_cases hba : b = a
  · subst hba
    cases hpc.symm.trans e
    obtain ⟨j', hj', hk'⟩ := hpass p hp' hp rfl hj
    exact ⟨j', hj', by rw [goto_self, hk']⟩
  · exact ⟨j, hj, by rw [goto_of_ne hba]; exact e⟩

theorem wakeupSelf (hpc : s.pc (.proc p) = .wakeup chan p) : Inv R (s.goto (.proc p) (.wakeup chan (p + 1))) := by
  have hst : s.state p ≠ .sleeping := h.at_ hpc
  refine h.step_of_run (a := .proc p) (fun _ => id) ?_ (fun _ => id) (fun _ _ => rfl)
    (h.served_round hpc nofun (fun _ => id) fun q hq _ hch hle => ?_)
  · rintro _ ⟨⟩; exact hst
  · -- a process in `wakeup` does not sleep
    have hqp : q ≠ p := by
      rintro rfl
      rcases hq with ⟨lk, e⟩ | ⟨e, -⟩
      · exact absurd (hpc.symm.trans e) nofun
      · exact hst e
    have : p.val ≠ q.val := fun e => hqp (Fin.ext e.symm)
    exact ⟨p + 1, by omega, by rw [hch]⟩

theorem wakeupOther [DecidableEq Ch] (hpc : s.pc a = .wakeup chan q)
    (hpl : s.plock q = none) : Inv R ((s.wake chan q).goto a (.wakeup chan (q + 1))) := by
  obtain ⟨state, hwake, hstate⟩ : ∃ state, s.wake chan q = { s with state } ∧
      ∀ p, state p = .sleeping → s.state p = .sleeping ∧ (p = q → s.chan q ≠ some chan) := by
    unfold wake
    split
    · refine ⟨_, rfl, fun p e => ?_⟩
      have hpq : p ≠ q := by
        rintro rfl
        exact absurd ((update_self ..).symm.trans e) nofun
      exact ⟨(update_of_ne hpq ..).symm.trans e, fun e => absurd e hpq⟩
    · rename_i hw
      exact ⟨s.state, rfl, fun p e => ⟨e, by rintro rfl hc; exact hw ⟨e, hc⟩⟩⟩
  rw [hwake]
  refine h.step_of_run (a := a) (fun _ => id) ?_ (fun p e => (hstate p e).1) (fun _ _ => rfl)
    (h.served_round hpc nofun (fun p e => (hstate p e).1) fun p hp hp' hch hle => ?_)
  · rintro p rfl; exact h.at_ hpc
  · -- `q` itself is not committed any more: `p->lock` is free, so it was `SLEEPING`
    have hpq : p ≠ q := by
      rintro rfl
      rcases hp' with ⟨lk, e⟩ | ⟨e, hc⟩
      · by_cases hpa : Agent.proc p = a
        · rw [hpa, goto_self] at e; cases e
        · rw [goto_of_ne hpa] at e
          exact absurd (hpl.symm.trans (h.at_ e).2) nofun
      · exact (hstate p e).2 rfl (hch ▸ hc)
    have : q.val ≠ p.val := fun e => hpq (Fin.ext e.symm)
    exact ⟨q + 1, by omega, by rw [hch]⟩

theorem wakeupDone (hpc : s.pc a = .wakeup chan N) : Inv R (s.goto a .run) := by
  refine h.step_of_run (a := a) (fun _ => id) ?_ (fun _ => id) (fun _ _ => rfl)
    (h.served_round hpc nofun (fun _ => id) fun p _ _ _ hle => ?_)
  · rintro p rfl; exact h.at_ hpc
  · exact absurd p.isLt (not_lt.mpr hle)

theorem step [DecidableEq L] [DecidableEq Ch] (hs : Step R s a e s') (hk : Keeps R s a e) : Inv R s' := by
  cases hs with
  | acquire _ pc hl => exact h.acquire pc hl
  | release _ pc hl => exact h.release pc hl hk
  | update _ pc keep => exact h.update pc keep
  | make _ pc _ => exact h.make pc hk
  | sleep _ pc hl => exact h.sleep pc ⟨hl, fun e => ⟨(hk.1 e).1, (hk.1 e).2 _ rfl⟩, hk.2⟩
  | sleepAcquire _ pc => exact h.sleepAcquire pc
  | sleepRelease _ pc => exact h.sleepRelease pc
  | sleepSet _ pc => exact h.sleepSet pc
  | resumeSleep _ pc => exact h.resumeSleep pc
  | exit _ pc hl => exact h.exit pc hl hk
  | exitRelease _ pc => exact h.exitRelease pc
  | reuse _ _ _ _ _ hx => exact h.reuse hx
  | yield _ pc => exact h.yield pc
  | swtch _ pc => exact h.swtch pc
  | schedule _ _ pc => exact h.schedule pc
  | resumeYield _ pc => exact h.resumeYield pc
  | wakeup _ pc => exact h.wakeup pc
  | wakeupSelf _ pc => exact h.wakeupSelf pc
  | wakeupOther _ pc _ hpl => exact h.wakeupOther pc hpl
  | wakeupDone _ pc => exact h.wakeupDone pc
  | kill => exact h.kill

end

theorem init (h : Init s) : Inv R s := by
  refine ⟨fun p => ?_, fun p hp => ?_⟩
  · rw [h.proc p]; trivial
  · rcases hp with ⟨lk, e⟩ | ⟨e, -⟩
    · rw [h.proc p] at e; cases e
    · exact absurd e (h.state p).1

theorem reach [DecidableEq C] [DecidableEq L] [DecidableEq Ch] (h : Trans.Reach Init (Next R) s) : Inv R s :=
  h.inv (fun _ => init) fun _ _ hi ⟨_, _, hs, hk⟩ => hi.step hs hk

/-- A sleeper whose condition is true is seen only while somebody holds the lock. -/
theorem not_sleeping (h : Inv R s) (hl : s.lock R.lk = none) (hs : s.state p = .sleeping)
    (hc : s.chan p = some R.chan) : ¬ R.cond p s.sh := fun hcond =>
  h.not_threat (fun _ hb => absurd (hl.symm.trans hb) nofun) (.inr ⟨hs, hc⟩) (.inl hcond)

end Inv

end SleepSys

end Xv6
