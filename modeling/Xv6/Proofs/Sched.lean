import Xv6.Proofs.SchedCpu

/-!
# One CPU per process
-/

namespace Xv6

namespace SchedSys

open Instr
open Function (update update_of_ne update_self)

variable {N : Nat} {C L Ch W : Type} {s s' : SchedSys N C L Ch W} {c c' : C} {t t' old new : Agent N C} {i : Instr N L Ch}
  {is k : List (Instr N L Ch)} {x : LockSet N L} {p q : Fin N}

variable [DecidableEq L] [DecidableEq C]

/-! ### The process table -/

variable {f : SchedProc N Ch → SchedProc N Ch} {n : Nat} {ps : List (Fin N)}

section
variable {k' : List (Instr N L Ch)}

theorem Forks.write (h : s.Forks) (hnot : ∀ p, t = .proc p → (s.proc p).state ≠ .used) (hcode : s.code t = i :: k)
    (hforks : forks k' = forks (i :: k)) (hmade : made k' = made (i :: k))
    (hf : (s.proc q).state = .used → (f (s.proc q)).state = .used) : (s.write q f n t k').Forks := by
  refine h.mono write_thread hnot ?_ ?_ fun t' np _ hu => ?_
  · rw [write_code, hcode, hforks]
  · rw [write_code, hcode, hmade]; exact fun _ hm => hm
  · rcases eq_or_ne np q with rfl | hne
    · rw [write_proc]; exact hf hu
    · rw [write_proc_of_ne hne]; exact hu

variable (h : s.Inv) (hon : (s.cpu c).exec = .run t)
include h hon

theorem Inv.proc_step (hcode : s.code t = i :: k) (hi : i ≠ .clearProc) (hlock : (s.lock (.proc q)).locked = some c)
    (hrun : t ≠ .proc q → (s.proc q).state = .running → (f (s.proc q)).state = .running)
    (hlive : ∀ p, t = .proc p → s.Live p → (s.write q f n t k').Live p)
    (hwt : ∀ x, s.Holds c x → Wt t (i :: k) x → Wt t k' x) (hcalm : Calm k')
    (hidle : t ≠ .proc q → (s.write q f n t k').Idle q → s.Idle q ∨ s.Rests q) (hforks : (s.write q f n t k').Forks) :
    (s.write q f n t k').Inv := by
  obtain ⟨hr, x, hx, hw⟩ := h.run_at hon hcode
  refine h.run_step hon ⟨fun _ _ => rfl, fun _ _ _ => Iff.rfl, fun _ _ _ _ => rfl, fun t' hne _ => write_thread t' hne,
    fun p hp hrunning => ?_, fun p hl => ?_⟩ ?_ hon rfl hlive ⟨x, ⟨hx.nodup, hx.mem, hx.noff⟩, ?_⟩ hr.depth hr.intr ?_
    (fun p hp hpi => ?_) h.spin hforks
  · rcases eq_or_ne p q with rfl | hne
    · rw [write_proc]; exact hrun hp hrunning
    · rw [write_proc_of_ne hne]; exact hrunning
  · rcases eq_or_ne p q with rfl | hne
    · exact absurd hlock hl
    · rw [write_proc_of_ne hne]
  · intro p k' hk
    rw [hcode] at hk
    exact absurd (List.cons.inj hk).1 hi
  · rw [write_code]; exact hwt x hx hw
  · rw [write_code]; exact Calm.head hcalm
  · rcases eq_or_ne p q with rfl | hne
    · exact (hidle hp hpi).imp_right fun hrests => hrests.frame (write_thread _ (Ne.symm hp))
    · refine .inl ?_
      unfold Idle at hpi ⊢
      rwa [write_proc_of_ne hne] at hpi

/-- A process that is not running is changed by one that holds its lock. -/
theorem Inv.other_step (hcode : s.code t = i :: k) (hi : i ≠ .clearProc) (hnp : ¬ Parked (i :: k))
    (hlock : (s.lock (.proc q)).locked = some c) (hrun : (s.proc q).state = .running → (f (s.proc q)).state = .running)
    (hwt : ∀ x, s.Holds c x → Wt t (i :: k) x → Wt t k' x) (hcalm : Calm k')
    (hidle : (s.write q f n t k').Idle q → s.Idle q ∨ s.Rests q) (hforks : (s.write q f n t k').Forks) :
    (s.write q f n t k').Inv := by
  refine h.proc_step hon hcode hi hlock (fun _ => hrun) ?_ hwt hcalm (fun _ => hidle) hforks
  rintro p rfl live
  refine .inl ?_
  have hstate := live.resolve_right fun hk => hnp (hcode ▸ hk.1)
  rcases eq_or_ne p q with rfl | hne
  · rw [write_proc]; exact hrun hstate
  · rw [write_proc_of_ne hne]; exact hstate

theorem Inv.own_step (hcode : s.code t = i :: k)
    (hi : i = .yieldState p ∨ (∃ chan, i = .sleepState p chan) ∨ i = .zombie p)
    (hf : (f (s.proc p)).state = .runnable ∨ (f (s.proc p)).state = .sleeping ∨ (f (s.proc p)).state = .zombie) :
    (s.write p f n t k).Inv := by
  obtain ⟨hne, hforks, hmade⟩ : i ≠ .clearProc ∧ forks k = forks (i :: k) ∧ made k = made (i :: k) := by
    rcases hi with rfl | ⟨chan, rfl⟩ | rfl <;> simp [forks, made]
  have hmem : ∀ x, Wt t (i :: k) x → t = .proc p ∧ .proc p ∈ x.locks ∧ Parked k ∧ Calm k ∧ Wt t k x := by
    rcases hi with rfl | ⟨chan, rfl⟩ | rfl <;> exact fun x hw => ⟨hw.1.1, hw.1.2.1, hw.1.2.2, hw.2.1, hw.2.2⟩
  obtain ⟨hr, x, hx, hw⟩ := h.run_at hon hcode
  obtain ⟨rfl, hmem', hparked, hcalm, -⟩ := hmem x hw
  refine h.proc_step hon hcode hne ((hx.mem _).1 hmem') (fun hne => absurd rfl hne) ?_ (fun x _ hw => (hmem x hw).2.2.2.2)
    hcalm (fun hne => absurd rfl hne) (h.fork.write hr.who.not_used hcode hforks hmade fun hu => absurd hu hr.who.ne_used)
  rintro q ⟨⟩ -
  refine .inr ⟨?_, ?_⟩
  · rw [write_code]; exact hparked
  · rw [write_proc]; exact hf

end

theorem Forks.drop {np : Fin N} {k' : List (Instr N L Ch)} (h : s.Forks) (hcode : s.code t = i :: k)
    (hnot : ∀ p, t = .proc p → (s.proc p).state ≠ .used) (hi : forks (i :: k) = np :: forks k) (hk : forks k' = forks k)
    (hm : ∀ q ∈ made k', q ∈ made (i :: k)) : (s.write np f n t k').Forks := by
  have hnp : np ∈ forks (s.code t) := by
    rw [hcode, hi]
    exact List.mem_cons_self
  refine h.mono write_thread hnot ?_ ?_ fun t' q hq hu => ?_
  · rw [write_code, hk, hcode, hi]; exact List.sublist_cons_self ..
  · rw [write_code, hcode]; exact hm
  · rw [write_proc_of_ne]
    · exact hu
    rintro rfl
    rcases eq_or_ne t' t with rfl | hne
    · have hnd := h.nodup t'
      rw [hcode, hi] at hnd
      rw [write_code, hk] at hq
      exact (List.nodup_cons.1 hnd).1 hq
    · rw [write_code_of_ne hne] at hq
      exact hne (h.uniq _ _ _ hq hnp)

theorem Forks.add {np : Fin N} {k' : List (Instr N L Ch)} (h : s.Forks) (hcode : s.code t = i :: k)
    (hnot : ∀ p, t = .proc p → (s.proc p).state ≠ .used) (hu : (s.proc np).state = .unused)
    (hf : (f (s.proc np)).state = .used) (hi : forks (i :: k) = forks k) (hk : forks k' = np :: forks k)
    (hm : made k' = made (i :: k)) : (s.write np f n t k').Forks := by
  have hfresh : ∀ t', np ∉ forks (s.code t') := fun t' hq => by cases hu.symm.trans (h.used t' np hq)
  have hnew : ∀ t', ∀ q ∈ forks ((s.write np f n t k').code t'), t' = t ∧ q = np ∨ q ∈ forks (s.code t') := by
    intro t' q hq
    rcases eq_or_ne t' t with rfl | hne
    · rw [write_code, hk] at hq
      rw [hcode, hi]
      exact (List.mem_cons.1 hq).imp_left fun hq => ⟨rfl, hq⟩
    · rw [write_code_of_ne hne] at hq
      exact .inr hq
  refine ⟨fun t' q hq => ?_, h.uniq.step (i := t) (fun t' hne q hq => ?_) (fun q hq => ?_), fun t' => ?_, fun t' q hq => ?_⟩
  · rcases hnew t' q hq with ⟨-, rfl⟩ | hq'
    · rw [write_proc]; exact hf
    · rw [write_proc_of_ne (by rintro rfl; exact hfresh t' hq')]; exact h.used t' q hq'
  · exact (hnew t' q hq).resolve_left fun ht => hne ht.1
  · rcases hnew t q hq with ⟨-, rfl⟩ | hq
    · exact .inr fun t' _ => hfresh t'
    · exact .inl hq
  · rcases eq_or_ne t' t with rfl | hne
    · have hnd := h.nodup t'
      have hf' := hfresh t'
      rw [hcode, hi] at hnd hf'
      rw [write_code, hk]
      exact List.nodup_cons.2 ⟨hf', hnd⟩
    · rw [write_code_of_ne hne]; exact h.nodup t'
  · have hold : q ∈ made (s.code t') := by
      rcases eq_or_ne t' t with rfl | hne
      · rw [write_code, hm] at hq; rw [hcode]; exact hq
      · rw [write_code_of_ne hne] at hq; exact hq
    refine (h.rests t' q hold).frame (write_thread _ ?_)
    rintro rfl
    exact hnot q rfl (h.used t' q (mem_forks_of_made hold))

section
variable [DecidableEq Ch] (h : s.Inv) (hon : (s.cpu c).exec = .run t)
include h hon

theorem Inv.wakeOne {chan : Chan N Ch} (hcode : s.code t = .wakeOne chan q :: k) :
    ((s.setProc q (SchedProc.wakeup chan)).goto t k).Inv := by
  obtain ⟨hr, x, hx, hw⟩ := h.run_at hon hcode
  refine h.other_step (n := s.nextpid) hon hcode (by simp) (fun hp => hp) ((hx.mem _).1 hw.1) ?_ (fun x _ hw => hw.2.2) hw.2.1 ?_
    (h.fork.write hr.who.not_used hcode rfl rfl ?_)
  · simp +contextual [SchedProc.wakeup]
  · unfold Idle
    rw [write_proc, SchedProc.wakeup]
    split
    · next hs => exact fun _ => .inl (.inr hs.1)
    · exact .inl
  · simp +contextual [SchedProc.wakeup]

end

section
variable (h : s.Inv) (hon : (s.cpu c).exec = .run t)
include h hon

theorem Inv.killFound {pid : Nat} (hcode : s.code t = .killOne pid q ps :: k) :
    ((s.setProc q SchedProc.kill).goto t (.release (.proc q) :: k)).Inv := by
  obtain ⟨hr, x, hx, hw⟩ := h.run_at hon hcode
  refine h.other_step (n := s.nextpid) hon hcode (by simp) (fun hp => hp) ((hx.mem _).1 hw.1) ?_
    (fun x _ hw => ⟨trivial, hw.2.1, hw.2.2⟩) (by simp [midway]) ?_ (h.fork.write hr.who.not_used hcode rfl rfl ?_)
  · simp +contextual [SchedProc.kill]
  · unfold Idle
    rw [write_proc]
    simp only [SchedProc.kill]
    split
    · next hs => exact fun _ => .inl (.inr hs)
    · exact .inl
  · simp +contextual [SchedProc.kill]

theorem Inv.forkState (hcode : s.code t = .forkState q :: k) :
    ((s.setProc q fun x => { x with state := .runnable }).goto t k).Inv := by
  obtain ⟨hr, x, hx, hw⟩ := h.run_at hon hcode
  have hused := h.fork.used t q (by rw [hcode]; exact List.mem_cons_self)
  refine h.other_step (n := s.nextpid) hon hcode (by simp) (fun hp => hp) ((hx.mem _).1 hw.1)
    (fun hs => by cases hused.symm.trans hs) (fun x _ hw => hw.2.2) hw.2.1 (fun _ => .inr ?_)
    (h.fork.drop hcode hr.who.not_used rfl rfl fun _ hq => List.mem_cons_of_mem _ hq)
  exact h.fork.rests t q (by rw [hcode]; exact List.mem_cons_self)

theorem Inv.forkFail (hcode : s.code t = i :: k) (hi : i = .initContext q ∨ i = .copy q) :
    ((s.setProc q SchedProc.freeproc).goto t (.leaf :: .release (.proc q) :: k)).Inv := by
  obtain ⟨hr, x, hx, hw⟩ := h.run_at hon hcode
  have hused := h.fork.used t q (by rw [hcode]; rcases hi with rfl | rfl <;> exact List.mem_cons_self)
  refine h.other_step (n := s.nextpid) hon hcode ?_ ?_ ((hx.mem _).1 ?_) (fun hs => by cases hused.symm.trans hs) ?_
    (by simp [midway]) ?_ (h.fork.drop hcode hr.who.not_used ?_ rfl ?_)
  · rcases hi with rfl | rfl <;> simp
  · rcases hi with rfl | rfl <;> exact fun hp => hp
  · rcases hi with rfl | rfl <;> exact hw.1
  · rcases hi with rfl | rfl <;> exact fun x _ hw => ⟨trivial, by simp [Next, midway], trivial, hw.2.1, hw.2.2⟩
  · unfold Idle
    rw [write_proc]
    rintro (hs | hs) <;> cases hs
  · rcases hi with rfl | rfl <;> rfl
  · rcases hi with rfl | rfl
    · exact fun _ hq => hq
    · exact fun _ hq => List.mem_cons_of_mem _ hq

theorem Inv.waitFree (hcode : s.code t = .waitOne p q ps :: k) (hz : (s.proc q).state = .zombie) :
    ((s.setProc q SchedProc.freeproc).goto t (.leaf :: .release (.proc q) :: .release .wait :: k)).Inv := by
  obtain ⟨hr, x, hx, hw⟩ := h.run_at hon hcode
  refine h.other_step (n := s.nextpid) hon hcode (by simp) (fun hp => hp) ((hx.mem _).1 ?_)
    (fun hs => by cases hz.symm.trans hs) ?_ (by simp [midway]) ?_
    (h.fork.write hr.who.not_used hcode rfl rfl fun hu => by cases hz.symm.trans hu)
  · rw [hw.1.2]; exact List.mem_cons_self
  · rintro x - ⟨⟨rfl, rfl⟩, hnext, hw⟩
    simpa [Wt, Needs, Next, midway, eff] using ⟨hnext, hw⟩
  · unfold Idle
    rw [write_proc]
    rintro (hs | hs) <;> cases hs

theorem Inv.quiet_proc {k' : List (Instr N L Ch)} (hcode : s.code t = i :: k) (hi : i ≠ .clearProc) (hnp : ¬ Parked (i :: k))
    (hf : (f (s.proc q)).state = (s.proc q).state) (hwt : ∀ x, Wt t (i :: k) x → Wt t k' x) (hcalm : Calm k')
    (hforks : forks k' = forks (i :: k)) (hmade : made k' = made (i :: k)) : (s.write q f n t k').Inv := by
  have hr := (h.on c).run hon
  obtain ⟨x, hx, hw⟩ := hr.held
  refine h.quiet_step hon ?_ (fun _ _ => rfl) write_thread rfl (fun p => ?_) hon rfl ?_
    ⟨x, ⟨hx.nodup, hx.mem, hx.noff⟩, ?_⟩ (fun hd => hd) hr.intr ?_ ?_ ?_
  · simp [hcode, hi]
  · rcases eq_or_ne p q with rfl | hne
    · rw [write_proc, hf]
    · rw [write_proc_of_ne hne]
  · rw [hcode]; exact fun _ _ hp => absurd hp hnp
  · rw [write_code]; exact hwt x (hcode ▸ hw)
  · rw [write_code]; exact Calm.head hcalm
  · rw [write_code, hcode, hforks]
  · rw [write_code, hcode, hmade]; exact fun _ hnp => hnp

theorem Inv.allocFound (hcode : s.code t = .allocOne q ps :: k) (hu : (s.proc q).state = .unused) :
    (({ s with nextpid := s.nextpid + 1 }.setProc q fun x => { x with pid := s.nextpid, state := .used }).goto t
      (.leaf :: .initContext q :: k)).Inv := by
  obtain ⟨hr, x, hx, hw⟩ := h.run_at hon hcode
  refine h.other_step hon hcode (by simp) (fun hp => hp) ((hx.mem _).1 hw.1) (fun hs => by cases hu.symm.trans hs)
    (fun x _ hw => ⟨trivial, by simp [Next, midway], hw.1, hw.2.1, hw.2.2⟩) (by simp [midway]) ?_
    (h.fork.add hcode hr.who.not_used hu rfl rfl rfl rfl)
  unfold Idle
  rw [write_proc]
  rintro (hs | hs) <;> cases hs

theorem Inv.initContext (hcode : s.code t = .initContext q :: k) {s' : SchedSys N C L Ch W}
    (hs' : s' = ({ s.goto (.proc q) (forkretBody q) with
      context := update s.context (.proc q) (s.newContext q)
      snap := update s.snap (.proc q) (s.newContext q)
      depth := update s.depth (.proc q) 1
      entry := update s.entry (.proc q) none }.goto t (.leaf :: .copy q :: k))) : s'.Inv := by
  obtain ⟨hr, x, hx, hw⟩ := h.run_at hon hcode
  have hused := h.fork.used t q (by rw [hcode]; exact List.mem_cons_self)
  have hnot := hr.who.not_used
  have hqt : .proc q ≠ t := fun he => hnot q he.symm hused
  -- the thread itself, the new process and the others
  have ht : s'.code t = .leaf :: .copy q :: k ∧ s'.depth t = s.depth t := by
    rw [hs']
    exact ⟨goto_code, update_of_ne (Ne.symm hqt) ..⟩
  have hq : s'.code (.proc q) = forkretBody q := by
    rw [hs', goto_code_of_ne hqt]
    exact goto_code
  have hnew : s'.Rests q := ⟨.inr hq, by rw [hs']; exact update_self ..⟩
  have hother : ∀ t', t' ≠ t → t' ≠ .proc q → s'.code t' = s.code t' ∧ s'.depth t' = s.depth t' := by
    intro t' hne hq
    rw [hs']
    exact ⟨(goto_code_of_ne hne).trans (goto_code_of_ne hq), update_of_ne hq ..⟩
  have hcpu : s'.cpu = s.cpu := by rw [hs']; rfl
  have hlock : s'.lock = s.lock := by rw [hs']; rfl
  have hproc : s'.proc = s.proc := by rw [hs']; rfl
  clear hs'
  refine h.run_step hon ⟨fun _ _ => by rw [hcpu], fun _ _ _ => by rw [hlock], fun _ _ _ _ => by rw [hlock],
    fun t' hne hi => hother t' hne fun hq => hi q k hq hcode, fun q _ hq => by rw [hproc]; exact hq, fun q _ => by rw [hproc]⟩
    ?_ (by rw [hcpu]; exact hon) (by rw [hcpu]) ?_ ⟨x, ⟨hx.nodup, fun lk => ?_, ?_⟩, ?_⟩ ?_ ?_ ?_ (fun p _ hidle => .inl ?_)
    (by rw [hlock]; exact h.spin) ?_
  · intro p k' hk
    cases hcode.symm.trans hk
  · rintro p rfl live
    refine .inl ?_
    rw [hproc]
    refine live.resolve_right fun hk => ?_
    rw [hcode] at hk
    exact hk.1
  · rw [hlock]; exact hx.mem lk
  · rw [hcpu]; exact hx.noff
  · rw [ht.1]; exact ⟨trivial, by simp [Next, midway], hw.1, hw.2.1, hw.2.2⟩
  · rw [ht.2, hcpu]; exact hr.depth
  · rw [hcpu]; exact hr.intr
  · rw [ht.1]; exact trivial
  · unfold Idle at hidle ⊢
    rwa [hproc] at hidle
  · exact h.fork.context hcode hnot hproc ht.1 hnew hq hother

end

/-! ### `swtch` -/

section
variable (h : s.Inv) (hon : (s.cpu c).exec = .run t)
include h hon

theorem Inv.sched {b : Bool} (hcode : s.code t = .sched :: k) (my : (s.cpu c).proc = some p)
    (hintr : (s.cpu c).intr = false) : ((s.swtch c (.proc p) (.cpu c)).goto t (.restore b :: k)).Inv := by
  have hr := (h.on c).run hon
  obtain rfl := hr.myproc my (by simp [hcode])
  obtain ⟨x, hx, hw⟩ := hr.held
  rw [hcode] at hw
  obtain ⟨⟨q, hq, rfl⟩, hnext, hw⟩ := hw
  cases hq
  have hwaits : s.Waits c p := by
    cases hr.who with
    | proc waits live => exact waits
  have hthread : ∀ t', t' ≠ .proc p → ((s.swtch c (.proc p) (.cpu c)).goto (.proc p) (.restore b :: k)).code t' = s.code t' ∧
      s.depth t' = s.depth t' := fun t' hne => ⟨goto_code_of_ne hne, rfl⟩
  refine h.of_change hr.who.belongs ⟨fun c' hne => swtch_cpu_of_ne hne, fun _ _ _ => Iff.rfl, fun _ _ _ _ => rfl,
    fun t' hne _ => hthread t' hne, fun _ _ hq => hq, fun _ _ => rfl⟩ (fun q k => hr.initContext)
    (Switches.on (p := p) (j := 0) ⟨?_, ⟨.inl ⟨b, k, goto_code, hnext, hw⟩, ?_⟩, ⟨hx.nodup, hx.mem, ?_⟩, ?_, .inr ⟨rfl, rfl⟩⟩ ?_)
    (fun q hq => .inl ?_) (fun q hidle hno => ?_) h.spin
    (h.fork.mono hthread hr.who.not_used ?_ ?_ fun _ _ _ hu => hu)
  · refine ⟨by rw [swtch_cpu]; exact my, ?_, hwaits.depth⟩
    rw [(hthread _ (by rintro ⟨⟩)).1]
    exact hwaits.code
  · exact hr.depth.trans hx.noff
  · rw [swtch_cpu]; exact hx.noff
  · rw [swtch_cpu]; exact hintr
  · rw [swtch_cpu]
  · rw [swtch_cpu] at hq; exact hq
  · have hqp : q ≠ p := by
      rintro rfl
      exact hno c (by rw [swtch_cpu]; exact my)
    refine (h.off q hidle fun c' hq => hno c' ?_).frame (hthread _ fun he => hqp (Agent.proc.inj he))
    rcases eq_or_ne c' c with rfl | hne
    · rw [swtch_cpu]; exact hq
    · rw [swtch_cpu_of_ne hne]; exact hq
  · rw [goto_code, hcode]; exact List.Sublist.refl _
  · rw [goto_code, hcode]; exact fun _ hnp => hnp

theorem Inv.dispatch (hcode : s.code t = .dispatch p :: k) (hs : (s.proc p).state = .runnable) :
    ((((s.setProc p fun x => { x with state := .running }).setCpu c fun x => { x with proc := some p }).swtch c
      (.cpu c) (.proc p)).goto t (.clearProc :: k)).Inv := by
  obtain ⟨hr, x, hx, hw⟩ := h.run_at hon hcode
  obtain ⟨⟨⟨c₀, rfl⟩, rfl⟩, hnext, hw⟩ := hw
  have hlock := (hx.mem _).1 (List.mem_singleton_self _)
  have hn : c₀ = c ∧ (s.cpu c).proc = none := by
    cases hr.who with
    | idle hn => exact ⟨rfl, hn⟩
    | back _ hk => cases hcode.symm.trans hk
  obtain ⟨rfl, hn⟩ := hn
  have hno := h.not_proc hlock hs hn
  generalize hs' : ((((s.setProc p fun x => { x with state := .running }).setCpu c₀ fun x => { x with proc := some p }).swtch c₀
    (.cpu c₀) (.proc p)).goto (.cpu c₀) (.clearProc :: k)) = s'
  have hcpu : s'.cpu c₀ = { s.cpu c₀ with proc := some p, exec := .swtch (.cpu c₀) (.proc p) 0 } := by
    rw [← hs', swtch_cpu, setCpu_cpu]
    rfl
  have hcpu' : ∀ c', c' ≠ c₀ → s'.cpu c' = s.cpu c' := by
    intro c' hne
    rw [← hs', swtch_cpu_of_ne hne, setCpu_cpu_of_ne hne]
    rfl
  have hproc : (s'.proc p).state = .running := by
    rw [← hs']
    change (update s.proc p { s.proc p with state := .running } p).state = _
    rw [update_self]
  have hproc' : ∀ q, q ≠ p → s'.proc q = s.proc q := by
    intro q hne
    rw [← hs']
    exact update_of_ne hne ..
  have hthread : ∀ t', t' ≠ .cpu c₀ → s'.code t' = s.code t' ∧ s'.depth t' = s.depth t' := by
    intro t' hne
    rw [← hs']
    exact ⟨goto_code_of_ne hne, rfl⟩
  have hcode' : s'.code (.cpu c₀) = .clearProc :: k := by rw [← hs', goto_code]
  have hdepth' : s'.depth (.cpu c₀) = s.depth (.cpu c₀) := by rw [← hs']; rfl
  have hlock' : s'.lock = s.lock := by rw [← hs']; rfl
  clear hs'
  refine h.of_change (.inl rfl) ⟨hcpu', fun _ _ _ => by rw [hlock'], fun _ _ _ _ => by rw [hlock'], fun t' hne _ => hthread t' hne,
    fun q _ hq => ?_, fun q hl => ?_⟩ (fun q k => hr.initContext)
    (Switches.on (p := p) (j := 0) ⟨⟨by rw [hcpu], ⟨k, hcode', hnext, hw⟩, ?_⟩, ?_, ⟨hx.nodup, fun lk => ?_, ?_⟩, ?_, .inl ⟨rfl, rfl, hproc⟩⟩
      (by rw [hcpu]))
    (fun q hq => .inr ?_) (fun q hidle hno' => ?_) (by rw [hlock']; exact h.spin) (h.fork.mono hthread ?_ ?_ ?_ fun t' np _ hu => ?_)
  · rcases eq_or_ne q p with rfl | hne
    · exact hproc
    · rw [hproc' q hne]; exact hq
  · rw [hproc' q (by rintro rfl; exact hl hlock)]
  · rw [hdepth', hr.depth]; exact hx.noff
  · exact (h.off p (.inl hs) hno).frame (hthread _ (by rintro ⟨⟩))
  · rw [hlock']; exact hx.mem lk
  · rw [hcpu]; exact hx.noff
  · rw [hcpu]
    by_contra hi
    have h0 := hr.intr (by simpa using hi)
    rw [hx.noff] at h0
    cases h0
  · rw [hcpu] at hq
    cases hq
    exact fun c' _ => hno c'
  · have hqp : q ≠ p := by
      rintro rfl
      exact hno' c₀ (by rw [hcpu])
    have hidle' : s.Idle q := by
      unfold Idle at hidle ⊢
      rwa [hproc' q hqp] at hidle
    refine (h.off q hidle' fun c' hq => ?_).frame (hthread _ (by rintro ⟨⟩))
    rcases eq_or_ne c' c₀ with rfl | hne
    · cases hn.symm.trans hq
    · exact hno' c' (by rw [hcpu' c' hne]; exact hq)
  · rintro q ⟨⟩
  · rw [hcode', hcode]; exact List.Sublist.refl _
  · rw [hcode', hcode]; exact fun _ hnp => hnp
  · rw [hproc' np (by rintro rfl; cases hs.symm.trans hu)]; exact hu

theorem Inv.clearProc (hcode : s.code t = .clearProc :: k) :
    ((s.setCpu c fun x => { x with proc := none }).goto t k).Inv := by
  obtain ⟨hr, x, hx, hw⟩ := h.run_at hon hcode
  obtain ⟨⟨c₀, rfl⟩, hnext, hw⟩ := hw
  have hc : c₀ = c := by
    cases hr.who with
    | idle | back => rfl
  subst hc
  generalize hs' : (s.setCpu c₀ fun x => { x with proc := none }).goto (.cpu c₀) k = s'
  have hcpu : s'.cpu c₀ = { s.cpu c₀ with proc := none } := by
    rw [← hs']
    exact update_self ..
  have hcpu' : ∀ c', c' ≠ c₀ → s'.cpu c' = s.cpu c' := by
    intro c' hne
    rw [← hs']
    exact update_of_ne hne ..
  have hthread : ∀ t', t' ≠ .cpu c₀ → s'.code t' = s.code t' ∧ s'.depth t' = s.depth t' := by
    intro t' hne
    rw [← hs']
    exact ⟨goto_code_of_ne hne, rfl⟩
  have hcode' : s'.code (.cpu c₀) = k := by rw [← hs', goto_code]
  have hrest : s'.depth = s.depth ∧ s'.lock = s.lock ∧ s'.proc = s.proc := by
    rw [← hs']
    exact ⟨rfl, rfl, rfl⟩
  clear hs'
  obtain ⟨hdepth, hlock, hproc⟩ := hrest
  refine h.of_change (.inl rfl) ⟨hcpu', fun _ _ _ => by rw [hlock], fun _ _ _ _ => by rw [hlock], fun t' hne _ => hthread t' hne,
    fun q _ hq => by rw [hproc]; exact hq, fun q _ => by rw [hproc]⟩ (fun q k => hr.initContext)
    (Runs.on ⟨.idle (by rw [hcpu]), ⟨x, ⟨hx.nodup, fun lk => ?_, ?_⟩, by rw [hcode']; exact hw⟩, ?_, ?_, ?_⟩
      (by rw [hcpu]; exact hon))
    (fun q hq => ?_) (fun q hidle hno => ?_) (by rw [hlock]; exact h.spin) (h.fork.mono hthread ?_ ?_ ?_ fun t' np _ hu => ?_)
  · rw [hlock]; exact hx.mem lk
  · rw [hcpu]; exact hx.noff
  · rw [hdepth, hcpu]; exact hr.depth
  · rw [hcpu]; exact hr.intr
  · rw [hcode']; exact Calm.head hnext
  · rw [hcpu] at hq
    cases hq
  · have hrests : s.Rests q := by
      by_cases hq : (s.cpu c₀).proc = some q
      · cases hr.who with
        | idle hn => cases hn.symm.trans hq
        | back hp _ _ hrests => cases hp.symm.trans hq; exact hrests
      refine h.off q ?_ fun c' hc' => ?_
      · unfold Idle at hidle
        rwa [hproc] at hidle
      · exact hno c' (by rw [hcpu' c' (by rintro rfl; exact hq hc')]; exact hc')
    exact hrests.frame (hthread _ (by rintro ⟨⟩))
  · rintro q ⟨⟩
  · rw [hcode', hcode]; exact List.Sublist.refl _
  · rw [hcode', hcode]; exact fun _ hnp => hnp
  · rw [hproc]; exact hu

theorem Inv.panic {e : SchedPanic} (hcode : s.code t = i :: k) (hp : s.Panics c i e) :
    (s.setCpu c fun x => { x with exec := .halted t e }).Inv := by
  obtain ⟨hr, x, hx, hw⟩ := h.run_at hon hcode
  have hcpu : (s.setCpu c fun x => { x with exec := .halted t e }).cpu c = { s.cpu c with exec := .halted t e } := setCpu_cpu
  refine h.of_change hr.who.belongs ⟨fun c' hne => setCpu_cpu_of_ne hne, fun _ _ _ => Iff.rfl, fun _ _ _ _ => rfl,
    fun _ _ _ => ⟨rfl, rfl⟩, fun _ _ hq => hq, fun _ _ => rfl⟩ (fun q k => hr.initContext) ?_ (fun q hq => .inl ?_)
    (fun q hidle hno => (h.off q hidle fun c' hc' => hno c' ?_).frame ⟨rfl, rfl⟩) h.spin ⟨h.fork.used, h.fork.uniq, h.fork.nodup, fun t' np hnp => ?_⟩
  · unfold On
    rw [hcpu]
    refine ⟨fun p hp => ?_, fun p hp => ?_, fun hbad => ?_⟩
    · subst hp
      rw [hcpu]
      rcases hr.who.belongs with hc | ⟨q, hq, hc⟩
      · cases hc
      · cases hq
        exact hc
    · rw [hcpu] at hp
      exact (h.on c).own hp
    · have hn := hx.noff
      cases hp with
      | popOffInterruptible hi =>
        have hpos : 1 ≤ x.pushes := hw.1
        have := hr.intr hi
        omega
      | popOff hlt =>
        have hpos : 1 ≤ x.pushes := hw.1
        omega
      | schedLocks hne =>
        obtain ⟨⟨q, -, rfl⟩, -⟩ := hw
        exact hne hn
      | schedInterruptible hi =>
        obtain ⟨⟨q, -, rfl⟩, -⟩ := hw
        cases hn.symm.trans (hr.intr hi)
      | panic e =>
        rcases hw.1 with rfl | rfl <;> exact hbad
      | _ => exact hbad
  · rw [hcpu] at hq
    exact hq
  · rcases eq_or_ne c' c with rfl | hne
    · rw [hcpu]; exact hc'
    · rw [setCpu_cpu_of_ne hne]; exact hc'
  · exact (h.fork.rests t' np hnp).frame ⟨rfl, rfl⟩

end

theorem Inv.save {r : Reg} (h : s.Inv) (hon : (s.cpu c).exec = .swtch old new r) :
    ({ s.setCpu c fun x => { x with exec := .swtch old new (r + 1) } with
      context := update s.context old (update (s.context old) r ((s.cpu c).regs r)) } :
        SchedSys N C L Ch W).Inv :=
  h.swtch_move hon (fun _ hne => update_of_ne hne ..) (update_self ..) rfl rfl rfl rfl

theorem Inv.load {r : Reg} (h : s.Inv) (hon : (s.cpu c).exec = .swtch old new (14 + r)) : (s.setCpu c fun x =>
      { x with exec := .swtch old new (14 + r + 1), regs := update x.regs r (s.context new r) }).Inv :=
  h.swtch_move hon (fun _ hne => update_of_ne hne ..) (update_self ..) rfl rfl rfl rfl

theorem Inv.swtchRet {j : Nat} (h : s.Inv) (hon : (s.cpu c).exec = .swtch old new j) :
    (s.setCpu c fun x => { x with exec := .run new }).Inv := by
  generalize hs' : (s.setCpu c fun x => { x with exec := .run new }) = s'
  have hcpu : s'.cpu c = { s.cpu c with exec := .run new } := by rw [← hs', setCpu_cpu]
  have hcpu' : ∀ c', c' ≠ c → s'.cpu c' = s.cpu c' := by
    intro c' hne
    rw [← hs', setCpu_cpu_of_ne hne]
  have hrest : s'.code = s.code ∧ s'.depth = s.depth ∧ s'.lock = s.lock ∧ s'.proc = s.proc := by
    rw [← hs']
    exact ⟨rfl, rfl, rfl, rfl⟩
  clear hs'
  obtain ⟨hcode, hdepth, hlock, hprocs⟩ := hrest
  refine h.swtch_step hon hcpu' (by rw [hcpu]) hcode hdepth hlock hprocs fun p hp => Runs.on (t := new) ?_ (by rw [hcpu])
  have hnoff : (s'.cpu c).noff = 1 := by rw [hcpu]; exact hp.holds.noff
  have hheld : s'.Holds c (.only p) := ⟨hp.holds.nodup, by rw [hlock]; exact hp.holds.mem, hnoff⟩
  have hintr : (s'.cpu c).intr = true → (s'.cpu c).noff = 0 := by
    rw [hcpu]
    exact fun hi => by cases hp.intr.symm.trans hi
  have hrests : s'.Rests p := hp.rests.frame (by rw [hcode, hdepth]; exact ⟨rfl, rfl⟩)
  have hwaits : s'.Waits c p :=
    ⟨by rw [hcpu]; exact hp.waits.proc, by rw [hcode]; exact hp.waits.code, by rw [hdepth]; exact hp.waits.depth⟩
  rcases hp.way with ⟨-, rfl, hrun⟩ | ⟨-, rfl⟩
  · exact ⟨.proc hwaits (.inl (by rw [hprocs]; exact hrun)), ⟨_, hheld, hrests.wt⟩, hrests.depth.trans hnoff.symm, hintr, hrests.head⟩
  · obtain ⟨k, hk, -⟩ := hwaits.code
    exact ⟨.back hwaits.proc hk ((hheld.mem _).1 (List.mem_singleton_self _)) hrests, ⟨_, hheld, hwaits.wt⟩,
      hwaits.depth.trans hnoff.symm, hintr, hwaits.head⟩

/-! ### Runs -/

variable [DecidableEq Ch]

theorem Inv.does (h : s.Inv) (hon : (s.cpu c).exec = .run t) (hcode : s.code t = i :: k) (hd : s.Does c t i s' is) :
    (s'.goto t (is ++ k)).Inv := by
  cases hd with
  | sret => exact h.sret hon hcode
  | intrOff => exact h.intrOff hon hcode
  | noffInc => exact h.noffInc hon hcode
  | noffDec => exact h.noffDec hon hcode
  | popOn => exact h.popOn hon hcode
  | testAndSet hfree => exact h.testAndSet hon hcode hfree
  | setCpu => exact h.setLockCpu hon hcode
  | clearCpu => exact h.clearLockCpu hon hcode
  | unlock => exact h.unlock hon hcode
  | sched my lock locks running intr => exact h.sched hon hcode my intr
  | restore => exact h.restore hon hcode
  | yieldState => exact h.own_step (n := s.nextpid) hon hcode (.inl rfl) (.inl rfl)
  | sleepState => exact h.own_step (n := s.nextpid) hon hcode (.inr (.inl ⟨_, rfl⟩)) (.inr (.inl rfl))
  | clearChan | setParent =>
    obtain ⟨-, x, -, hw⟩ := h.run_at hon hcode
    exact h.quiet_proc (n := s.nextpid) hon hcode (by simp) (fun hp => hp) rfl (fun _ hw => hw.2.2) hw.2.1 rfl rfl
  | intrOn => exact h.intrOn hon hcode
  | dispatch state => exact h.dispatch hon hcode state
  | clearProc => exact h.clearProc hon hcode
  | wakeOne => exact h.wakeOne hon hcode
  | killFound => exact h.killFound hon hcode
  | allocFound hu => exact h.allocFound hon hcode hu
  | initContext => exact h.initContext hon hcode rfl
  | allocFail => exact h.forkFail hon hcode (.inl rfl)
  | copyFail => exact h.forkFail hon hcode (.inr rfl)
  | forkState => exact h.forkState hon hcode
  | reparentChild =>
    refine h.quiet_proc (n := s.nextpid) hon hcode (by simp) (fun hp => hp) rfl (fun x hw => ?_) (by simp [midway]) rfl rfl
    exact ⟨trivial, by simp [Next, midway], trivial, hw.2.1, hw.2.2⟩
  | zombie => exact h.own_step (n := s.nextpid) hon hcode (.inr (.inr rfl)) (.inr (.inr rfl))
  | waitFree hz => exact h.waitFree hon hcode hz

theorem Inv.step (h : s.Inv) (hst : Step s c s') : s'.Inv := by
  cases hst with
  | expand on code he => exact h.expand on code he
  | instr on code hd => exact h.does on code hd
  | panic on code hp => exact h.panic on code hp
  | call on code hc => exact h.call on code hc
  | ret on code depth => exact h.ret on code depth
  | intrOn on code depth => exact h.setIntr on code fun _ => depth
  | intrOff on code => exact h.setIntr on code (by rintro ⟨⟩)
  | compute regs on => exact h.compute on regs
  | trap on intr => exact h.trap on intr
  | save on => exact h.save on
  | load on => exact h.load on
  | swtchRet on => exact h.swtchRet on

theorem Inv.reach (h : Reachable s) : s.Inv := by
  refine Trans.Reach.inv (P := fun s => s.Inv) (fun _ hi => hi.inv) ?_ h
  rintro s s' hinv ⟨c, hst⟩
  exact hinv.step hst

/-- Two CPUs whose schedulers have come to `initproc`: CPU `false` has its lock, and CPU `true` spins. -/
def firstScan : { s : SchedSys 2 Bool Unit Unit Bool // Reachable s } :=
  let s₀ : SchedSys 2 Bool Unit Unit Bool :=
    { cpu := fun c => ⟨none, 0, false, false, fun _ => true, .run (.cpu c)⟩
      proc := fun p => ⟨if p = 0 then .runnable else .unused, none, false, 1, none⟩
      lock := fun _ => ⟨none, none⟩
      nextpid := 2
      initproc := 0
      context := fun _ _ => false
      newContext := fun _ _ => false
      code := fun t => if t = .proc 0 then forkretBody 0 else if t = .proc 1 then [] else [.scheduler]
      snap := fun _ _ => false
      depth := fun t => if t = .proc 0 then 1 else 0
      entry := fun _ => none }
  have h : Reachable s₀ := .of_init ⟨fun _ => rfl, fun _ => rfl, fun _ => rfl, fun _ => rfl, fun _ => rfl, fun _ => rfl,
    fun _ => rfl, fun _ hp => if_neg hp, rfl, fun _ => rfl, fun _ => rfl, rfl, rfl, rfl, fun p hp => by
      obtain rfl : p = 1 := Fin.eq_one_of_ne_zero p hp
      rfl⟩
  have h := h.tail ⟨true, .expand (t := .cpu true) rfl rfl .scheduler⟩
  have h := h.tail ⟨true, .instr (t := .cpu true) rfl rfl .intrOn⟩
  have h := h.tail ⟨true, .expand (t := .cpu true) rfl rfl .scanNext⟩
  have h := h.tail ⟨true, .expand (t := .cpu true) rfl rfl .acquire⟩
  have h := h.tail ⟨true, .expand (t := .cpu true) rfl rfl .pushOff⟩
  have h := h.tail ⟨true, .instr (t := .cpu true) rfl rfl .intrOff⟩
  have h := h.tail ⟨true, .instr (t := .cpu true) rfl rfl .noffInc⟩
  have h := h.tail ⟨true, .expand (t := .cpu true) rfl rfl (.testHolding fun hh => hh.1 rfl)⟩
  have h := h.tail ⟨false, .expand (t := .cpu false) rfl rfl .scheduler⟩
  have h := h.tail ⟨false, .instr (t := .cpu false) rfl rfl .intrOn⟩
  have h := h.tail ⟨false, .expand (t := .cpu false) rfl rfl .scanNext⟩
  have h := h.tail ⟨false, .expand (t := .cpu false) rfl rfl .acquire⟩
  have h := h.tail ⟨false, .expand (t := .cpu false) rfl rfl .pushOff⟩
  have h := h.tail ⟨false, .instr (t := .cpu false) rfl rfl .intrOff⟩
  have h := h.tail ⟨false, .instr (t := .cpu false) rfl rfl .noffInc⟩
  have h := h.tail ⟨false, .expand (t := .cpu false) rfl rfl (.testHolding fun hh => hh.1 rfl)⟩
  have h := h.tail ⟨false, .instr (t := .cpu false) rfl rfl (.testAndSet rfl)⟩
  ⟨_, h.tail ⟨false, .instr (t := .cpu false) rfl rfl .setCpu⟩⟩

/-- CPU `false` calls `swtch` to `initproc`. -/
def firstDispatch : { s : SchedSys 2 Bool Unit Unit Bool // Step firstScan.1 false s } :=
  ⟨_, .instr (t := .cpu false) rfl rfl (.dispatch rfl)⟩

theorem reachable_firstDispatch : Reachable firstDispatch.1 := firstScan.2.tail ⟨_, firstDispatch.2⟩

theorem Does.state_locked (hd : s.Does c t i s' is) (hx : s.Holds c x) (hw : Needs t k x i)
    (hne : (s'.proc p).state ≠ (s.proc p).state) : (s.lock (.proc p)).locked = some c := by
  have hset : ∀ {q : Fin N} {y : SchedProc N Ch}, s'.proc = update s.proc q y →
      y.state = (s.proc q).state ∨ .proc q ∈ x.locks → (s.lock (.proc p)).locked = some c := by
    intro q y hs hq
    rw [hs] at hne
    by_cases hp : p = q
    · subst hp
      rw [update_self] at hne
      exact (hx.mem _).1 (hq.resolve_left hne)
    · rw [update_of_ne hp] at hne
      exact absurd rfl hne
  cases hd with
  | yieldState | sleepState | zombie => exact hset rfl (.inr hw.2.1)
  | dispatch | waitFree => exact hset rfl (.inr (by rw [hw.2]; exact List.mem_cons_self))
  | wakeOne | killFound | allocFound | allocFail | copyFail | forkState => exact hset rfl (.inr hw)
  | clearChan | setParent | reparentChild => exact hset rfl (.inl rfl)
  | _ => exact absurd rfl hne

/-- No handler runs on a CPU that holds a spinlock, and nobody but the CPU that holds `p->lock` changes `p->state`. -/
theorem lock_discipline (h : Reachable s) :
    (∀ c lk, (s.lock lk).locked = some c → (∀ t e, (s.cpu c).exec ≠ .halted t e) → (s.cpu c).intr = false) ∧
    ∀ c s' p, Step s c s' → (s'.proc p).state ≠ (s.proc p).state → (s.lock (.proc p)).locked = some c := by
  have hinv := Inv.reach h
  refine ⟨fun c lk hl hne => ?_, fun c s' p hst hne => ?_⟩
  · have hon := hinv.on c
    unfold On at hon
    split at hon
    · obtain ⟨x, hx, -⟩ := hon.held
      have hpos := List.length_pos_of_mem ((hx.mem lk).2 hl)
      have hnoff := hx.noff
      refine Bool.eq_false_iff.2 fun hi => ?_
      have := hon.intr hi
      omega
    · obtain ⟨p, hsw⟩ := hon
      exact hsw.intr
    · rename_i t e he
      exact absurd he (hne t e)
  · cases hst with
    | instr on code hd =>
      obtain ⟨x, hx, hw⟩ := ((hinv.on c).run on).held
      rw [code] at hw
      exact hd.state_locked hx hw.1 hne
    | _ => exact absurd rfl hne

/-- The scheduler that sets the state of `initproc` has its lock, while another spins on it. -/
theorem lock_discipline_first : ∃ s s' : SchedSys 2 Bool Unit Unit Bool, Reachable s ∧ Step s false s' ∧
    (s.proc 0).state = .runnable ∧ (s'.proc 0).state = .running ∧ (s.lock (.proc 0)).locked = some false ∧
    (s.cpu false).intr = false ∧ (s.code (.cpu true)).head? = some (.testAndSet (.proc 0)) := by
  have h := lock_discipline firstScan.2
  have hlock := h.2 false _ 0 firstDispatch.2 (by decide)
  refine ⟨_, _, firstScan.2, firstDispatch.2, rfl, rfl, hlock, h.1 false _ hlock fun t e he => ?_, rfl⟩
  cases he

end SchedSys

end Xv6
