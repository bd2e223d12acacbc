import Xv6.Proofs.Sched

/-!
# Contexts are saved

A thread that no CPU executes has its registers in its context, as they were when it called `swtch`, or as
`allocproc` set them; while `swtch` saves them, the part that is saved is there and the rest still in the CPU.
-/

namespace Xv6

namespace SchedSys

open Instr
open Function (update update_of_ne update_self)

variable {N : Nat} {C L Ch W : Type} {s s' : SchedSys N C L Ch W} {c c' : C} {t t' old new : Agent N C} {i : Instr N L Ch}
  {is k : List (Instr N L Ch)} {p q : Fin N}

inductive Busy (s : SchedSys N C L Ch W) (c : C) (t : Agent N C) : Prop
  | run (exec : (s.cpu c).exec = .run t)
  | halted {e} (exec : (s.cpu c).exec = .halted t e)
  | save {new j} (exec : (s.cpu c).exec = .swtch t new j) (lt : j < 14)

/-- CPU `c` executes on the kernel stack of `p`: the thread of `p`, or `swtch` from it or to it. -/
inductive Executes (s : SchedSys N C L Ch W) (c : C) (p : Fin N) : Prop
  | run (exec : (s.cpu c).exec = .run (.proc p))
  | halted {e} (exec : (s.cpu c).exec = .halted (.proc p) e)
  | leave {new j} (exec : (s.cpu c).exec = .swtch (.proc p) new j)
  | enter {old j} (exec : (s.cpu c).exec = .swtch old (.proc p) j)

structure Saved (s : SchedSys N C L Ch W) : Prop where
  off : ∀ t, (∀ c, ¬ s.Busy c t) → s.context t = s.snap t
  done : ∀ {c old new j}, (s.cpu c).exec = .swtch old new j → ∀ r : Reg, r < j → s.context old r = s.snap old r
  todo : ∀ {c old new j}, (s.cpu c).exec = .swtch old new j → ∀ r : Reg, j ≤ r → (s.cpu c).regs r = s.snap old r

theorem Busy.congr (h : s.Busy c t) (hexec : (s'.cpu c).exec = (s.cpu c).exec) : s'.Busy c t := by
  cases h with
  | run he => exact .run (hexec.trans he)
  | halted he => exact .halted (hexec.trans he)
  | save he lt => exact .save (hexec.trans he) lt

theorem Saved.congr (h : s.Saved) (hexec : ∀ c, (s'.cpu c).exec = (s.cpu c).exec ∧ (s'.cpu c).regs = (s.cpu c).regs)
    (hctx : s'.context = s.context) (hsnap : s'.snap = s.snap) : s'.Saved := by
  refine ⟨fun t ht => ?_, fun he r hr => ?_, fun he r hr => ?_⟩
  · rw [hctx, hsnap]
    exact h.off t fun c hb => ht c (hb.congr (hexec c).1)
  · rw [(hexec _).1] at he
    rw [hctx, hsnap]
    exact h.done he r hr
  · rw [(hexec _).1] at he
    rw [(hexec _).2, hsnap]
    exact h.todo he r hr

theorem Saved.swtch (h : s.Saved) (hon : (s.cpu c).exec = .run old)
    (hother : ∀ c', c' ≠ c → s'.cpu c' = s.cpu c') (hexec : (s'.cpu c).exec = .swtch old new 0)
    (hregs : (s'.cpu c).regs = (s.cpu c).regs) (hctx : s'.context = s.context)
    (hsnap : ∀ t, t ≠ old → s'.snap t = s.snap t) (hold : s'.snap old = (s.cpu c).regs)
    (huniq : ∀ {c' new j}, c' ≠ c → (s.cpu c').exec ≠ .swtch old new j) : s'.Saved := by
  have hne : ∀ {c' old' new' j}, c' ≠ c → (s.cpu c').exec = .swtch old' new' j → old' ≠ old := by
    rintro c' old' new' j hne he rfl
    exact huniq hne he
  refine ⟨fun t ht => ?_, fun {c' old' new' j} he r hr => ?_, fun {c' old' new' j} he r hr => ?_⟩
  · have hto : t ≠ old := by
      rintro rfl
      exact ht c (.save hexec (by decide))
    rw [hctx, hsnap t hto]
    refine h.off t fun c' hb => ?_
    rcases eq_or_ne c' c with rfl | hc
    · cases hb with
      | run he => exact hto (Exec.run.inj (he.symm.trans hon))
      | halted he | save he => cases hon.symm.trans he
    · exact ht c' (hb.congr (by rw [hother c' hc]))
  · rcases eq_or_ne c' c with rfl | hc
    · cases hexec.symm.trans he
      cases hr
    · rw [hother c' hc] at he
      rw [hctx, hsnap _ (hne hc he)]
      exact h.done he r hr
  · rcases eq_or_ne c' c with rfl | hc
    · cases hexec.symm.trans he
      rw [hregs, hold]
    · rw [hother c' hc] at he ⊢
      rw [hsnap _ (hne hc he)]
      exact h.todo he r hr

theorem Saved.exec (h : s.Saved) (hother : ∀ c', c' ≠ c → s'.cpu c' = s.cpu c')
    (hexec : ∀ old new j, (s'.cpu c).exec ≠ .swtch old new j) (hbusy : ∀ t, s.Busy c t → s'.Busy c t)
    (hctx : s'.context = s.context) (hsnap : s'.snap = s.snap) : s'.Saved := by
  refine ⟨fun t ht => ?_, fun {c' old' new' j} he r hr => ?_, fun {c' old' new' j} he r hr => ?_⟩
  · rw [hctx, hsnap]
    refine h.off t fun c' hb => ht c' ?_
    rcases eq_or_ne c' c with rfl | hc
    · exact hbusy t hb
    · exact hb.congr (by rw [hother c' hc])
  · have hc : c' ≠ c := fun hc => hexec _ _ _ (hc ▸ he)
    rw [hother c' hc] at he
    rw [hctx, hsnap]
    exact h.done he r hr
  · have hc : c' ≠ c := fun hc => hexec _ _ _ (hc ▸ he)
    rw [hother c' hc] at he ⊢
    rw [hsnap]
    exact h.todo he r hr

theorem Saved.load {j : Nat} (h : s.Saved) (hon : (s.cpu c).exec = .swtch old new j) (hj : 14 ≤ j)
    (hother : ∀ c', c' ≠ c → s'.cpu c' = s.cpu c') (hexec : (s'.cpu c).exec = .swtch old new (j + 1))
    (hctx : s'.context = s.context) (hsnap : s'.snap = s.snap) : s'.Saved := by
  refine ⟨fun t ht => ?_, fun {c' old' new' j'} he r hr => ?_, fun {c' old' new' j'} he r hr => ?_⟩
  · rw [hctx, hsnap]
    refine h.off t fun c' hb => ?_
    rcases eq_or_ne c' c with rfl | hc
    · cases hb with
      | run he | halted he => cases hon.symm.trans he
      | save he lt =>
        cases hon.symm.trans he
        omega
    · exact ht c' (hb.congr (by rw [hother c' hc]))
  · rw [hctx, hsnap]
    rcases eq_or_ne c' c with rfl | hc
    · cases hexec.symm.trans he
      exact h.done hon r (by omega)
    · rw [hother c' hc] at he
      exact h.done he r hr
  · rcases eq_or_ne c' c with rfl | hc
    · cases hexec.symm.trans he
      omega
    · rw [hother c' hc] at he ⊢
      rw [hsnap]
      exact h.todo he r hr

theorem Saved.save {r : Reg} (h : s.Saved) (hon : (s.cpu c).exec = .swtch old new r)
    (hother : ∀ c', c' ≠ c → s'.cpu c' = s.cpu c') (hexec : (s'.cpu c).exec = .swtch old new (r + 1))
    (hregs : (s'.cpu c).regs = (s.cpu c).regs) (hctx : ∀ t, t ≠ old → s'.context t = s.context t)
    (hr : s'.context old r = (s.cpu c).regs r) (hr' : ∀ r', r' ≠ r → s'.context old r' = s.context old r')
    (hsnap : s'.snap = s.snap) (huniq : ∀ {c' new j}, c' ≠ c → (s.cpu c').exec ≠ .swtch old new j) : s'.Saved := by
  -- register `r` is saved now
  have hdone : ∀ r' : Reg, r' < r.val + 1 → s'.context old r' = s'.snap old r' := by
    intro r' hlt
    rw [hsnap]
    rcases eq_or_ne r' r with rfl | hne
    · rw [hr]
      exact h.todo hon r' (le_rfl)
    · rw [hr' r' hne]
      exact h.done hon r' (by have := Fin.val_ne_of_ne hne; omega)
  refine ⟨fun t ht => ?_, fun {c' old' new' j'} he r' hlt => ?_, fun {c' old' new' j'} he r' hle => ?_⟩
  · rcases eq_or_ne t old with rfl | hto
    · have hlast : 14 ≤ r.val + 1 := by
        by_contra hlt
        exact ht c (.save hexec (by omega))
      exact funext fun r' => hdone r' (by omega)
    · rw [hctx t hto, hsnap]
      refine h.off t fun c' hb => ?_
      rcases eq_or_ne c' c with rfl | hc
      · cases hb with
        | run he | halted he => cases hon.symm.trans he
        | save he lt =>
          cases hon.symm.trans he
          exact hto rfl
      · exact ht c' (hb.congr (by rw [hother c' hc]))
  · rcases eq_or_ne c' c with rfl | hc
    · cases hexec.symm.trans he
      exact hdone r' hlt
    · rw [hother c' hc] at he
      rw [hctx _ (by rintro rfl; exact huniq hc he), hsnap]
      exact h.done he r' hlt
  · rcases eq_or_ne c' c with rfl | hc
    · cases hexec.symm.trans he
      rw [hregs, hsnap]
      exact h.todo hon r' (by omega)
    · rw [hother c' hc] at he ⊢
      rw [hsnap]
      exact h.todo he r' hle

theorem Saved.context (h : s.Saved) (hcpu : s'.cpu = s.cpu) (hctx : ∀ t', t' ≠ t → s'.context t' = s.context t')
    (hsnap : ∀ t', t' ≠ t → s'.snap t' = s.snap t') (ht : s'.context t = s'.snap t)
    (hno : ∀ {c new j}, (s.cpu c).exec ≠ .swtch t new j) : s'.Saved := by
  refine ⟨fun t' ht' => ?_, fun {c' old' new' j'} he r hr => ?_, fun {c' old' new' j'} he r hr => ?_⟩
  · rcases eq_or_ne t' t with rfl | hne
    · exact ht
    · rw [hctx t' hne, hsnap t' hne]
      exact h.off t' fun c hb => ht' c (hb.congr (by rw [hcpu]))
  · rw [hcpu] at he
    have hne : old' ≠ t := by rintro rfl; exact hno he
    rw [hctx _ hne, hsnap _ hne]
    exact h.done he r hr
  · rw [hcpu] at he ⊢
    rw [hsnap _ (by rintro rfl; exact hno he)]
    exact h.todo he r hr

theorem Init.saved (h : s.Init) : s.Saved := by
  refine ⟨fun t _ => (h.snap t).symm, fun he => ?_, fun he => ?_⟩ <;> cases (h.exec _).symm.trans he

theorem update_exec [DecidableEq C] {y : Cpu N C W} (hy : y.exec = (s.cpu c).exec ∧ y.regs = (s.cpu c).regs) (c' : C) :
    (update s.cpu c y c').exec = (s.cpu c').exec ∧ (update s.cpu c y c').regs = (s.cpu c').regs := by
  rcases eq_or_ne c' c with rfl | hne
  · rw [update_self]; exact hy
  · rw [update_of_ne hne]; exact ⟨rfl, rfl⟩

section
variable [DecidableEq L]

theorem Inv.not_swtch (h : s.Inv) (hb : s.Belongs c t) {j : Nat} (hne : c' ≠ c) : (s.cpu c').exec ≠ .swtch t new j :=
  fun he => hne (h.belongs_unique ((h.on c').belongs he).1 hb)

theorem Inv.initContext_not_proc (h : s.Inv) (hon : (s.cpu c).exec = .run t) (hcode : s.code t = .initContext q :: k) (c' : C) :
    (s.cpu c').proc ≠ some q := by
  intro hp
  have hr := (h.on c).run hon
  have hused := h.fork.used t q (by rw [hcode]; exact List.mem_cons_self)
  rcases (h.on c').own hp with hrun | hl
  · cases hused.symm.trans hrun
  · cases (hr.initContext hcode).symm.trans hl
    obtain rfl := hr.myproc hp (by simp [hcode])
    exact hr.who.ne_used hused

theorem Inv.proc_of_executes (h : s.Inv) (he : s.Executes c p) : (s.cpu c).proc = some p := by
  have hbel : s.Belongs c (.proc p) → (s.cpu c).proc = some p := by
    rintro (hc | ⟨q, hq, hp⟩)
    · cases hc
    · cases hq
      exact hp
  cases he with
  | run he => exact hbel ((h.on c).run he).who.belongs
  | halted he =>
    have hon := h.on c
    unfold On at hon
    rw [he] at hon
    exact hon.proc p rfl
  | leave he => exact hbel ((h.on c).belongs he).1
  | enter he => exact hbel ((h.on c).belongs he).2

theorem Inv.not_executes_of_zombie {ps : List (Fin N)} (h : s.Inv) (hon : (s.cpu c).exec = .run t)
    (hcode : s.code t = .waitOne p q ps :: k) (hz : (s.proc q).state = .zombie) (c' : C) : ¬ s.Executes c' q := by
  intro he
  have hp := h.proc_of_executes he
  obtain ⟨hr, x, hx, hw⟩ := h.run_at hon hcode
  have hlock : (s.lock (.proc q)).locked = some c := (hx.mem _).1 (by rw [hw.1.2]; exact List.mem_cons_self)
  rcases (h.on c').own hp with hrun | hl
  · cases hz.symm.trans hrun
  · cases hlock.symm.trans hl
    obtain rfl := hr.myproc hp (by simp [hcode])
    have hlive : s.Live q := by
      cases hr.who with
      | proc _ live => exact live
    rcases hlive with hrun | ⟨hparked, -⟩
    · cases hz.symm.trans hrun
    · rw [hcode] at hparked
      exact hparked

variable [DecidableEq C] [DecidableEq Ch]

theorem Saved.does (h : s.Saved) (hinv : s.Inv) (hon : (s.cpu c).exec = .run t) (hcode : s.code t = i :: k)
    (hd : s.Does c t i s' is) : (s'.goto t (is ++ k)).Saved := by
  have hr := (hinv.on c).run hon
  cases hd with
  | sched my lock locks running intr =>
    obtain rfl := hr.myproc my (by simp [hcode])
    exact h.swtch hon (fun c' hne => swtch_cpu_of_ne hne) (by rw [swtch_cpu]) (by rw [swtch_cpu]) rfl
      (fun t ht => update_of_ne ht ..) (update_self ..) (hinv.not_swtch hr.who.belongs)
  | dispatch state =>
    obtain ⟨x, -, hw⟩ := hr.held
    rw [hcode] at hw
    obtain ⟨⟨⟨c₀, rfl⟩, -⟩, -⟩ := hw
    have hc : c₀ = c := by
      cases hr.who with
      | idle | back => rfl
    subst hc
    refine h.swtch hon (fun c' hne => ?_) (by rw [swtch_cpu]) (by rw [swtch_cpu, setCpu_cpu]; rfl) rfl
      (fun t ht => update_of_ne ht ..) ?_ (hinv.not_swtch (.inl rfl))
    · rw [swtch_cpu_of_ne hne, setCpu_cpu_of_ne hne]; rfl
    · refine (update_self ..).trans ?_
      rw [setCpu_cpu]
      rfl
  | @initContext np =>
    refine h.context (t := .proc np) rfl (fun t' hne => update_of_ne hne ..)
      (fun t' hne => update_of_ne hne ..) ?_ ?_
    · change update s.context (.proc np) (s.newContext np) (.proc np) =
        update s.snap (.proc np) (s.newContext np) (.proc np)
      rw [update_self, update_self]
    · intro c' new j he
      rcases ((hinv.on c').belongs he).1 with hc | ⟨q, hq, hp⟩
      · cases hc
      · cases hq
        exact hinv.initContext_not_proc hon hcode c' hp
  | testAndSet | setCpu | clearCpu | unlock | yieldState | sleepState | clearChan | wakeOne | killFound | allocFound
  | allocFail | copyFail | setParent | forkState | reparentChild | zombie | waitFree =>
    exact h.congr (fun _ => ⟨rfl, rfl⟩) rfl rfl
  | sret | intrOff | noffInc | noffDec | popOn | restore | intrOn | clearProc =>
    exact h.congr (update_exec (c := c) ⟨rfl, rfl⟩) rfl rfl

theorem Saved.step (h : s.Saved) (hinv : s.Inv) (hst : Step s c s') : s'.Saved := by
  cases hst with
  | expand | call | ret => exact h.congr (fun _ => ⟨rfl, rfl⟩) rfl rfl
  | instr on code hd => exact h.does hinv on code hd
  | intrOn | intrOff | trap => exact h.congr (update_exec (c := c) ⟨rfl, rfl⟩) rfl rfl
  | panic on code hp =>
    have hexec : ∀ {e t}, ((s.setCpu c fun x => { x with exec := .halted t e }).cpu c).exec = .halted t e := by
      intro e t
      rw [setCpu_cpu]
    refine h.exec (fun c' hne => setCpu_cpu_of_ne hne) ?_ (fun t hb => ?_) rfl rfl
    · intro _ _ _ he
      cases hexec.symm.trans he
    · cases hb with
      | run he =>
        cases on.symm.trans he
        exact .halted hexec
      | halted he | save he => cases on.symm.trans he
  | compute regs on =>
    have hexec : ((s.setCpu c fun x => { x with regs }).cpu c).exec = (s.cpu c).exec := by rw [setCpu_cpu]
    refine h.exec (fun c' hne => setCpu_cpu_of_ne hne) ?_ (fun t hb => hb.congr hexec) rfl rfl
    intro _ _ _ he
    cases (hexec.trans on).symm.trans he
  | save on =>
    rename_i old new r
    have hcpu : (s.setCpu c fun x => { x with exec := .swtch old new (r + 1) }).cpu c =
      { s.cpu c with exec := .swtch old new (r + 1) } := setCpu_cpu
    have hctx : ∀ r', update s.context old (update (s.context old) r ((s.cpu c).regs r)) old r' =
        update (s.context old) r ((s.cpu c).regs r) r' := fun r' => by rw [update_self]
    refine h.save on (fun c' hne => update_of_ne hne ..) ?_ ?_ (fun t ht => update_of_ne ht ..)
      ((hctx r).trans (update_self ..)) (fun r' hne => (hctx r').trans (update_of_ne hne ..)) rfl
      (hinv.not_swtch ((hinv.on c).belongs on).1)
    · change ((s.setCpu c fun x => { x with exec := .swtch old new (r + 1) }).cpu c).exec = _
      rw [hcpu]
    · change ((s.setCpu c fun x => { x with exec := .swtch old new (r + 1) }).cpu c).regs = _
      rw [hcpu]
  | load on =>
    exact h.load on (by omega) (fun c' hne => update_of_ne hne ..) (by rw [setCpu_cpu]) rfl rfl
  | swtchRet on =>
    have hexec : ∀ {t}, ((s.setCpu c fun x => { x with exec := .run t }).cpu c).exec = .run t := by
      intro t
      rw [setCpu_cpu]
    refine h.exec (fun c' hne => setCpu_cpu_of_ne hne) ?_ (fun t hb => ?_) rfl rfl
    · intro _ _ _ he
      cases hexec.symm.trans he
    · cases hb with
      | run he | halted he => cases on.symm.trans he
      | save he lt =>
        cases on.symm.trans he
        omega

theorem Saved.reach (h : Reachable s) : s.Saved := by
  refine Trans.Reach.inv_of (P := fun s => s.Saved) (fun _ hi => hi.saved) ?_ h
  rintro s s' hr hsaved ⟨c, hst⟩
  exact hsaved.step (Inv.reach hr) hst

/-- A process is `c->proc` of at most one CPU, and a CPU that executes it is that CPU. Whenever a scheduler switches
to `p->context`, the context is what `p` left in the registers when it last called `swtch`, or what `allocproc`
set, and no other CPU executes on the stack of `p`. No CPU executes a process that `wait` frees. -/
theorem one_cpu (h : Reachable s) :
    (∀ c c' p, (s.cpu c).proc = some p → (s.cpu c').proc = some p → c = c') ∧
    (∀ c p, s.Executes c p → (s.cpu c).proc = some p) ∧
    (∀ c p j, (s.cpu c).exec = .swtch (.cpu c) (.proc p) j →
      s.context (.proc p) = s.snap (.proc p) ∧ ∀ c', s.Executes c' p → c' = c) ∧
    ∀ c t p pp ps k, (s.cpu c).exec = .run t → s.code t = .waitOne p pp ps :: k → (s.proc pp).state = .zombie →
      ∀ c', ¬ s.Executes c' pp := by
  have hinv := Inv.reach h
  refine ⟨hinv.uniq, fun c p => hinv.proc_of_executes, fun c p j he => ⟨?_, fun c' he' => ?_⟩,
    fun c t p pp ps k hon hcode hz => hinv.not_executes_of_zombie hon hcode hz⟩
  · -- no CPU is busy with `p`: it would be this one
    refine (Saved.reach h).off _ fun c' hb => ?_
    have hp : s.Executes c' p := by
      cases hb with
      | run he => exact .run he
      | halted he => exact .halted he
      | save he => exact .leave he
    obtain rfl := hinv.uniq _ _ _ (hinv.proc_of_executes hp) (hinv.proc_of_executes (.enter he))
    cases hb with
    | run he' | halted he' | save he' => cases he.symm.trans he'
  · exact hinv.uniq _ _ _ (hinv.proc_of_executes he') (hinv.proc_of_executes (.enter he))

/-- The first switch to `initproc`, of which the other CPU waits for the lock. -/
theorem one_cpu_first : ∃ s : SchedSys 2 Bool Unit Unit Bool, Reachable s ∧
    (s.cpu false).exec = .swtch (.cpu false) (.proc 0) 0 ∧ (s.code (.cpu true)).head? = some (.testAndSet (.proc 0)) ∧
    s.context (.proc 0) = s.snap (.proc 0) ∧ ∀ c, s.Executes c 0 → c = false := by
  have h := (one_cpu reachable_firstDispatch).2.2.1 false 0 0 rfl
  exact ⟨_, reachable_firstDispatch, rfl, rfl, h⟩

end

end SchedSys

end Xv6
