import Xv6.Proofs.SchedInv

/-!
# The steps of a CPU

The statements that only look, those of `push_off`, `pop_off`, `acquire` and `release`, and traps keep the invariant.
-/

namespace Xv6

namespace SchedSys

open Instr
open Function (update update_of_ne update_self)

variable {N : Nat} {C L Ch W : Type} {s s' : SchedSys N C L Ch W} {c c' : C} {t t' old new : Agent N C} {i : Instr N L Ch}
  {is k : List (Instr N L Ch)} {x : LockSet N L} {p q : Fin N}

section
variable [DecidableEq C]

@[simp]
theorem goto_code : (s.goto t k).code t = k := update_self ..

theorem goto_code_of_ne (h : t' ≠ t) : (s.goto t k).code t' = s.code t' := update_of_ne h ..

@[simp]
theorem setCpu_cpu {f : Cpu N C W → Cpu N C W} : (s.setCpu c f).cpu c = f (s.cpu c) := update_self ..

theorem setCpu_cpu_of_ne {f : Cpu N C W → Cpu N C W} (h : c' ≠ c) : (s.setCpu c f).cpu c' = s.cpu c' :=
  update_of_ne h ..

theorem swtch_cpu : ((s.swtch c old new).goto t k).cpu c = { s.cpu c with exec := .swtch old new 0 } :=
  update_self ..

theorem swtch_cpu_of_ne (h : c' ≠ c) : ((s.swtch c old new).goto t k).cpu c' = s.cpu c' := update_of_ne h ..

def write (s : SchedSys N C L Ch W) (q : Fin N) (f : SchedProc N Ch → SchedProc N Ch) (n : Nat) (t : Agent N C)
    (k : List (Instr N L Ch)) : SchedSys N C L Ch W :=
  ({ s with nextpid := n }.setProc q f).goto t k

section
variable {f : SchedProc N Ch → SchedProc N Ch} {n : Nat}

theorem write_code : (s.write q f n t k).code t = k := goto_code

theorem write_code_of_ne (h : t' ≠ t) : (s.write q f n t k).code t' = s.code t' := goto_code_of_ne h

theorem write_proc : (s.write q f n t k).proc q = f (s.proc q) := update_self ..

theorem write_proc_of_ne (h : p ≠ q) : (s.write q f n t k).proc p = s.proc p := update_of_ne h ..

theorem write_thread (t' : Agent N C) (h : t' ≠ t) :
    (s.write q f n t k).code t' = s.code t' ∧ (s.write q f n t k).depth t' = s.depth t' := ⟨write_code_of_ne h, rfl⟩

end

end

variable [DecidableEq L] {lk : SpinLock N L}

/-! ### Statements that change nothing -/

namespace Expands

theorem wt (h : s.Expands c i is) (hspin : ∀ lk c, (s.lock lk).cpu = some c → (s.lock lk).locked = some c)
    (hx : s.Holds c x) (hw : Wt t (i :: k) x) : Wt t (is ++ k) x := by
  obtain ⟨hneeds, hnext, hw⟩ := hw
  cases h with
  | release h =>
    have hmem := (hx.mem _).2 (hspin _ _ h.2)
    simp_all [releaseBody, Wt, Needs, Next, midway, eff]
  | waitSleep h =>
    obtain ⟨rfl, rfl⟩ := hneeds
    rw [List.cons_append, List.append_assoc]
    refine ⟨trivial, by simp [sleepBody, midway, Next], ?_⟩
    simp only [eff, List.erase_cons_head]
    exact wt_sleepBody (by simp [midway]) ⟨⟨rfl, rfl⟩, hnext, hw⟩
  | _ => simp_all [Wt, Needs, Next, midway, eff, acquireBody, schedulerBody, scanBody, forkBody, LockSet.only]

end Expands

/-! ### Calls -/

theorem Runs.myproc (h : s.Runs c t) (my : (s.cpu c).proc = some p) (hclear : ∀ k, s.code t ≠ .clearProc :: k) :
    t = .proc p := by
  rcases h.who with ⟨waits, -⟩ | hn | ⟨-, hk, -, -⟩
  · cases waits.proc.symm.trans my
    rfl
  · cases hn.symm.trans my
  · exact absurd hk (hclear _)

namespace Calls

variable {m m' : Nat}

theorem wt (h : s.Calls c t m is m') (hr : s.Runs c t) (hcode : s.code t = .any m :: k) (hx : s.Holds c x)
    (hw : Wt t (.any m :: k) x) : Wt t (is ++ .any m' :: k) x := by
  obtain ⟨hm, hnext, hw⟩ := hw
  have hclear : ∀ k, s.code t ≠ .clearProc :: k := by simp [hcode]
  cases h with
  | yield my depth =>
    obtain rfl := hr.myproc my hclear
    obtain rfl := hx.eq_of_noff_zero (hr.depth.symm.trans depth)
    exact wt_yieldBody (by simp [midway]) ⟨hm, hnext, hw⟩
  | sleep chan lk my depth held =>
    obtain rfl := hr.myproc my hclear
    obtain rfl := hx.eq_of_noff_one (hr.depth.symm.trans depth) held
    exact wt_sleepBody (by simp [midway]) ⟨hm, hnext, hw⟩
  | exit my depth init =>
    obtain rfl := hr.myproc my hclear
    obtain rfl := hx.eq_of_noff_zero (hr.depth.symm.trans depth)
    exact wt_exitBody (by simp [midway]) ⟨hm, hnext, hw⟩
  | wait my depth =>
    obtain rfl := hr.myproc my hclear
    obtain rfl := hx.eq_of_noff_zero (hr.depth.symm.trans depth)
    simp_all [waitBody, Wt, Needs, Next, midway, eff]
  | _ => simp_all [Wt, Needs, Next, midway, eff]

end Calls

/-! ### Steps that leave locks and states as they are -/

section
variable [DecidableEq C]

theorem Inv.goto_step (h : s.Inv) (hon : (s.cpu c).exec = .run t) (hclear : ∀ k, s.code t ≠ .clearProc :: k)
    (hparked : ∀ p, t = .proc p → Parked (s.code t) → Parked k)
    (hwt : ∀ x, s.Holds c x → Wt t (s.code t) x → Wt t k x) (hhead : s.Head c k)
    (hforks : forks k = forks (s.code t)) (hmade : made k = made (s.code t)) : (s.goto t k).Inv := by
  have hr := (h.on c).run hon
  obtain ⟨x, hx, hw⟩ := hr.held
  refine h.quiet_step hon (fun _ k hk => absurd hk (hclear k)) (fun _ _ => rfl) (fun t' hne => ⟨goto_code_of_ne hne, rfl⟩)
    rfl (fun _ => rfl) hon rfl ?_ ⟨x, ⟨hx.nodup, hx.mem, hx.noff⟩, ?_⟩ (fun hd => hd) hr.intr ?_ ?_ ?_
  · rw [goto_code]; exact hparked
  · rw [goto_code]; exact hwt x hx hw
  · rw [goto_code]; exact hhead
  · rw [goto_code, hforks]
  · rw [goto_code, hmade]; exact fun _ hnp => hnp

theorem Inv.expand (h : s.Inv) (hon : (s.cpu c).exec = .run t) (hcode : s.code t = i :: k) (he : s.Expands c i is) :
    (s.goto t (is ++ k)).Inv := by
  obtain ⟨x, hx, hw⟩ := ((h.on c).run hon).held
  refine h.goto_step hon (by simp [hcode, he.ne_clearProc]) ?_ ?_ ?_ ?_ ?_ <;> rw [hcode] at *
  · exact fun _ _ => he.parked
  · exact fun x hx hw => he.wt h.spin hx hw
  · exact he.head hw.2.1
  · exact he.forks_eq
  · exact he.made_eq

theorem Inv.call {m m' : Nat} (h : s.Inv) (hon : (s.cpu c).exec = .run t) (hcode : s.code t = .any m :: k)
    (hcall : s.Calls c t m is m') : (s.goto t (is ++ .any m' :: k)).Inv := by
  have hr := (h.on c).run hon
  refine h.goto_step hon (by simp [hcode]) (fun p _ hp => ?_) (fun x hx hw => hcall.wt hr hcode hx (hcode ▸ hw))
    hcall.head (by rw [hcode, hcall.forks_eq]) (by rw [hcode, hcall.made_eq])
  rw [hcode] at hp
  exact hp.elim

theorem Inv.ret (h : s.Inv) (hon : (s.cpu c).exec = .run t) (hcode : s.code t = .any 0 :: i :: k)
    (hdepth : s.depth t = 0) : (s.goto t (i :: k)).Inv := by
  have hr := (h.on c).run hon
  obtain ⟨x, hx, hw⟩ := hr.held
  refine h.goto_step hon (by simp [hcode]) ?_ ?_ ?_ ?_ ?_ <;> rw [hcode] at *
  · exact fun _ _ hp => hp.elim
  · rintro x hx ⟨-, -, hw⟩
    obtain rfl := hx.eq_of_noff_zero (hr.depth.symm.trans hdepth)
    exact hw
  · exact Calm.head hw.2.1
  · rfl
  · rfl

theorem Inv.cpu_step {k' : List (Instr N L Ch)} (f : Cpu N C W → Cpu N C W) {d : Agent N C → Nat}
    {e : Agent N C → Option Bool} (h : s.Inv) (hon : (s.cpu c).exec = .run t) (hcode : s.code t = i :: k)
    (hi : i ≠ .clearProc) (hexec : (f (s.cpu c)).exec = .run t) (hproc : (f (s.cpu c)).proc = (s.cpu c).proc)
    (hparked : Parked (i :: k) → Parked k')
    (hheld : ∀ x, s.Holds c x → Wt t (i :: k) x → ∃ n, (f (s.cpu c)).noff = x.locks.length + n ∧ Wt t k' ⟨x.locks, n⟩)
    (hd : ∀ t', t' ≠ t → d t' = s.depth t') (hdt : s.depth t = (s.cpu c).noff → d t = (f (s.cpu c)).noff)
    (hintr : (f (s.cpu c)).intr = true → (f (s.cpu c)).noff = 0)
    (hhead : ∀ s' : SchedSys N C L Ch W, s'.cpu c = f (s.cpu c) → s'.Head c k')
    (hforks : forks k' = forks (i :: k)) (hmade : made k' = made (i :: k)) :
    ({ s.setCpu c f with depth := d, entry := e }.goto t k').Inv := by
  obtain ⟨hr, x, hx, hw⟩ := h.run_at hon hcode
  obtain ⟨n, hn, hw'⟩ := hheld x hx hw
  have hcpu : ({ s.setCpu c f with depth := d, entry := e }.goto t k').cpu c = f (s.cpu c) := setCpu_cpu
  refine h.quiet_step hon ?_ (fun c' hne => setCpu_cpu_of_ne hne) (fun t' hne => ⟨goto_code_of_ne hne, hd t' hne⟩)
    rfl (fun _ => rfl) ?_ ?_ ?_ ⟨⟨x.locks, n⟩, ⟨hx.nodup, hx.mem, ?_⟩, ?_⟩ (fun _ => ?_) ?_ ?_ ?_ ?_
  · simp [hcode, hi]
  · rw [hcpu]; exact hexec
  · rw [hcpu]; exact hproc
  · rw [goto_code, hcode]; exact fun _ _ => hparked
  · rw [hcpu]; exact hn
  · rw [goto_code]; exact hw'
  · rw [hcpu]; exact hdt hr.depth
  · rw [hcpu]; exact hintr
  · rw [goto_code]; exact hhead _ hcpu
  · rw [goto_code, hcode, hforks]
  · rw [goto_code, hcode, hmade]; exact fun _ hnp => hnp

section
variable (h : s.Inv) (hon : (s.cpu c).exec = .run t)
include h hon

theorem Inv.sret (hcode : s.code t = .sret :: k) : ((s.setCpu c fun x => { x with intr := true }).goto t k).Inv := by
  obtain ⟨-, x, hx, hw⟩ := h.run_at hon hcode
  obtain ⟨rfl, hnext, -⟩ := hw
  refine h.cpu_step (fun x => { x with intr := true }) (d := s.depth) (e := s.entry) hon hcode (by simp) hon rfl False.elim ?_
    (fun _ _ => rfl) (fun hd => hd) (fun _ => hx.noff) ?_ rfl rfl
  · rintro y hy ⟨rfl, -, hwy⟩
    exact ⟨0, hy.noff, hwy⟩
  · rcases hnext with hk | ⟨k', rfl⟩
    · exact fun _ _ => Calm.head hk
    · exact fun s' hc => congrArg Cpu.intr hc

theorem Inv.intrOff {b : Bool} {e : Agent N C → Option Bool} (hcode : s.code t = .intrOff b :: k) :
    ({ s.setCpu c fun x => { x with intr := false } with entry := e }.goto t (.noffInc b :: k)).Inv := by
  refine h.cpu_step (fun x => { x with intr := false }) (d := s.depth) hon hcode (by simp) hon rfl False.elim ?_
    (fun _ _ => rfl) (fun hd => hd) (by rintro ⟨⟩) ?_ rfl rfl
  · exact fun y hy hw => ⟨y.pushes, hy.noff, hw⟩
  · exact fun s' hc => congrArg Cpu.intr hc

theorem Inv.noffInc {b : Bool} (hcode : s.code t = .noffInc b :: k) :
    ({ s.setCpu c fun x => { x with intena := if x.noff = 0 then b else x.intena, noff := x.noff + 1 } with
      depth := update s.depth t (s.depth t + 1) }.goto t k).Inv := by
  have hr := (h.on c).run hon
  obtain ⟨x, -, hw⟩ := hr.held
  have hhead := hr.head
  rw [hcode] at hw hhead
  refine h.cpu_step (fun x => { x with intena := if x.noff = 0 then b else x.intena, noff := x.noff + 1 }) (e := s.entry)
    hon hcode (by simp) hon rfl False.elim ?_ (fun t' hne => update_of_ne hne ..) ?_ ?_ (fun _ _ => Calm.head hw.2.1) rfl rfl
  · intro y hy hwy
    refine ⟨y.pushes + 1, ?_, hwy.2.2⟩
    rw [← add_assoc, ← hy.noff]
  · intro hd
    rw [update_self, hd]
  · intro hi
    cases hhead.symm.trans hi

theorem Inv.noffDec (hcode : s.code t = .noffDec :: k) :
    ({ s.setCpu c fun x => { x with noff := x.noff - 1 } with
      depth := update s.depth t (s.depth t - 1) }.goto t (.popOn :: k)).Inv := by
  obtain ⟨hr, x, hx, hw⟩ := h.run_at hon hcode
  have hpos : 1 ≤ x.pushes := hw.1
  have hintr : (s.cpu c).intr = false := by
    by_contra hi
    have h0 := hr.intr (by simpa using hi)
    have hn := hx.noff
    omega
  refine h.cpu_step (fun x => { x with noff := x.noff - 1 }) (e := s.entry) hon hcode (by simp) hon rfl (fun hp => hp) ?_
    (fun t' hne => update_of_ne hne ..) ?_ ?_ (fun s' hc => (congrArg Cpu.intr hc).trans hintr) rfl rfl
  · rintro y hy ⟨hpos, hnext, hwy⟩
    refine ⟨y.pushes - 1, ?_, trivial, hnext, hwy⟩
    have hn := hy.noff
    change 1 ≤ y.pushes at hpos
    change (s.cpu c).noff - 1 = _
    omega
  · intro hd
    rw [update_self, hd]
  · intro hi
    cases hintr.symm.trans hi

theorem Inv.popOn (hcode : s.code t = .popOn :: k) :
    ((s.setCpu c fun x => { x with intr := if x.noff = 0 ∧ x.intena = true then true else x.intr }).goto t k).Inv := by
  obtain ⟨hr, x, -, hw⟩ := h.run_at hon hcode
  refine h.cpu_step (fun x => { x with intr := if x.noff = 0 ∧ x.intena = true then true else x.intr }) (d := s.depth)
    (e := s.entry) hon hcode (by simp) hon rfl (fun hp => hp) (fun y hy hwy => ⟨y.pushes, hy.noff, hwy.2.2⟩)
    (fun _ _ => rfl) (fun hd => hd) ?_ (fun _ _ => Calm.head hw.2.1) rfl rfl
  simp only
  split
  · next hc => exact fun _ => hc.1
  · exact hr.intr

theorem Inv.restore {b : Bool} (hcode : s.code t = .restore b :: k) :
    ((s.setCpu c fun x => { x with intena := b }).goto t k).Inv := by
  obtain ⟨hr, x, -, hw⟩ := h.run_at hon hcode
  exact h.cpu_step (fun x => { x with intena := b }) (d := s.depth) (e := s.entry) hon hcode (by simp) hon rfl False.elim
    (fun y hy hwy => ⟨y.pushes, hy.noff, hwy.2.2⟩) (fun _ _ => rfl) (fun hd => hd) hr.intr (fun _ _ => Calm.head hw.2.1) rfl rfl

theorem Inv.intrOn (hcode : s.code t = .intrOn :: k) : ((s.setCpu c fun x => { x with intr := true }).goto t k).Inv := by
  obtain ⟨-, x, hx, hw⟩ := h.run_at hon hcode
  obtain ⟨rfl, hnext, -⟩ := hw
  exact h.cpu_step (fun x => { x with intr := true }) (d := s.depth) (e := s.entry) hon hcode (by simp) hon rfl False.elim
    (fun y hy hwy => ⟨y.pushes, hy.noff, hwy.2.2⟩) (fun _ _ => rfl) (fun hd => hd) (fun _ => hx.noff) (fun _ _ => Calm.head hnext) rfl rfl

theorem Inv.cpu_only (f : Cpu N C W → Cpu N C W) (hexec : (f (s.cpu c)).exec = .run t)
    (hproc : (f (s.cpu c)).proc = (s.cpu c).proc) (hnoff : (f (s.cpu c)).noff = (s.cpu c).noff)
    (hintr : (f (s.cpu c)).intr = true → (s.cpu c).noff = 0)
    (hhead : ∀ s' : SchedSys N C L Ch W, s'.cpu c = f (s.cpu c) → s'.lock = s.lock → s'.Head c (s.code t)) :
    (s.setCpu c f).Inv := by
  have hr := (h.on c).run hon
  obtain ⟨x, hx, hw⟩ := hr.held
  have hcpu : (s.setCpu c f).cpu c = f (s.cpu c) := setCpu_cpu
  refine h.quiet_step hon (fun _ _ hk _ => hk) (fun c' hne => setCpu_cpu_of_ne hne) (fun _ _ => ⟨rfl, rfl⟩) rfl
    (fun _ => rfl) ?_ ?_ (fun _ _ hp => hp) ⟨x, ⟨hx.nodup, hx.mem, ?_⟩, hw⟩ (fun hd => ?_) ?_ (hhead _ hcpu rfl)
    (List.Sublist.refl _) (fun _ hnp => hnp)
  · rw [hcpu]; exact hexec
  · rw [hcpu]; exact hproc
  · rw [hcpu, hnoff]; exact hx.noff
  · rw [hcpu, hnoff]; exact hd
  · rw [hcpu, hnoff]; exact hintr

theorem Inv.setIntr {m : Nat} {b : Bool} (hcode : s.code t = .any m :: k) (hb : b = true → s.depth t = 0) :
    (s.setCpu c fun x => { x with intr := b }).Inv := by
  refine h.cpu_only hon _ hon rfl rfl (fun hi => ?_) fun _ _ _ => ?_
  · rw [← ((h.on c).run hon).depth]; exact hb hi
  · rw [hcode]; exact trivial

theorem Inv.compute (regs : Reg → W) : (s.setCpu c fun x => { x with regs }).Inv := by
  have hr := (h.on c).run hon
  refine h.cpu_only hon _ hon rfl rfl hr.intr fun s' hc hl => ?_
  have hhead := hr.head
  unfold Head at hhead ⊢
  rw [hc, hl]
  exact hhead

theorem Inv.trap (hintr : (s.cpu c).intr = true) :
    ((s.setCpu c fun x => { x with intr := false }).goto t (.any 0 :: .sret :: s.code t)).Inv := by
  have hr := (h.on c).run hon
  obtain ⟨x, hx, hw⟩ := hr.held
  have hn := hr.intr hintr
  obtain rfl := hx.eq_of_noff_zero hn
  have hcpu : ((s.setCpu c fun x => { x with intr := false }).goto t (.any 0 :: .sret :: s.code t)).cpu c =
    { s.cpu c with intr := false } := update_self ..
  refine h.quiet_step hon ?_ (fun c' hne => update_of_ne hne ..) (fun t' hne => ⟨goto_code_of_ne hne, rfl⟩) rfl
    (fun _ => rfl) ?_ ?_ ?_ ⟨⟨[], 0⟩, ⟨hx.nodup, hx.mem, ?_⟩, ?_⟩ (fun hd => ?_) ?_ ?_ ?_ ?_
  · intro p k' _ hl
    cases (hx.mem _).2 hl
  · rw [hcpu]; exact hon
  · rw [hcpu]
  · rintro p rfl hp
    cases hp.mem_locks hw
  · rw [hcpu]; exact hn
  · rw [goto_code]
    refine ⟨rfl, by simp [Next, midway], rfl, ?_, hw⟩
    -- the handler has interrupted no critical section, but perhaps `push_off`
    have hhead := hr.head
    rcases hcode : s.code t with _ | ⟨i, k'⟩
    · exact .inl calm_nil
    rw [hcode] at hhead hw
    cases i with
    | intrOff old =>
      obtain rfl : (s.cpu c).intr = old := hhead
      rw [hintr]
      exact .inr ⟨_, rfl⟩
    | noffInc | popOn => cases hintr.symm.trans hhead
    | unlock lk => cases hw.1
    | restore b =>
      obtain ⟨q, -, hq⟩ := hw.1
      cases hq
    | _ => exact .inl (calm_cons.2 rfl)
  · rw [hcpu]; exact hd
  · rw [hcpu]; rintro ⟨⟩
  · rw [goto_code]; exact trivial
  · rw [goto_code]; exact List.Sublist.refl _
  · rw [goto_code]; exact fun _ hnp => hnp

end

/-! ### Locks -/

theorem setLock_lock {f : Spin C → Spin C} : ((s.setLock lk f).goto t k).lock lk = f (s.lock lk) :=
  update_self ..

theorem setLock_lock_of_ne {lk lk' : SpinLock N L} {f : Spin C → Spin C} (h : lk' ≠ lk) :
    ((s.setLock lk f).goto t k).lock lk' = s.lock lk' :=
  update_of_ne h ..

section
variable (h : s.Inv) (hon : (s.cpu c).exec = .run t)
include h hon

theorem Inv.lock_step (f : Spin C → Spin C) (hcode : s.code t = i :: k) (hi : i ≠ .clearProc)
    (hlocked : ∀ c', c' ≠ c → ((f (s.lock lk)).locked = some c' ↔ (s.lock lk).locked = some c'))
    (hcpu : ∀ c', c' ≠ c → (s.lock lk).locked = some c' → (f (s.lock lk)).cpu = (s.lock lk).cpu)
    (hspin : ∀ c', (f (s.lock lk)).cpu = some c' → (f (s.lock lk)).locked = some c')
    (hparked : Parked (i :: k) → Parked k)
    (hheld : ∀ x, s.Holds c x → Wt t (i :: k) x → ∃ x', ((s.setLock lk f).goto t k).Holds c x' ∧ Wt t k x')
    (hhead : ((s.setLock lk f).goto t k).Head c k) (hforks : forks k = forks (i :: k)) (hmade : made k = made (i :: k)) :
    ((s.setLock lk f).goto t k).Inv := by
  obtain ⟨hr, x, hx, hw⟩ := h.run_at hon hcode
  have hne_cases : ∀ lk', lk' = lk ∨ ((s.setLock lk f).goto t k).lock lk' = s.lock lk' :=
    fun lk' => (eq_or_ne lk' lk).imp_right setLock_lock_of_ne
  refine h.run_step hon ⟨fun _ _ => rfl, fun lk' c' hne => ?_, fun lk' c' hne hl => ?_,
    fun t' hne _ => ⟨goto_code_of_ne hne, rfl⟩, fun _ _ hq => hq, fun _ _ => rfl⟩ ?_ hon rfl ?_ ?_ hr.depth hr.intr ?_
    (fun p _ hidle => .inl hidle) (fun lk' c' hl => ?_)
    (h.fork.mono (fun t' hne => ⟨goto_code_of_ne hne, rfl⟩) hr.who.not_used ?_ ?_ fun _ _ _ hu => hu)
  · rcases hne_cases lk' with rfl | he
    · rw [setLock_lock]; exact hlocked c' hne
    · rw [he]
  · rcases hne_cases lk' with rfl | he
    · rw [setLock_lock]; exact hcpu c' hne hl
    · rw [he]
  · intro p k' hk
    rw [hcode] at hk
    exact absurd (List.cons.inj hk).1 hi
  · rintro p rfl live
    exact live.imp_right fun hk => ⟨by rw [goto_code]; exact hparked (hcode ▸ hk.1), hk.2⟩
  · rw [goto_code]; exact hheld x hx hw
  · rw [goto_code]; exact hhead
  · rcases hne_cases lk' with rfl | he
    · rw [setLock_lock] at hl ⊢; exact hspin c' hl
    · rw [he] at hl ⊢; exact h.spin _ _ hl
  · rw [goto_code, hcode, hforks]
  · rw [goto_code, hcode, hmade]; exact fun _ hnp => hnp

theorem Inv.testAndSet (hcode : s.code t = .testAndSet lk :: k) (hfree : (s.lock lk).locked = none) :
    ((s.setLock lk fun x => { x with locked := some c }).goto t k).Inv := by
  obtain ⟨-, y, -, hwy⟩ := h.run_at hon hcode
  have hcpu : (s.lock lk).cpu = none := by
    rcases hn : (s.lock lk).cpu with _ | c'
    · rfl
    · cases hfree.symm.trans (h.spin lk c' hn)
  refine h.lock_step hon _ hcode (by simp) (fun c' hne => ?_) (fun _ _ _ => rfl) (fun c' hc => ?_) False.elim ?_
    (Calm.head hwy.2.1) rfl rfl
  · simp [hfree, Ne.symm hne]
  · cases hcpu.symm.trans hc
  · rintro x hx ⟨hpos, -, hw⟩
    have hnot : lk ∉ x.locks := fun hm => by cases hfree.symm.trans ((hx.mem lk).1 hm)
    refine ⟨_, ⟨List.nodup_cons.2 ⟨hnot, hx.nodup⟩, fun lk' => ?_, ?_⟩, hw⟩
    · rcases eq_or_ne lk' lk with rfl | hne
      · simp [setLock_lock, eff]
      · simp [setLock_lock_of_ne hne, eff, hne, hx.mem]
    · have hn := hx.noff
      change 1 ≤ x.pushes at hpos
      change (s.cpu c).noff = x.locks.length + 1 + (x.pushes - 1)
      omega

theorem Inv.setLockCpu (hcode : s.code t = .setCpu lk :: k) :
    ((s.setLock lk fun x => { x with cpu := some c }).goto t k).Inv := by
  obtain ⟨-, y, hy, hwy⟩ := h.run_at hon hcode
  have hlock := (hy.mem lk).1 hwy.1
  refine h.lock_step hon _ hcode (by simp) (fun _ _ => Iff.rfl) (fun c' hne hl => ?_) (fun c' hc => ?_) False.elim ?_
    (Calm.head hwy.2.1) rfl rfl
  · exact absurd (Option.some.inj (hl.symm.trans hlock)) hne
  · exact hlock.trans hc
  · rintro x hx ⟨-, -, hw⟩
    refine ⟨x, ⟨hx.nodup, fun lk' => ?_, hx.noff⟩, hw⟩
    rcases eq_or_ne lk' lk with rfl | hne
    · rw [setLock_lock]; exact hx.mem _
    · rw [setLock_lock_of_ne hne]; exact hx.mem _

theorem Inv.clearLockCpu (hcode : s.code t = .clearCpu lk :: k) :
    ((s.setLock lk fun x => { x with cpu := none }).goto t k).Inv := by
  obtain ⟨-, y, hy, hwy⟩ := h.run_at hon hcode
  have hlock := (hy.mem lk).1 hwy.1
  refine h.lock_step hon _ hcode (by simp) (fun _ _ => Iff.rfl) (fun c' hne hl => ?_) (fun c' hc => by cases hc) (fun hp => hp)
    ?_ ?_ rfl rfl
  · exact absurd (Option.some.inj (hl.symm.trans hlock)) hne
  · rintro x hx ⟨-, -, hw⟩
    refine ⟨x, ⟨hx.nodup, fun lk' => ?_, hx.noff⟩, hw⟩
    rcases eq_or_ne lk' lk with rfl | hne
    · rw [setLock_lock]; exact hx.mem _
    · rw [setLock_lock_of_ne hne]; exact hx.mem _
  · obtain ⟨k', rfl⟩ := hwy.2.1
    exact congrArg Spin.cpu setLock_lock

theorem Inv.unlock (hcode : s.code t = .unlock lk :: k) :
    ((s.setLock lk fun x => { x with locked := none }).goto t k).Inv := by
  have hr := (h.on c).run hon
  obtain ⟨y, hy, hwy⟩ := hr.held
  have hcpu := hr.head
  rw [hcode] at hwy hcpu
  have hlock := (hy.mem lk).1 hwy.1
  refine h.lock_step hon _ hcode (by simp) (fun c' hne => ?_) (fun _ _ _ => rfl) (fun c' hc => ?_) (fun hp => hp) ?_
    (Calm.head hwy.2.1) rfl rfl
  · simp [hlock, Ne.symm hne]
  · cases hc.symm.trans hcpu
  · rintro x hx ⟨hmem, -, hw⟩
    refine ⟨_, ⟨hx.nodup.erase _, fun lk' => ?_, ?_⟩, hw⟩
    · rcases eq_or_ne lk' lk with rfl | hne
      · simp [setLock_lock, eff, hx.nodup.not_mem_erase]
      · simp [setLock_lock_of_ne hne, eff, List.mem_erase_of_ne hne, hx.mem]
    · have hn := hx.noff
      have hlen := List.length_erase_of_mem hmem
      have hpos := List.length_pos_of_mem hmem
      change (s.cpu c).noff = (x.locks.erase lk).length + (x.pushes + 1)
      omega

end

end

end SchedSys

end Xv6
