import Xv6.Proofs.Sched

/-!
# The interrupt state follows the thread

`c->intena` belongs to the thread that runs on `c`: while it has calls of `push_off` open it says whether interrupts
were on when the first of them was made, or `sched` has saved it in the thread and restores it on whatever CPU
the thread comes back (`Kept`).
-/

namespace Xv6

namespace SchedSys

open Instr
open Function (update update_eq_self update_idem update_of_ne update_self)

variable {N : Nat} {C L Ch W : Type} {s s' : SchedSys N C L Ch W} {c c' : C} {t t' old new : Agent N C} {i : Instr N L Ch}
  {is k : List (Instr N L Ch)} {p q : Fin N} {b : Bool}

/-- What is to be `intena` when the open calls of `push_off` are closed is `b`. -/
def Kept (s : SchedSys N C L Ch W) (c : C) (b : Bool) : List (Instr N L Ch) → Prop
  | .restore intena :: _ => intena = b
  | .noffInc old :: _ => ((s.cpu c).noff = 0 → old = b) ∧ ((s.cpu c).noff ≠ 0 → (s.cpu c).intena = b)
  | .popOn :: _ => (s.cpu c).intena = b
  | _ => (s.cpu c).noff ≠ 0 → (s.cpu c).intena = b

def Active (s : SchedSys N C L Ch W) (c : C) (p : Fin N) : Prop :=
  (s.cpu c).exec = .run (.proc p) ∨ ∃ e, (s.cpu c).exec = .halted (.proc p) e

structure Enters (s : SchedSys N C L Ch W) : Prop where
  restore : ∀ p intena k b, s.code (.proc p) = .restore intena :: k → s.entry (.proc p) = some b → intena = b
  run : ∀ c p b, (s.cpu c).exec = .run (.proc p) → s.entry (.proc p) = some b → s.Kept c b (s.code (.proc p))
  fresh : ∀ p, (∀ c, ¬ s.Active c p) → s.code (.proc p) = forkretBody p → s.entry (.proc p) = none

def plain : Instr N L Ch → Bool
  | .restore _ | .noffInc _ | .popOn => false
  | _ => true

def Plain (k : List (Instr N L Ch)) : Prop := ∀ i ∈ k.head?, plain i = true

@[simp]
theorem plain_cons : Plain (i :: k) ↔ plain i = true := by simp [Plain]

theorem Calm.plain (h : Calm k) : Plain k := by
  rcases k with _ | ⟨i, k⟩
  · simp [Plain]
  · rw [calm_cons] at h
    rw [plain_cons]
    cases i <;> first | rfl | cases h

theorem Plain.kept (h : Plain k) : s.Kept c b k ↔ ((s.cpu c).noff ≠ 0 → (s.cpu c).intena = b) := by
  unfold Kept
  split <;> first | exact Iff.rfl | simp [SchedSys.plain] at h

theorem Kept.congr (h : s.Kept c b k) (hnoff : (s'.cpu c).noff = (s.cpu c).noff)
    (hintena : (s'.cpu c).intena = (s.cpu c).intena) : s'.Kept c b k := by
  unfold Kept at h ⊢
  rw [hnoff, hintena]
  exact h

theorem Kept.plain (h : s.Kept c b k) (hk : Plain k) (his : Plain is) (hnoff : (s'.cpu c).noff = (s.cpu c).noff)
    (hintena : (s'.cpu c).intena = (s.cpu c).intena) : s'.Kept c b is :=
  (his.kept.2 (hk.kept.1 h)).congr hnoff hintena

theorem Next.plain (h : i.Next k) : Plain k := by
  cases i with
  | sret =>
    rcases h with h | ⟨k', rfl⟩
    · exact Calm.plain h
    · exact plain_cons.2 rfl
  | clearCpu =>
    obtain ⟨k', rfl⟩ := h
    exact plain_cons.2 rfl
  | _ => exact Calm.plain h

theorem Expands.plain (h : s.Expands c i is) (hk : i.Next k) : Plain (i :: k) ∧ Plain (is ++ k) := by
  cases h <;> exact ⟨plain_cons.2 rfl, by first | exact plain_cons.2 rfl | exact Calm.plain hk⟩

theorem Calls.plain {m m' : Nat} (h : s.Calls c t m is m') : Plain (is ++ .any m' :: k) := by
  cases h <;> exact plain_cons.2 rfl

theorem Init.enters (h : s.Init) : s.Enters := by
  have hinit : ∀ p, s.code (.proc p) = forkretBody p → s.entry (.proc p) = none := by
    intro p hp
    rcases eq_or_ne p s.initproc with rfl | hne
    · exact h.initEntry
    · cases (h.off p hne).symm.trans hp
  refine ⟨fun p intena k b hcode _ => ?_, fun c p b he => ?_, fun p _ => hinit p⟩
  · rcases eq_or_ne p s.initproc with rfl | hne
    · cases h.initCode.symm.trans hcode
    · cases (h.off p hne).symm.trans hcode
  · cases (h.exec c).symm.trans he

theorem Enters.exec (h : s.Enters) (hcpu : ∀ c', c' ≠ c → s'.cpu c' = s.cpu c')
    (hcode : ∀ p, s'.code (.proc p) = s.code (.proc p)) (hentry : s'.entry = s.entry)
    (hrun : ∀ p b, (s'.cpu c).exec = .run (.proc p) → s.entry (.proc p) = some b → s'.Kept c b (s.code (.proc p)))
    (hactive : ∀ p, s.Active c p → s'.Active c p) : s'.Enters := by
  refine ⟨fun p intena k b => ?_, fun c' p b he => ?_, fun p hact => ?_⟩
  · rw [hcode p, hentry]
    exact h.restore p intena k b
  · rw [hcode p, hentry]
    rcases eq_or_ne c' c with rfl | hne
    · exact hrun p b he
    · rw [hcpu c' hne] at he
      exact fun hen => (h.run c' p b he hen).congr (by rw [hcpu c' hne]) (by rw [hcpu c' hne])
  · rw [hcode p, hentry]
    refine h.fresh p fun c' ha => hact c' ?_
    rcases eq_or_ne c' c with rfl | hne
    · exact hactive p ha
    · unfold Active at ha ⊢
      rwa [hcpu c' hne]

variable [DecidableEq L]

theorem Enters.run_step (h : s.Enters) (hinv : s.Inv) (hon : (s.cpu c).exec = .run t) (hexec : (s'.cpu c).exec = .run t)
    (hcpu : ∀ c', c' ≠ c → s'.cpu c' = s.cpu c')
    (hother : ∀ p, .proc p ≠ t → s'.code (.proc p) = s.code (.proc p) ∧ s'.entry (.proc p) = s.entry (.proc p) ∨
      s'.code (.proc p) = forkretBody p ∧ s'.entry (.proc p) = none)
    (hself : ∀ p b, t = .proc p → (∀ b, s.entry t = some b → s.Kept c b (s.code t)) → s'.entry t = some b →
      s'.Kept c b (s'.code t)) : s'.Enters := by
  have hkept : ∀ p b, t = .proc p → s'.entry t = some b → s'.Kept c b (s'.code t) := by
    rintro p b rfl he
    exact hself p b rfl (fun b => h.run c p b hon) he
  have hactive : ∀ c p, s.Active c p → s'.Active c p := by
    intro c' p ha
    unfold Active at ha ⊢
    rcases eq_or_ne c' c with rfl | hne
    · rwa [hexec, ← hon]
    · rwa [hcpu c' hne]
  refine ⟨fun p intena k b hcode he => ?_, fun c' p b hrun he => ?_, fun p hact hcode => ?_⟩
  · rcases eq_or_ne (.proc p) t with rfl | hne
    · have hk := hkept p b rfl he
      rw [hcode] at hk
      exact hk
    rcases hother p hne with ⟨hc, hen⟩ | ⟨hc, -⟩
    · rw [hc] at hcode
      rw [hen] at he
      exact h.restore p intena k b hcode he
    · cases hc.symm.trans hcode
  · rcases eq_or_ne c' c with rfl | hc
    · cases hexec.symm.trans hrun
      exact hkept p b rfl he
    · rw [hcpu c' hc] at hrun
      have hne : .proc p ≠ t := by
        rintro rfl
        exact hc (hinv.belongs_unique ((hinv.on c').run hrun).who.belongs ((hinv.on c).run hon).who.belongs)
      rcases hother p hne with ⟨hcode, hen⟩ | ⟨-, hen⟩
      · rw [hen] at he
        rw [hcode]
        exact (h.run c' p b hrun he).congr (by rw [hcpu c' hc]) (by rw [hcpu c' hc])
      · cases hen.symm.trans he
  · have hne : .proc p ≠ t := by
      rintro rfl
      exact hact c (.inl hexec)
    rcases hother p hne with ⟨hc, hen⟩ | ⟨-, hen⟩
    · rw [hen]
      exact h.fresh p (fun c ha => hact c (hactive c p ha)) (hc.symm.trans hcode)
    · exact hen

theorem Enters.plain_step (h : s.Enters) (hinv : s.Inv) (hon : (s.cpu c).exec = .run t) (hexec : (s'.cpu c).exec = .run t)
    (hcpu : ∀ c', c' ≠ c → s'.cpu c' = s.cpu c') (hcode : ∀ t', t' ≠ t → s'.code t' = s.code t')
    (hentry : s'.entry = s.entry) (hplain : Plain (s.code t)) (hplain' : Plain (s'.code t))
    (hnoff : (s'.cpu c).noff = (s.cpu c).noff) (hintena : (s'.cpu c).intena = (s.cpu c).intena) : s'.Enters := by
  refine h.run_step hinv hon hexec hcpu (fun p hne => .inl ⟨hcode _ hne, by rw [hentry]⟩) fun p b _ hk he => ?_
  rw [hentry] at he
  exact (hk b he).plain hplain hplain' hnoff hintena

variable [DecidableEq C]

section
variable (h : s.Enters) (hinv : s.Inv) (hon : (s.cpu c).exec = .run t)
include h hinv hon

theorem Enters.goto (hplain : Plain (s.code t)) (hplain' : Plain k) : (s.goto t k).Enters :=
  h.plain_step hinv hon hon (fun _ _ => rfl) (fun _ hne => goto_code_of_ne hne) rfl hplain (by rw [goto_code]; exact hplain') rfl rfl

theorem Enters.cpu_only (f : Cpu N C W → Cpu N C W) (hexec : (f (s.cpu c)).exec = .run t)
    (hnoff : (f (s.cpu c)).noff = (s.cpu c).noff) (hintena : (f (s.cpu c)).intena = (s.cpu c).intena) :
    (s.setCpu c f).Enters := by
  have hcpu : (s.setCpu c f).cpu c = f (s.cpu c) := setCpu_cpu
  refine h.run_step hinv hon (by rw [hcpu]; exact hexec) (fun c' hne => setCpu_cpu_of_ne hne) (fun p _ => .inl ⟨rfl, rfl⟩)
    fun p b _ hk he => (hk b he).congr ?_ ?_
  · rw [hcpu, hnoff]
  · rw [hcpu, hintena]

/-- Thread `t` goes on with `k` and changes its CPU; `entry` stays as it is for the others. -/
theorem Enters.cpu_step (f : Cpu N C W → Cpu N C W) {d : Agent N C → Nat} {e : Agent N C → Option Bool}
    (hexec : (f (s.cpu c)).exec = .run t) (hentry : ∀ t', t' ≠ t → e t' = s.entry t')
    (hself : ∀ b, (∀ b, s.entry t = some b → s.Kept c b (s.code t)) → e t = some b → (s.setCpu c f).Kept c b k) :
    ({ s.setCpu c f with depth := d, entry := e }.goto t k).Enters := by
  refine h.run_step hinv hon ?_ (fun c' hne => setCpu_cpu_of_ne hne) (fun p hne => .inl ⟨goto_code_of_ne hne, hentry _ hne⟩)
    fun p b _ hk he => ?_
  · change ((s.setCpu c f).cpu c).exec = _
    rw [setCpu_cpu]
    exact hexec
  · rw [goto_code]
    exact (hself b hk he).congr rfl rfl

theorem Enters.trap (hintr : (s.cpu c).intr = true) :
    ((s.setCpu c fun x => { x with intr := false }).goto t (.any 0 :: .sret :: s.code t)).Enters := by
  refine h.cpu_step hinv hon (fun x => { x with intr := false }) (d := s.depth) hon (fun _ _ => rfl) fun b _ _ => ?_
  rw [(plain_cons.2 rfl).kept, setCpu_cpu]
  exact fun hn => absurd (((hinv.on c).run hon).intr hintr) hn

theorem Enters.intrOff {old : Bool} (hcode : s.code t = .intrOff old :: k) :
    ({ s.setCpu c fun x => { x with intr := false } with
        entry := update s.entry t (if s.depth t = 0 then some (s.cpu c).intr else s.entry t) }.goto t
      (.noffInc old :: k)).Enters := by
  have hr := (hinv.on c).run hon
  have hold : (s.cpu c).intr = old := by
    have hhead := hr.head
    rwa [hcode] at hhead
  refine h.cpu_step hinv hon _ (d := s.depth) hon (fun t' hne => update_of_ne hne ..) fun b hk he => ?_
  rw [update_self, hr.depth] at he
  unfold Kept
  rw [setCpu_cpu]
  split at he
  · -- the first call: `old` is what `intr_get` returned, and still the state
    next h0 => exact ⟨fun _ => hold ▸ Option.some.inj he, fun hn => absurd h0 hn⟩
  · next h0 =>
    have hkept := hk b he
    rw [hcode] at hkept
    exact ⟨fun hn => absurd hn h0, fun _ => hkept h0⟩

theorem Enters.noffInc {old : Bool} {d : Agent N C → Nat} (hcode : s.code t = .noffInc old :: k) :
    ({ s.setCpu c fun x => { x with intena := if x.noff = 0 then old else x.intena, noff := x.noff + 1 } with
      depth := d }.goto t k).Enters := by
  obtain ⟨-, x, -, hw⟩ := hinv.run_at hon hcode
  refine h.cpu_step hinv hon _ hon (fun _ _ => rfl) fun b hk he => ?_
  have hkept := hk b he
  rw [hcode] at hkept
  rw [(Calm.plain hw.2.1).kept, setCpu_cpu]
  intro _
  simp only
  split
  · next h0 => exact hkept.1 h0
  · next h0 => exact hkept.2 h0

theorem Enters.noffDec {d : Agent N C → Nat} (hcode : s.code t = .noffDec :: k) :
    ({ s.setCpu c fun x => { x with noff := x.noff - 1 } with depth := d }.goto t (.popOn :: k)).Enters := by
  obtain ⟨-, x, hx, hw⟩ := hinv.run_at hon hcode
  have hpos : (s.cpu c).noff ≠ 0 := by
    have hpushes : 1 ≤ x.pushes := hw.1
    rw [hx.noff]
    omega
  refine h.cpu_step hinv hon _ hon (fun _ _ => rfl) fun b hk he => ?_
  have hkept := hk b he
  rw [hcode] at hkept
  unfold Kept
  rw [setCpu_cpu]
  exact hkept hpos

theorem Enters.popOn (hcode : s.code t = .popOn :: k) :
    ((s.setCpu c fun x => { x with intr := if x.noff = 0 ∧ x.intena = true then true else x.intr }).goto t k).Enters := by
  obtain ⟨-, x, -, hw⟩ := hinv.run_at hon hcode
  refine h.cpu_step hinv hon (fun x => { x with intr := if x.noff = 0 ∧ x.intena = true then true else x.intr })
    (d := s.depth) hon (fun _ _ => rfl) fun b hk he => ?_
  have hkept := hk b he
  rw [hcode] at hkept
  rw [(Calm.plain hw.2.1).kept, setCpu_cpu]
  exact fun _ => hkept

theorem Enters.restore_step {intena : Bool} (hcode : s.code t = .restore intena :: k) :
    ((s.setCpu c fun x => { x with intena }).goto t k).Enters := by
  obtain ⟨-, x, -, hw⟩ := hinv.run_at hon hcode
  refine h.cpu_step hinv hon (fun x => { x with intena }) (d := s.depth) hon (fun _ _ => rfl) fun b hk he => ?_
  have hkept := hk b he
  rw [hcode] at hkept
  rw [(Calm.plain hw.2.1).kept, setCpu_cpu]
  exact fun _ => hkept

theorem Enters.initContext (hcode : s.code t = .initContext q :: k) {s' : SchedSys N C L Ch W}
    (hs' : s' = ({ s.goto (.proc q) (forkretBody q) with
      context := update s.context (.proc q) (s.newContext q)
      snap := update s.snap (.proc q) (s.newContext q)
      depth := update s.depth (.proc q) 1
      entry := update s.entry (.proc q) none }.goto t (.leaf :: .copy q :: k))) : s'.Enters := by
  have hr := (hinv.on c).run hon
  have hused := hinv.fork.used t q (by rw [hcode]; exact List.mem_cons_self)
  have hqt : .proc q ≠ t := by
    rintro rfl
    exact hr.who.ne_used hused
  have ht : s'.code t = .leaf :: .copy q :: k ∧ s'.entry t = s.entry t := by
    rw [hs']
    exact ⟨goto_code, update_of_ne (Ne.symm hqt) ..⟩
  have hcpu : s'.cpu = s.cpu := by rw [hs']; rfl
  refine h.run_step hinv hon (by rw [hcpu]; exact hon) (fun _ _ => by rw [hcpu]) (fun p hne => ?_) fun p b _ hk he => ?_
  · rcases eq_or_ne p q with rfl | hpq
    · refine .inr ⟨?_, ?_⟩ <;> rw [hs']
      · rw [goto_code_of_ne hqt]; exact goto_code
      · exact update_self ..
    · have hpq' : (.proc p : Agent N C) ≠ .proc q := fun he => hpq (Agent.proc.inj he)
      refine .inl ⟨?_, ?_⟩ <;> rw [hs']
      · exact (goto_code_of_ne hne).trans (goto_code_of_ne hpq')
      · exact update_of_ne hpq' ..
  · rw [ht.2] at he
    rw [ht.1]
    exact (hk b he).plain (by rw [hcode]; exact plain_cons.2 rfl) (plain_cons.2 rfl) (by rw [hcpu]) (by rw [hcpu])

theorem Enters.sched (hcode : s.code t = .sched :: k) (my : (s.cpu c).proc = some p) :
    ((s.swtch c (.proc p) (.cpu c)).goto t (.restore (s.cpu c).intena :: k)).Enters := by
  have hr := (hinv.on c).run hon
  obtain rfl := hr.myproc my (by simp [hcode])
  obtain ⟨x, hx, hw⟩ := hr.held
  rw [hcode] at hw
  obtain ⟨⟨p', hp', rfl⟩, -⟩ := hw
  cases hp'
  generalize hs' : (s.swtch c (.proc p) (.cpu c)).goto (.proc p) (.restore (s.cpu c).intena :: k) = s'
  have hexec : (s'.cpu c).exec = .swtch (.proc p) (.cpu c) 0 := by rw [← hs', swtch_cpu]
  have hcpu' : ∀ c', c' ≠ c → s'.cpu c' = s.cpu c' := by
    intro c' hne
    rw [← hs', swtch_cpu_of_ne hne]
  have hcode' : s'.code (.proc p) = .restore (s.cpu c).intena :: k := by rw [← hs', goto_code]
  have hother : ∀ q, q ≠ p → s'.code (.proc q) = s.code (.proc q) := by
    intro q hne
    rw [← hs', goto_code_of_ne fun he => hne (Agent.proc.inj he)]
    rfl
  have hentry : s'.entry = s.entry := by rw [← hs']; rfl
  clear hs'
  refine ⟨fun q intena k' b hq he => ?_, fun c' q b hrun he => ?_, fun q hact hq => ?_⟩ <;> rw [hentry] at *
  · rcases eq_or_ne q p with rfl | hne
    · have hkept := h.run c q b hon he
      cases hcode'.symm.trans hq
      rw [hcode] at hkept
      refine hkept ?_
      rw [hx.noff]
      exact Nat.one_ne_zero
    · rw [hother q hne] at hq
      exact h.restore q intena k' b hq he
  · have hc : c' ≠ c := by
      rintro rfl
      cases hexec.symm.trans hrun
    rw [hcpu' c' hc] at hrun
    have hne : q ≠ p := by
      rintro rfl
      exact hc (hinv.belongs_unique ((hinv.on c').run hrun).who.belongs hr.who.belongs)
    rw [hother q hne]
    exact (h.run c' q b hrun he).congr (by rw [hcpu' c' hc]) (by rw [hcpu' c' hc])
  · rcases eq_or_ne q p with rfl | hne
    · cases hcode'.symm.trans hq
    · rw [hother q hne] at hq
      refine h.fresh q (fun c' ha => hact c' ?_) hq
      rcases eq_or_ne c' c with rfl | hc
      · rcases ha with ha | ⟨e, ha⟩
        · cases hon.symm.trans ha
          exact absurd rfl hne
        · cases hon.symm.trans ha
      · unfold Active at ha ⊢
        rwa [hcpu' c' hc]

theorem Enters.quiet (hplain : Plain (s.code t)) (hcpu : s'.cpu = s.cpu) (hcode : s'.code = s.code)
    (hentry : s'.entry = s.entry) (hplain' : Plain k) : (s'.goto t k).Enters := by
  refine h.plain_step hinv hon ?_ (fun c' _ => ?_) (fun t' hne => ?_) hentry hplain (by rw [goto_code]; exact hplain') ?_ ?_
  · change (s'.cpu c).exec = _
    rw [hcpu, hon]
  · exact congrFun hcpu c'
  · rw [goto_code_of_ne hne, hcode]
  · exact congrArg Cpu.noff (congrFun hcpu c)
  · exact congrArg Cpu.intena (congrFun hcpu c)

theorem Enters.setCpu (hplain : Plain (s.code t)) (f : Cpu N C W → Cpu N C W) (hexec : (f (s.cpu c)).exec = .run t)
    (hnoff : (f (s.cpu c)).noff = (s.cpu c).noff) (hintena : (f (s.cpu c)).intena = (s.cpu c).intena) (hplain' : Plain k) :
    ((s.setCpu c f).goto t k).Enters := by
  refine h.cpu_step hinv hon f (d := s.depth) hexec (fun _ _ => rfl) fun b hk he => (hk b he).plain hplain hplain' ?_ ?_
  · rw [setCpu_cpu]; exact hnoff
  · rw [setCpu_cpu]; exact hintena

theorem Enters.dispatch (hcode : s.code t = .dispatch p :: k) :
    ((((s.setProc p fun x => { x with state := .running }).setCpu c fun x => { x with proc := some p }).swtch c
      (.cpu c) (.proc p)).goto t (.clearProc :: k)).Enters := by
  obtain ⟨-, x, -, hw⟩ := hinv.run_at hon hcode
  obtain ⟨⟨⟨c₀, rfl⟩, -⟩, -⟩ := hw
  refine h.exec (c := c) (fun c' hne => ?_) (fun q => goto_code_of_ne (by rintro ⟨⟩)) rfl (fun q b he => ?_) fun q ha => ?_
  · rw [swtch_cpu_of_ne hne, setCpu_cpu_of_ne hne]; rfl
  · rw [swtch_cpu] at he; cases he
  · rcases ha with ha | ⟨e, ha⟩ <;> cases hon.symm.trans ha

variable [DecidableEq Ch]

theorem Enters.does (hcode : s.code t = i :: k) (hd : s.Does c t i s' is) : (s'.goto t (is ++ k)).Enters := by
  obtain ⟨-, x, -, hw⟩ := hinv.run_at hon hcode
  have hnext := Next.plain hw.2.1
  have hplain : plain i = true → Plain (s.code t) := by
    rw [hcode, plain_cons]
    exact fun hi => hi
  cases hd with
  | intrOff => exact h.intrOff hinv hon hcode
  | noffInc => exact h.noffInc hinv hon hcode
  | noffDec => exact h.noffDec hinv hon hcode
  | popOn => exact h.popOn hinv hon hcode
  | sched my lock locks running intr => exact h.sched hinv hon hcode my
  | restore => exact h.restore_step hinv hon hcode
  | dispatch state => exact h.dispatch hinv hon hcode
  | initContext => exact h.initContext hinv hon hcode rfl
  | sret | intrOn | clearProc => exact h.setCpu hinv hon (hplain rfl) _ hon rfl rfl hnext
  | testAndSet | setCpu | clearCpu | unlock | yieldState | sleepState | clearChan | wakeOne | setParent | forkState | zombie =>
    exact h.quiet hinv hon (hplain rfl) rfl rfl rfl hnext
  | killFound | allocFound | allocFail | copyFail | reparentChild | waitFree =>
    exact h.quiet hinv hon (hplain rfl) rfl rfl rfl (plain_cons.2 rfl)

end

theorem Enters.swtchRet {j : Nat} (h : s.Enters) (hinv : s.Inv) (hon : (s.cpu c).exec = .swtch old new j) :
    (s.setCpu c fun x => { x with exec := .run new }).Enters := by
  have hcpu : (s.setCpu c fun x => { x with exec := .run new }).cpu c = { s.cpu c with exec := .run new } := setCpu_cpu
  refine h.exec (c := c) (fun c' hne => setCpu_cpu_of_ne hne) (fun q => rfl) rfl (fun p b he hen => ?_) fun q ha => ?_
  · rw [hcpu] at he
    cases he
    obtain ⟨p', hp'⟩ := (hinv.on c).switch hon
    have hp : p' = p := by
      rcases hp'.way with ⟨-, hn, -⟩ | ⟨-, hn⟩ <;> cases hn
      rfl
    subst hp
    rcases hp'.rests.code with ⟨intena, k, hk, -⟩ | hk
    · rw [hk]
      exact h.restore _ intena k b hk hen
    · -- a process that has not run yet
      have hnone := h.fresh p' (fun c' ha => ?_) hk
      · cases hnone.symm.trans hen
      have hproc : (s.cpu c').proc = some p' := by
        rcases ha with ha | ⟨e, ha⟩
        · rcases ((hinv.on c').run ha).who.belongs with hc | ⟨q, hq, hcq⟩
          · cases hc
          · cases hq
            exact hcq
        · have hc := hinv.on c'
          unfold On at hc
          rw [ha] at hc
          exact hc.proc p' rfl
      cases hinv.uniq _ _ _ hproc hp'.waits.proc
      rcases ha with ha | ⟨e, ha⟩ <;> cases hon.symm.trans ha
  · rcases ha with ha | ⟨e, ha⟩ <;> cases hon.symm.trans ha

variable [DecidableEq Ch]

theorem Enters.step (h : s.Enters) (hinv : s.Inv) (hst : Step s c s') : s'.Enters := by
  cases hst with
  | expand on code he =>
    obtain ⟨x, -, hw⟩ := ((hinv.on c).run on).held
    rw [code] at hw
    obtain ⟨h1, h2⟩ := he.plain hw.2.1
    exact h.goto hinv on (by rw [code]; exact h1) h2
  | instr on code hd => exact h.does hinv on code hd
  | panic on code hp =>
    rename_i t i k e
    have hexec : ((s.setCpu c fun x => { x with exec := .halted t e }).cpu c).exec = .halted t e := by rw [setCpu_cpu]
    refine h.exec (c := c) (fun c' hne => setCpu_cpu_of_ne hne) (fun q => rfl) rfl (fun p b he => ?_) fun q ha => ?_
    · cases hexec.symm.trans he
    · rcases ha with ha | ⟨e', ha⟩ <;> cases on.symm.trans ha
      exact .inr ⟨e, hexec⟩
  | call on code hc => exact h.goto hinv on (by rw [code]; exact plain_cons.2 rfl) hc.plain
  | ret on code depth =>
    obtain ⟨x, -, hw⟩ := ((hinv.on c).run on).held
    rw [code] at hw
    exact h.goto hinv on (by rw [code]; exact plain_cons.2 rfl) (Calm.plain hw.2.1)
  | intrOn on code depth => exact h.cpu_only hinv on _ on rfl rfl
  | intrOff on code => exact h.cpu_only hinv on _ on rfl rfl
  | compute regs on => exact h.cpu_only hinv on _ on rfl rfl
  | trap on intr => exact h.trap hinv on intr
  | save on =>
    rename_i old new r
    have hexec : ((s.setCpu c fun x => { x with exec := .swtch old new (r + 1) }).cpu c).exec = .swtch old new (r + 1) := by
      rw [setCpu_cpu]
    refine h.exec (c := c) (fun c' hne => update_of_ne hne ..) (fun q => rfl) rfl (fun p b he => ?_) fun q ha => ?_
    · cases hexec.symm.trans he
    · rcases ha with ha | ⟨e, ha⟩ <;> cases on.symm.trans ha
  | load on =>
    refine h.exec (c := c) (fun c' hne => setCpu_cpu_of_ne hne) (fun q => rfl) rfl (fun p b he => ?_) fun q ha => ?_
    · rw [setCpu_cpu] at he; cases he
    · rcases ha with ha | ⟨e, ha⟩ <;> cases on.symm.trans ha
  | swtchRet on => exact h.swtchRet hinv on

theorem Enters.reach (h : Reachable s) : s.Enters := by
  refine Trans.Reach.inv_of (P := fun s => s.Enters) (fun _ hi => hi.enters) ?_ h
  rintro s s' hr henters ⟨c, hst⟩
  exact henters.step (Inv.reach hr) hst

/-- When `pop_off` returns to a process with no call of `push_off` open, interrupts are on on its CPU exactly if they
were on when it made the first of the calls that are closed now. The panics of `pop_off`, and those of `sched` about
locks and interrupts, do not happen. -/
theorem interrupt_state (h : Reachable s) :
    (∀ c p k b s', (s.cpu c).exec = .run (.proc p) → s.code (.proc p) = .popOn :: k → s.depth (.proc p) = 0 →
      s.entry (.proc p) = some b → Step s c s' → s'.code (.proc p) = k → (s'.cpu c).intr = b) ∧
    ∀ c t e, (s.cpu c).exec = .halted t e →
      e ≠ .popOff ∧ e ≠ .popOffInterruptible ∧ e ≠ .schedLocks ∧ e ≠ .schedInterruptible := by
  have hinv := Inv.reach h
  refine ⟨fun c p k b s' hon hcode hdepth hentry hst hk => ?_, fun c t e he => ?_⟩
  · have hr := (hinv.on c).run hon
    have hintena : (s.cpu c).intena = b := by
      have hkept := (Enters.reach h).run c p b hon hentry
      rwa [hcode] at hkept
    have hoff : (s.cpu c).intr = false := by
      have hhead := hr.head
      rwa [hcode] at hhead
    -- only the last step of `pop_off` goes on to `k`
    cases hst with
    | instr on code hd =>
      cases hon.symm.trans on
      cases hcode.symm.trans code
      cases hd
      change ((s.setCpu c fun x => { x with intr := if x.noff = 0 ∧ x.intena = true then true else x.intr }).cpu c).intr = b
      rw [setCpu_cpu, ← hr.depth, hdepth, hintena, hoff]
      cases b <;> rfl
    | expand on code he =>
      cases hon.symm.trans on
      cases hcode.symm.trans code
      cases he
    | panic | intrOn | intrOff | compute => exact absurd (hcode.symm.trans hk) (List.cons_ne_self _ _)
    | call on code | ret on code =>
      cases hon.symm.trans on
      cases hcode.symm.trans code
    | trap on intr => cases hoff.symm.trans intr
    | save on | load on | swtchRet on => cases hon.symm.trans on
  · have hon := hinv.on c
    unfold On at hon
    rw [he] at hon
    have hbad := hon.panic
    refine ⟨?_, ?_, ?_, ?_⟩ <;> rintro rfl <;> exact hbad trivial

theorem Reachable.swtch_run {old new : Agent N C} (h : Reachable s) (on : (s.cpu c).exec = .swtch old new 0) :
    ∀ i ≤ 28, ∃ regs context, Reachable { s with
      cpu := update s.cpu c { s.cpu c with exec := .swtch old new i, regs := regs }, context := context } := by
  intro i
  induction i with
  | zero =>
    intro _
    refine ⟨(s.cpu c).regs, s.context, ?_⟩
    rwa [← on, update_eq_self]
  | succ i ih =>
    intro hi
    obtain ⟨regs, context, hr⟩ := ih (by omega)
    have hexec := congrArg Cpu.exec
      (update_self c { s.cpu c with exec := .swtch old new i, regs := regs } s.cpu)
    rcases lt_or_ge i 14 with hlt | hge
    · refine ⟨regs, update context old (update (context old) ⟨i, hlt⟩ (regs ⟨i, hlt⟩)), ?_⟩
      have hnext := hr.tail ⟨c, .save (r := ⟨i, hlt⟩) hexec⟩
      simp only [SchedSys.setCpu, update_self, update_idem] at hnext
      exact hnext
    · obtain ⟨r, rfl⟩ := Nat.exists_eq_add_of_le hge
      refine ⟨update regs ⟨r, by omega⟩ (context new ⟨r, by omega⟩), context, ?_⟩
      have hnext := hr.tail ⟨c, .load (r := ⟨r, by omega⟩) hexec⟩
      simp only [SchedSys.setCpu, update_self, update_idem] at hnext
      exact hnext

/-- The first process is dispatched with interrupts on, and calls `push_off` and `pop_off` after `forkret`. -/
theorem interrupt_state_first : ∃ s s' : SchedSys 2 Bool Unit Unit Bool, Reachable s ∧ Step s false s' ∧
    s.entry (.proc 0) = some true ∧ (s.cpu false).intr = false ∧ (s'.cpu false).intr = true := by
  obtain ⟨regs, context, h⟩ := Reachable.swtch_run reachable_firstDispatch (c := false) rfl 28 le_rfl
  have h := h.tail ⟨false, .swtchRet rfl⟩
  have h := h.tail ⟨false, .expand (t := .proc 0) rfl rfl (.release ⟨Option.some_ne_none false, rfl⟩)⟩
  have h := h.tail ⟨false, .instr (t := .proc 0) rfl rfl .clearCpu⟩
  have h := h.tail ⟨false, .instr (t := .proc 0) rfl rfl .unlock⟩
  have h := h.tail ⟨false, .expand (t := .proc 0) rfl rfl (.popOff rfl le_rfl)⟩
  have h := h.tail ⟨false, .instr (t := .proc 0) rfl rfl .noffDec⟩
  have h := h.tail ⟨false, .instr (t := .proc 0) rfl rfl .popOn⟩
  have h := h.tail ⟨false, .call (t := .proc 0) rfl rfl .pushOff⟩
  have h := h.tail ⟨false, .expand (t := .proc 0) rfl rfl .pushOff⟩
  have h := h.tail ⟨false, .instr (t := .proc 0) rfl rfl .intrOff⟩
  have h := h.tail ⟨false, .instr (t := .proc 0) rfl rfl .noffInc⟩
  have h := h.tail ⟨false, .call (t := .proc 0) rfl rfl .popOff⟩
  have h := h.tail ⟨false, .expand (t := .proc 0) rfl rfl (.popOff rfl le_rfl)⟩
  have h := h.tail ⟨false, .instr (t := .proc 0) rfl rfl .noffDec⟩
  exact ⟨_, _, h, .instr (t := .proc 0) rfl rfl .popOn, rfl, rfl,
    (interrupt_state h).1 false 0 _ true _ rfl rfl rfl rfl (.instr (t := .proc 0) rfl rfl .popOn) rfl⟩

end SchedSys

end Xv6
