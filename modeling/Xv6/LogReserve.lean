import Xv6.Log

/-!
# Log reservation

`begin_op` admits an operation only if `MAXOPBLOCKS` blocks for it and for every other outstanding
operation still fit into `LOGSIZE`. `log_write` however tests `lh.n` against `log.size - 1` (one log
block is the header), and tests it before it looks whether the block is already logged; `mkfs` sets
`nlog = LOGSIZE`. So three operations that use their reservations to the last block reach the panic.

A run is a list of events of any number of processes (`LogEv`); `LogOps.exec` executes it. The runs
without the panic are exactly those in which every `log_write` finds fewer than `LOGSIZE - 1` distinct
blocks written since the last commit (`fitsLog`).
-/

namespace Xv6

open Function (update)

/-- Where a process is with respect to `begin_op` and `end_op`. -/
inductive OpPhase
  | idle
  | inOp
  | committing
deriving DecidableEq, Repr

/-- The critical sections of `log.lock`. -/
inductive LogEv
  | beginOp (p : Nat)
  | logWrite (p b : Nat)
  | endOp (p : Nat)
  /-- the rest of `end_op` of the process that commits -/
  | commit (p : Nat)
deriving DecidableEq, Repr

/-- The log and the phase of every process. -/
structure LogOps where
  log : Log
  ph : Nat → OpPhase

namespace LogOps

def init (start size : Nat) : LogOps := ⟨Log.init start size, fun _ => .idle⟩

/-- `none`: the process is elsewhere, or sleeps in `begin_op`. -/
def step (s : LogOps) : LogEv → Option (Except LogPanic LogOps)
  | .beginOp p =>
    if s.ph p = .idle then
      s.log.beginOp.map fun l => .ok ⟨l, update s.ph p .inOp⟩
    else none
  | .logWrite p b =>
    if s.ph p = .inOp then some ((s.log.logWrite b).map fun r => ⟨r.1, s.ph⟩) else none
  | .endOp p =>
    if s.ph p = .inOp then
      some (s.log.endOp.map fun r =>
        ⟨r.1, update s.ph p (if r.2 then .committing else .idle)⟩)
    else none
  | .commit p =>
    if s.ph p = .committing then
      some (.ok ⟨s.log.clear.endCommit, update s.ph p .idle⟩)
    else none

/-- Runs a list of events; a panic ends the run. -/
def exec (s : LogOps) : List LogEv → Option (Except LogPanic LogOps)
  | [] => some (.ok s)
  | e :: es =>
    match s.step e with
    | some (.ok s') => s'.exec es
    | some (.error m) => if es.isEmpty then some (.error m) else none
    | none => none

/-- Every recorded block has its copy inside the on-disk log area. -/
def InArea (s : LogOps) : Prop :=
  ∀ i < s.log.lh.n, s.log.start + i + 1 < s.log.start + s.log.size

/-- The run does not end in `panic("too big a transaction")` and never records a block beyond the
log area. -/
def Safe (s : LogOps) (tr : List LogEv) : Prop :=
  s.exec tr ≠ some (.error .tooBigATransaction) ∧
    ∀ pre, pre <+: tr → ∀ s', s.exec pre = some (.ok s') → s'.InArea

end LogOps

/-- The distinct blocks each process has logged in its current operation, after one more event. -/
def opBlocks (w : Nat → Finset Nat) : LogEv → Nat → Finset Nat
  | .beginOp p => update w p ∅
  | .logWrite p b => update w p (insert b (w p))
  | _ => w

/-- No operation logs more than `k` distinct blocks. -/
def withinBudget (k : Nat) (w : Nat → Finset Nat) : List LogEv → Bool
  | [] => true
  | .logWrite p b :: es =>
    decide ((insert b (w p)).card ≤ k) && withinBudget k (opBlocks w (.logWrite p b)) es
  | e :: es => withinBudget k (opBlocks w e) es

/-- The distinct blocks logged since the last commit, after one more event. -/
def txnBlocks (t : Finset Nat) : LogEv → Finset Nat
  | .logWrite _ b => insert b t
  | .commit _ => ∅
  | _ => t

/-- Every `log_write` of the run finds fewer than `k` distinct blocks logged since the last commit. -/
def fitsLog (k : Nat) (t : Finset Nat) : List LogEv → Bool
  | [] => true
  | .logWrite p b :: es => decide (t.card < k) && fitsLog k (txnBlocks t (.logWrite p b)) es
  | e :: es => fitsLog k (txnBlocks t e) es

/-! ### The header holds the blocks of the transaction -/

/-- The header lists the blocks of `t`, each once. -/
structure Lists (lh : LogHeader) (t : Finset Nat) : Prop where
  mem : ∀ b, lh.Logged b ↔ b ∈ t
  card : lh.n = t.card

theorem Lists.empty (f : Nat → Nat) : Lists ⟨0, f⟩ ∅ :=
  ⟨fun b => by simp [LogHeader.Logged], rfl⟩

theorem Lists.add {lh : LogHeader} {t : Finset Nat} (h : Lists lh t) (b : Nat) :
    Lists (lh.add b) (insert b t) := by
  refine ⟨fun b' => by rw [LogHeader.logged_add, Finset.mem_insert, h.mem], ?_⟩
  by_cases hb : lh.Logged b
  · rw [LogHeader.add_of_logged hb, Finset.insert_eq_of_mem ((h.mem b).1 hb), h.card]
  · rw [LogHeader.add_of_not_logged hb, Finset.card_insert_of_notMem fun hm => hb ((h.mem b).2 hm),
      h.card]

/-! ### What an event does -/

namespace LogOps

theorem step_cases {s : LogOps} {e : LogEv} {r : Except LogPanic LogOps} (h : s.step e = some r) :
    (∃ p, e = .beginOp p ∧ s.ph p = .idle ∧ s.log.committing = false ∧
      s.log.lh.n + (s.log.outstanding + 1) * MAXOPBLOCKS ≤ LOGSIZE ∧
      r = .ok ⟨{ s.log with outstanding := s.log.outstanding + 1 }, update s.ph p .inOp⟩) ∨
    (∃ p b, e = .logWrite p b ∧ s.ph p = .inOp ∧
      ((LOGSIZE ≤ s.log.lh.n ∨ s.log.size ≤ s.log.lh.n + 1) ∧ r = .error .tooBigATransaction ∨
       s.log.lh.n < LOGSIZE ∧ s.log.lh.n + 1 < s.log.size ∧ s.log.outstanding < 1 ∧
        r = .error .logWriteOutsideOfTrans ∨
       s.log.lh.n < LOGSIZE ∧ s.log.lh.n + 1 < s.log.size ∧ 1 ≤ s.log.outstanding ∧
        r = .ok ⟨{ s.log with lh := s.log.lh.add b }, s.ph⟩)) ∨
    (∃ p, e = .endOp p ∧ s.ph p = .inOp ∧
      (s.log.committing = true ∧ r = .error .logCommitting ∨
       s.log.committing = false ∧ s.log.outstanding - 1 = 0 ∧
        r = .ok ⟨{ s.log with outstanding := s.log.outstanding - 1, committing := true },
          update s.ph p .committing⟩ ∨
       s.log.committing = false ∧ s.log.outstanding - 1 ≠ 0 ∧
        r = .ok ⟨{ s.log with outstanding := s.log.outstanding - 1 },
          update s.ph p .idle⟩)) ∨
    (∃ p, e = .commit p ∧ s.ph p = .committing ∧
      r = .ok ⟨s.log.clear.endCommit, update s.ph p .idle⟩) := by
  cases e with
  | beginOp p =>
    refine .inl ⟨p, rfl, ?_⟩
    simp only [step, Log.beginOp] at h
    split_ifs at h with h1 h2 h3 <;> simp_all
  | logWrite p b =>
    refine .inr (.inl ⟨p, b, rfl, ?_⟩)
    simp only [step, Log.logWrite] at h
    split_ifs at h with h1 h2 h3 <;> simp [Except.map] at h <;> subst h
    · exact ⟨h1, .inl ⟨h2, rfl⟩⟩
    · exact ⟨h1, .inr (.inl ⟨by omega, by omega, h3, rfl⟩)⟩
    · exact ⟨h1, .inr (.inr ⟨by omega, by omega, by omega, rfl⟩)⟩
  | endOp p =>
    refine .inr (.inr (.inl ⟨p, rfl, ?_⟩))
    simp only [step, Log.endOp] at h
    split_ifs at h with h1 h2 h3 <;> simp [Except.map] at h <;> subst h
    · exact ⟨h1, .inl ⟨h2, rfl⟩⟩
    · exact ⟨h1, .inr (.inl ⟨by simpa using h2, h3, rfl⟩)⟩
    · exact ⟨h1, .inr (.inr ⟨by simpa using h2, h3, rfl⟩)⟩
  | commit p =>
    refine .inr (.inr (.inr ⟨p, rfl, ?_⟩))
    simp only [step] at h
    split_ifs at h with h1
    exact ⟨h1, by simpa using h.symm⟩

theorem exec_cons_ok {s s' : LogOps} {e : LogEv} (h : s.step e = some (.ok s')) (es : List LogEv) :
    s.exec (e :: es) = s'.exec es := by
  simp only [exec, h]

theorem exec_cons_error {s : LogOps} {e : LogEv} {m : LogPanic} (h : s.step e = some (.error m))
    (es : List LogEv) : s.exec (e :: es) = if es.isEmpty then some (.error m) else none := by
  simp only [exec, h]

theorem safe_cons_ok {s s' : LogOps} {e : LogEv} (h : s.step e = some (.ok s')) (ha : s.InArea)
    (es : List LogEv) : s.Safe (e :: es) ↔ s'.Safe es := by
  simp only [Safe, exec_cons_ok h]
  refine and_congr_right fun _ => ⟨fun hp pre hpre s₁ h₁ => ?_, fun hp pre hpre s₁ h₁ => ?_⟩
  · exact hp (e :: pre) (List.cons_prefix_cons.2 ⟨rfl, hpre⟩) s₁ (by rw [exec_cons_ok h]; exact h₁)
  · rcases List.prefix_cons_iff.1 hpre with rfl | ⟨pre', rfl, hpre'⟩
    · cases h₁; exact ha
    · rw [exec_cons_ok h] at h₁
      exact hp pre' hpre' s₁ h₁

theorem safe_singleton_error {s : LogOps} {e : LogEv} {m : LogPanic}
    (h : s.step e = some (.error m)) (ha : s.InArea) :
    s.Safe [e] ↔ m ≠ .tooBigATransaction := by
  simp only [Safe, exec_cons_error h]
  refine ⟨fun hs hm => hs.1 (by simp [hm]), fun hm => ⟨by simpa using hm, fun pre hpre s₁ h₁ => ?_⟩⟩
  rcases List.prefix_cons_iff.1 hpre with rfl | ⟨pre', rfl, hpre'⟩
  · cases h₁; exact ha
  · rw [exec_cons_error h] at h₁
    split_ifs at h₁
    cases h₁

theorem inArea_of_le {s : LogOps} (h : s.log.lh.n + 1 ≤ s.log.size) : s.InArea :=
  fun i hi => by omega

theorem tooBig_iff {s : LogOps} {t : Finset Nat} (hl : Lists s.log.lh t)
    (hsz : s.log.size = LOGSIZE) :
    (LOGSIZE ≤ s.log.lh.n ∨ s.log.size ≤ s.log.lh.n + 1) ↔ ¬ t.card < LOGSIZE - 1 := by
  have := hl.card
  simp only [LOGSIZE, MAXOPBLOCKS] at *
  omega

theorem fitsLog_cons_of_ne {k : Nat} {t : Finset Nat} {e : LogEv} (es : List LogEv)
    (h : ∀ p b, e ≠ .logWrite p b) : fitsLog k t (e :: es) = fitsLog k (txnBlocks t e) es := by
  cases e with
  | logWrite p b => exact absurd rfl (h p b)
  | beginOp p => rfl
  | endOp p => rfl
  | commit p => rfl

/-- From a state whose header lists the transaction `t`, the rest of the run is safe iff it fits. -/
theorem safe_iff_fitsLog_aux (tr : List LogEv) : ∀ (s : LogOps) (t : Finset Nat),
    Lists s.log.lh t → s.log.size = LOGSIZE → s.log.lh.n + 1 ≤ s.log.size → s.exec tr ≠ none →
    (s.Safe tr ↔ fitsLog (LOGSIZE - 1) t tr = true) := by
  induction tr with
  | nil =>
    intro s t hl hsz ha _
    refine ⟨fun _ => rfl, fun _ => ⟨by simp [exec], fun pre hpre s₁ h₁ => ?_⟩⟩
    rw [List.prefix_nil.1 hpre] at h₁
    cases h₁; exact inArea_of_le ha
  | cons e es ih =>
    intro s t hl hsz ha hx
    obtain ⟨r, hr⟩ : ∃ r, s.step e = some r := by
      rcases h : s.step e with _ | r
      · simp [exec, h] at hx
      · exact ⟨r, rfl⟩
    have herr : ∀ m, r = .error m → es = [] := by
      rintro m rfl
      rw [exec_cons_error hr] at hx
      split_ifs at hx with he
      · exact List.isEmpty_iff.1 he
      · exact absurd rfl hx
    -- the events other than `log_write` leave the transaction alone or empty it
    have hok : ∀ s', r = .ok s' → Lists s'.log.lh (txnBlocks t e) → s'.log.size = LOGSIZE →
        s'.log.lh.n + 1 ≤ s'.log.size →
        (s.Safe (e :: es) ↔ fitsLog (LOGSIZE - 1) (txnBlocks t e) es = true) := by
      rintro s' rfl hl' hsz' ha'
      rw [safe_cons_ok hr (inArea_of_le ha)]
      exact ih s' _ hl' hsz' ha' (by rw [exec_cons_ok hr] at hx; exact hx)
    rcases step_cases hr with ⟨p, rfl, -, -, -, rfl⟩ | ⟨p, b, rfl, -, hw⟩ | ⟨p, rfl, -, he⟩ |
      ⟨p, rfl, -, rfl⟩
    · exact hok _ rfl hl hsz ha
    · rcases hw with ⟨htoo, rfl⟩ | ⟨h1, h2, -, rfl⟩ | ⟨h1, h2, -, rfl⟩
      · obtain rfl := herr _ rfl
        rw [safe_singleton_error hr (inArea_of_le ha)]
        simp [fitsLog, (tooBig_iff hl hsz).1 htoo]
      · obtain rfl := herr _ rfl
        rw [safe_singleton_error hr (inArea_of_le ha)]
        have hfit := not_not.1 (mt (tooBig_iff hl hsz).2 (by omega))
        simp [fitsLog, hfit]
      · have hfit := not_not.1 (mt (tooBig_iff hl hsz).2 (by omega))
        rw [hok _ rfl (hl.add b) hsz]
        · simp [fitsLog, hfit]
        · have hle : (s.log.lh.add b).n ≤ s.log.lh.n + 1 := by
            unfold LogHeader.add; dsimp only; split <;> omega
          show (s.log.lh.add b).n + 1 ≤ s.log.size
          omega
    · rw [fitsLog_cons_of_ne es (by simp)]
      rcases he with ⟨-, rfl⟩ | ⟨-, -, rfl⟩ | ⟨-, -, rfl⟩
      · obtain rfl := herr _ rfl
        rw [safe_singleton_error hr (inArea_of_le ha)]
        simp [fitsLog]
      · exact hok _ rfl hl hsz ha
      · exact hok _ rfl hl hsz ha
    · exact hok _ rfl (Lists.empty _) hsz (by
        show 0 + 1 ≤ s.log.size
        rw [hsz]; decide)

/-- The reservation is sufficient exactly for the runs in which no `log_write`, repeated ones
included, is called when `LOGSIZE - 1` distinct blocks are already logged since the last commit. -/
theorem safe_iff_fitsLog (start : Nat) (tr : List LogEv)
    (h : ((LogOps.init start nlog).exec tr).isSome) :
    (LogOps.init start nlog).Safe tr ↔ fitsLog (LOGSIZE - 1) ∅ tr = true := by
  refine safe_iff_fitsLog_aux tr _ ∅ (Lists.empty _) rfl ?_ (Option.isSome_iff_ne_none.1 h)
  show 0 + 1 ≤ nlog
  decide

/-- Two operations that share a block and a commit. -/
def sharedBlock : List LogEv :=
  [.beginOp 0, .beginOp 1, .logWrite 0 7, .logWrite 1 7, .endOp 0, .logWrite 1 8, .endOp 1, .commit 1]

theorem safe_sharedBlock : (LogOps.init 2 nlog).Safe sharedBlock :=
  (safe_iff_fitsLog 2 sharedBlock rfl).2 (by decide)

/-- Three operations, each of which logs `MAXOPBLOCKS` distinct blocks. -/
def threeFullOps : List LogEv :=
  [.beginOp 0, .beginOp 1, .beginOp 2] ++
    (List.range MAXOPBLOCKS).flatMap fun i =>
      [.logWrite 0 (100 + i), .logWrite 1 (200 + i), .logWrite 2 (300 + i)]

/-- The last `log_write` of `threeFullOps` panics although every operation keeps to its budget. -/
theorem not_safe_of_withinBudget :
    ¬ ∀ tr, ((LogOps.init 2 nlog).exec tr).isSome → withinBudget MAXOPBLOCKS (fun _ => ∅) tr = true →
      (LogOps.init 2 nlog).Safe tr := by
  intro h
  have hx : (LogOps.init 2 nlog).exec threeFullOps = some (.error .tooBigATransaction) := rfl
  exact (h threeFullOps (by rw [hx]; rfl) (by decide)).1 hx

end LogOps

end Xv6
