import Xv6.Lib.Trans
import Xv6.Proofs.LogCache
import Xv6.Proofs.LogRecover

/-!
# Crash atomicity of the log

The invariant of the machine of `Xv6.LogDisk`, its parts first: who runs `commit` (`Ctl`), what the
history says (`Hist`), and what holds at each point of `commit` and `recover_from_log` (`PcOk`). In
every reachable state the disk recovers to the home blocks after the first `k` commits, for some `k`
not below the number of commits whose `end_op` has returned (`Inv.recov`).
-/

namespace Xv6

open Function

def LogPc.bufs : LogPc → List Nat
  | .writeLogTo _ i => [i]
  | .writeLogFrom _ i j => [i, j]
  | .writeLogDone _ i j => [i, j]
  | .writeHeadBuf _ i => [i]
  | .writeHeadDone _ i => [i]
  | .installTransL _ i => [i]
  | .installTransD _ i j => [i, j]
  | .installTransDone _ i j => [i, j]
  | .readHeadBuf i => [i]
  | _ => []

def LogPc.pinFrom : LogPc → Nat
  | .installTrans t => t
  | .installTransL t _ => t
  | .installTransD t _ _ => t
  | .installTransDone t _ _ => t + 1
  | _ => 0

theorem applyUpds_append (d : Nat → Bytes) (us : List Upd) (u : Upd) :
    applyUpds d (us ++ [u]) = update (applyUpds d us) u.b u.data := by
  rw [applyUpds, List.foldl_append]; rfl

namespace LogDisk

variable {s s' : LogDisk} {w : Option (Nat × LogPc)} {p q k : Nat} {kk kk' : LogPc}

/-! ### Who runs `commit` -/

/-- `w` is the process inside `commit` or `recover_from_log`, if there is one. -/
structure Ctl (s : LogDisk) (w : Option (Nat × LogPc)) : Prop where
  who : ∀ p kk, s.pc p = .log kk ↔ w = some (p, kk)
  count : ∃ F : Finset Nat, (∀ p, p ∈ F ↔ s.pc p = .inOp) ∧ F.card = s.log.outstanding
  alone : w.isSome → ∀ p, s.pc p ≠ .inOp
  committing : s.log.committing = (s.up && w.isSome)
  booting : s.up = false → w.isSome

namespace Ctl

theorem goto (h : Ctl s (some (p, kk))) (hpc : s'.pc = update s.pc p (.log kk'))
    (hout : s'.log.outstanding = s.log.outstanding) (hcom : s'.log.committing = s.log.committing)
    (hup : s'.up = s.up) : Ctl s' (some (p, kk')) := by
  have hne : ∀ q, s'.pc q ≠ .inOp := fun q => by
    rw [hpc]; by_cases hq : q = p
    · subst hq; rw [update_self]; nofun
    · rw [update_of_ne hq]; exact h.alone rfl q
  refine ⟨fun q k => ?_, ?_, fun _ => hne, by rw [hcom, hup]; exact h.committing, fun _ => rfl⟩
  · rw [hpc]; by_cases hq : q = p
    · subst hq; simp
    · rw [update_of_ne hq, h.who]; simp [Ne.symm hq]
  · obtain ⟨F, hF, hc⟩ := h.count
    have : F = ∅ := Finset.eq_empty_of_forall_notMem fun q hq => h.alone rfl q ((hF q).1 hq)
    subst this
    exact ⟨∅, fun q => by simp [hne q], by rw [hout]; exact hc⟩

theorem beginOp {l : Log} (h : Ctl s w) (hup : s.up = true) (hp : s.pc p = .idle) (hl : s.log.beginOp = some l) :
    w = none ∧ l = { s.log with outstanding := s.log.outstanding + 1 } ∧
      ∀ s' : LogDisk, s'.log = l → s'.up = true → s'.pc = update s.pc p .inOp →
        Ctl s' none := by
  unfold Log.beginOp at hl
  split_ifs at hl with hc
  obtain rfl := Option.some.inj hl
  have hw : w = none := by
    have := h.committing
    rw [hup, Bool.true_and] at this
    cases w with
    | none => rfl
    | some x => rw [this] at hc; exact absurd rfl hc
  subst hw
  refine ⟨rfl, rfl, fun s' hl' hup' hpc => ?_⟩
  obtain ⟨F, hF, hcard⟩ := h.count
  refine ⟨fun q k => ?_, ⟨insert p F, fun q => ?_, ?_⟩, nofun, ?_, fun h => by rw [hup'] at h; cases h⟩
  · rw [hpc]; by_cases hq : q = p
    · subst hq; simp
    · rw [update_of_ne hq]; exact h.who q k
  · rw [hpc]; by_cases hq : q = p
    · subst hq; simp
    · rw [update_of_ne hq, ← hF]; simp [hq]
  · rw [Finset.card_insert_of_notMem, hcard, hl']
    rw [hF, hp]; nofun
  · rw [hl']; dsimp only; rw [h.committing]; simp

theorem endOp_more {l : Log} (h : Ctl s none) (hup : s.up = true) (hp : s.pc p = .inOp)
    (hl : s.log.endOp = .ok (l, false)) :
    l = { s.log with outstanding := s.log.outstanding - 1 } ∧ Ctl (s.endOp p l false) none := by
  unfold Log.endOp at hl; dsimp only at hl
  split_ifs at hl with hc ho
  · simp at hl
  simp only [Except.ok.injEq, Prod.mk.injEq, and_true] at hl
  subst hl
  obtain ⟨F, hF, hcard⟩ := h.count
  refine ⟨rfl, fun q k => ?_, ⟨F.erase p, fun q => ?_, ?_⟩, nofun, h.committing,
    fun h => by rw [show (s.endOp p _ false).up = s.up from rfl, hup] at h; cases h⟩
  · simp only [endOp, Bool.false_eq_true, if_false]
    by_cases hq : q = p
    · subst hq; simp
    · rw [update_of_ne hq]; exact h.who q k
  · simp only [endOp, Bool.false_eq_true, if_false, Finset.mem_erase]
    by_cases hq : q = p
    · subst hq; simp
    · rw [update_of_ne hq, hF]; simp [hq]
  · rw [Finset.card_erase_of_mem ((hF p).2 hp), hcard]; rfl

theorem endOp_last {l : Log} (h : Ctl s none) (hup : s.up = true) (hp : s.pc p = .inOp)
    (hl : s.log.endOp = .ok (l, true)) :
    l = { s.log with outstanding := 0, committing := true } ∧ (∀ q, s.pc q = .inOp → q = p) ∧
      Ctl (s.endOp p l true) (some (p, if 0 < l.lh.n then .writeLog 0 else .finish)) := by
  unfold Log.endOp at hl; dsimp only at hl
  split_ifs at hl with hc ho
  swap
  · simp at hl
  simp only [Except.ok.injEq, Prod.mk.injEq, and_true] at hl
  obtain ⟨F, hF, hcard⟩ := h.count
  have hle : F.card ≤ 1 := by omega
  have honly : ∀ q, s.pc q = .inOp → q = p := fun q hq =>
    Finset.card_le_one.1 hle q ((hF q).2 hq) p ((hF p).2 hp)
  have hne : ∀ q, (s.endOp p l true).pc q ≠ .inOp := fun q => by
    by_cases hq : q = p
    · subst hq; simp [endOp]
    · simp only [endOp, update_of_ne hq]; exact fun e => hq (honly q e)
  subst hl
  refine ⟨by rw [ho], honly, fun q k => ?_, ⟨∅, fun q => by simp [hne q], ?_⟩, fun _ => hne, ?_,
    fun _ => rfl⟩
  · simp only [endOp, if_true]
    by_cases hq : q = p
    · subst hq; simp
    · rw [update_of_ne hq, h.who]; simp [Ne.symm hq]
  · simp [endOp, ho]
  · simp [endOp, hup]

theorem finish (h : Ctl s (some (p, .finish))) : Ctl (s.finish p) none := by
  obtain ⟨F, hF, hcard⟩ := h.count
  have hne : ∀ q, update s.pc p .idle q ≠ .inOp := fun q => by
    by_cases hq : q = p
    · subst hq; simp
    · rw [update_of_ne hq]; exact h.alone rfl q
  have hwho : ∀ q k, update s.pc p .idle q ≠ .log k := fun q k => by
    by_cases hq : q = p
    · subst hq; simp
    · rw [update_of_ne hq]; intro e
      rw [h.who] at e; simp [Ne.symm hq] at e
  have hF0 : F = ∅ := Finset.eq_empty_of_forall_notMem fun q hq => h.alone rfl q ((hF q).1 hq)
  subst hF0
  have hcom := h.committing
  unfold LogDisk.finish
  split
  · rename_i hup
    exact ⟨fun q k => by simp [hwho q k], ⟨∅, fun q => by simp [hne q], hcard⟩, nofun,
      by simp [Log.endCommit], fun h => by dsimp only at h; rw [hup] at h; cases h⟩
  · rename_i hup
    exact ⟨fun q k => by simp [hwho q k], ⟨∅, fun q => by simp [hne q], hcard⟩, nofun,
      by dsimp only; rw [hcom]; simp [hup], fun h => by cases h⟩

theorem crash (s : LogDisk) : Ctl s.crash (some (0, .readHead)) := by
  have hpc : ∀ q, s.crash.pc q ≠ .inOp := fun q => by
    by_cases hq : q = 0
    · subst hq; simp [LogDisk.crash]
    · simp [LogDisk.crash, update_of_ne hq]
  refine ⟨fun q k => ?_, ⟨∅, fun q => by simp [hpc q], rfl⟩, fun _ => hpc, rfl, fun _ => rfl⟩
  by_cases hq : q = 0
  · subst hq; simp [LogDisk.crash]
  · simp [LogDisk.crash, update_of_ne hq, Ne.symm hq]

end Ctl

/-! ### History -/

structure Hist (s : LogDisk) : Prop where
  active : ∀ p, s.pc p = .inOp → s.op p < s.nextOp ∧ s.ended (s.op p) = false
  inj : ∀ p q, s.pc p = .inOp → s.pc q = .inOp → s.op p = s.op q → p = q
  ended_lt : ∀ o, s.ended o = true → o < s.nextOp
  upds : s.up = true → ∀ u ∈ s.upds, s.ended u.op = true ∨ ∃ p, s.pc p = .inOp ∧ s.op p = u.op
  le : ∀ c ∈ s.commits, c ≤ s.upds.length
  whole : ∀ c ∈ s.commits, ∀ u ∈ s.upds.take c, s.ended u.op = true ∧ ∀ u' ∈ s.upds.drop c, u.op ≠ u'.op

namespace Hist

variable (h : Hist s)
include h

theorem covered_le (hk : k ≤ s.commits.length) : s.covered k ≤ s.upds.length := by
  cases k with
  | zero => exact Nat.zero_le _
  | succ k =>
    rw [covered, List.getD_eq_getElem _ _ hk]
    exact h.le _ (List.getElem_mem hk)

theorem covered_whole (hk : k ≤ s.commits.length) : ∀ u ∈ s.upds.take (s.covered k),
    s.ended u.op = true ∧ ∀ u' ∈ s.upds.drop (s.covered k), u.op ≠ u'.op := by
  cases k with
  | zero => simp [covered]
  | succ k =>
    rw [covered, List.getD_eq_getElem _ _ hk]
    exact h.whole _ (List.getElem_mem hk)

theorem afterCommits_eq {us : List Upd} {cs : List Nat} (s' : LogDisk) (hk : k ≤ s.commits.length)
    (hb : s'.base = s.base) (hu : s'.upds = s.upds ++ us) (hc : s'.commits = s.commits ++ cs) :
    s'.afterCommits k = s.afterCommits k := by
  have hcov : s'.covered k = s.covered k := by
    cases k with
    | zero => rfl
    | succ k => rw [covered, covered, hc, List.getD_append _ _ _ _ hk]
  rw [afterCommits, afterCommits, hb, hu, hcov, List.take_append_of_le_length (h.covered_le hk)]

theorem of_eq (hpc : ∀ q, s'.pc q = .inOp ↔ s.pc q = .inOp) (hop : s'.op = s.op)
    (hn : s'.nextOp = s.nextOp) (he : s'.ended = s.ended) (hup : s'.up = s.up)
    (hu : s'.upds = s.upds) (hc : s'.commits = s.commits) : Hist s' := by
  refine ⟨?_, ?_, ?_, ?_, ?_, ?_⟩ <;> simp only [hpc, hop, hn, he, hup, hu, hc]
  exacts [h.active, h.inj, h.ended_lt, h.upds, h.le, h.whole]

theorem beginOp {l : Log} (hp : s.pc p = .idle) :
    Hist { s with
      log := l
      pc := update s.pc p .inOp
      op := update s.op p s.nextOp
      nextOp := s.nextOp + 1 } := by
  have hend : s.ended s.nextOp = false := by
    by_contra hc
    exact lt_irrefl _ (h.ended_lt _ (by simpa using hc))
  refine ⟨fun q hq => ?_, fun q r hq hr he => ?_, fun o ho => ?_, fun hup u hu => ?_, h.le, h.whole⟩
  · by_cases hqp : q = p
    · subst hqp; simp [hend]
    · simp only [update_of_ne hqp] at hq ⊢
      exact ⟨Nat.lt_succ_of_lt (h.active q hq).1, (h.active q hq).2⟩
  · by_cases hqp : q = p <;> by_cases hrp : r = p
    · rw [hqp, hrp]
    · subst hqp
      simp only [update_self, update_of_ne hrp] at he hr
      have := (h.active r hr).1
      omega
    · subst hrp
      simp only [update_self, update_of_ne hqp] at he hq
      have := (h.active q hq).1
      omega
    · simp only [update_of_ne hqp, update_of_ne hrp] at hq hr he
      exact h.inj q r hq hr he
  · exact Nat.lt_succ_of_lt (h.ended_lt o ho)
  · refine (h.upds hup u hu).imp id fun ⟨q, hq, hqu⟩ => ?_
    have hqp : q ≠ p := fun e => by rw [e, hp] at hq; cases hq
    exact ⟨q, by simp [update_of_ne hqp, hq, hqu]⟩

theorem change {bc : Bcache} {dirty : Nat → Bool} {b : Nat} {d : Bytes} (hp : s.pc p = .inOp) :
    Hist { s with bc, dirty, upds := s.upds ++ [⟨s.op p, b, d⟩] } := by
  have hact := h.active p hp
  refine ⟨h.active, h.inj, h.ended_lt, fun hup u hu => ?_, fun c hc => ?_, fun c hc u hu => ?_⟩
  · rcases List.mem_append.1 hu with hu | hu
    · exact h.upds hup u hu
    · rw [List.mem_singleton] at hu
      subst hu; exact .inr ⟨p, hp, rfl⟩
  · have := h.le c hc
    rw [List.length_append]; omega
  · rw [List.take_append_of_le_length (h.le c hc)] at hu
    obtain ⟨he, hd⟩ := h.whole c hc u hu
    refine ⟨he, fun u' hu' => ?_⟩
    rw [List.drop_append_of_le_length (h.le c hc)] at hu'
    rcases List.mem_append.1 hu' with hu' | hu'
    · exact hd u' hu'
    · rw [List.mem_singleton] at hu'
      subst hu'; intro e
      rw [e, hact.2] at he; cases he

/-- `end_op`; the last one commits all changes, which are those of operations that have ended. -/
theorem endOp {l : Log} {c : Bool} (hup : s.up = true) (hp : s.pc p = .inOp)
    (hc : c = true → ∀ q, s.pc q = .inOp → q = p) : Hist (s.endOp p l c) := by
  have hpc : ∀ q, (s.endOp p l c).pc q = .inOp → q ≠ p ∧ s.pc q = .inOp := fun q hq => by
    by_cases hqp : q = p
    · subst hqp; unfold LogDisk.endOp at hq
      simp only [update_self] at hq
      split_ifs at hq
    · simp only [LogDisk.endOp, update_of_ne hqp] at hq
      exact ⟨hqp, hq⟩
  have hended : ∀ o, s.ended o = true → (s.endOp p l c).ended o = true := fun o ho => by
    by_cases he : o = s.op p
    · subst he; simp [LogDisk.endOp]
    · simp [LogDisk.endOp, update_of_ne he, ho]
  have hself : (s.endOp p l c).ended (s.op p) = true := by simp [LogDisk.endOp]
  have hcom : ∀ x ∈ (s.endOp p l c).commits, x ∈ s.commits ∨ c = true ∧ x = s.upds.length := by
    intro x hx
    unfold LogDisk.endOp at hx; dsimp only at hx
    split_ifs at hx with hcc
    · rcases List.mem_append.1 hx with hx | hx
      · exact .inl hx
      · exact .inr ⟨hcc, List.mem_singleton.1 hx⟩
    · exact .inl hx
  refine ⟨fun q hq => ?_, fun q r hq hr he => h.inj q r (hpc q hq).2 (hpc r hr).2 he, fun o ho => ?_,
    fun _ u hu => ?_, fun x hx => ?_, fun x hx u hu => ?_⟩
  · obtain ⟨hqp, hq⟩ := hpc q hq
    obtain ⟨h1, h2⟩ := h.active q hq
    refine ⟨h1, ?_⟩
    have : s.op q ≠ s.op p := fun e => hqp (h.inj q p hq hp e)
    simp only [LogDisk.endOp, update_of_ne this]; exact h2
  · by_cases he : o = s.op p
    · subst he; exact (h.active p hp).1
    · simp only [LogDisk.endOp, update_of_ne he] at ho; exact h.ended_lt o ho
  · rcases h.upds hup u hu with hu | ⟨q, hq, hqu⟩
    · exact .inl (hended _ hu)
    · by_cases hqp : q = p
      · subst hqp; exact .inl (hqu ▸ hself)
      · exact .inr ⟨q, by simp only [LogDisk.endOp, update_of_ne hqp]; exact ⟨hq, hqu⟩⟩
  · rcases hcom x hx with hx | ⟨-, rfl⟩
    · exact h.le x hx
    · exact le_rfl
  · rcases hcom x hx with hx | ⟨hct, rfl⟩
    · obtain ⟨he, hd⟩ := h.whole x hx u hu
      exact ⟨hended _ he, hd⟩
    · refine ⟨?_, fun u' hu' => by
        rw [show (s.endOp p l c).upds = s.upds from rfl, List.drop_length] at hu'; cases hu'⟩
      rcases h.upds hup u (List.mem_of_mem_take hu) with hu | ⟨q, hq, hqu⟩
      · exact hended _ hu
      · obtain rfl := hc hct q hq
        exact hqu ▸ hself

end Hist

/-! ### The invariant -/

/-- The current content of block `b`: operations see their changes, the log area is written through. -/
def content (s : LogDisk) (b : Nat) : Bytes := if s.up = true ∧ s.log.Home b then s.view b else s.disk b

/-- Block `b` is logged and, from entry `t` on, not installed yet. -/
def pinned (s : LogDisk) (t b : Nat) : Bool :=
  s.up && (List.range s.log.lh.n).any fun i => decide (t ≤ i) && s.log.lh.block i == b

/-- Outside the buffers `is` only home blocks are held. -/
def HeldHome (bc : Bcache) (l : Log) (is : List Nat) : Prop :=
  ∀ i, (bc.buf i).lock.isSome → l.Home (bc.buf i).blockno ∨ i ∈ is

/-- What holds at each point of `commit` and `recover_from_log`. -/
def PcOk (s : LogDisk) (p k : Nat) : LogPc → Prop
  | .writeLog t => s.up = true ∧ Copying s.log s.disk s.view t
  | .writeLogTo t i => (s.up = true ∧ Copying s.log s.disk s.view t) ∧ t < s.log.lh.n ∧
      Held s.bc p i (s.log.start + t + 1)
  | .writeLogFrom t i j => (s.up = true ∧ Copying s.log s.disk s.view t) ∧ t < s.log.lh.n ∧
      Held s.bc p i (s.log.start + t + 1) ∧ Held s.bc p j (s.log.lh.block t)
  | .writeLogDone t i j => (s.up = true ∧ Copying s.log s.disk s.view (t + 1)) ∧ t < s.log.lh.n ∧
      Held s.bc p i (s.log.start + t + 1) ∧ Held s.bc p j (s.log.lh.block t)
  | .writeHead false => s.up = true ∧ Copying s.log s.disk s.view s.log.lh.n
  | .writeHeadBuf false i => (s.up = true ∧ Copying s.log s.disk s.view s.log.lh.n) ∧
      Held s.bc p i s.log.start
  | .writeHeadDone false i => ((s.up = true → k = s.commits.length) ∧
      Installing s.log s.disk (s.afterCommits k) 0) ∧ Held s.bc p i s.log.start
  | .installTrans t => (s.up = true → k = s.commits.length) ∧
      Installing s.log s.disk (s.afterCommits k) t
  | .installTransL t i => ((s.up = true → k = s.commits.length) ∧
      Installing s.log s.disk (s.afterCommits k) t) ∧ t < s.log.lh.n ∧
      Held s.bc p i (s.log.start + t + 1)
  | .installTransD t i j => ((s.up = true → k = s.commits.length) ∧
      Installing s.log s.disk (s.afterCommits k) t) ∧ t < s.log.lh.n ∧
      Held s.bc p i (s.log.start + t + 1) ∧ Held s.bc p j (s.log.lh.block t)
  | .installTransDone t i j => ((s.up = true → k = s.commits.length) ∧
      Installing s.log s.disk (s.afterCommits k) (t + 1)) ∧ t < s.log.lh.n ∧
      Held s.bc p i (s.log.start + t + 1) ∧ Held s.bc p j (s.log.lh.block t)
  | .writeHead true => (s.up = true → k = s.commits.length) ∧
      Clearing s.log s.disk (s.afterCommits k)
  | .writeHeadBuf true i => ((s.up = true → k = s.commits.length) ∧
      Clearing s.log s.disk (s.afterCommits k)) ∧ Held s.bc p i s.log.start
  | .writeHeadDone true i => ((s.up = true → k = s.commits.length) ∧ s.log.lh.n = 0 ∧
      headN (s.disk s.log.start) = 0) ∧ Held s.bc p i s.log.start
  | .readHead => s.up = false
  | .readHeadBuf i => s.up = false ∧ Held s.bc p i s.log.start
  | .finish => (s.up = true → k = s.commits.length) ∧ s.log.lh.n = 0 ∧ headN (s.disk s.log.start) = 0

/-- Process `w` is inside `commit`, or nobody is; the disk recovers to the first `k` commits. -/
structure Inv (s : LogDisk) (w : Option (Nat × LogPc)) (k : Nat) : Prop where
  ctl : Ctl s w
  hist : Hist s
  head : HeadOk s.log
  inj : s.up = true → ∀ i < s.log.lh.n, ∀ j < s.log.lh.n, s.log.lh.block i = s.log.lh.block j → i = j
  cache : CacheOk s.bc s.disk s.content (s.pinned (w.elim 0 fun x => x.2.pinFrom)) s.dirty
  dirty : ∀ i, s.dirty i = true → ∃ p, (s.bc.buf i).lock = some p ∧ s.pc p = .inOp
  held : HeldHome s.bc s.log (w.elim [] fun x => x.2.bufs)
  recov : Recovers s.log s.disk (s.afterCommits k)
  returned_le : s.returned ≤ k
  le : k ≤ s.commits.length
  full : s.up = true → w.isSome → s.covered s.commits.length = s.upds.length
  quiet : w = none → headN (s.disk s.log.start) = 0
  at_ : ∀ p kk, w = some (p, kk) → PcOk s p k kk

theorem pinned_iff {t b : Nat} :
    s.pinned t b = true ↔ s.up = true ∧ ∃ i < s.log.lh.n, t ≤ i ∧ s.log.lh.block i = b := by
  simp [pinned]

namespace HeldHome

variable {bc bc' : Bcache} {l : Log} {is is' : List Nat} {i b : Nat}

section

variable (h : HeldHome bc l is)
include h

theorem bread (hi : Held bc' p i b) (hne : ∀ j, j ≠ i → bc'.buf j = bc.buf j)
    (hb : l.Home b ∨ i ∈ is') (hsub : ∀ j ∈ is, j ∈ is') : HeldHome bc' l is' := by
  intro j hj
  by_cases hji : j = i
  · subst hji; rw [hi.blockno]; exact hb
  · rw [hne j hji] at hj ⊢; exact (h j hj).imp id (hsub j)

theorem brelse (hsub : ∀ j ∈ is, j ≠ i → j ∈ is') : HeldHome (bc.brelse i) l is' := by
  intro j hj
  rw [Bcache.brelse_buf] at hj ⊢
  by_cases hji : j = i
  · subst hji; simp at hj
  · rw [Bcache.set_buf_of_ne _ hji] at hj ⊢
    exact (h j hj).imp id fun hm => hsub j hm hji

theorem set {f : Buf → Buf} (hl : ∀ x, (f x).lock = x.lock)
    (hb : ∀ x, (f x).blockno = x.blockno) : HeldHome (bc.set i f) l is := by
  intro j hj
  by_cases hji : j = i
  · subst hji; simp only [Bcache.set_buf_self, hl, hb] at hj ⊢; exact h j hj
  · rw [Bcache.set_buf_of_ne _ hji] at hj ⊢; exact h j hj

theorem setData (d : Bytes) : HeldHome (bc.setData i d) l is :=
  h.set (fun _ => rfl) fun _ => rfl

theorem bpin : HeldHome (bc.bpin i) l is := h.set (fun _ => rfl) fun _ => rfl

theorem bunpin : HeldHome (bc.bunpin i) l is := h.set (fun _ => rfl) fun _ => rfl

end

end HeldHome

theorem content_update_area {b : Nat} (d : Bytes) (hb : ¬ s.log.Home b) :
    content { s with disk := update s.disk b d } = update s.content b d := by
  funext x
  by_cases hx : x = b
  · subst hx; simp [content, hb]
  · simp [content, view, update_of_ne hx]

theorem content_update_self {b : Nat} (hup : s.up = true) (hb : s.log.Home b) :
    content { s with disk := update s.disk b (s.content b) } =
      update s.content b (s.content b) := by
  funext x
  by_cases hx : x = b
  · subst hx; simp [content, view, hb, hup]
  · simp [content, view, update_of_ne hx]

theorem content_eq_disk (hup : s.up = false) : s.content = s.disk := by
  funext x; simp [content, hup]

theorem view_eq_afterCommits (h : s.covered k = s.upds.length) : s.view = s.afterCommits k := by
  rw [view, afterCommits, h, List.take_length]

namespace Inv

variable {disk : Nat → Bytes} {bc : Bcache} {log : Log} {k' : Nat}

theorem not_dirty (h : Inv s (some (p, kk)) k) (i : Nat) : s.dirty i = false := by
  by_contra hd
  obtain ⟨q, -, hq⟩ := h.dirty i (by simpa using hd)
  exact h.ctl.alone rfl q hq

theorem goto (h : Inv s (some (p, kk)) k) (hout : log.outstanding = s.log.outstanding)
    (hcom : log.committing = s.log.committing) (hhead : HeadOk log)
    (hinj : s.up = true → ∀ i < log.lh.n, ∀ j < log.lh.n, log.lh.block i = log.lh.block j → i = j)
    (hcache : CacheOk bc disk (content { s with disk, log })
      (pinned { s with log } kk'.pinFrom) s.dirty)
    (hheld : HeldHome bc log kk'.bufs) (hrec : Recovers log disk (s.afterCommits k'))
    (hle : k ≤ k') (hk' : k' ≤ s.commits.length) (hat : PcOk { s with disk, bc, log } p k' kk') :
    Inv ({ s with disk, bc, log }.goto p kk') (some (p, kk')) k' := by
  have hpc : ∀ q, ({ s with disk, bc, log }.goto p kk').pc q = .inOp ↔ s.pc q = .inOp := fun q => by
    by_cases hq : q = p
    · subst hq; simp [LogDisk.goto, h.ctl.alone rfl q]
    · simp [LogDisk.goto, update_of_ne hq]
  refine ⟨h.ctl.goto rfl hout hcom rfl, h.hist.of_eq hpc rfl rfl rfl rfl rfl rfl, hhead, hinj, hcache,
    fun i hi => ?_, hheld, hrec, le_trans h.returned_le hle, hk', h.full, nofun, ?_⟩
  · have hd : s.dirty i = true := hi
    rw [h.not_dirty i] at hd; cases hd
  · rintro _ _ ⟨⟩
    cases kk' <;> exact hat

theorem breadGoto {b : Nat} {f : Nat → LogPc} (h : Inv s (some (p, kk)) k)
    (hs : s.breadGoto p b f = some s') (hfrom : ∀ i, (f i).pinFrom = kk.pinFrom)
    (hbufs : ∀ i, (f i).bufs = kk.bufs ++ [i])
    (hat : ∀ i bc, Held bc p i b → (∀ j b', Held s.bc p j b' → Held bc p j b') →
      PcOk { s with bc } p k (f i)) : ∃ kk', Inv s' (some (p, kk')) k := by
  unfold LogDisk.breadGoto at hs
  split at hs
  · rename_i i bc hr
    obtain rfl := Option.some.inj hs
    obtain ⟨hc, hi, hfree, hne⟩ := h.cache.bread hr
    refine ⟨f i, h.goto rfl rfl h.head h.inj ?_ ?_ h.recov (le_rfl) h.le ?_⟩
    · rw [hfrom i]; exact hc
    · rw [hbufs]
      exact h.held.bread hi hne (.inr (by simp)) fun j hj => List.mem_append_left _ hj
    · refine hat i bc hi fun j b' hj => ?_
      have hji : j ≠ i := fun e => by
        have hl := hj.lock
        rw [e, hfree] at hl; cases hl
      exact ⟨by rw [hne j hji]; exact hj.lock, by rw [hne j hji]; exact hj.blockno⟩
  · cases hs

theorem content_area {b : Nat} (hb : ¬ s.log.Home b) : s.content b = s.disk b := by
  simp [content, hb]

theorem content_home {b : Nat} (hup : s.up = true) (hb : s.log.Home b) : s.content b = s.view b := by
  simp [content, hup, hb]

theorem ne_of_home {i j a b : Nat} (hi : Held s.bc p i a) (hj : Held s.bc p j b)
    (ha : ¬ s.log.Home a) (hb : s.log.Home b) : i ≠ j := fun e => by
  have hab : a = b := by rw [← hi.blockno, ← hj.blockno, e]
  exact ha (hab ▸ hb)

theorem writeLogFrom {t i j : Nat} (h : Inv s (some (p, .writeLogFrom t i j)) k) :
    Inv (({ s with bc := s.bc.setData i (s.bc.buf j).data }.bwrite i).goto p (.writeLogDone t i j))
      (some (p, .writeLogDone t i j)) k := by
  obtain ⟨⟨hup, hcopy⟩, ht, hi, hj⟩ := h.at_ _ _ rfl
  have harea := Log.not_home_area (h.head.area t ht)
  have hdata : (s.bc.buf j).data = s.view (s.log.lh.block t) := by
    rw [h.cache.held_data hj, content_home hup (h.head.home t ht)]
  have hbuf : (s.bc.setData i (s.bc.buf j).data).buf i =
      { s.bc.buf i with data := s.view (s.log.lh.block t) } := by
    rw [Bcache.setData, Bcache.set_buf_self, hdata]
  unfold LogDisk.bwrite
  simp only [hbuf, hi.blockno]
  refine h.goto rfl rfl h.head h.inj ?_ (h.held.setData _)
    (h.recov.write_log h.head ht hcopy.head) (le_rfl) h.le
    ⟨⟨hup, hcopy.write⟩, ht, hi.setData _, hj.setData _⟩
  rw [show content { s with disk := _, log := s.log } = _ from content_update_area _ harea, hdata]
  exact h.cache.bwrite hi _

theorem brelse_brelse {i j a b : Nat} (h : Inv s (some (p, kk)) k) (hi : Held s.bc p i a)
    (hj : Held s.bc p j b) (hij : i ≠ j) (hbufs : kk.bufs = [i, j] ∨ kk.bufs = [j, i])
    (hbufs' : kk'.bufs = []) (hfrom : kk'.pinFrom = kk.pinFrom)
    (hat : PcOk { s with bc := (s.bc.brelse j).brelse i } p k kk') :
    Inv ({ s with bc := (s.bc.brelse j).brelse i }.goto p kk') (some (p, kk')) k := by
  refine h.goto rfl rfl h.head h.inj ?_ ?_ h.recov (le_rfl) h.le hat
  · rw [hfrom]
    exact (h.cache.brelse hj (h.not_dirty j)).brelse (hi.brelse (Ne.symm hij)) (h.not_dirty i)
  · rw [hbufs']
    have hone : HeldHome (s.bc.brelse j) s.log [i] := by
      refine h.held.brelse fun x hx hxj => ?_
      rcases hbufs with hb | hb <;> simp only [Option.elim, hb, List.mem_cons, List.not_mem_nil, or_false] at hx ⊢ <;>
        rcases hx with rfl | rfl <;> first | rfl | exact absurd rfl hxj
    exact hone.brelse fun x hx hxi => absurd (List.mem_singleton.1 hx) hxi

theorem brelse_one {i a : Nat} (h : Inv s (some (p, kk)) k) (hi : Held s.bc p i a)
    (hbufs : kk.bufs = [i]) (hbufs' : kk'.bufs = []) (hfrom : kk'.pinFrom = kk.pinFrom)
    (hat : PcOk { s with bc := s.bc.brelse i } p k kk') :
    Inv ({ s with bc := s.bc.brelse i }.goto p kk') (some (p, kk')) k := by
  refine h.goto rfl rfl h.head h.inj ?_ ?_ h.recov (le_rfl) h.le hat
  · rw [hfrom]; exact h.cache.brelse hi (h.not_dirty i)
  · rw [hbufs']
    refine h.held.brelse fun x hx hxi => ?_
    simp only [Option.elim, hbufs, List.mem_singleton] at hx
    exact absurd hx hxi

theorem writeHeadBuf_goto {i : Nat} (h : Inv s (some (p, kk)) k) (hi : Held s.bc p i s.log.start)
    (hbufs : kk'.bufs = kk.bufs) (hfrom : kk'.pinFrom = kk.pinFrom) (hle : k ≤ k') (hk' : k' ≤ s.commits.length)
    (hrec : ∀ x, Recovers s.log (update s.disk s.log.start (putHead s.log.lh x))
      (s.afterCommits k')) (hat : ∀ x bc, Held bc p i s.log.start →
      PcOk { s with disk := update s.disk s.log.start (putHead s.log.lh x), bc } p k' kk') :
    Inv (({ s with bc := s.bc.setData i (putHead s.log.lh (s.bc.buf i).data) }.bwrite i).goto p kk')
      (some (p, kk')) k' := by
  have hbuf : (s.bc.setData i (putHead s.log.lh (s.bc.buf i).data)).buf i =
      { s.bc.buf i with data := putHead s.log.lh (s.bc.buf i).data } := by
    rw [Bcache.setData, Bcache.set_buf_self]
  unfold LogDisk.bwrite
  simp only [hbuf, hi.blockno]
  refine h.goto rfl rfl h.head h.inj ?_ ?_ (hrec _) hle hk' (hat _ _ (hi.setData _))
  · rw [show content { s with disk := _, log := s.log } = _ from
      content_update_area _ (Log.not_home_start h.head.size_pos), hfrom]
    exact h.cache.bwrite hi _
  · rw [hbufs]; exact h.held.setData _

/-- The header write that commits: all changes so far survive a crash from now on. -/
theorem writeHead_commit {i : Nat} (h : Inv s (some (p, .writeHeadBuf false i)) k) :
    Inv (({ s with bc := s.bc.setData i (putHead s.log.lh (s.bc.buf i).data) }.bwrite i).goto p
      (.writeHeadDone false i)) (some (p, .writeHeadDone false i)) s.commits.length := by
  obtain ⟨⟨hup, hcopy⟩, hi⟩ := h.at_ _ _ rfl
  have hview := view_eq_afterCommits (h.full hup rfl)
  -- blocks outside the transaction are neither pinned nor changed, so they are on disk
  have hrest : ∀ b, s.log.Home b → (∀ i < s.log.lh.n, s.log.lh.block i ≠ b) → s.disk b = s.view b := by
    intro b hb hn
    rw [← content_home hup hb]
    refine h.cache.clean b ?_ fun i hi => by rw [h.not_dirty i] at hi; cases hi
    by_contra hp
    obtain ⟨-, i, hi, -, he⟩ := pinned_iff.1 (by simpa using hp)
    exact hn i hi he
  have hcommit := fun x => hcopy.commit (x := x) h.head hrest
  rw [hview] at hcommit
  exact h.writeHeadBuf_goto hi rfl rfl h.le (le_rfl) (fun x => (hcommit x).2)
    fun x bc hbc => ⟨⟨fun _ => rfl, (hcommit x).1⟩, hbc⟩

theorem writeHead_clear {i : Nat} (h : Inv s (some (p, .writeHeadBuf true i)) k) :
    Inv (({ s with bc := s.bc.setData i (putHead s.log.lh (s.bc.buf i).data) }.bwrite i).goto p
      (.writeHeadDone true i)) (some (p, .writeHeadDone true i)) k := by
  obtain ⟨⟨hup, hclear⟩, hi⟩ := h.at_ _ _ rfl
  have hw := fun x => hclear.write (x := x) h.head.size_pos
  exact h.writeHeadBuf_goto hi rfl rfl (le_rfl) h.le (fun x => (hw x).2)
    fun x bc hbc => ⟨⟨hup, hclear.n, (hw x).1⟩, hbc⟩

theorem pinned_succ {t : Nat} (h : Inv s w k) (hup : s.up = true) (ht : t < s.log.lh.n) :
    s.pinned (t + 1) = update (s.pinned t) (s.log.lh.block t) false := by
  funext b
  rw [Bool.eq_iff_iff]
  by_cases hb : b = s.log.lh.block t
  · subst hb
    rw [update_self, pinned_iff]
    refine ⟨fun ⟨_, i, hi, hle, he⟩ => ?_, nofun⟩
    have := h.inj hup i hi t ht he
    omega
  · rw [update_of_ne hb, pinned_iff, pinned_iff]
    refine and_congr_right fun _ => exists_congr fun i => and_congr_right fun _ =>
      and_congr_left fun he => ⟨by omega, fun hle => ?_⟩
    have : i ≠ t := fun e => hb (by rw [← he, e])
    omega

theorem installTransD {t i j : Nat} (h : Inv s (some (p, .installTransD t i j)) k) :
    Inv ({ ({ s with bc := s.bc.setData j (s.bc.buf i).data }.bwrite j) with
          bc := if s.up then (s.bc.setData j (s.bc.buf i).data).bunpin j
            else s.bc.setData j (s.bc.buf i).data }.goto p (.installTransDone t i j))
      (some (p, .installTransDone t i j)) k := by
  obtain ⟨⟨hk, hinst⟩, ht, hi, hj⟩ := h.at_ _ _ rfl
  have hhome := h.head.home t ht
  have hdata : (s.bc.buf i).data = s.afterCommits k (s.log.lh.block t) := by
    rw [h.cache.held_data hi, content_area (Log.not_home_area (h.head.area t ht)),
      hinst.copy h.recov ht]
  have hbuf : (s.bc.setData j (s.bc.buf i).data).buf j =
      { s.bc.buf j with data := s.afterCommits k (s.log.lh.block t) } := by
    rw [Bcache.setData, Bcache.set_buf_self, hdata]
  obtain ⟨hinst', hrec'⟩ := hinst.install h.head ht h.recov
  unfold LogDisk.bwrite
  simp only [hbuf, hj.blockno]
  have hcache := h.cache.bwrite hj (s.bc.buf i).data
  by_cases hup : s.up = true
  · have hcont : s.afterCommits k (s.log.lh.block t) = s.content (s.log.lh.block t) := by
      rw [content_home hup hhome, hk hup, view_eq_afterCommits (h.full hup rfl)]
    rw [if_pos hup]
    refine h.goto rfl rfl h.head h.inj ?_
      (h.held.setData _).bunpin hrec' (le_rfl)
      h.le ⟨⟨hk, hinst'⟩, ht, (hi.setData _).bunpin, (hj.setData _).bunpin⟩
    change CacheOk _ _ _ (s.pinned (t + 1)) _
    rw [hcont, show content { s with disk := _, log := s.log } = _ from content_update_self hup hhome,
      h.pinned_succ hup ht]
    rw [hdata, hcont] at hcache ⊢
    exact hcache.bunpin (hj.setData _) (pinned_iff.2 ⟨hup, t, ht, le_rfl, rfl⟩)
      (by rw [update_self, update_self])
  · rw [if_neg hup]
    rw [Bool.not_eq_true] at hup
    refine h.goto rfl rfl h.head h.inj ?_ (h.held.setData _) hrec'
      (le_rfl) h.le ⟨⟨hk, hinst'⟩, ht, hi.setData _, hj.setData _⟩
    have hpin : pinned { s with log := s.log } (LogPc.installTransDone t i j).pinFrom = s.pinned t := by
      funext b; simp [pinned, hup]
    rw [hpin, content_eq_disk (by exact hup)]
    rw [content_eq_disk hup, hdata] at hcache
    rw [hdata]
    exact hcache

theorem installTrans_done {t : Nat} (h : Inv s (some (p, .installTrans t)) k) (ht : ¬ t < s.log.lh.n) :
    Inv ({ s with log := s.log.clear }.goto p (.writeHead true)) (some (p, .writeHead true)) k := by
  obtain ⟨hk, hinst⟩ := h.at_ _ _ rfl
  refine h.goto rfl rfl h.head.clear (fun _ _ hi => absurd hi (Nat.not_lt_zero _)) ?_ h.held
    ⟨h.recov.area, h.recov.home, h.recov.copy, h.recov.rest⟩ (le_rfl) h.le
    ⟨hk, hinst.done h.recov (Nat.le_of_not_lt ht)⟩
  have hpin : pinned { s with log := s.log.clear } (LogPc.writeHead true).pinFrom = s.pinned t := by
    funext b
    rw [Bool.eq_iff_iff, pinned_iff, pinned_iff]
    constructor
    · rintro ⟨-, i, hi, -⟩; exact absurd hi (Nat.not_lt_zero _)
    · rintro ⟨-, i, hi, hle, -⟩; omega
  rw [hpin]
  exact h.cache

theorem readHeadBuf {i : Nat} (h : Inv s (some (p, .readHeadBuf i)) k) :
    Inv ({ s with log := { s.log with lh := getHead (s.bc.buf i).data }, bc := s.bc.brelse i }.goto p
      (.installTrans 0)) (some (p, .installTrans 0)) k := by
  obtain ⟨hup, hi⟩ := h.at_ _ _ rfl
  have hdata : (s.bc.buf i).data = s.disk s.log.start := by
    rw [h.cache.held_data hi, content_area (Log.not_home_start h.head.size_pos)]
  rw [hdata]
  refine h.goto rfl rfl (.of_recovers h.head.size_pos h.recov)
    (fun hup' => absurd (hup.symm.trans hup') Bool.false_ne_true) ?_ ?_
    ⟨h.recov.area, h.recov.home, h.recov.copy, h.recov.rest⟩ (le_rfl) h.le
    ⟨fun hup' => absurd (hup.symm.trans hup') Bool.false_ne_true, rfl, fun _ _ => rfl,
      fun _ hi => absurd hi (Nat.not_lt_zero _)⟩
  · have hpin : ∀ l : Log, pinned { s with log := l } (LogPc.installTrans 0).pinFrom = s.pinned 0 := by
      intro l; funext b; simp [pinned, hup]
    rw [hpin]
    exact h.cache.brelse hi (h.not_dirty i)
  · refine h.held.brelse fun x hx hxi => ?_
    exact absurd (List.mem_singleton.1 hx) hxi

theorem finish (h : Inv s (some (p, .finish)) k) : ∃ k', Inv (s.finish p) none k' := by
  obtain ⟨hk, hn, hhead⟩ := h.at_ _ _ rfl
  have hctl := h.ctl.finish
  have hnd : ∀ i, s.dirty i = true → False := fun i hi => by rw [h.not_dirty i] at hi; cases hi
  have hpc : ∀ q, update s.pc p .idle q = .inOp ↔ s.pc q = .inOp := fun q => by
    by_cases hq : q = p
    · subst hq; simp [h.ctl.alone rfl q]
    · simp [update_of_ne hq]
  unfold LogDisk.finish at hctl ⊢
  split at hctl
  · rename_i hup
    rw [if_pos hup]
    exact ⟨k, hctl, h.hist.of_eq hpc rfl rfl rfl rfl rfl rfl,
      ⟨h.head.size_pos, h.head.lt, h.head.area, h.head.home⟩, h.inj, h.cache,
      fun i hi => (hnd i hi).elim, h.held, ⟨h.recov.area, h.recov.home, h.recov.copy, h.recov.rest⟩,
      le_of_eq (hk hup).symm, h.le, nofun, fun _ => hhead, nofun⟩
  · rename_i hup
    rw [if_neg hup]
    have hno : ∀ q, update s.pc p .idle q ≠ .inOp := fun q e => h.ctl.alone rfl q ((hpc q).1 e)
    refine ⟨0, hctl, ⟨fun q hq => (hno q hq).elim, fun q _ hq => (hno q hq).elim, h.hist.ended_lt, nofun,
      nofun, nofun⟩, h.head, fun _ i hi => by dsimp only at hi; omega, ?_, fun i hi => (hnd i hi).elim, h.held,
      .of_head_zero hhead fun _ _ => rfl, Nat.zero_le _, le_rfl, nofun, fun _ => hhead, nofun⟩
    have hc : content { s with up := true, pc := update s.pc p .idle, base := s.disk, upds := [], commits := [], returned := 0 } = s.content := by
      funext b
      simp [content, view, applyUpds, hup]
    have hp : pinned { s with up := true, pc := update s.pc p .idle, base := s.disk, upds := [], commits := [], returned := 0 } 0 = s.pinned 0 := by
      funext b
      simp [pinned, hn]
    rw [hc]
    exact hp ▸ h.cache

theorem logStep (h : Inv s (some (p, kk)) k) (hs : s.logStep p kk = some s') : ∃ w' k', Inv s' w' k' := by
  have hat := h.at_ _ _ rfl
  have of_goto : ∀ {kk' k'}, Inv s' (some (p, kk')) k' → ∃ w' k', Inv s' w' k' := fun h => ⟨_, _, h⟩
  have of_bread : (∃ kk', Inv s' (some (p, kk')) k) → ∃ w' k', Inv s' w' k' := fun ⟨_, h⟩ => ⟨_, _, h⟩
  cases kk with
  | writeLog t =>
    simp only [LogDisk.logStep] at hs
    split_ifs at hs with ht
    · exact of_bread (h.breadGoto hs (fun _ => rfl) (fun _ => rfl) fun i bc hi _ => ⟨hat, ht, hi⟩)
    · obtain rfl := Option.some.inj hs
      exact of_goto (h.goto rfl rfl h.head h.inj h.cache h.held h.recov (le_rfl) h.le
        ⟨hat.1, hat.2.head, fun i hi => hat.2.copied i (lt_of_lt_of_le hi (Nat.le_of_not_lt ht))⟩)
  | writeLogTo t i | installTransL t i =>
    exact of_bread (h.breadGoto hs (fun _ => rfl) (fun _ => rfl) fun j bc hj hold =>
      ⟨hat.1, hat.2.1, hold _ _ hat.2.2, hj⟩)
  | writeLogFrom t i j =>
    obtain rfl := Option.some.inj hs
    exact of_goto h.writeLogFrom
  | writeLogDone t i j =>
    obtain rfl := Option.some.inj hs
    obtain ⟨hc, ht, hi, hj⟩ := hat
    have hij := ne_of_home hi hj (Log.not_home_area (h.head.area t ht)) (h.head.home t ht)
    exact of_goto (h.brelse_brelse hi hj hij (.inl rfl) rfl rfl hc)
  | writeHead c =>
    refine of_bread (h.breadGoto hs (fun _ => rfl) (fun _ => rfl) fun i bc hi _ => ?_)
    cases c <;> exact ⟨hat, hi⟩
  | writeHeadBuf c i =>
    obtain rfl := Option.some.inj hs
    cases c
    · exact of_goto h.writeHead_commit
    · exact of_goto h.writeHead_clear
  | writeHeadDone c i =>
    obtain rfl := Option.some.inj hs
    cases c
    · exact of_goto (h.brelse_one hat.2 rfl rfl rfl hat.1)
    · exact of_goto (h.brelse_one hat.2 rfl rfl rfl hat.1)
  | installTrans t =>
    simp only [LogDisk.logStep] at hs
    split_ifs at hs with ht
    · exact of_bread (h.breadGoto hs (fun _ => rfl) (fun _ => rfl) fun i bc hi _ => ⟨hat, ht, hi⟩)
    · obtain rfl := Option.some.inj hs
      exact of_goto (h.installTrans_done ht)
  | installTransD t i j =>
    obtain rfl := Option.some.inj hs
    exact of_goto h.installTransD
  | installTransDone t i j =>
    obtain rfl := Option.some.inj hs
    obtain ⟨hc, ht, hi, hj⟩ := hat
    have hij := ne_of_home hi hj (Log.not_home_area (h.head.area t ht)) (h.head.home t ht)
    exact of_goto (h.brelse_brelse hj hi (Ne.symm hij) (.inr rfl) rfl rfl hc)
  | readHead =>
    exact of_bread (h.breadGoto hs (fun _ => rfl) (fun _ => rfl) fun i bc hi _ => ⟨hat, hi⟩)
  | readHeadBuf i =>
    obtain rfl := Option.some.inj hs
    exact of_goto h.readHeadBuf
  | finish =>
    obtain rfl := Option.some.inj hs
    obtain ⟨k', h'⟩ := h.finish
    exact ⟨_, _, h'⟩

/-- Power off and on: what a crash needs to find. -/
theorem boot (hsize : 0 < s.log.size) (hend : ∀ o, s.ended o = true → o < s.nextOp)
    (hcle : ∀ c ∈ s.commits, c ≤ s.upds.length) (hwhole : ∀ c ∈ s.commits, ∀ u ∈ s.upds.take c,
      s.ended u.op = true ∧ ∀ u' ∈ s.upds.drop c, u.op ≠ u'.op)
    (hrec : Recovers s.log s.disk (s.afterCommits k)) (hret : s.returned ≤ k)
    (hle : k ≤ s.commits.length) : Inv s.crash (some (0, .readHead)) k := by
  have hctl := Ctl.crash s
  have hno := hctl.alone rfl
  refine ⟨hctl, ⟨fun q hq => (hno q hq).elim, fun q _ hq => (hno q hq).elim, hend, nofun, hcle, hwhole⟩,
    ⟨hsize, Nat.two_pow_pos _, nofun, nofun⟩, nofun, CacheOk.binit s.disk, nofun, nofun,
    ⟨hrec.area, hrec.home, hrec.copy, hrec.rest⟩, hret, hle, nofun, nofun, ?_⟩
  rintro _ _ ⟨⟩
  rfl

theorem crash (h : Inv s w k) : Inv s.crash (some (0, .readHead)) k :=
  boot h.head.size_pos h.hist.ended_lt h.hist.le h.hist.whole h.recov h.returned_le h.le

theorem init (h : Init s) : Inv s (some (0, .readHead)) 0 := by
  have hview : s.afterCommits 0 = s.base := by rw [afterCommits, covered, List.take_zero]; rfl
  have := boot (s := s) (k := 0) h.size_pos (fun o ho => by rw [h.ended o] at ho; cases ho)
    (fun c hc => by rw [h.commits] at hc; cases hc) (fun c hc => by rw [h.commits] at hc; cases hc)
    (hview ▸ h.recovers) (le_of_eq h.returned) (Nat.zero_le _)
  rwa [h.booting] at this

end Inv

/-! ### Steps of the operations -/

theorem PcOk.of_held {bc : Bcache} (h : PcOk s p k kk)
    (hb : ∀ i b, Held s.bc p i b → Held bc p i b) : PcOk { s with bc } p k kk := by
  cases kk with
  | writeHead c | writeHeadBuf c _ | writeHeadDone c _ =>
    cases c <;> first | exact h | exact ⟨h.1, hb _ _ h.2⟩
  | writeLog | installTrans | readHead | finish => exact h
  | readHeadBuf i => exact ⟨h.1, hb _ _ h.2⟩
  | writeLogTo | installTransL => exact ⟨h.1, h.2.1, hb _ _ h.2.2⟩
  | writeLogFrom | writeLogDone | installTransD | installTransDone =>
    exact ⟨h.1, h.2.1, hb _ _ h.2.2.1, hb _ _ h.2.2.2⟩

namespace Inv

section

variable (h : Inv s w k)
include h

theorem quiet_of_inOp (hp : s.pc p = .inOp) : w = none := by
  cases w with
  | none => rfl
  | some x => exact absurd hp (h.ctl.alone rfl p)

theorem home_of_inOp {i : Nat} (hp : s.pc p = .inOp)
    (hl : (s.bc.buf i).lock = some p) : s.log.Home (s.bc.buf i).blockno := by
  obtain rfl := h.quiet_of_inOp hp
  exact (h.held i (by rw [hl]; rfl)).resolve_right nofun

theorem bread {b i : Nat} {bc : Bcache} (hb : s.log.Home b)
    (hr : s.bc.bread s.disk p b = some (i, bc)) : Inv { s with bc } w k := by
  obtain ⟨hc, hi, hfree, hne⟩ := h.cache.bread hr
  have hlocked : ∀ {j}, (s.bc.buf j).lock.isSome → j ≠ i := fun hj e => by
    rw [e, hfree] at hj; cases hj
  refine { h with
    ctl := ⟨h.ctl.who, h.ctl.count, h.ctl.alone, h.ctl.committing, h.ctl.booting⟩
    hist := h.hist.of_eq (fun _ => Iff.rfl) rfl rfl rfl rfl rfl rfl
    cache := hc
    dirty := fun j hj => ?_
    held := h.held.bread hi hne (.inl hb) fun _ => id
    at_ := fun q kk hq => (h.at_ q kk hq).of_held fun j b hj => ?_ }
  · have := hlocked (h.cache.dirty_lock j hj)
    dsimp only; rw [hne j this]; exact h.dirty j hj
  · have := hlocked (by rw [hj.lock]; rfl)
    exact ⟨by rw [hne j this]; exact hj.lock, by rw [hne j this]; exact hj.blockno⟩

theorem brelse {i : Nat} (hp : s.pc p = .idle ∨ s.pc p = .inOp)
    (hl : (s.bc.buf i).lock = some p) (hd : s.dirty i = false) : Inv { s with bc := s.bc.brelse i } w k := by
  refine { h with
    ctl := ⟨h.ctl.who, h.ctl.count, h.ctl.alone, h.ctl.committing, h.ctl.booting⟩
    hist := h.hist.of_eq (fun _ => Iff.rfl) rfl rfl rfl rfl rfl rfl
    cache := h.cache.brelse ⟨hl, rfl⟩ hd
    dirty := fun j hj => ?_
    held := h.held.brelse fun _ hj _ => hj
    at_ := fun q kk hq => (h.at_ q kk hq).of_held fun j b hj => hj.brelse fun e => ?_ }
  · have hji : j ≠ i := fun e => by rw [e, hd] at hj; cases hj
    dsimp only; rw [Bcache.brelse_buf, Bcache.set_buf_of_ne _ hji]; exact h.dirty j hj
  · -- the process in `commit` holds its buffers itself
    have hqp : p = q := by
      have := hj.lock
      rw [← e, hl] at this; exact Option.some.inj this
    have := (h.ctl.who q kk).2 hq
    rw [← hqp] at this
    rcases hp with hp | hp <;> rw [hp] at this <;> cases this

theorem beginOp {l : Log} (hup : s.up = true) (hp : s.pc p = .idle) (hl : s.log.beginOp = some l) :
    Inv { s with log := l, pc := update s.pc p .inOp,
                 op := update s.op p s.nextOp, nextOp := s.nextOp + 1 } none k := by
  obtain ⟨rfl, rfl, hctl⟩ := h.ctl.beginOp hup hp hl
  refine ⟨hctl _ rfl hup rfl, h.hist.beginOp hp,
    ⟨h.head.size_pos, h.head.lt, h.head.area, h.head.home⟩, h.inj, h.cache, fun i hi => ?_, h.held,
    ⟨h.recov.area, h.recov.home, h.recov.copy, h.recov.rest⟩, h.returned_le, h.le, nofun, h.quiet, nofun⟩
  obtain ⟨q, hq, hqo⟩ := h.dirty i hi
  have hqp : q ≠ p := fun e => by rw [e, hp] at hqo; cases hqo
  exact ⟨q, hq, by dsimp only; rw [update_of_ne hqp]; exact hqo⟩

theorem change {i : Nat} (d : Bytes) (hup : s.up = true) (hp : s.pc p = .inOp) (hl : (s.bc.buf i).lock = some p) :
    Inv { s with bc := s.bc.setData i d, dirty := update s.dirty i true,
                 upds := s.upds ++ [⟨s.op p, (s.bc.buf i).blockno, d⟩] } none k := by
  have hhome := h.home_of_inOp hp hl
  obtain rfl := h.quiet_of_inOp hp
  refine ⟨⟨h.ctl.who, h.ctl.count, h.ctl.alone, h.ctl.committing, h.ctl.booting⟩, h.hist.change hp,
    h.head, h.inj, ?_, fun j hj => ?_, h.held.setData _, ?_, h.returned_le, h.le, nofun, h.quiet, nofun⟩
  · have hc : content { s with bc := s.bc.setData i d, dirty := update s.dirty i true, upds := s.upds ++ [⟨s.op p, (s.bc.buf i).blockno, d⟩] } =
        update s.content (s.bc.buf i).blockno d := by
      funext b
      by_cases hb : b = (s.bc.buf i).blockno
      · subst hb; simp [content, view, applyUpds_append, hup, hhome]
      · simp [content, view, applyUpds_append, update_of_ne hb]
    rw [hc]
    exact h.cache.change ⟨hl, rfl⟩ d
  · by_cases hji : j = i
    · subst hji; exact ⟨p, by simpa [Bcache.setData] using hl, hp⟩
    · dsimp only at hj ⊢
      rw [update_of_ne hji] at hj
      rw [Bcache.setData, Bcache.set_buf_of_ne _ hji]; exact h.dirty j hj
  · have hac := h.hist.afterCommits_eq { s with bc := s.bc.setData i d, dirty := update s.dirty i true, upds := s.upds ++ [⟨s.op p, (s.bc.buf i).blockno, d⟩] } h.le rfl rfl
      (List.append_nil _).symm
    rw [hac]
    exact h.recov

theorem logWrite {i : Nat} {l : Log} {pin : Bool} (hup : s.up = true)
    (hp : s.pc p = .inOp) (hl : (s.bc.buf i).lock = some p) (hw : s.log.logWrite (s.bc.buf i).blockno = .ok (l, pin)) :
    Inv { s with log := l, bc := if pin then s.bc.bpin i else s.bc,
                 dirty := update s.dirty i false } none k := by
  have hhome := h.home_of_inOp hp hl
  obtain rfl := h.quiet_of_inOp hp
  have hctl := h.ctl
  have hpinned : s.pinned 0 (s.bc.buf i).blockno = true ↔ s.log.lh.Logged (s.bc.buf i).blockno := by
    rw [pinned_iff]; simp [hup, LogHeader.Logged]
  unfold Log.logWrite at hw
  split_ifs at hw with hbig hout
  simp only [Except.ok.injEq, Prod.mk.injEq] at hw
  obtain ⟨rfl, rfl⟩ := hw
  have hdirty : ∀ j, update s.dirty i false j = true → s.dirty j = true := fun j hj => by
    by_cases hji : j = i
    · subst hji; simp at hj
    · rwa [update_of_ne hji] at hj
  by_cases hlog : s.log.lh.Logged (s.bc.buf i).blockno
  · -- absorbed: the block is in the transaction already
    have hf : (s.log.lh.find (s.bc.buf i).blockno == s.log.lh.n) = false := by
      have := LogHeader.find_lt_iff.2 hlog
      simp; omega
    simp only [hf, LogHeader.add_of_logged hlog, Bool.false_eq_true, if_false]
    exact { h with
      ctl := ⟨hctl.who, hctl.count, hctl.alone, hctl.committing, hctl.booting⟩
      hist := h.hist.of_eq (fun _ => Iff.rfl) rfl rfl rfl rfl rfl rfl
      cache := h.cache.absorb ⟨hl, rfl⟩ (hpinned.2 hlog)
      dirty := fun j hj => h.dirty j (hdirty j hj)
      at_ := nofun }
  · have hf : (s.log.lh.find (s.bc.buf i).blockno == s.log.lh.n) = true := by
      simpa using LogHeader.find_eq_iff.2 hlog
    simp only [hf, LogHeader.add_of_not_logged hlog, if_true]
    have hblock : ∀ j < s.log.lh.n,
        update s.log.lh.block s.log.lh.n (s.bc.buf i).blockno j = s.log.lh.block j :=
      fun j hj => update_of_ne (ne_of_lt hj) ..
    have hnew : ∀ j < s.log.lh.n, s.log.lh.block j ≠ (s.bc.buf i).blockno := fun j hj e => hlog ⟨j, hj, e⟩
    refine ⟨⟨hctl.who, hctl.count, hctl.alone, hctl.committing, hctl.booting⟩,
      h.hist.of_eq (fun _ => Iff.rfl) rfl rfl rfl rfl rfl rfl, ⟨h.head.size_pos, ?_, fun j hj => ?_,
      fun j hj => ?_⟩, fun _ j hj j' hj' he => ?_, ?_, fun j hj => ?_, h.held.bpin,
      ⟨h.recov.area, h.recov.home, h.recov.copy, h.recov.rest⟩, h.returned_le, h.le, nofun, h.quiet,
      nofun⟩
    · simp only [LOGSIZE, MAXOPBLOCKS] at hbig; dsimp only; omega
    · dsimp only at hj ⊢; omega
    · rcases Nat.lt_succ_iff_lt_or_eq.1 hj with hj | rfl
      · dsimp only; rw [hblock j hj]; exact h.head.home j hj
      · dsimp only; rw [update_self]; exact hhome
    · rcases Nat.lt_succ_iff_lt_or_eq.1 hj with hj | rfl <;>
        rcases Nat.lt_succ_iff_lt_or_eq.1 hj' with hj' | rfl <;> dsimp only at he
      · rw [hblock j hj, hblock j' hj'] at he; exact h.inj hup j hj j' hj' he
      · rw [hblock j hj, update_self] at he; exact absurd he (hnew j hj)
      · rw [hblock j' hj', update_self] at he; exact absurd he.symm (hnew j' hj')
      · rfl
    · have hpin : pinned { s with log := { s.log with lh := ⟨s.log.lh.n + 1, update s.log.lh.block s.log.lh.n (s.bc.buf i).blockno⟩ } } 0 =
          update (s.pinned 0) (s.bc.buf i).blockno true := by
        funext b
        rw [Bool.eq_iff_iff, pinned_iff]
        by_cases hb : b = (s.bc.buf i).blockno
        · subst hb
          rw [update_self]
          exact ⟨fun _ => rfl, fun _ => ⟨hup, s.log.lh.n, Nat.lt_succ_self _, Nat.zero_le _,
            update_self ..⟩⟩
        · rw [update_of_ne hb, pinned_iff]
          refine and_congr_right fun _ => ⟨?_, ?_⟩
          · rintro ⟨j, hj, h0, he⟩
            dsimp only at hj he
            rcases Nat.lt_succ_iff_lt_or_eq.1 hj with hj | rfl
            · rw [hblock j hj] at he; exact ⟨j, hj, h0, he⟩
            · rw [update_self] at he; exact absurd he.symm hb
          · rintro ⟨j, hj, h0, he⟩
            exact ⟨j, Nat.lt_succ_of_lt hj, h0, by dsimp only; rw [hblock j hj]; exact he⟩
      have := h.cache.bpin (i := i) (p := p) ⟨hl, rfl⟩ (by rw [← Bool.not_eq_true]; exact mt hpinned.1 hlog)
      exact hpin ▸ this
    · obtain ⟨q, hq, hqo⟩ := h.dirty j (hdirty j hj)
      refine ⟨q, ?_, hqo⟩
      by_cases hji : j = i
      · subst hji; simpa [Bcache.bpin] using hq
      · dsimp only; rw [Bcache.bpin, Bcache.set_buf_of_ne _ hji]; exact hq

theorem endOp {l : Log} {c : Bool} (hup : s.up = true) (hp : s.pc p = .inOp)
    (hclean : ∀ i, (s.bc.buf i).lock = some p → s.dirty i = false)
    (hl : s.log.endOp = .ok (l, c)) : ∃ w' k', Inv (s.endOp p l c) w' k' := by
  obtain rfl := h.quiet_of_inOp hp
  have hdirty : ∀ i, s.dirty i = true → ∃ q, q ≠ p ∧ (s.bc.buf i).lock = some q ∧ s.pc q = .inOp := by
    intro i hi
    obtain ⟨q, hq, hqo⟩ := h.dirty i hi
    refine ⟨q, fun e => ?_, hq, hqo⟩
    rw [hclean i (e ▸ hq)] at hi; cases hi
  cases c with
  | false =>
    obtain ⟨rfl, hctl⟩ := h.ctl.endOp_more hup hp hl
    refine ⟨none, k, hctl, h.hist.endOp hup hp nofun,
      ⟨h.head.size_pos, h.head.lt, h.head.area, h.head.home⟩, h.inj, h.cache, fun i hi => ?_, h.held,
      ⟨h.recov.area, h.recov.home, h.recov.copy, h.recov.rest⟩, h.returned_le, h.le, nofun, h.quiet, nofun⟩
    obtain ⟨q, hqp, hq, hqo⟩ := hdirty i hi
    exact ⟨q, hq, by simp only [LogDisk.endOp, update_of_ne hqp]; exact hqo⟩
  | true =>
    obtain ⟨rfl, honly, hctl⟩ := h.ctl.endOp_last hup hp hl
    have hnd : ∀ i, s.dirty i = true → False := fun i hi => by
      obtain ⟨q, hqp, -, hqo⟩ := hdirty i hi
      exact hqp (honly q hqo)
    have hhist := h.hist.endOp (l := { s.log with outstanding := 0, committing := true }) (c := true) hup
      hp fun _ => honly
    have hfull : (s.endOp p { s.log with outstanding := 0, committing := true } true).covered
        (s.commits.length + 1) = s.upds.length := by
      simp [covered, LogDisk.endOp]
    have hlen : (s.endOp p { s.log with outstanding := 0, committing := true } true).commits.length =
        s.commits.length + 1 := by simp [LogDisk.endOp]
    by_cases hn : 0 < s.log.lh.n
    · refine ⟨_, k, hctl, hhist, ⟨h.head.size_pos, h.head.lt, h.head.area, h.head.home⟩, h.inj, ?_,
        fun i hi => (hnd i hi).elim, ?_, ?_, h.returned_le, by rw [hlen]; exact Nat.le_succ_of_le h.le,
        fun _ _ => by rw [hlen]; exact hfull, nofun, ?_⟩
      · rw [if_pos hn]; exact h.cache
      · rw [if_pos hn]; exact h.held
      · have hac := h.hist.afterCommits_eq
          (s.endOp p { s.log with outstanding := 0, committing := true } true) h.le rfl
          (List.append_nil _).symm rfl
        rw [hac]
        exact ⟨h.recov.area, h.recov.home, h.recov.copy, h.recov.rest⟩
      · rw [if_pos hn]
        rintro _ _ ⟨⟩
        exact ⟨hup, h.quiet rfl, fun i hi => absurd hi (Nat.not_lt_zero _)⟩
    · -- an empty transaction: nothing is pinned, so the home blocks are on disk
      have hn0 : s.log.lh.n = 0 := Nat.eq_zero_of_not_pos hn
      have hdisk : ∀ b, s.log.Home b → s.disk b = s.view b := fun b hb => by
        rw [← content_home hup hb]
        refine h.cache.clean b ?_ fun i hi => (hnd i hi).elim
        by_contra hp
        obtain ⟨-, i, hi, -⟩ := pinned_iff.1 (by simpa using hp)
        omega
      refine ⟨_, s.commits.length + 1, hctl, hhist,
        ⟨h.head.size_pos, h.head.lt, h.head.area, h.head.home⟩, h.inj, ?_,
        fun i hi => (hnd i hi).elim, ?_, ?_, ?_, by rw [hlen],
        fun _ _ => by rw [hlen]; exact hfull, nofun, ?_⟩
      · rw [if_neg hn]; exact h.cache
      · rw [if_neg hn]; exact h.held
      · refine .of_head_zero (h.quiet rfl) fun b hb => ?_
        rw [← view_eq_afterCommits hfull]
        exact hdisk b hb
      · exact Nat.le_succ_of_le (le_trans h.returned_le h.le)
      · rw [if_neg hn]
        rintro _ _ ⟨⟩
        exact ⟨fun _ => hlen.symm, hn0, h.quiet rfl⟩

theorem step (hs : Step s s') : ∃ w' k', Inv s' w' k' := by
  cases hs with
  | bread _ _ home hr => exact ⟨w, k, h.bread home hr⟩
  | brelse _ pc lock clean => exact ⟨w, k, h.brelse pc lock clean⟩
  | beginOp up pc hl => exact ⟨none, k, h.beginOp up pc hl⟩
  | change d up pc lock => exact ⟨none, k, h.change d up pc lock⟩
  | logWrite up pc lock hl => exact ⟨none, k, h.logWrite up pc lock hl⟩
  | endOp up pc clean hl => exact h.endOp up pc clean hl
  | log pc hl =>
    obtain rfl := (h.ctl.who _ _).1 pc
    exact h.logStep hl
  | crash => exact ⟨_, k, h.crash⟩

end

theorem reach (h : Trans.Reach Init Step s) : ∃ w k, Inv s w k :=
  h.inv (P := fun s => ∃ w k, Inv s w k) (fun _ h₀ => ⟨_, _, Inv.init h₀⟩)
    fun _ _ ⟨_, _, hi⟩ hs => hi.step hs

end Inv

/-! ### Crash atomicity -/

theorem breadGoto_up {b : Nat} {f : Nat → LogPc} (h : s.breadGoto p b f = some s') : s'.up = s.up := by
  unfold breadGoto at h
  split at h
  · obtain rfl := Option.some.inj h; rfl
  · cases h

theorem logStep_up (h : s.logStep p kk = some s') (hk : kk ≠ .finish) : s'.up = s.up := by
  cases kk with
  | writeLog | installTrans =>
    simp only [logStep] at h
    split_ifs at h
    · exact breadGoto_up h
    · obtain rfl := Option.some.inj h; rfl
  | writeLogTo | writeHead | installTransL | readHead => exact breadGoto_up h
  | writeLogFrom | writeLogDone | writeHeadBuf | writeHeadDone | installTransD | installTransDone
  | readHeadBuf => obtain rfl := Option.some.inj h; rfl
  | finish => exact absurd rfl hk

theorem step_up (h : Step s s') (hdown : s.up = false) (hup : s'.up = true) :
    ∃ p, s.pc p = .log .finish ∧ s' = s.finish p := by
  cases h with
  | bread up | brelse up | beginOp up | change _ up | logWrite up | endOp up =>
    exact absurd (hdown.symm.trans up) Bool.false_ne_true
  | crash => cases hup
  | @log _ p kk pc h =>
    by_cases hk : kk = .finish
    · subst hk
      exact ⟨p, pc, (Option.some.inj h).symm⟩
    · rw [logStep_up h hk] at hup
      exact absurd (hdown.symm.trans hup) Bool.false_ne_true

/-- However often the machine crashes, in whatever step of `commit` or of recovery itself, the home
blocks a completed recovery leaves are those after the first `k` commits since the last one: no commit
is there in part, every commit whose `end_op` has returned is there, and a commit has the changes of
operations that have reached `end_op`, all of them. -/
theorem recovery_atomic (h : Trans.Reach Init Step s) (hs : Step s s') (hdown : s.up = false)
    (hup : s'.up = true) : ∃ k, s.returned ≤ k ∧ k ≤ s.commits.length ∧
      (∀ b, s.log.Home b → s'.disk b = s.afterCommits k b) ∧
      (∀ u ∈ s.upds.take (s.covered k), s.ended u.op = true) ∧
      ∀ u ∈ s.upds.take (s.covered k), ∀ u' ∈ s.upds.drop (s.covered k), u.op ≠ u'.op := by
  obtain ⟨w, k, hi⟩ := Inv.reach h
  have hwhole := hi.hist.covered_whole hi.le
  refine ⟨k, hi.returned_le, hi.le, fun b hb => ?_, fun u hu => (hwhole u hu).1, fun u hu => (hwhole u hu).2⟩
  obtain ⟨p, hpc, rfl⟩ := step_up hs hdown hup
  obtain ⟨-, -, hhead⟩ := hi.at_ _ _ ((hi.ctl.who _ _).1 hpc)
  have hdisk : (s.finish p).disk = s.disk := by unfold finish; split <;> rfl
  rw [hdisk]
  exact hi.recov.disk_eq hhead hb

/-! A run whose commit is cut off after the header write, and recovered. -/

def logSteps (p : Nat) : Nat → LogDisk → Option LogDisk
  | 0, s => some s
  | n + 1, s =>
    match s.pc p with
    | .log k => (s.logStep p k).bind (logSteps p n)
    | _ => none

theorem reach_logSteps {n : Nat} (h : Trans.Reach Init Step s) (hs : logSteps p n s = some s') :
    Trans.Reach Init Step s' := by
  induction n generalizing s with
  | zero => cases hs; exact h
  | succ n ih =>
    simp only [logSteps] at hs
    split at hs
    · rename_i kk hk
      obtain ⟨s₁, h₁, h₂⟩ := Option.bind_eq_some_iff.1 hs
      exact ih (h.tail (.log hk h₁)) h₂
    · cases hs

/-- A zeroed disk with the log in blocks 2 to 31, switched on. -/
def blank : LogDisk where
  disk _ _ := 0
  bc := .binit
  log := .init 2 30
  up := false
  pc := Function.update (fun _ => .idle) 0 (.log .readHead)
  dirty _ := false
  base _ _ := 0
  upds := []
  commits := []
  returned := 0
  op _ := 0
  nextOp := 0
  ended _ := false

theorem init_blank : Init blank where
  size_pos := by decide
  recovers := .of_head_zero rfl fun _ _ => rfl
  booting := rfl
  upds := rfl
  commits := rfl
  returned := rfl
  ended _ := rfl

/-- An operation has changed block 40. -/
def firstChange : { s : LogDisk // Trans.Reach Init Step s } :=
  have h1 : Trans.Reach Init Step ((logSteps 0 7 blank).getD blank) :=
    reach_logSteps (p := 0) (n := 7) (.of_init init_blank) rfl
  have h2 := h1.tail (.beginOp (p := 1) rfl rfl rfl)
  have h3 := h2.tail (.bread (p := 1) (b := 40) rfl (.inr rfl) (by decide) rfl)
  have h4 := h3.tail (.change (p := 1) (i := 1) (fun _ => 1) rfl rfl rfl)
  ⟨_, h4⟩

theorem recovery_atomic_cutCommit : ∃ s s' : LogDisk, Trans.Reach Init Step s ∧ Step s s' ∧
    s.up = false ∧ s'.up = true ∧ s.upds.length = 1 ∧ s.commits = [1] ∧ ∃ k, s.returned ≤ k ∧ k ≤ s.commits.length ∧
      (∀ b, s.log.Home b → s'.disk b = s.afterCommits k b) ∧
      (∀ u ∈ s.upds.take (s.covered k), s.ended u.op = true) ∧
      ∀ u ∈ s.upds.take (s.covered k), ∀ u' ∈ s.upds.drop (s.covered k), u.op ≠ u'.op := by
  have h5 := firstChange.2.tail (.logWrite (p := 1) (i := 1) rfl rfl rfl rfl)
  have h6 := h5.tail (.brelse (p := 1) (i := 1) rfl (.inr rfl) rfl rfl)
  have h7 := h6.tail (.endOp (p := 1) rfl rfl (fun i _ => by
    by_cases hi : i = 1
    · subst hi; rfl
    · dsimp only; rw [update_of_ne hi]; exact update_of_ne hi ..) rfl)
  have h8 := reach_logSteps (p := 1) (n := 7) h7 rfl
  have h9 := h8.tail .crash
  have h10 := reach_logSteps (p := 0) (n := 10) h9 rfl
  exact ⟨_, _, h10, .log (p := 0) (k := .finish) rfl rfl, rfl, rfl, rfl, rfl,
    recovery_atomic h10 (.log (p := 0) (k := .finish) rfl rfl) rfl rfl⟩

variable {s s' : LogDisk}

/-- A valid buffer of block `b`, with data `d`. -/
def IsBuf (x : Buf) (b : Nat) (d : Bytes) : Prop := x.dev = ROOTDEV ∧ x.valid = true ∧ x.blockno = b ∧ x.data = d

/-- Whichever buffers have been recycled: a process that reads a home block gets it as the operations have left it, in a
buffer that it has locked, and what the disk does not have is in a buffer that cannot be recycled. -/
theorem bread_latest (h : Trans.Reach Init Step s) (hup : s.up = true) {b : Nat} (hb : s.log.Home b) :
    (∀ p i bc, s.bc.bread s.disk p b = some (i, bc) → (bc.buf i).lock = some p ∧ IsBuf (bc.buf i) b (s.view b)) ∧
    (s.disk b ≠ s.view b → ∃ i < NBUF, IsBuf (s.bc.buf i) b (s.view b) ∧ 0 < (s.bc.buf i).refcnt) := by
  obtain ⟨w, k, hi⟩ := Inv.reach h
  have hc := hi.cache
  rw [← Inv.content_home hup hb]
  refine ⟨fun p i bc hr => ?_, fun hne => ?_⟩
  · obtain ⟨hc', hheld, -⟩ := hc.bread hr
    obtain ⟨-, hdev, hv⟩ := hc'.of_lock hheld.lock
    exact ⟨hheld.lock, hdev, hv, hheld.blockno, hc'.held_data hheld⟩
  · by_cases hp : s.pinned (w.elim 0 fun x => x.2.pinFrom) b = true
    · obtain ⟨i, hlt, hdev, hv, hbi⟩ := hc.pin b hp
      have hpin : (s.bc.buf i).dev = ROOTDEV ∧ s.pinned (w.elim 0 fun x => x.2.pinFrom) (s.bc.buf i).blockno = true :=
        ⟨hdev, hbi ▸ hp⟩
      refine ⟨i, hlt, ⟨hdev, hv, hbi, by rw [hc.data i hlt hdev hv, hbi]⟩, ?_⟩
      rw [hc.ref i hlt, if_pos hpin]
      omega
    · by_contra hn
      refine hne (hc.clean b (by simpa using hp) fun i hd hbi => hn ?_)
      have hl := hc.dirty_lock i hd
      have hlt := hc.lock_lt i hl
      obtain ⟨hdev, hv⟩ := hc.locked i hlt hl
      refine ⟨i, hlt, ⟨hdev, hv, hbi, by rw [hc.data i hlt hdev hv, hbi]⟩, ?_⟩
      rw [hc.ref i hlt, if_pos hl]
      omega

/-- A block that has just been changed and is not on the disk. -/
theorem bread_latest_changed : ∃ s : LogDisk, Trans.Reach Init Step s ∧ s.up = true ∧ s.disk 40 ≠ s.view 40 ∧
    ∃ i < NBUF, IsBuf (s.bc.buf i) 40 (s.view 40) ∧ 0 < (s.bc.buf i).refcnt := by
  have hne : (fun _ : Nat => (0 : UInt8)) ≠ fun _ => 1 := fun e => absurd (congrFun e 0) (by decide)
  exact ⟨_, firstChange.2, rfl, hne, (bread_latest firstChange.2 rfl (b := 40) (by decide)).2 hne⟩

end LogDisk

end Xv6
