import Xv6.Param

/-!
# The in-memory log (`log.c`)

`struct log` and the critical sections of `log.lock`: `begin_op`, `log_write` and the two halves of
`end_op`. A process that would sleep in `begin_op` gets `none`: nothing changes until it is woken and
tests again. The disk side of `commit` is in `Xv6.LogDisk`.
-/

namespace Xv6

/-- The `panic` calls of `log.c`. -/
inductive LogPanic
  | tooBigATransaction
  | logWriteOutsideOfTrans
  | logCommitting
deriving DecidableEq, Repr

/-- `struct logheader`; only the first `n` entries of `block` are in use. -/
structure LogHeader where
  n : Nat
  block : Nat → Nat

namespace LogHeader

/-- The absorption loop of `log_write`: the first `i < n` with `block[i] == blockno`, else `n`. -/
def find (lh : LogHeader) (blockno : Nat) : Nat :=
  (List.range lh.n).findIdx fun i => lh.block i == blockno

/-- The block is recorded in the header. -/
def Logged (lh : LogHeader) (b : Nat) : Prop := ∃ i < lh.n, lh.block i = b

theorem find_le (lh : LogHeader) (b : Nat) : lh.find b ≤ lh.n := by
  have : (List.range lh.n).findIdx (fun i => lh.block i == b) ≤ (List.range lh.n).length :=
    List.findIdx_le_length
  simpa [find] using this

theorem block_find {lh : LogHeader} {b : Nat} (h : lh.find b < lh.n) : lh.block (lh.find b) = b := by
  have hlt : (List.range lh.n).findIdx (fun i => lh.block i == b) < (List.range lh.n).length := by
    simpa [find] using h
  have := List.findIdx_getElem (w := hlt)
  simpa [find] using this

theorem find_lt_iff {lh : LogHeader} {b : Nat} : lh.find b < lh.n ↔ lh.Logged b := by
  constructor
  · exact fun h => ⟨lh.find b, h, block_find h⟩
  · rintro ⟨i, hi, hb⟩
    have : (List.range lh.n).findIdx (fun i => lh.block i == b) < (List.range lh.n).length :=
      List.findIdx_lt_length_of_exists ⟨i, by simpa using hi, by simpa using hb⟩
    simpa [find] using this

theorem find_eq_iff {lh : LogHeader} {b : Nat} : lh.find b = lh.n ↔ ¬ lh.Logged b := by
  rw [← find_lt_iff]; have := lh.find_le b; omega

/-- The header after `log_write` of `blockno`. -/
def add (lh : LogHeader) (blockno : Nat) : LogHeader :=
  let i := lh.find blockno
  { block := Function.update lh.block i blockno
    n := if i = lh.n then lh.n + 1 else lh.n }

theorem add_of_logged {lh : LogHeader} {b : Nat} (h : lh.Logged b) : lh.add b = lh := by
  have hlt := find_lt_iff.2 h
  have hne : lh.find b ≠ lh.n := by omega
  simp only [add, hne, if_false]
  congr
  rw [Function.update_eq_self_iff, block_find hlt]

theorem add_of_not_logged {lh : LogHeader} {b : Nat} (h : ¬ lh.Logged b) :
    lh.add b = { n := lh.n + 1, block := Function.update lh.block lh.n b } := by
  have he := find_eq_iff.2 h
  simp only [add, he, if_true]

theorem logged_add {lh : LogHeader} {b b' : Nat} : (lh.add b).Logged b' ↔ b' = b ∨ lh.Logged b' := by
  by_cases h : lh.Logged b
  · rw [add_of_logged h]
    exact ⟨Or.inr, fun h' => h'.elim (fun e => e ▸ h) id⟩
  · rw [add_of_not_logged h]
    constructor
    · rintro ⟨i, hi, hb⟩
      dsimp only at hi hb
      rcases Nat.lt_succ_iff_lt_or_eq.1 hi with hi | rfl
      · rw [Function.update_of_ne (ne_of_lt hi)] at hb
        exact Or.inr ⟨i, hi, hb⟩
      · rw [Function.update_self] at hb
        exact Or.inl hb.symm
    · rintro (rfl | ⟨i, hi, hb⟩)
      · exact ⟨lh.n, Nat.lt_succ_self _, Function.update_self ..⟩
      · exact ⟨i, Nat.lt_succ_of_lt hi, by dsimp only; rw [Function.update_of_ne (ne_of_lt hi)]; exact hb⟩

end LogHeader

/-- `struct log` without its lock and `dev` (the kernel has one file system device). -/
structure Log where
  start : Nat
  size : Nat
  outstanding : Nat
  committing : Bool
  lh : LogHeader

namespace Log

/-- The log `initlog` leaves behind: `recover_from_log` has set `lh.n` to 0. -/
def init (start size : Nat) : Log := ⟨start, size, 0, false, ⟨0, fun _ => 0⟩⟩

/-- One round of the loop of `begin_op`; `none` when the process sleeps on the log. -/
def beginOp (l : Log) : Option Log :=
  if l.committing then none
  -- this op might exhaust log space; wait for commit
  else if l.lh.n + (l.outstanding + 1) * MAXOPBLOCKS > LOGSIZE then none
  else some { l with outstanding := l.outstanding + 1 }

/-- `log_write` of a buffer of block `blockno`; the flag says whether the buffer is pinned. -/
def logWrite (l : Log) (blockno : Nat) : Except LogPanic (Log × Bool) :=
  if l.lh.n ≥ LOGSIZE ∨ l.lh.n + 1 ≥ l.size then .error .tooBigATransaction
  else if l.outstanding < 1 then .error .logWriteOutsideOfTrans
  else .ok ({ l with lh := l.lh.add blockno }, l.lh.find blockno == l.lh.n)

/-- The first critical section of `end_op`; the flag is `do_commit`. -/
def endOp (l : Log) : Except LogPanic (Log × Bool) :=
  let outstanding := l.outstanding - 1
  if l.committing then .error .logCommitting
  else if outstanding = 0 then .ok ({ l with outstanding, committing := true }, true)
  else .ok ({ l with outstanding }, false)

/-- The second critical section of `end_op`, after `commit`. -/
def endCommit (l : Log) : Log := { l with committing := false }

/-- `log.lh.n = 0`, after the blocks of the transaction are installed. -/
def clear (l : Log) : Log := { l with lh := { l.lh with n := 0 } }

end Log

end Xv6
