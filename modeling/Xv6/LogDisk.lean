import Xv6.Bio
import Xv6.Log

/-!
# The log on disk: `commit`, `recover_from_log` and crashes (`log.c`)

The machine of the crash argument. Any number of processes read home blocks (`bread`, `brelse`) and,
between `begin_op` and `end_op`, change cached blocks and `log_write` them; the process whose `end_op`
finds no other operation runs `commit` step by step (`LogPc`), every `bwrite` being a step of its own. A
crash can happen between any two steps: memory is lost and process 0 runs `recover_from_log`, which is
made of the same steps and can be cut off as well.

`upds`, `commits`, `returned`, `op` and `ended` are history, which no step looks at: the changes made
since the last completed recovery with the operation that made each, how many of them each commit
covers, the number of commits whose `end_op` has returned, and which operations have reached `end_op`.
-/

namespace Xv6

open Function (update)

/-! ### The header block -/

/-- `lh->n` of a header block; a negative `int` runs no loop. -/
def headN (d : Bytes) : Nat :=
  let n := d.load 0 4
  if n < 2 ^ 31 then n else 0

/-- `lh->block[i]` of a header block. -/
def headBlock (d : Bytes) (i : Nat) : Nat := d.load (4 + 4 * i) 4

/-- `write_head` up to `bwrite`: the first `n` entries are overwritten, the others stay. -/
def putHead (lh : LogHeader) (d : Bytes) : Bytes :=
  (List.range lh.n).foldl (fun d i => d.store (4 + 4 * i) 4 (lh.block i)) (d.store 0 4 lh.n)

/-- `read_head`. -/
def getHead (d : Bytes) : LogHeader := ⟨headN d, headBlock d⟩

/-- The blocks the log protects: block numbers (`uint`) outside the log area, which is made of the
header and `size - 1` log blocks. -/
def Log.Home (l : Log) (b : Nat) : Prop := b < 2 ^ 32 ∧ ¬ (l.start ≤ b ∧ b < l.start + l.size)

instance (l : Log) (b : Nat) : Decidable (l.Home b) := inferInstanceAs (Decidable (_ ∧ ¬ (_ ∧ _)))

/-- The log on disk `d` is well formed, and installing it leads to the home blocks `v`. -/
structure Recovers (l : Log) (d v : Nat → Bytes) : Prop where
  area : ∀ k < headN (d l.start), k + 1 < l.size
  home : ∀ k < headN (d l.start), l.Home (headBlock (d l.start) k)
  copy : ∀ k < headN (d l.start), d (l.start + k + 1) = v (headBlock (d l.start) k)
  rest : ∀ b, l.Home b → (∀ k < headN (d l.start), headBlock (d l.start) k ≠ b) → d b = v b

/-! ### The machine -/

/-- Points inside `commit` and `recover_from_log`; the buffers held there are arguments. -/
inductive LogPc
  /-- `write_log`, head of the loop: `bread(log.start+tail+1)` -/
  | writeLog (tail : Nat)
  /-- `bread(log.lh.block[tail])` -/
  | writeLogTo (tail tobuf : Nat)
  /-- `memmove`, `bwrite(to)` -/
  | writeLogFrom (tail tobuf frombuf : Nat)
  /-- `brelse(from)`, `brelse(to)` -/
  | writeLogDone (tail tobuf frombuf : Nat)
  /-- `write_head`: `bread(log.start)`; `clear` in the call that erases the transaction -/
  | writeHead (clear : Bool)
  /-- the header is filled in, `bwrite(buf)` -/
  | writeHeadBuf (clear : Bool) (buf : Nat)
  /-- `brelse(buf)` -/
  | writeHeadDone (clear : Bool) (buf : Nat)
  /-- `install_trans`, head of the loop: `bread(log.start+tail+1)` -/
  | installTrans (tail : Nat)
  /-- `bread(log.lh.block[tail])` -/
  | installTransL (tail lbuf : Nat)
  /-- `memmove`, `bwrite(dbuf)`, and `bunpin(dbuf)` unless recovering -/
  | installTransD (tail lbuf dbuf : Nat)
  /-- `brelse(lbuf)`, `brelse(dbuf)` -/
  | installTransDone (tail lbuf dbuf : Nat)
  /-- `read_head`: `bread(log.start)` -/
  | readHead
  /-- the header is copied to memory, `brelse(buf)` -/
  | readHeadBuf (buf : Nat)
  /-- the end of `end_op`, or of `recover_from_log` -/
  | finish
deriving DecidableEq, Repr

inductive FsPc
  | idle
  | inOp
  | log (k : LogPc)
deriving DecidableEq, Repr

/-- Operation `op` changed block `b` to `data`. -/
structure Upd where
  op : Nat
  b : Nat
  data : Bytes

/-- The home blocks after the changes `us`. -/
def applyUpds (d : Nat → Bytes) (us : List Upd) : Nat → Bytes :=
  us.foldl (fun d u => update d u.b u.data) d

structure LogDisk where
  disk : Nat → Bytes
  bc : Bcache
  log : Log
  /-- `recover_from_log` has completed since the last crash -/
  up : Bool
  pc : Nat → FsPc
  /-- the buffer has been changed and not yet been passed to `log_write` -/
  dirty : Nat → Bool
  base : Nat → Bytes
  upds : List Upd
  commits : List Nat
  returned : Nat
  op : Nat → Nat
  nextOp : Nat
  ended : Nat → Bool

namespace LogDisk

section
variable (s : LogDisk)

/-- The home blocks as the operations see them. -/
def view : Nat → Bytes := applyUpds s.base s.upds

/-- How many changes the first `k` commits cover. -/
def covered : Nat → Nat
  | 0 => 0
  | k + 1 => s.commits.getD k 0

/-- The home blocks after the first `k` commits. -/
def afterCommits (k : Nat) : Nat → Bytes := applyUpds s.base (s.upds.take (s.covered k))

def goto (p : Nat) (k : LogPc) : LogDisk := { s with pc := update s.pc p (.log k) }

def bwrite (i : Nat) : LogDisk :=
  { s with disk := update s.disk (s.bc.buf i).blockno (s.bc.buf i).data }

/-- `bread` inside `commit` or `recover_from_log`, going on at `k i` with the buffer `i`. -/
def breadGoto (p b : Nat) (k : Nat → LogPc) : Option LogDisk :=
  match s.bc.bread s.disk p b with
  | some (i, bc) => some ({ s with bc }.goto p (k i))
  | none => none

/-- `commit` is done: `end_op` returns, or the file system is up. -/
def finish (p : Nat) : LogDisk :=
  if s.up then
    { s with log := s.log.endCommit, pc := update s.pc p .idle,
             returned := s.commits.length }
  else
    { s with up := true, pc := update s.pc p .idle, base := s.disk, upds := [],
             commits := [], returned := 0 }

/-- One step of `commit` or `recover_from_log` of process `p`. -/
def logStep (p : Nat) : LogPc → Option LogDisk
  | .writeLog tail =>
    if tail < s.log.lh.n then s.breadGoto p (s.log.start + tail + 1) (.writeLogTo tail)
    else some (s.goto p (.writeHead false))
  | .writeLogTo tail tobuf => s.breadGoto p (s.log.lh.block tail) (.writeLogFrom tail tobuf)
  | .writeLogFrom tail tobuf frombuf =>
    some (({ s with bc := s.bc.setData tobuf (s.bc.buf frombuf).data }.bwrite tobuf).goto p
      (.writeLogDone tail tobuf frombuf))
  | .writeLogDone tail tobuf frombuf =>
    some ({ s with bc := (s.bc.brelse frombuf).brelse tobuf }.goto p (.writeLog (tail + 1)))
  | .writeHead clear => s.breadGoto p s.log.start (.writeHeadBuf clear)
  | .writeHeadBuf clear i =>
    some (({ s with bc := s.bc.setData i (putHead s.log.lh (s.bc.buf i).data) }.bwrite i).goto p
      (.writeHeadDone clear i))
  | .writeHeadDone clear i =>
    some ({ s with bc := s.bc.brelse i }.goto p (if clear then .finish else .installTrans 0))
  | .installTrans tail =>
    if tail < s.log.lh.n then s.breadGoto p (s.log.start + tail + 1) (.installTransL tail)
    else some ({ s with log := s.log.clear }.goto p (.writeHead true))
  | .installTransL tail l => s.breadGoto p (s.log.lh.block tail) (.installTransD tail l)
  | .installTransD tail l d =>
    let s := { s with bc := s.bc.setData d (s.bc.buf l).data }.bwrite d
    some ({ s with bc := if s.up then s.bc.bunpin d else s.bc }.goto p (.installTransDone tail l d))
  | .installTransDone tail l d =>
    some ({ s with bc := (s.bc.brelse l).brelse d }.goto p (.installTrans (tail + 1)))
  | .readHead => s.breadGoto p s.log.start .readHeadBuf
  | .readHeadBuf i =>
    some ({ s with log := { s.log with lh := getHead (s.bc.buf i).data }, bc := s.bc.brelse i }.goto p
      (.installTrans 0))
  | .finish => some (s.finish p)

/-- Power off and on: `main` starts again with an empty cache and recovery. -/
def crash : LogDisk :=
  { s with bc := .binit, log := .init s.log.start s.log.size, up := false,
           pc := update (fun _ => .idle) 0 (.log .readHead), dirty := fun _ => false }

/-- `end_op` of process `p`, with the outcome of its critical section. -/
def endOp (p : Nat) (l : Log) (doCommit : Bool) : LogDisk :=
  { s with log := l, ended := update s.ended (s.op p) true
           pc := update s.pc p (if doCommit then
             -- `commit` does nothing for an empty transaction
             .log (if 0 < l.lh.n then .writeLog 0 else .finish) else .idle)
           commits := if doCommit then s.commits ++ [s.upds.length] else s.commits }

end

inductive Step (s : LogDisk) : LogDisk → Prop
  | bread {p b i bc} (up : s.up = true) (pc : s.pc p = .idle ∨ s.pc p = .inOp) (home : s.log.Home b)
      (h : s.bc.bread s.disk p b = some (i, bc)) : Step s { s with bc }
  /-- and gives it back; what it changed has been logged -/
  | brelse {p i} (up : s.up = true) (pc : s.pc p = .idle ∨ s.pc p = .inOp)
      (lock : (s.bc.buf i).lock = some p) (clean : s.dirty i = false) : Step s { s with bc := s.bc.brelse i }
  | beginOp {p l} (up : s.up = true) (pc : s.pc p = .idle) (h : s.log.beginOp = some l) :
      Step s { s with log := l, pc := update s.pc p .inOp, op := update s.op p s.nextOp, nextOp := s.nextOp + 1 }
  | change {p i} (d : Bytes) (up : s.up = true) (pc : s.pc p = .inOp) (lock : (s.bc.buf i).lock = some p) :
      Step s { s with bc := s.bc.setData i d, dirty := update s.dirty i true,
                      upds := s.upds ++ [⟨s.op p, (s.bc.buf i).blockno, d⟩] }
  | logWrite {p i l pin} (up : s.up = true) (pc : s.pc p = .inOp) (lock : (s.bc.buf i).lock = some p)
      (h : s.log.logWrite (s.bc.buf i).blockno = .ok (l, pin)) :
      Step s { s with log := l, bc := if pin then s.bc.bpin i else s.bc, dirty := update s.dirty i false }
  /-- what the operation changed has been logged -/
  | endOp {p l doCommit} (up : s.up = true)
      (pc : s.pc p = .inOp) (clean : ∀ i, (s.bc.buf i).lock = some p → s.dirty i = false)
      (h : s.log.endOp = .ok (l, doCommit)) : Step s (s.endOp p l doCommit)
  | log {s' p k} (pc : s.pc p = .log k) (h : s.logStep p k = some s') : Step s s'
  | crash : Step s s.crash

/-- A machine that is switched on with a disk whose log is well formed: it holds a committed
transaction to be installed, or none (as `mkfs` leaves it). `base` are the home blocks with that
transaction installed. -/
structure Init (s : LogDisk) : Prop where
  size_pos : 0 < s.log.size
  recovers : Recovers s.log s.disk s.base
  booting : s.crash = s
  upds : s.upds = []
  commits : s.commits = []
  returned : s.returned = 0
  ended : ∀ o, s.ended o = false

end LogDisk

end Xv6
