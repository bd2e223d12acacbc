import Xv6.FileWrite
import Xv6.Lib.Trans
import Xv6.Proc

/-!
# Processes that share an open file

Any number of processes call `filewrite` on one `struct file`. A chunk is `ilock`, `writei`, the advance of `f->off`
with `iunlock`: three steps, between which the others go on. Meanwhile files other than this one may change (`World` of
`Xv6.FileWrite` with `keep`). `calls`, `chunks` and `failed` are history: the calls made, the bytes of each chunk with the
number of its call, and whether some `writei` has written less than it should.
-/

namespace Xv6

/-- A call of `filewrite(f, addr, n)`, by a process whose pages are `pages`. -/
structure WriteCall where
  pages : Nat → Option Bytes
  addr : Nat
  n : CInt

/-- The length of the chunk that starts at `i`. -/
def WriteCall.chunkLen (c : WriteCall) (i : Nat) : Nat :=
  if c.n.toInt - i > Writer.maxChunk then Writer.maxChunk else (c.n.toInt - i).toNat

/-- Where a process is; `id` is the number of its call. -/
inductive WritePc
  | out
  /-- at `while(i < n)` -/
  | loop (id : Nat) (c : WriteCall) (i : Nat)
  /-- behind `ilock(f->ip)` -/
  | locked (id : Nat) (c : WriteCall) (i : Nat)
  /-- behind `writei`, which returned `r` -/
  | wrote (id : Nat) (c : WriteCall) (i : Nat) (r : Int)
  /-- at `ret = (i == n ? n : -1)` -/
  | ret (id : Nat) (c : WriteCall) (i : Nat)

structure SharedFile (P : Type) where
  world : World
  lock : Option P
  pc : P → WritePc
  calls : List WriteCall
  chunks : List (Nat × List UInt8)
  failed : Bool

namespace SharedFile

variable {P : Type} [DecidableEq P] (sb : Super) (inum : Nat)

def goto (s : SharedFile P) (p : P) (k : WritePc) : SharedFile P := { s with pc := Function.update s.pc p k }

/-- `keep` says what processes that do not write this file leave alone. -/
inductive Step (keep : World → World → Prop) (s : SharedFile P) : SharedFile P → Prop
  | other {w} (h : keep s.world w) : Step keep s { s with world := w }
  | call {p} (c : WriteCall) (pc : s.pc p = .out) :
      Step keep s { s.goto p (.loop s.calls.length c 0) with calls := s.calls ++ [c] }
  | ilock {p id c i} (pc : s.pc p = .loop id c i) (more : (i : Int) < c.n.toInt)
      (free : s.lock = none) : Step keep s { s.goto p (.locked id c i) with lock := some p }
  | writei {p id c i r ip t} (pc : s.pc p = .locked id c i)
      (run : Fs.writei sb inum s.world.ip (.user c.pages (c.addr + i)) s.world.off (c.chunkLen i) ⟨s.world.data, []⟩ = .ok ((r, ip), t)) :
      Step keep s { s.goto p (.wrote id c i r) with
        world := ⟨t.data, ip, s.world.off⟩
        chunks := s.chunks ++ [(id, (List.range r.toNat).map fun k => ((pageByte c.pages (c.addr + i + k)).getD 0))]
        failed := s.failed || r ≠ c.chunkLen i }
  | iunlock {p id c i r} (pc : s.pc p = .wrote id c i r) :
      Step keep s { s.goto p (if r ≠ c.chunkLen i then .ret id c i else .loop id c (i + r.toNat)) with
        world := { s.world with off := if r > 0 then s.world.off + r.toNat else s.world.off }, lock := none }
  | stop {p id c i} (pc : s.pc p = .loop id c i) (all : ¬ (i : Int) < c.n.toInt) : Step keep s (s.goto p (.ret id c i))
  | ret {p id c i} (pc : s.pc p = .ret id c i) : Step keep s (s.goto p .out)

/-- Nobody writes, and nothing has been written. -/
structure Init (w : World) (s : SharedFile P) : Prop where
  world : s.world = w
  lock : s.lock = none
  pc : ∀ p, s.pc p = .out
  calls : s.calls = []
  chunks : s.chunks = []
  failed : s.failed = false

def Reachable (keep : World → World → Prop) (w : World) : SharedFile P → Prop := Trans.Reach (Init w) (Step sb inum keep)

end SharedFile

end Xv6
