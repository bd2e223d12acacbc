import Xv6.Bio
import Xv6.Lib.DList
import Xv6.Lib.Trans

/-!
# The list of the buffer cache (`bio.c`)

`bcache` with its pointers, where `Bcache` has the list they make. Any number of processes call `bread`, `bwrite` and
`brelse`, and `bpin` and `bunpin`. A critical section of `bcache.lock` is one step, and so is each change of the sleep-lock of
a buffer. A process for which `bget` finds no buffer panics and takes no further step.

`refcnt` is a natural number where the source has an `uint`, and `bpin` is called at any time: a run here is one of the
source as long as no counter comes to 2^32. In the source none does: a process has at most two references to a buffer, one
with its sleep-lock and one with which it waits for it, and `log_write` pins a block only if it is not in the log yet.

`users`, `pins`, `moved` and `clock` are history: who has called `bget` for a buffer and not released it, how often the buffer
is pinned, and when `brelse` last moved it to the front (0: never).
-/

namespace Xv6

open Function (update update_of_ne update_self)

/-- `&bcache.head`, which stands after the buffers. -/
def bhead : Nat := NBUF

structure BufCache where
  buf : Nat → Buf
  links : Links Nat

namespace BufCache

def set (c : BufCache) (i : Nat) (f : Buf → Buf) : BufCache :=
  { c with buf := update c.buf i (f (c.buf i)) }

@[simp]
theorem set_links {c : BufCache} {i : Nat} (f : Buf → Buf) : (c.set i f).links = c.links := rfl

@[simp]
theorem set_buf_self {c : BufCache} {i : Nat} (f : Buf → Buf) : (c.set i f).buf i = f (c.buf i) := update_self ..

theorem set_buf_of_ne {c : BufCache} {i j : Nat} (f : Buf → Buf) (h : j ≠ i) : (c.set i f).buf j = c.buf j :=
  update_of_ne h ..

def binit : BufCache where
  buf _ := ⟨false, 0, 0, none, 0, fun _ => 0⟩
  links := (List.range NBUF).foldl (fun L b => L.insert bhead b) ⟨fun _ => bhead, fun _ => bhead⟩

/-- The first loop of `bget`. -/
def cached (c : BufCache) (dev blockno : Nat) : Option Nat :=
  Links.find c.links.next bhead (fun i => (c.buf i).dev == dev && (c.buf i).blockno == blockno) (NBUF + 1)
    (c.links.next bhead)

/-- The second loop of `bget`. -/
def lru (c : BufCache) : Option Nat :=
  Links.find c.links.prev bhead (fun i => (c.buf i).refcnt == 0) (NBUF + 1) (c.links.prev bhead)

/-- `bget` up to `acquiresleep`. -/
def bget (c : BufCache) (dev blockno : Nat) : Option (Nat × BufCache) :=
  match c.cached dev blockno with
  | some i => some (i, c.set i fun b => { b with refcnt := b.refcnt + 1 })
  | none =>
    match c.lru with
    | some i => some (i, c.set i fun b => { b with dev, blockno, valid := false, refcnt := 1 })
    | none => none

/-- `brelse` after `releasesleep`. -/
def brelse (c : BufCache) (i : Nat) : BufCache :=
  let c := c.set i fun b => { b with refcnt := b.refcnt - 1 }
  if (c.buf i).refcnt = 0 then { c with links := (c.links.unlink i).insert bhead i } else c

def bpin (c : BufCache) (i : Nat) : BufCache := c.set i fun b => { b with refcnt := b.refcnt + 1 }

def bunpin (c : BufCache) (i : Nat) : BufCache := c.set i fun b => { b with refcnt := b.refcnt - 1 }

end BufCache

/-- Where a process is. -/
inductive BufPc
  | out
  /-- `bget`: `acquiresleep(&b->lock)` -/
  | wait (b : Nat)
  /-- `bread`: `virtio_disk_rw(b, 0)` -/
  | fill (b : Nat)
  /-- `brelse`, after `releasesleep` -/
  | relse (b : Nat)
deriving DecidableEq

structure BufSys where
  cache : BufCache
  disk : Nat → Nat → Bytes
  pc : Nat → BufPc
  users : Nat → List Nat
  pins : Nat → Nat
  moved : Nat → Nat
  clock : Nat

namespace BufSys

def goto (s : BufSys) (p : Nat) (k : BufPc) : BufSys := { s with pc := update s.pc p k }

def set (s : BufSys) (b : Nat) (f : Buf → Buf) : BufSys := { s with cache := s.cache.set b f }

/-- `virtio_disk_rw(b, 1)` -/
def bwrite (s : BufSys) (b : Nat) : BufSys :=
  let x := s.cache.buf b
  { s with disk := update s.disk x.dev (update (s.disk x.dev) x.blockno x.data) }

/-- The critical section of `brelse(b)` by process `p`. -/
def brelse (s : BufSys) (p b : Nat) : BufSys :=
  let s' := { s with cache := s.cache.brelse b, users := update s.users b ((s.users b).erase p) }
  if (s'.cache.buf b).refcnt = 0 then { s' with moved := update s.moved b (s.clock + 1), clock := s.clock + 1 }
  else s'

/-- A step, with the buffer that is recycled in it. -/
inductive Step (s : BufSys) : Option Nat → BufSys → Prop
  | bget {p dev blockno b c} (pc : s.pc p = .out) (h : s.cache.bget dev blockno = some (b, c)) :
      Step s (if s.cache.cached dev blockno = none then some b else none)
        { s.goto p (.wait b) with cache := c, users := update s.users b (p :: s.users b) }
  | acquiresleep {p b} (pc : s.pc p = .wait b) (free : (s.cache.buf b).lock = none) :
      Step s none ((s.set b fun x => { x with lock := some p }).goto p (if (s.cache.buf b).valid then .out else .fill b))
  | fill {p b} (pc : s.pc p = .fill b) :
      Step s none ((s.set b fun x => { x with data := s.disk x.dev x.blockno, valid := true }).goto p .out)
  | write {p b} (d : Bytes) (pc : s.pc p = .out) (lock : (s.cache.buf b).lock = some p) :
      Step s none (s.set b fun x => { x with data := d })
  | bwrite {p b} (pc : s.pc p = .out) (lock : (s.cache.buf b).lock = some p) : Step s none (s.bwrite b)
  | releasesleep {p b} (pc : s.pc p = .out) (lock : (s.cache.buf b).lock = some p) :
      Step s none ((s.set b fun x => { x with lock := none }).goto p (.relse b))
  | brelse {p b} (pc : s.pc p = .relse b) : Step s none ((s.brelse p b).goto p .out)
  | bpin {b} (lt : b < NBUF) : Step s none { s with cache := s.cache.bpin b, pins := update s.pins b (s.pins b + 1) }
  | bunpin {b} (pinned : 0 < s.pins b) :
      Step s none { s with cache := s.cache.bunpin b, pins := update s.pins b (s.pins b - 1) }

/-- After `binit`. -/
structure Init (s : BufSys) : Prop where
  cache : s.cache = .binit
  pc : ∀ p, s.pc p = .out
  users : ∀ b, s.users b = []
  pins : ∀ b, s.pins b = 0
  moved : ∀ b, s.moved b = 0

def Reachable (s : BufSys) : Prop := Trans.Reach Init (fun s s' => ∃ e, Step s e s') s

end BufSys

end Xv6
