import Xv6.Lib.Prog
import Xv6.Lib.Ring
import Xv6.Lib.Trans

/-!
# The disk driver (`virtio_disk.c`) and the device

Any number of processes call `virtio_disk_rw`, interrupts call `virtio_disk_intr`, and the device works at any
time, also in the middle of a critical section of `vdisk_lock`: it takes the heads of the `avail` ring one
after the other, performs the requests in any order, and puts their heads into the `used` ring. A step of the
driver is the code up to the next store that the device can see or the next lock operation. Who sleeps may
wake up at any time.

`virtio_disk_rw` is called with the lock of the buffer held (`bread`, `bwrite`), so there is one call for a
buffer at a time. The addresses in descriptors are what they point to.
-/

namespace Xv6

open Function (update)

/-- this many virtio descriptors -/
def NUM : Nat := 8

def VRING_DESC_F_NEXT : Nat := 1
def VRING_DESC_F_WRITE : Nat := 2
def VIRTIO_BLK_T_IN : Nat := 0
def VIRTIO_BLK_T_OUT : Nat := 1

inductive DescAddr (B : Type)
  | null
  /-- `&disk.ops[i]` -/
  | op (i : Nat)
  | data (b : B)
  /-- `&disk.info[i].status` -/
  | status (i : Nat)

/-- `struct virtq_desc` -/
structure VirtqDesc (B : Type) where
  addr : DescAddr B
  len : Nat
  flags : Nat
  next : Nat

/-- `struct virtq_avail` and, with the `id` of each element, `struct virtq_used`; `idx` is a `uint16`. -/
structure Virtq where
  idx : Nat
  ring : Nat → Nat

/-- `struct virtio_blk_req` -/
structure VirtioBlkReq where
  type : Nat
  reserved : Nat
  sector : Nat
deriving DecidableEq

structure DiskInfo (B : Type) where
  b : Option B
  status : Nat

/-- `struct disk`, without its lock -/
structure Disk (B : Type) where
  desc : Nat → VirtqDesc B
  avail : Virtq
  used : Virtq
  free : Nat → Bool
  usedIdx : Nat
  info : Nat → DiskInfo B
  ops : Nat → VirtioBlkReq

inductive DiskPanic
  /-- `"free_desc 1"` -/
  | freeDesc1
  /-- `"free_desc 2"` -/
  | freeDesc2
  /-- `"virtio_disk_intr status"` -/
  | intrStatus
  /-- `virtio_disk_intr` finds no buffer -/
  | intrNull
deriving DecidableEq

/-- `int idx[3]` -/
structure DiskIdx where
  i0 : Nat
  i1 : Nat
  i2 : Nat

/-- The arguments of a call of `virtio_disk_rw`; `id` numbers the calls. -/
structure DiskRw (B : Type) where
  id : Nat
  b : B
  blockno : Nat
  write : Bool

/-- A request as the device finds it: the head of the chain, the command, the buffer, and where the status goes. -/
structure DiskReq (B : Type) where
  head : Nat
  op : VirtioBlkReq
  data : B
  toDevice : Bool
  status : Nat

variable {A B : Type}

/-! ### The functions of the driver -/

namespace Disk

abbrev M (B : Type) := Prog DiskPanic (Disk B)

open Prog

def allocDesc : M B (Option Nat) := do
  match (List.range NUM).find? (← get).free with
  | some i =>
    modify fun d => { d with free := update d.free i false }
    return some i
  | none => return none

def freeDesc (i : Nat) : M B Unit := do
  if i ≥ NUM then
    fail .freeDesc1
  if (← get).free i then
    fail .freeDesc2
  modify fun d => { d with
    desc := update d.desc i ⟨.null, 0, 0, 0⟩
    free := update d.free i true }

/-- After `n` more rounds all descriptors would be free, and `free_desc` panics. -/
def freeChain : (n i : Nat) → M B Unit
  | 0, i => freeDesc i
  | n + 1, i => do
    let d := (← get).desc i
    freeDesc i
    if d.flags &&& VRING_DESC_F_NEXT ≠ 0 then
      freeChain n d.next

/-- `none` when there are less than three free descriptors. -/
def alloc3Desc : M B (Option DiskIdx) := do
  match ← allocDesc with
  | none => return none
  | some i0 =>
    match ← allocDesc with
    | none =>
      freeDesc i0
      return none
    | some i1 =>
      match ← allocDesc with
      | none =>
        freeDesc i0
        freeDesc i1
        return none
      | some i2 => return some ⟨i0, i1, i2⟩

/-- `b->blockno * (BSIZE / 512)`, a product of `uint`s -/
def sector (blockno : Nat) : Nat := blockno * 2 % 2 ^ 32

/-- The part of `virtio_disk_rw` that formats the three descriptors; `b->disk = 1` is left to the caller. -/
def format (d : Disk B) (c : DiskRw B) (x : DiskIdx) : Disk B :=
  { d with
    ops := update d.ops x.i0
      ⟨if c.write then VIRTIO_BLK_T_OUT else VIRTIO_BLK_T_IN, 0, sector c.blockno⟩
    desc :=
      update (update (update d.desc
        x.i0 ⟨.op x.i0, 16, VRING_DESC_F_NEXT, x.i1⟩)
        x.i1 ⟨.data c.b, 1024, (if c.write then 0 else VRING_DESC_F_WRITE) ||| VRING_DESC_F_NEXT, x.i2⟩)
        x.i2 ⟨.status x.i0, 1, VRING_DESC_F_WRITE, 0⟩
    info := update d.info x.i0 ⟨some c.b, 0xff⟩ }

/-- `disk.info[idx[0]].b = 0; free_chain(idx[0])` -/
def finish (x : DiskIdx) : M B Unit := do
  modify fun d => { d with info := update d.info x.i0 { d.info x.i0 with b := none } }
  freeChain NUM x.i0

/-- A round of the loop of `virtio_disk_intr`; returns the buffer that is done. -/
def intrRound : M B B := do
  let d ← get
  let id := d.used.ring (d.usedIdx % NUM)
  if (d.info id).status ≠ 0 then
    fail .intrStatus
  match (d.info id).b with
  | none => fail .intrNull
  | some b =>
    set { d with usedIdx := (d.usedIdx + 1) % 2 ^ 16 }
    return b

/-- What the device reads when it follows the chain from `head`. -/
def request (d : Disk B) (head : Nat) : Option (DiskReq B) :=
  let d0 := d.desc head
  let d1 := d.desc d0.next
  let d2 := d.desc d1.next
  match d0.addr, d1.addr, d2.addr with
  | .op i, .data b, .status j =>
    if d0.flags = VRING_DESC_F_NEXT ∧ d1.flags &&& VRING_DESC_F_NEXT ≠ 0 ∧ d2.flags = VRING_DESC_F_WRITE then
      some ⟨head, d.ops i, b, d1.flags &&& VRING_DESC_F_WRITE = 0, j⟩
    else none
  | _, _, _ => none

end Disk

/-! ### The machine -/

inductive DiskPc (B : Type)
  | out
  /-- `virtio_disk_rw`, before `acquire(&disk.vdisk_lock)` or on the way back from the `sleep` for descriptors -/
  | acquire (c : DiskRw B)
  /-- at `alloc3_desc(idx)` -/
  | alloc (c : DiskRw B)
  | format (c : DiskRw B) (x : DiskIdx)
  /-- at `disk.avail->ring[disk.avail->idx % NUM] = idx[0]` -/
  | ring (c : DiskRw B) (x : DiskIdx)
  /-- at `disk.avail->idx += 1` -/
  | idx (c : DiskRw B) (x : DiskIdx)
  /-- at `while(b->disk == 1)` -/
  | test (c : DiskRw B) (x : DiskIdx)
  /-- in `sleep(b, &disk.vdisk_lock)` -/
  | sleep (c : DiskRw B) (x : DiskIdx)
  | finish (c : DiskRw B) (x : DiskIdx)
  /-- at `release(&disk.vdisk_lock)` -/
  | release (c : DiskRw B)
  /-- at the loop of `virtio_disk_intr` -/
  | intr

/-- The call that is going on. -/
def DiskPc.call : DiskPc B → Option (DiskRw B)
  | .out | .intr => none
  | .acquire c | .alloc c | .format c _ | .ring c _ | .idx c _ | .test c _ | .sleep c _ | .finish c _ | .release c => some c

/-- The device: how far it has come in the `avail` ring, the requests it is working on, the heads of those it
has performed, and a head that is in the `used` ring but not yet counted by `used->idx`. -/
structure Device (B : Type) where
  avail : Nat
  busy : List (DiskReq B)
  done : List Nat
  putting : Option Nat

/-- `published` and `answered` are history: the heads the driver has put into the `avail` ring, of which the
device has taken the first `taken`, and those the device has put into the `used` ring, of which the driver has
seen the first `seen`. So are `req`, the call that has published a head last, and `performed`, the calls whose
requests the device has completed. -/
structure DiskSys (A B : Type) where
  d : Disk B
  disk : B → Bool
  lock : Option A
  pc : A → DiskPc B
  dev : Device B
  panic : Option DiskPanic
  nextId : Nat
  published : List Nat
  taken : Nat
  answered : List Nat
  seen : Nat
  req : Nat → Nat
  performed : List (Nat × DiskReq B)

namespace DiskSys

variable [DecidableEq A] [DecidableEq B]

def goto (s : DiskSys A B) (a : A) (k : DiskPc B) : DiskSys A B := { s with pc := update s.pc a k }

/-- A step, with the call that returns. -/
inductive Step (s : DiskSys A B) : Option (DiskRw B) → DiskSys A B → Prop
  -- `virtio_disk_rw`
  | call {a} (b : B) (blockno : Nat) (write : Bool) (pc : s.pc a = .out)
      (locked : ∀ a' c, (s.pc a').call = some c → c.b ≠ b) :
      Step s none { s.goto a (.acquire ⟨s.nextId, b, blockno, write⟩) with nextId := s.nextId + 1 }
  | acquire {a c} (pc : s.pc a = .acquire c) (free : s.lock = none) :
      Step s none { s.goto a (.alloc c) with lock := some a }
  | alloc {a c x d} (pc : s.pc a = .alloc c)
      (run : Disk.alloc3Desc s.d = .ok (some x, d)) : Step s none { s.goto a (.format c x) with d }
  /-- `sleep(&disk.free[0], &disk.vdisk_lock)` -/
  | allocSleep {a c d} (pc : s.pc a = .alloc c)
      (run : Disk.alloc3Desc s.d = .ok (none, d)) : Step s none { s.goto a (.acquire c) with d, lock := none }
  | allocPanic {a c e} (pc : s.pc a = .alloc c)
      (run : Disk.alloc3Desc s.d = .error e) : Step s none { s with panic := some e }
  | format {a c x} (pc : s.pc a = .format c x) : Step s none { s.goto a (.ring c x) with
        d := s.d.format c x, disk := update s.disk c.b true }
  | ring {a c x} (pc : s.pc a = .ring c x) : Step s none { s.goto a (.idx c x) with
        d.avail.ring := update s.d.avail.ring (s.d.avail.idx % NUM) x.i0 }
  | idx {a c x} (pc : s.pc a = .idx c x) : Step s none { s.goto a (.test c x) with
        d.avail.idx := (s.d.avail.idx + 1) % 2 ^ 16, published := s.published ++ [x.i0], req := update s.req x.i0 c.id }
  | sleep {a c x} (pc : s.pc a = .test c x)
      (disk : s.disk c.b = true) : Step s none { s.goto a (.sleep c x) with lock := none }
  | wake {a c x} (pc : s.pc a = .sleep c x) (free : s.lock = none) :
      Step s none { s.goto a (.test c x) with lock := some a }
  | exit {a c x} (pc : s.pc a = .test c x) (disk : s.disk c.b = false) : Step s none (s.goto a (.finish c x))
  | finish {a c x d} (pc : s.pc a = .finish c x)
      (run : Disk.finish x s.d = .ok ((), d)) : Step s none { s.goto a (.release c) with d }
  | finishPanic {a c x e} (pc : s.pc a = .finish c x)
      (run : Disk.finish x s.d = .error e) : Step s none { s with panic := some e }
  | release {a c} (pc : s.pc a = .release c) : Step s (some c) { s.goto a .out with lock := none }
  -- `virtio_disk_intr`
  | intr {a} (pc : s.pc a = .out) (free : s.lock = none) : Step s none { s.goto a .intr with lock := some a }
  | intrRound {a b d} (pc : s.pc a = .intr) (ne : s.d.usedIdx ≠ s.d.used.idx) (run : Disk.intrRound s.d = .ok (b, d)) :
      Step s none { s with d, disk := update s.disk b false, seen := s.seen + 1 }
  | intrPanic {a e} (pc : s.pc a = .intr) (ne : s.d.usedIdx ≠ s.d.used.idx)
      (run : Disk.intrRound s.d = .error e) : Step s none { s with panic := some e }
  | intrReturn {a} (pc : s.pc a = .intr) (eq : s.d.usedIdx = s.d.used.idx) :
      Step s none { s.goto a .out with lock := none }
  -- the device
  | take {r} (ne : s.dev.avail ≠ s.d.avail.idx)
      (read : s.d.request (s.d.avail.ring (s.dev.avail % NUM)) = some r) : Step s none { s with
        dev.avail := (s.dev.avail + 1) % 2 ^ 16, dev.busy := s.dev.busy ++ [r], taken := s.taken + 1 }
  /-- performs a request and writes its status -/
  | perform {r l l'} (busy : s.dev.busy = l ++ r :: l') : Step s none { s with
        d.info := update s.d.info r.status { s.d.info r.status with status := 0 }, dev.busy := l ++ l'
        dev.done := r.head :: s.dev.done, performed := (s.req r.head, r) :: s.performed }
  /-- writes a head into the `used` ring -/
  | answer {h l l'} (done : s.dev.done = l ++ h :: l') (free : s.dev.putting = none) : Step s none { s with
        d.used.ring := update s.d.used.ring (s.d.used.idx % NUM) h, dev.done := l ++ l'
        dev.putting := some h }
  /-- and increments its `idx` -/
  | put {h} (putting : s.dev.putting = some h) : Step s none { s with
        d.used.idx := (s.d.used.idx + 1) % 2 ^ 16
        dev.putting := none, answered := s.answered ++ [h] }

/-- `virtio_disk_init` has returned. -/
structure Init (s : DiskSys A B) : Prop where
  free : ∀ i < NUM, s.d.free i = true
  availIdx : s.d.avail.idx = 0
  usedRing : s.d.used.idx = 0
  usedIdx : s.d.usedIdx = 0
  lock : s.lock = none
  pc : ∀ a, s.pc a = .out
  dev : s.dev = ⟨0, [], [], none⟩
  panic : s.panic = none
  published : s.published = []
  taken : s.taken = 0
  answered : s.answered = []
  seen : s.seen = 0
  performed : s.performed = []

def Reachable : DiskSys A B → Prop := Trans.Reach Init fun s s' => ∃ c, Step s c s'

end DiskSys

end Xv6
