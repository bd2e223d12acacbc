import Xv6.Lib.Bytes
import Xv6.Param

/-!
# The buffer cache (`bio.c`)

`order` is the list through `bcache.head`, most recently used buffer first. `bread` is one step: it is
enabled when the buffer's sleep-lock is free, so a process waiting in `acquiresleep` is one that has not
called `bread` yet. `none` also stands for `panic("bget: no buffers")`: the process does not go on.
-/

namespace Xv6

/-- `struct buf`; `lock` is the process that holds the buffer's sleep-lock. -/
structure Buf where
  valid : Bool
  dev : Nat
  blockno : Nat
  lock : Option Nat
  refcnt : Nat
  data : Bytes

structure Bcache where
  buf : Nat → Buf
  order : List Nat

namespace Bcache

variable {bc bc' : Bcache} {disk : Nat → Bytes} {i j p b : Nat}

/-- `binit`, on zeroed memory: every buffer is put at the front in turn. -/
def binit : Bcache where
  buf _ := ⟨false, 0, 0, none, 0, fun _ => 0⟩
  order := (List.range NBUF).reverse

def set (bc : Bcache) (i : Nat) (f : Buf → Buf) : Bcache :=
  { bc with buf := Function.update bc.buf i (f (bc.buf i)) }

@[simp] theorem set_order (f : Buf → Buf) : (bc.set i f).order = bc.order := rfl

@[simp] theorem set_buf_self (f : Buf → Buf) : (bc.set i f).buf i = f (bc.buf i) :=
  Function.update_self ..

theorem set_buf_of_ne (f : Buf → Buf) (h : j ≠ i) : (bc.set i f).buf j = bc.buf j :=
  Function.update_of_ne h ..

/-- The first loop of `bget`: is the block cached? -/
def cached (bc : Bcache) (dev blockno : Nat) : Option Nat :=
  bc.order.find? fun i => (bc.buf i).dev == dev && (bc.buf i).blockno == blockno

/-- The second loop of `bget`: the least recently used buffer without references. -/
def lru (bc : Bcache) : Option Nat :=
  bc.order.reverse.find? fun i => (bc.buf i).refcnt == 0

/-- `bget` up to `acquiresleep`. -/
def bget (bc : Bcache) (dev blockno : Nat) : Option (Nat × Bcache) :=
  match bc.cached dev blockno with
  | some i => some (i, bc.set i fun b => { b with refcnt := b.refcnt + 1 })
  | none =>
    match bc.lru with
    | some i => some (i, bc.set i fun b => { b with dev, blockno, valid := false, refcnt := 1 })
    | none => none

/-- `bread` of a block of the file system device by process `p`. -/
def bread (bc : Bcache) (disk : Nat → Bytes) (p blockno : Nat) : Option (Nat × Bcache) :=
  match bc.bget ROOTDEV blockno with
  | some (i, bc) =>
    if (bc.buf i).lock = none then
      some (i, bc.set i fun b =>
        { b with lock := some p, valid := true, data := if b.valid then b.data else disk blockno })
    else none
  | none => none

/-- `brelse`: unlocked, and moved to the front if nobody else refers to it. -/
def brelse (bc : Bcache) (i : Nat) : Bcache :=
  let bc := bc.set i fun b => { b with lock := none, refcnt := b.refcnt - 1 }
  if (bc.buf i).refcnt = 0 then { bc with order := i :: bc.order.erase i } else bc

def bpin (bc : Bcache) (i : Nat) : Bcache := bc.set i fun b => { b with refcnt := b.refcnt + 1 }

def bunpin (bc : Bcache) (i : Nat) : Bcache := bc.set i fun b => { b with refcnt := b.refcnt - 1 }

/-- The caller of `bread` overwrites the buffer. -/
def setData (bc : Bcache) (i : Nat) (d : Bytes) : Bcache := bc.set i fun b => { b with data := d }

theorem brelse_buf (bc : Bcache) (i : Nat) :
    (bc.brelse i).buf = (bc.set i fun b => { b with lock := none, refcnt := b.refcnt - 1 }).buf := by
  unfold brelse; dsimp only; split <;> rfl

theorem mem_brelse_order (hi : i ∈ bc.order) : j ∈ (bc.brelse i).order ↔ j ∈ bc.order := by
  unfold brelse; dsimp only; split
  · simp only [set_order, List.mem_cons]
    by_cases h : j = i
    · subst h; simp [hi]
    · rw [List.mem_erase_of_ne h]; simp [h]
  · rfl

theorem cached_some {dev : Nat} (h : bc.cached dev b = some i) :
    i ∈ bc.order ∧ (bc.buf i).dev = dev ∧ (bc.buf i).blockno = b := by
  have h1 := List.mem_of_find?_eq_some h
  have h2 := List.find?_some h
  simp only [Bool.and_eq_true, beq_iff_eq] at h2
  exact ⟨h1, h2⟩

theorem cached_none {dev : Nat} (h : bc.cached dev b = none) (hj : j ∈ bc.order) :
    ¬ ((bc.buf j).dev = dev ∧ (bc.buf j).blockno = b) := by
  have := List.find?_eq_none.1 h j hj
  simpa using this

theorem lru_some (h : bc.lru = some i) : i ∈ bc.order ∧ (bc.buf i).refcnt = 0 :=
  ⟨List.mem_reverse.1 (List.mem_of_find?_eq_some h), by simpa using List.find?_some h⟩

/-- What `bread` can do: take a free reference to a cached block, or recycle a buffer nobody
refers to. -/
theorem bread_cases (h : bc.bread disk p b = some (i, bc')) :
    i ∈ bc.order ∧ (bc.buf i).lock = none ∧
    ((bc.buf i).dev = ROOTDEV ∧ (bc.buf i).blockno = b ∧
      bc' = bc.set i (fun x => { x with refcnt := x.refcnt + 1, lock := some p, valid := true, data := if x.valid then x.data else disk b }) ∨
     (∀ j ∈ bc.order, ¬ ((bc.buf j).dev = ROOTDEV ∧ (bc.buf j).blockno = b)) ∧
      (bc.buf i).refcnt = 0 ∧
      bc' = bc.set i fun _ => ⟨true, ROOTDEV, b, some p, 1, disk b⟩) := by
  unfold bread bget at h
  split at h
  · rename_i k bc₁ heq
    split at heq
    · rename_i k' hc
      simp only [Option.some.injEq, Prod.mk.injEq] at heq
      obtain ⟨rfl, rfl⟩ := heq
      obtain ⟨h1, h2, h3⟩ := cached_some hc
      split_ifs at h with hl
      simp only [Option.some.injEq, Prod.mk.injEq] at h
      obtain ⟨rfl, rfl⟩ := h
      rw [set_buf_self] at hl
      exact ⟨h1, hl, .inl ⟨h2, h3, by simp [set]⟩⟩
    · rename_i hc
      split at heq
      · rename_i k' hv
        simp only [Option.some.injEq, Prod.mk.injEq] at heq
        obtain ⟨rfl, rfl⟩ := heq
        obtain ⟨h1, h2⟩ := lru_some hv
        split_ifs at h with hl
        simp only [Option.some.injEq, Prod.mk.injEq] at h
        obtain ⟨rfl, rfl⟩ := h
        rw [set_buf_self] at hl
        exact ⟨h1, hl, .inr ⟨fun j hj => cached_none hc hj, h2, by simp [set]⟩⟩
      · cases heq
  · cases h

end Bcache

end Xv6
