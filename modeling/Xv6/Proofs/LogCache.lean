import Xv6.LogDisk

/-!
# Cached blocks under the log

`CacheOk`: every valid buffer holds the current content of its block, the count of every buffer is made
of its holder and its pin, and a block whose buffer may be recycled (neither pinned by `log_write` nor
changed and still held) has that content on disk too. So a block read again after it was recycled is the
block the operations saw before. Preserved by `bread`, `brelse`, `bpin`, `bunpin` and `bwrite`.
-/

namespace Xv6

open Function

/-- The cache `bc` over `disk`: `content b` is the current content of block `b`. -/
structure CacheOk (bc : Bcache) (disk content : Nat → Bytes) (pinned : Nat → Bool)
    (dirty : Nat → Bool) : Prop where
  order : ∀ i, i ∈ bc.order ↔ i < NBUF
  uniq : ∀ i j, i < NBUF → j < NBUF → (bc.buf i).dev = ROOTDEV → (bc.buf j).dev = ROOTDEV →
    (bc.buf i).blockno = (bc.buf j).blockno → i = j
  ref : ∀ i < NBUF, (bc.buf i).refcnt = (if (bc.buf i).lock.isSome then 1 else 0) +
    (if (bc.buf i).dev = ROOTDEV ∧ pinned (bc.buf i).blockno = true then 1 else 0)
  locked : ∀ i < NBUF, (bc.buf i).lock.isSome → (bc.buf i).dev = ROOTDEV ∧ (bc.buf i).valid = true
  lock_lt : ∀ i, (bc.buf i).lock.isSome → i < NBUF
  data : ∀ i < NBUF, (bc.buf i).dev = ROOTDEV → (bc.buf i).valid = true →
    (bc.buf i).data = content (bc.buf i).blockno
  pin : ∀ b, pinned b = true → ∃ i < NBUF, (bc.buf i).dev = ROOTDEV ∧ (bc.buf i).valid = true ∧
    (bc.buf i).blockno = b
  dirty_lock : ∀ i, dirty i = true → (bc.buf i).lock.isSome
  clean : ∀ b, pinned b = false → (∀ i, dirty i = true → (bc.buf i).blockno ≠ b) → disk b = content b

structure Held (bc : Bcache) (p i b : Nat) : Prop where
  lock : (bc.buf i).lock = some p
  blockno : (bc.buf i).blockno = b

/-- Buffer `i` can be the one for block `b`: no other one is, and the block it loses is on disk. -/
structure Room (bc : Bcache) (pinned dirty : Nat → Bool) (i b : Nat) : Prop where
  lt : i < NBUF
  only : ∀ j < NBUF, j ≠ i → (bc.buf j).dev = ROOTDEV → (bc.buf j).blockno ≠ b
  free : (bc.buf i).blockno ≠ b → dirty i = false ∧ ((bc.buf i).dev = ROOTDEV → pinned (bc.buf i).blockno = false)

namespace CacheOk

variable {bc bc' : Bcache} {disk content : Nat → Bytes} {pinned dirty : Nat → Bool} {p i b : Nat}

theorem binit (disk : Nat → Bytes) :
    CacheOk .binit disk disk (fun _ => false) (fun _ => false) where
  order i := by simp [Bcache.binit]
  uniq i j _ _ h := by simp [Bcache.binit, ROOTDEV] at h
  ref i _ := by simp [Bcache.binit]
  locked i _ h := by simp [Bcache.binit] at h
  lock_lt i h := by simp [Bcache.binit] at h
  data i _ h := by simp [Bcache.binit, ROOTDEV] at h
  pin b h := by cases h
  dirty_lock i h := by cases h
  clean _ _ _ := rfl

section

variable (h : CacheOk bc disk content pinned dirty)
include h

theorem of_lock (hl : (bc.buf i).lock = some p) : i < NBUF ∧ (bc.buf i).dev = ROOTDEV ∧ (bc.buf i).valid = true := by
  have hs : (bc.buf i).lock.isSome := by rw [hl]; rfl
  exact ⟨h.lock_lt i hs, h.locked i (h.lock_lt i hs) hs⟩

theorem held_data (hi : Held bc p i b) : (bc.buf i).data = content b := by
  obtain ⟨hlt, hdev, hv⟩ := h.of_lock hi.lock
  rw [h.data i hlt hdev hv, hi.blockno]

theorem disk_eq (hb : ∀ j < NBUF, (bc.buf j).dev = ROOTDEV → (bc.buf j).blockno = b → (bc.buf j).valid = true →
      (bc.buf j).lock = none ∧ pinned b = false) : disk b = content b := by
  refine h.clean b ?_ fun j hd hj => ?_
  · by_contra hp
    obtain ⟨j, hj, hdev, hv, hbj⟩ := h.pin b (by simpa using hp)
    exact hp (hb j hj hdev hbj hv).2
  · have hl := h.dirty_lock j hd
    obtain ⟨hdev, hv⟩ := h.locked j (h.lock_lt j hl) hl
    rw [(hb j (h.lock_lt j hl) hdev hj hv).1] at hl
    cases hl

theorem room (hi : Held bc p i b) : Room bc pinned dirty i b := by
  obtain ⟨hlt, hdev, -⟩ := h.of_lock hi.lock
  exact ⟨hlt, fun j hj hji hd hb => hji (h.uniq j i hj hlt hd hdev (hb.trans hi.blockno.symm)), fun hne => absurd hi.blockno hne⟩

theorem modify {x : Buf} {disk' content' : Nat → Bytes} {pinned' dirty' : Nat → Bool} (hi : Room bc pinned dirty i b)
    (hbuf : bc'.buf = update bc.buf i x) (hord : ∀ j, j ∈ bc'.order ↔ j ∈ bc.order)
    (hdev : x.dev = ROOTDEV) (hblk : x.blockno = b) (hval : x.valid = true)
    (hdata : x.data = content' b) (hcon : ∀ b', b' ≠ b → content' b' = content b')
    (hpin : ∀ b', b' ≠ b → pinned' b' = pinned b')
    (href : x.refcnt = (if x.lock.isSome then 1 else 0) + if pinned' b = true then 1 else 0)
    (hdirty : ∀ j, j ≠ i → dirty' j = dirty j) (hdi : dirty' i = true → x.lock.isSome)
    (hdisk : ∀ b', b' ≠ b → disk' b' = disk b') (hclean : pinned' b = false → dirty' i = false → disk' b = content' b) :
    CacheOk bc' disk' content' pinned' dirty' := by
  have hself : bc'.buf i = x := by rw [hbuf, update_self]
  have hne : ∀ {j}, j ≠ i → bc'.buf j = bc.buf j := fun hj => by rw [hbuf, update_of_ne hj]
  have hnew : ∀ j < NBUF, j ≠ i → (bc'.buf j).dev = ROOTDEV → (bc'.buf j).blockno ≠ (bc'.buf i).blockno := fun j hj hji => by
    rw [hne hji, hself, hblk]; exact hi.only j hj hji
  refine ⟨fun j => (hord j).trans (h.order j), fun j k hj hk hdj hdk hjk => ?_, fun j hj => ?_,
    fun j hj hs => ?_, fun j hs => ?_, fun j hj hd hv => ?_, fun b' hb' => ?_, fun j hd => ?_,
    fun b' hp hd => ?_⟩
  · by_cases hji : j = i <;> by_cases hki : k = i
    · rw [hji, hki]
    · subst hji; exact absurd hjk.symm (hnew k hk hki hdk)
    · subst hki; exact absurd hjk (hnew j hj hji hdj)
    · rw [hne hji] at hdj hjk; rw [hne hki] at hdk hjk
      exact h.uniq j k hj hk hdj hdk hjk
  · by_cases hji : j = i
    · subst hji; simp only [hself, hdev, hblk, true_and]; exact href
    · rw [hne hji, h.ref j hj]
      by_cases hd : (bc.buf j).dev = ROOTDEV
      · simp only [hd, true_and, hpin _ (hi.only j hj hji hd)]
      · simp only [hd, false_and]
  · by_cases hji : j = i
    · subst hji; rw [hself]; exact ⟨hdev, hval⟩
    · rw [hne hji] at hs ⊢; exact h.locked j hj hs
  · by_cases hji : j = i
    · subst hji; exact hi.lt
    · rw [hne hji] at hs; exact h.lock_lt j hs
  · by_cases hji : j = i
    · subst hji; rw [hself, hblk, hdata]
    · rw [hne hji] at hd hv ⊢
      rw [h.data j hj hd hv, hcon _ (hi.only j hj hji hd)]
  · by_cases hbb : b' = b
    · subst hbb; exact ⟨i, hi.lt, by rw [hself]; exact ⟨hdev, hval, hblk⟩⟩
    · rw [hpin b' hbb] at hb'
      obtain ⟨j, hj, hd, hv, rfl⟩ := h.pin b' hb'
      have hji : j ≠ i := fun e => by subst e; rw [(hi.free hbb).2 hd] at hb'; cases hb'
      exact ⟨j, hj, by rw [hne hji]; exact ⟨hd, hv, rfl⟩⟩
  · by_cases hji : j = i
    · subst hji; rw [hself]; exact hdi hd
    · rw [hdirty j hji] at hd; rw [hne hji]; exact h.dirty_lock j hd
  · by_cases hbb : b' = b
    · subst hbb
      refine hclean hp ?_
      by_contra hdt
      exact hd i (by simpa using hdt) (by rw [hself, hblk])
    · rw [hdisk b' hbb, hcon b' hbb]
      rw [hpin b' hbb] at hp
      refine h.clean b' hp fun j hdj hb => ?_
      by_cases hji : j = i
      · subst hji hb; rw [(hi.free hbb).1] at hdj; cases hdj
      · exact hd j (by rw [hdirty j hji]; exact hdj) (by rw [hne hji]; exact hb)

/-- `bread` gives the caller a locked buffer with the current content of the block; the other buffers
in use stay. -/
theorem bread (hr : bc.bread disk p b = some (i, bc')) : CacheOk bc' disk content pinned dirty ∧ Held bc' p i b ∧
      (bc.buf i).lock = none ∧ ∀ j, j ≠ i → bc'.buf j = bc.buf j := by
  obtain ⟨hmem, hlock, hc⟩ := Bcache.bread_cases hr
  have hi : i < NBUF := (h.order i).1 hmem
  have hdi : dirty i = false := by
    by_contra hd
    have := h.dirty_lock i (by simpa using hd)
    rw [hlock] at this; cases this
  have href := h.ref i hi
  rw [hlock, Option.isSome_none, if_neg Bool.false_ne_true, zero_add] at href
  have hdirty : dirty i = true → (some p).isSome := fun _ => rfl
  rcases hc with ⟨hdev, hbno, rfl⟩ | ⟨hmiss, hrc, rfl⟩
  · -- the block is cached; an invalid buffer is read from disk now
    have honly : ∀ j < NBUF, j ≠ i → (bc.buf j).dev = ROOTDEV → (bc.buf j).blockno ≠ b :=
      fun j hj hji hd hb => hji (h.uniq j i hj hi hd hdev (hb.trans hbno.symm))
    have hdata : (if (bc.buf i).valid then (bc.buf i).data else disk b) = content b := by
      split
      · rename_i hv
        rw [h.data i hi hdev hv, hbno]
      · rename_i hv
        refine h.disk_eq fun j hj hdj hbj hvj => ?_
        obtain rfl := h.uniq i j hi hj hdev hdj (hbno.trans hbj.symm)
        exact absurd hvj hv
    refine ⟨h.modify ⟨hi, honly, fun hne => absurd hbno hne⟩ rfl (fun _ => Iff.rfl) hdev hbno rfl hdata (fun _ _ => rfl)
      (fun _ _ => rfl) ?_ (fun _ _ => rfl) hdirty (fun _ _ => rfl) fun hp _ => ?_, ⟨by simp, by simpa using hbno⟩, hlock,
      fun j hj => Bcache.set_buf_of_ne _ hj⟩
    · simp only [href, hdev, hbno, true_and, Option.isSome_some, if_true, add_comm]
    · refine h.clean b hp fun j hd hb => ?_
      have hl := h.dirty_lock j hd
      refine honly j (h.lock_lt j hl) (fun e => ?_) (h.locked j (h.lock_lt j hl) hl).1 hb
      rw [e, hdi] at hd; cases hd
  · -- nobody refers to buffer `i`: it neither is pinned nor holds a change
    have hpin0 : (bc.buf i).dev = ROOTDEV → pinned (bc.buf i).blockno = false := by
      intro hd
      by_contra hp
      rw [hrc, if_pos ⟨hd, by simpa using hp⟩] at href
      cases href
    have hmiss' : ∀ j < NBUF, (bc.buf j).dev = ROOTDEV → (bc.buf j).blockno ≠ b :=
      fun j hj hd hb => hmiss j ((h.order j).2 hj) ⟨hd, hb⟩
    have hpb : pinned b = false := by
      by_contra hp
      obtain ⟨j, hj, hd, -, hb⟩ := h.pin b (by simpa using hp)
      exact hmiss' j hj hd hb
    have hdata : disk b = content b := h.disk_eq fun j hj hdj hbj _ => absurd hbj (hmiss' j hj hdj)
    refine ⟨h.modify ⟨hi, fun j hj _ => hmiss' j hj, fun _ => ⟨hdi, hpin0⟩⟩ rfl (fun _ => Iff.rfl) rfl rfl rfl hdata
      (fun _ _ => rfl) (fun _ _ => rfl) ?_ (fun _ _ => rfl) hdirty (fun _ _ => rfl) fun _ _ => hdata, ⟨by simp, by simp⟩,
      hlock, fun j hj => Bcache.set_buf_of_ne _ hj⟩
    simp [hpb]

theorem held_refcnt (hi : Held bc p i b) : (bc.buf i).refcnt = 1 + if pinned b = true then 1 else 0 := by
  obtain ⟨hlt, hdev, -⟩ := h.of_lock hi.lock
  rw [h.ref i hlt, hi.lock, hi.blockno]
  simp [hdev]

theorem mem_order (hi : Held bc p i b) : i ∈ bc.order :=
  (h.order i).2 (h.of_lock hi.lock).1

theorem brelse (hi : Held bc p i b) (hd : dirty i = false) : CacheOk (bc.brelse i) disk content pinned dirty := by
  obtain ⟨hlt, hdev, hval⟩ := h.of_lock hi.lock
  refine h.modify (h.room hi) (Bcache.brelse_buf bc i) (fun j => Bcache.mem_brelse_order (h.mem_order hi)) hdev
    hi.blockno hval (h.held_data hi) (fun _ _ => rfl) (fun _ _ => rfl) ?_ (fun _ _ => rfl)
    (fun hd' => by rw [hd] at hd'; cases hd') (fun _ _ => rfl) fun hp _ => ?_
  · dsimp only
    rw [h.held_refcnt hi]
    simp
  · refine h.clean b hp fun j hj hb => ?_
    have hl := h.dirty_lock j hj
    obtain ⟨hdj, -⟩ := h.locked j (h.lock_lt j hl) hl
    obtain rfl := h.uniq j i (h.lock_lt j hl) hlt hdj hdev (hb.trans hi.blockno.symm)
    rw [hd] at hj; cases hj

theorem change (hi : Held bc p i b) (d : Bytes) : CacheOk (bc.setData i d) disk (update content b d) pinned
      (update dirty i true) := by
  obtain ⟨hlt, hdev, hval⟩ := h.of_lock hi.lock
  refine h.modify (h.room hi) rfl (fun _ => Iff.rfl) hdev hi.blockno hval (by rw [update_self])
    (fun _ hb => update_of_ne hb ..) (fun _ _ => rfl) ?_
    (fun _ hj => update_of_ne hj ..) (fun _ => by rw [hi.lock]; rfl) (fun _ _ => rfl)
    fun _ hd => ?_
  · dsimp only
    rw [h.held_refcnt hi, hi.lock]; rfl
  · rw [update_self] at hd; cases hd

theorem bwrite (hi : Held bc p i b) (d : Bytes) :
    CacheOk (bc.setData i d) (update disk b d) (update content b d) pinned
      dirty := by
  obtain ⟨hlt, hdev, hval⟩ := h.of_lock hi.lock
  refine h.modify (h.room hi) rfl (fun _ => Iff.rfl) hdev hi.blockno hval (by rw [update_self])
    (fun _ hb => update_of_ne hb ..) (fun _ _ => rfl) ?_ (fun _ _ => rfl)
    (fun _ => by rw [hi.lock]; rfl) (fun _ hb => update_of_ne hb ..)
    fun _ _ => by rw [update_self, update_self]
  dsimp only
  rw [h.held_refcnt hi, hi.lock]; rfl

theorem absorb (hi : Held bc p i b)
    (hp : pinned b = true) : CacheOk bc disk content pinned (update dirty i false) := by
  obtain ⟨hlt, hdev, hval⟩ := h.of_lock hi.lock
  refine h.modify (h.room hi) (update_eq_self i bc.buf).symm (fun _ => Iff.rfl) hdev hi.blockno hval
    (h.held_data hi) (fun _ _ => rfl) (fun _ _ => rfl) ?_ (fun _ hj => update_of_ne hj ..)
    (fun hd => by rw [update_self] at hd; cases hd) (fun _ _ => rfl)
    fun hp' _ => by rw [hp] at hp'; cases hp'
  rw [h.held_refcnt hi, hi.lock]; rfl

theorem bpin (hi : Held bc p i b) (hp : pinned b = false) :
    CacheOk (bc.bpin i) disk content (update pinned b true)
      (update dirty i false) := by
  obtain ⟨hlt, hdev, hval⟩ := h.of_lock hi.lock
  refine h.modify (h.room hi) rfl (fun _ => Iff.rfl) hdev hi.blockno hval (h.held_data hi) (fun _ _ => rfl)
    (fun _ hb => update_of_ne hb ..) ?_ (fun _ hj => update_of_ne hj ..)
    (fun hd => by rw [update_self] at hd; cases hd) (fun _ _ => rfl)
    fun hp' _ => by rw [update_self] at hp'; cases hp'
  dsimp only
  rw [h.held_refcnt hi, hi.lock, hp, update_self]; rfl

theorem bunpin (hi : Held bc p i b) (hp : pinned b = true) (hd : disk b = content b) :
    CacheOk (bc.bunpin i) disk content (update pinned b false) dirty := by
  obtain ⟨hlt, hdev, hval⟩ := h.of_lock hi.lock
  refine h.modify (h.room hi) rfl (fun _ => Iff.rfl) hdev hi.blockno hval (h.held_data hi) (fun _ _ => rfl)
    (fun _ hb => update_of_ne hb ..) ?_ (fun _ _ => rfl)
    (fun _ => by rw [hi.lock]; rfl) (fun _ _ => rfl) fun _ _ => hd
  dsimp only
  rw [h.held_refcnt hi, hi.lock, hp, update_self]; rfl

end

end CacheOk

namespace Held

variable {bc : Bcache} {p q i j b b' : Nat}

theorem brelse (h : Held bc p i b) (hij : j ≠ i) : Held (bc.brelse j) p i b := by
  have : (bc.brelse j).buf i = bc.buf i := by
    rw [Bcache.brelse_buf, Bcache.set_buf_of_ne _ (Ne.symm hij)]
  exact ⟨this ▸ h.lock, this ▸ h.blockno⟩

theorem set (h : Held bc p i b) {f : Buf → Buf} (hl : ∀ x, (f x).lock = x.lock)
    (hb : ∀ x, (f x).blockno = x.blockno) : Held (bc.set j f) p i b := by
  by_cases hij : i = j
  · subst hij; exact ⟨by simp [hl, h.lock], by simp [hb, h.blockno]⟩
  · exact ⟨by rw [Bcache.set_buf_of_ne _ hij]; exact h.lock,
      by rw [Bcache.set_buf_of_ne _ hij]; exact h.blockno⟩

theorem setData (h : Held bc p i b) (d : Bytes) : Held (bc.setData j d) p i b :=
  h.set (fun _ => rfl) fun _ => rfl

theorem bunpin (h : Held bc p i b) : Held (bc.bunpin j) p i b := h.set (fun _ => rfl) fun _ => rfl

end Held

end Xv6
