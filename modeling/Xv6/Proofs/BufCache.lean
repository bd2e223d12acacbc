import Xv6.BufCache

/-!
# The buffer cache invariant

The pointers always make one list (`Shows`), and the operations on them do to it what the operations of `Bcache` do. The list
is sorted by when `brelse` last moved a buffer to the front, so that the search from its end finds the buffer that was
moved least recently.
-/

namespace Xv6

open Function

variable {c c' : BufCache} {bc bc' : Bcache} {dev blockno i j p b : Nat}

namespace BufCache

/-- The pointers and buffers of `c` are those of `bc`. -/
structure Shows (c : BufCache) (bc : Bcache) : Prop where
  buf : c.buf = bc.buf
  cycle : c.links.Cycle bhead bc.order
  perm : bc.order.Perm (List.range NBUF)

namespace Shows

variable (h : c.Shows bc)
include h

theorem mem_order : i ∈ bc.order ↔ i < NBUF := by
  rw [h.perm.mem_iff, List.mem_range]

theorem length_order : bc.order.length < NBUF + 1 := by
  rw [h.perm.length_eq, List.length_range]
  exact Nat.lt_succ_self NBUF

theorem cached : c.cached dev blockno = bc.cached dev blockno := by
  unfold BufCache.cached Bcache.cached
  rw [h.cycle.find_next h.length_order, h.buf]

theorem lru : c.lru = bc.lru := by
  unfold BufCache.lru Bcache.lru
  rw [h.cycle.find_prev h.length_order, h.buf]

theorem set (f : Buf → Buf) : (c.set i f).Shows (bc.set i f) :=
  ⟨by unfold BufCache.set Bcache.set; rw [h.buf], h.cycle, h.perm⟩

theorem bget (dev blockno : Nat) : c.bget dev blockno = none ∧ bc.bget dev blockno = none ∨
      ∃ i c' bc', c.bget dev blockno = some (i, c') ∧ bc.bget dev blockno = some (i, bc') ∧ c'.Shows bc' := by
  unfold BufCache.bget Bcache.bget
  rw [h.cached, h.lru]
  cases bc.cached dev blockno with
  | some i => exact .inr ⟨i, _, _, rfl, rfl, h.set _⟩
  | none =>
    cases bc.lru with
    | some i => exact .inr ⟨i, _, _, rfl, rfl, h.set _⟩
    | none => exact .inl ⟨rfl, rfl⟩

theorem move (hi : i < NBUF) :
    BufCache.Shows { c with links := (c.links.unlink i).insert bhead i } { bc with order := i :: bc.order.erase i } := by
  obtain ⟨xs, ys, hxy, hxs⟩ := List.eq_append_cons_of_mem (h.mem_order.2 hi)
  have herase : bc.order.erase i = xs ++ ys := by rw [hxy, List.erase_append_right _ hxs, List.erase_cons_head]
  have hcycle := h.cycle
  rw [hxy] at hcycle
  have hnodup : i ∉ bhead :: (xs ++ ys) := by
    have hperm : (bhead :: (xs ++ i :: ys)).Perm (i :: bhead :: (xs ++ ys)) :=
      (List.perm_middle.cons bhead).trans (List.Perm.swap i bhead _)
    exact (List.nodup_cons.1 (hperm.nodup_iff.1 hcycle.nodup)).1
  refine ⟨h.buf, ?_, ?_⟩
  · rw [herase]
    exact hcycle.unlink.insert hnodup
  · refine List.Perm.trans ?_ h.perm
    rw [herase, hxy]
    exact List.perm_middle.symm

theorem relse (hi : i < NBUF) : (c.brelse i).Shows { bc.set i (fun x => { x with refcnt := x.refcnt - 1 }) with
      order := if (c.buf i).refcnt - 1 = 0 then i :: bc.order.erase i else bc.order } := by
  have hset := h.set (i := i) fun x => { x with refcnt := x.refcnt - 1 }
  unfold BufCache.brelse
  dsimp only
  rw [set_buf_self]
  split
  · exact hset.move hi
  · exact hset

theorem brelse (hi : i < NBUF) : ((c.set i fun x => { x with lock := none }).brelse i).Shows (bc.brelse i) := by
  have hrelse := (h.set (i := i) fun x => { x with lock := none }).relse hi
  have hbuf : (bc.set i fun x => { x with lock := none }).set i (fun x => { x with refcnt := x.refcnt - 1 }) =
      bc.set i fun x => { x with lock := none, refcnt := x.refcnt - 1 } := by
    simp only [Bcache.set, update_self, update_idem]
  rw [set_buf_self, h.buf, hbuf] at hrelse
  unfold Bcache.brelse
  dsimp only
  rw [Bcache.set_buf_self]
  split at hrelse <;> rename_i h0
  · rwa [if_pos h0]
  · rwa [if_neg h0]

theorem bpin : (c.bpin i).Shows (bc.bpin i) := h.set _

theorem bunpin : (c.bunpin i).Shows (bc.bunpin i) := h.set _

end Shows

theorem binit_shows : BufCache.binit.Shows Bcache.binit := by
  have hcycle : ∀ n ≤ NBUF, ((List.range n).foldl (fun L b => L.insert bhead b)
      (⟨fun _ => bhead, fun _ => bhead⟩ : Links Nat)).Cycle bhead (List.range n).reverse := by
    intro n
    induction n with
    | zero => exact fun _ => ⟨List.isChain_pair.2 ⟨rfl, rfl⟩, List.nodup_singleton bhead⟩
    | succ n ih =>
      intro hn
      rw [List.range_succ, List.foldl_concat, List.reverse_concat]
      refine (ih (by omega)).insert ?_
      rw [List.mem_cons, List.mem_reverse, List.mem_range, bhead]
      omega
  exact ⟨rfl, hcycle NBUF le_rfl, List.reverse_perm _⟩

theorem Shows.bget_cases (h : c.Shows bc) (hget : c.bget dev blockno = some (i, c')) :
    i < NBUF ∧ (c.cached dev blockno = some i ∧ c' = (c.set i fun x => { x with refcnt := x.refcnt + 1 }) ∨
      c.cached dev blockno = none ∧ (∀ j < NBUF, ¬ ((c.buf j).dev = dev ∧ (c.buf j).blockno = blockno)) ∧
        bc.lru = some i ∧ c' = c.set i fun x => { x with dev, blockno, valid := false, refcnt := 1 }) := by
  unfold BufCache.bget at hget
  rw [h.cached, h.lru] at hget
  rw [h.cached]
  cases hc : bc.cached dev blockno with
  | some k =>
    rw [hc] at hget
    cases hget
    exact ⟨h.mem_order.1 (Bcache.cached_some hc).1, .inl ⟨rfl, rfl⟩⟩
  | none =>
    cases hl : bc.lru with
    | none =>
      rw [hc, hl] at hget
      cases hget
    | some k =>
      rw [hc, hl] at hget
      cases hget
      refine ⟨h.mem_order.1 (Bcache.lru_some hl).1, .inr ⟨rfl, fun j hj => ?_, rfl, rfl⟩⟩
      rw [h.buf]
      exact Bcache.cached_none hc (h.mem_order.2 hj)

end BufCache

namespace BufSys

variable {s s' : BufSys} {f : Buf → Buf}

/-- What process `p` has of buffer `b`. -/
def holds (s : BufSys) (p b : Nat) : Nat :=
  (if s.pc p = .wait b then 1 else 0) + (if s.pc p = .relse b then 1 else 0) + if (s.cache.buf b).lock = some p then 1 else 0

structure Inv (s : BufSys) : Prop where
  list : ∃ bc, s.cache.Shows bc ∧ bc.order.Pairwise fun i j => s.moved j ≤ s.moved i
  clock : ∀ b, s.moved b ≤ s.clock
  unique : ∀ i < NBUF, ∀ j < NBUF, (s.cache.buf i).dev = (s.cache.buf j).dev →
    (s.cache.buf i).blockno = (s.cache.buf j).blockno → (s.cache.buf i).dev ≠ 0 → i = j
  refcnt : ∀ b, (s.cache.buf b).refcnt = (s.users b).length + s.pins b
  users : ∀ p b, (s.users b).count p = s.holds p b
  lt : ∀ p b, p ∈ s.users b → b < NBUF
  fill : ∀ p b, s.pc p = .fill b → (s.cache.buf b).lock = some p

theorem Init.inv (h : s.Init) : s.Inv := by
  have hbuf : ∀ b, s.cache.buf b = ⟨false, 0, 0, none, 0, fun _ => 0⟩ := fun b => by rw [h.cache]; rfl
  refine ⟨⟨.binit, h.cache ▸ BufCache.binit_shows, ?_⟩, fun b => ?_, fun i _ j _ _ _ hd => ?_, fun b => ?_, fun p b => ?_,
    fun p b hp => ?_, fun p b hp => ?_⟩
  · exact List.pairwise_iff_forall_sublist.2 fun {i j} _ => by rw [h.moved, h.moved]
  · rw [h.moved]
    exact Nat.zero_le _
  · rw [hbuf] at hd
    exact absurd rfl hd
  · rw [hbuf, h.users, h.pins]
    rfl
  · rw [h.users, holds, h.pc, hbuf]
    rfl
  · rw [h.users] at hp
    cases hp
  · cases (h.pc p).symm.trans hp

theorem Inv.keep (h : s.Inv) (hlinks : s'.cache.links = s.cache.links)
    (hbuf : ∀ b, (s'.cache.buf b).dev = (s.cache.buf b).dev ∧ (s'.cache.buf b).blockno = (s.cache.buf b).blockno ∧
      (s'.cache.buf b).refcnt = (s.cache.buf b).refcnt)
    (husers : s'.users = s.users) (hpins : s'.pins = s.pins) (hmoved : s'.moved = s.moved) (hclock : s'.clock = s.clock)
    (hholds : ∀ p b, s'.holds p b = s.holds p b) (hfill : ∀ p b, s'.pc p = .fill b → (s'.cache.buf b).lock = some p) :
    s'.Inv := by
  obtain ⟨bc, hs, hsorted⟩ := h.list
  refine ⟨⟨{ bc with buf := s'.cache.buf }, ⟨rfl, hlinks ▸ hs.cycle, hs.perm⟩, hmoved ▸ hsorted⟩, ?_, fun i hi j hj => ?_,
    fun b => ?_, fun p b => ?_, husers ▸ h.lt, hfill⟩
  · rw [hmoved, hclock]
    exact h.clock
  · rw [(hbuf i).1, (hbuf j).1, (hbuf i).2.1, (hbuf j).2.1]
    exact h.unique i hi j hj
  · rw [(hbuf b).2.2, husers, hpins, h.refcnt]
  · rw [husers, hholds, h.users]

theorem holds_congr (hpc : s'.pc p = s.pc p)
    (hlock : (s'.cache.buf b).lock = some p ↔ (s.cache.buf b).lock = some p) : s'.holds p b = s.holds p b := by
  simp only [holds, hpc, hlock]

theorem Inv.own {k' : BufPc} (h : s.Inv)
    (hf : (f (s.cache.buf b)).dev = (s.cache.buf b).dev ∧ (f (s.cache.buf b)).blockno = (s.cache.buf b).blockno ∧
      (f (s.cache.buf b)).refcnt = (s.cache.buf b).refcnt)
    (hlock : ∀ q, q ≠ p → ((f (s.cache.buf b)).lock = some q ↔ (s.cache.buf b).lock = some q))
    (hself : ∀ j, ((s.set b f).goto p k').holds p j = s.holds p j)
    (hfill : ∀ j, k' = .fill j → j = b ∧ (f (s.cache.buf b)).lock = some p) : Inv ((s.set b f).goto p k') := by
  have hbuf : ∀ j, j ≠ b → ((s.set b f).goto p k').cache.buf j = s.cache.buf j := fun j hj => BufCache.set_buf_of_ne f hj
  have hb : ((s.set b f).goto p k').cache.buf b = f (s.cache.buf b) := BufCache.set_buf_self f
  refine h.keep rfl (fun j => ?_) rfl rfl rfl rfl (fun q j => ?_) fun q j hq => ?_
  · rcases eq_or_ne j b with rfl | hj
    · rw [hb]
      exact hf
    · rw [hbuf j hj]
      exact ⟨rfl, rfl, rfl⟩
  · rcases eq_or_ne q p with rfl | hqp
    · exact hself j
    · refine holds_congr (update_of_ne hqp ..) ?_
      rcases eq_or_ne j b with rfl | hj
      · rw [hb]
        exact hlock q hqp
      · rw [hbuf j hj]
  · rcases eq_or_ne q p with rfl | hqp
    · obtain ⟨rfl, hl⟩ := hfill j ((update_self ..).symm.trans hq)
      rw [hb, hl]
    · have hl := h.fill q j ((update_of_ne hqp ..).symm.trans hq)
      rcases eq_or_ne j b with rfl | hj
      · rw [hb]
        exact (hlock q hqp).2 hl
      · rw [hbuf j hj, hl]

theorem holds_own {k' : BufPc} : ((s.set b f).goto p k').holds p j =
    (if k' = .wait j then 1 else 0) + (if k' = .relse j then 1 else 0) +
      if (if j = b then f (s.cache.buf b) else s.cache.buf j).lock = some p then 1 else 0 := by
  simp only [holds, goto, BufSys.set, BufCache.set, update_self, update_apply]

theorem Inv.acquiresleep (h : s.Inv) (hpc : s.pc p = .wait b) (hfree : (s.cache.buf b).lock = none) :
    Inv ((s.set b fun x => { x with lock := some p }).goto p (if (s.cache.buf b).valid then .out else .fill b)) := by
  have hk : ∀ j, (if (s.cache.buf b).valid then BufPc.out else .fill b) ≠ .wait j ∧
      (if (s.cache.buf b).valid then BufPc.out else .fill b) ≠ .relse j := by
    intro j
    split <;> simp
  refine h.own ⟨rfl, rfl, rfl⟩ (fun q hq => ?_) (fun j => ?_) fun j hj => ?_
  · simp [hfree, Ne.symm hq]
  · rw [holds_own, if_neg (hk j).1, if_neg (hk j).2, holds, hpc]
    rcases eq_or_ne j b with rfl | hj
    · simp [hfree]
    · simp [hj, Ne.symm hj]
  · split at hj <;> cases hj
    exact ⟨rfl, rfl⟩

theorem Inv.fillStep (h : s.Inv) (hpc : s.pc p = .fill b) :
    Inv ((s.set b fun x => { x with data := s.disk x.dev x.blockno, valid := true }).goto p .out) := by
  refine h.own ⟨rfl, rfl, rfl⟩ (fun q hq => Iff.rfl) (fun j => ?_) fun j hj => by cases hj
  rw [holds_own, holds, hpc]
  rcases eq_or_ne j b with rfl | hj
  · simp
  · simp [hj]

theorem Inv.write {d : Bytes} (h : s.Inv) : Inv (s.set b fun x => { x with data := d }) := by
  have hbuf : ∀ j, ((s.cache.set b fun x => { x with data := d }).buf j).dev = (s.cache.buf j).dev ∧
      ((s.cache.set b fun x => { x with data := d }).buf j).blockno = (s.cache.buf j).blockno ∧
      ((s.cache.set b fun x => { x with data := d }).buf j).refcnt = (s.cache.buf j).refcnt ∧
      ((s.cache.set b fun x => { x with data := d }).buf j).lock = (s.cache.buf j).lock := by
    intro j
    rcases eq_or_ne j b with rfl | hj
    · rw [BufCache.set_buf_self]
      exact ⟨rfl, rfl, rfl, rfl⟩
    · rw [BufCache.set_buf_of_ne _ hj]
      exact ⟨rfl, rfl, rfl, rfl⟩
  refine h.keep rfl (fun j => ⟨(hbuf j).1, (hbuf j).2.1, (hbuf j).2.2.1⟩) rfl rfl rfl rfl (fun q j => ?_) fun q j hq => ?_
  · exact holds_congr rfl (by rw [← (hbuf j).2.2.2]; rfl)
  · exact (hbuf j).2.2.2.trans (h.fill q j hq)

theorem Inv.releasesleep (h : s.Inv) (hpc : s.pc p = .out) (hlock : (s.cache.buf b).lock = some p) :
    Inv ((s.set b fun x => { x with lock := none }).goto p (.relse b)) := by
  refine h.own ⟨rfl, rfl, rfl⟩ (fun q hq => ?_) (fun j => ?_) fun j hj => by cases hj
  · simp [hlock, Ne.symm hq]
  · rw [holds_own, holds, hpc]
    rcases eq_or_ne j b with rfl | hj
    · simp [hlock]
    · simp [hj, Ne.symm hj]

theorem holds_bget {c : BufCache} (hpc : s.pc p = .out) (hlock : ∀ j, (c.buf j).lock = (s.cache.buf j).lock) (q : Nat) :
    BufSys.holds { s.goto p (.wait b) with cache := c, users := update s.users b (p :: s.users b) } q j =
      s.holds q j + if q = p ∧ j = b then 1 else 0 := by
  rcases eq_or_ne q p with rfl | hq
  · simp only [holds, goto, update_self, hlock, hpc, BufPc.wait.injEq, true_and, reduceCtorEq, if_false]
    rcases eq_or_ne j b with rfl | hj
    · simp [add_comm]
    · simp [hj, Ne.symm hj]
  · simp [holds, goto, hlock, hq]

theorem Inv.bgetStep {c : BufCache} (h : s.Inv) (hpc : s.pc p = .out) (hget : s.cache.bget dev blockno = some (b, c)) :
    Inv { s.goto p (.wait b) with cache := c, users := update s.users b (p :: s.users b) } := by
  obtain ⟨bc, hs, hsorted⟩ := h.list
  obtain ⟨hb, hcases⟩ := hs.bget_cases hget
  have hlinks : c.links = s.cache.links := by rcases hcases with ⟨-, rfl⟩ | ⟨-, -, -, rfl⟩ <;> rfl
  have hother : ∀ j, j ≠ b → c.buf j = s.cache.buf j := by
    intro j hj
    rcases hcases with ⟨-, rfl⟩ | ⟨-, -, -, rfl⟩ <;> exact BufCache.set_buf_of_ne _ hj
  have hself : (c.buf b).refcnt = (s.cache.buf b).refcnt + 1 ∧ (c.buf b).lock = (s.cache.buf b).lock := by
    rcases hcases with ⟨-, rfl⟩ | ⟨-, -, hlru, rfl⟩
    · rw [BufCache.set_buf_self]
      exact ⟨rfl, rfl⟩
    · have h0 : (s.cache.buf b).refcnt = 0 := hs.buf ▸ (Bcache.lru_some hlru).2
      rw [BufCache.set_buf_self, h0]
      exact ⟨rfl, rfl⟩
  have hlock : ∀ j, (c.buf j).lock = (s.cache.buf j).lock := by
    intro j
    rcases eq_or_ne j b with rfl | hj
    · exact hself.2
    · rw [hother j hj]
  refine ⟨⟨{ bc with buf := c.buf }, ⟨rfl, hlinks ▸ hs.cycle, hs.perm⟩, hsorted⟩, h.clock, ?_, fun j => ?_, fun q j => ?_,
    fun q j hq => ?_, fun q j hq => ?_⟩
  · change ∀ i < NBUF, ∀ j < NBUF, (c.buf i).dev = (c.buf j).dev → (c.buf i).blockno = (c.buf j).blockno →
      (c.buf i).dev ≠ 0 → i = j
    rcases hcases with ⟨-, rfl⟩ | ⟨-, hnew, -, rfl⟩
    · have hname : ∀ j, ((s.cache.set b fun x => { x with refcnt := x.refcnt + 1 }).buf j).dev = (s.cache.buf j).dev ∧
          ((s.cache.set b fun x => { x with refcnt := x.refcnt + 1 }).buf j).blockno = (s.cache.buf j).blockno := by
        intro j
        rcases eq_or_ne j b with rfl | hj
        · rw [BufCache.set_buf_self]
          exact ⟨rfl, rfl⟩
        · rw [hother j hj]
          exact ⟨rfl, rfl⟩
      intro i hi j hj
      rw [(hname i).1, (hname j).1, (hname i).2, (hname j).2]
      exact h.unique i hi j hj
    · -- the block was in no buffer
      intro i hi j hj hd hn h0
      rcases eq_or_ne i b with rfl | hib <;> rcases eq_or_ne j i with rfl | hji
      · rfl
      · rw [BufCache.set_buf_self, hother j hji] at hd hn
        exact absurd ⟨hd.symm, hn.symm⟩ (hnew j hj)
      · rfl
      · rcases eq_or_ne j b with rfl | hjb
        · rw [BufCache.set_buf_self, hother i hib] at hd hn
          exact absurd ⟨hd, hn⟩ (hnew i hi)
        · rw [hother i hib, hother j hjb] at hd hn
          rw [hother i hib] at h0
          exact h.unique i hi j hj hd hn h0
  · change (c.buf j).refcnt = (update s.users b (p :: s.users b) j).length + s.pins j
    rcases eq_or_ne j b with rfl | hj
    · rw [hself.1, update_self, List.length_cons, h.refcnt]
      omega
    · rw [hother j hj, update_of_ne hj, h.refcnt]
  · rw [holds_bget hpc hlock, ← h.users]
    change (update s.users b (p :: s.users b) j).count q = _
    rcases eq_or_ne j b with rfl | hj
    · rw [update_self, List.count_cons]
      simp only [beq_iff_eq, and_true]
      exact congrArg _ (if_congr eq_comm rfl rfl)
    · rw [update_of_ne hj]
      simp [hj]
  · change q ∈ update s.users b (p :: s.users b) j at hq
    rcases eq_or_ne j b with rfl | hj
    · exact hb
    · rw [update_of_ne hj] at hq
      exact h.lt q j hq
  · change update s.pc p (.wait b) q = .fill j at hq
    rcases eq_or_ne q p with rfl | hqp
    · rw [update_self] at hq
      cases hq
    · rw [update_of_ne hqp] at hq
      exact (hlock j).trans (h.fill q j hq)

theorem brelse_fields : (s.brelse p b).cache = s.cache.brelse b ∧
    (s.brelse p b).users = update s.users b ((s.users b).erase p) ∧ (s.brelse p b).pins = s.pins ∧
    (s.brelse p b).pc = s.pc := by
  unfold BufSys.brelse
  dsimp only
  split <;> exact ⟨rfl, rfl, rfl, rfl⟩

theorem brelse_buf_self : ((s.cache.brelse b).buf b) = { s.cache.buf b with refcnt := (s.cache.buf b).refcnt - 1 } := by
  unfold BufCache.brelse
  dsimp only
  split <;> exact update_self ..

theorem brelse_buf_of_ne (hj : j ≠ b) : (s.cache.brelse b).buf j = s.cache.buf j := by
  unfold BufCache.brelse
  dsimp only
  split <;> exact update_of_ne hj ..

theorem brelse_moved :
    (s.brelse p b).moved = (if (s.cache.buf b).refcnt - 1 = 0 then update s.moved b (s.clock + 1) else s.moved) ∧
    (s.brelse p b).clock = if (s.cache.buf b).refcnt - 1 = 0 then s.clock + 1 else s.clock := by
  unfold BufSys.brelse
  dsimp only
  rw [brelse_buf_self]
  split <;> exact ⟨rfl, rfl⟩

theorem Inv.brelse_list (h : s.Inv) (hb : b < NBUF) :
    (∃ bc, (s.cache.brelse b).Shows bc ∧ bc.order.Pairwise fun i j => (s.brelse p b).moved j ≤ (s.brelse p b).moved i) ∧
      ∀ j, (s.brelse p b).moved j ≤ (s.brelse p b).clock := by
  obtain ⟨bc, hs, hsorted⟩ := h.list
  have hshows := hs.relse hb
  rw [brelse_moved.1, brelse_moved.2]
  split at hshows <;> rename_i h0
  · rw [if_pos h0, if_pos h0]
    refine ⟨⟨_, hshows, List.pairwise_cons.2 ⟨fun j hj => ?_, ?_⟩⟩, fun j => ?_⟩
    · have hne := (hs.perm.nodup_iff.2 List.nodup_range).mem_erase_iff.1 hj
      rw [update_self, update_of_ne hne.1]
      exact (h.clock j).trans (Nat.le_succ _)
    · refine (hsorted.sublist List.erase_sublist).imp_of_mem fun {i j} hi hj hij => ?_
      have hnd := hs.perm.nodup_iff.2 List.nodup_range
      rw [update_of_ne (hnd.mem_erase_iff.1 hi).1, update_of_ne (hnd.mem_erase_iff.1 hj).1]
      exact hij
    · rcases eq_or_ne j b with rfl | hj
      · rw [update_self]
      · rw [update_of_ne hj]
        exact (h.clock j).trans (Nat.le_succ _)
  · rw [if_neg h0, if_neg h0]
    exact ⟨⟨_, hshows, hsorted⟩, h.clock⟩

theorem holds_brelse (hpc : s.pc p = .relse b) (q : Nat) :
    s.holds q j = ((s.brelse p b).goto p .out).holds q j + if q = p ∧ j = b then 1 else 0 := by
  obtain ⟨hcache, -, -, hpc'⟩ := brelse_fields (s := s) (p := p) (b := b)
  have hlock : ((s.cache.brelse b).buf j).lock = (s.cache.buf j).lock := by
    rcases eq_or_ne j b with rfl | hj
    · rw [brelse_buf_self]
    · rw [brelse_buf_of_ne hj]
  rcases eq_or_ne q p with rfl | hq
  · simp only [holds, goto, hcache, hlock, hpc, update_self, BufPc.relse.injEq, true_and, reduceCtorEq, if_false]
    rcases eq_or_ne j b with rfl | hj
    · simp [add_comm]
    · simp [hj, Ne.symm hj]
  · simp [holds, goto, hcache, hpc', hlock, hq]

theorem Inv.brelseStep (h : s.Inv) (hpc : s.pc p = .relse b) : Inv ((s.brelse p b).goto p .out) := by
  have hmem : p ∈ s.users b := by
    rw [← List.count_pos_iff, h.users, holds, hpc, if_pos rfl]
    omega
  obtain ⟨hlist, hclock⟩ := h.brelse_list (p := p) (h.lt p b hmem)
  obtain ⟨hcache, husers, hpins, hpc'⟩ := brelse_fields (s := s) (p := p) (b := b)
  have hbuf : ∀ j, ((s.cache.brelse b).buf j).dev = (s.cache.buf j).dev ∧
      ((s.cache.brelse b).buf j).blockno = (s.cache.buf j).blockno ∧
      ((s.cache.brelse b).buf j).lock = (s.cache.buf j).lock := by
    intro j
    rcases eq_or_ne j b with rfl | hj
    · rw [brelse_buf_self]
      exact ⟨rfl, rfl, rfl⟩
    · rw [brelse_buf_of_ne hj]
      exact ⟨rfl, rfl, rfl⟩
  unfold BufSys.goto
  refine ⟨?_, hclock, fun i hi j hj => ?_, fun j => ?_, fun q j => ?_, fun q j hq => ?_, fun q j hq => ?_⟩
  · rw [hcache]
    exact hlist
  · rw [hcache, (hbuf i).1, (hbuf j).1, (hbuf i).2.1, (hbuf j).2.1]
    exact h.unique i hi j hj
  · rw [hcache, husers, hpins]
    rcases eq_or_ne j b with rfl | hj
    · have hpos := List.length_pos_of_mem hmem
      rw [brelse_buf_self, update_self, List.length_erase_of_mem hmem, h.refcnt]
      dsimp only
      omega
    · rw [brelse_buf_of_ne hj, update_of_ne hj, h.refcnt]
  · have hcount := h.users q j
    rw [holds_brelse hpc] at hcount
    refine Nat.add_right_cancel (Eq.trans ?_ hcount)
    rw [husers]
    rcases eq_or_ne j b with rfl | hj
    · rw [update_self]
      rcases eq_or_ne q p with rfl | hq
      · have hpos := List.count_pos_iff.2 hmem
        rw [List.count_erase_self, if_pos ⟨rfl, rfl⟩]
        omega
      · rw [List.count_erase_of_ne hq, if_neg fun e => hq e.1, add_zero]
    · rw [update_of_ne hj, if_neg fun e => hj e.2, add_zero]
  · rw [husers] at hq
    rcases eq_or_ne j b with rfl | hj
    · exact h.lt p j hmem
    · rw [update_of_ne hj] at hq
      exact h.lt q j hq
  · rw [hcache, (hbuf j).2.2]
    change update (s.brelse p b).pc p .out q = .fill j at hq
    rw [hpc'] at hq
    rcases eq_or_ne q p with rfl | hqp
    · rw [update_self] at hq
      cases hq
    · rw [update_of_ne hqp] at hq
      exact h.fill q j hq

theorem Inv.pin {n : Nat} (h : s.Inv) (hn : f (s.cache.buf b) = { s.cache.buf b with refcnt := (s.users b).length + n }) :
    Inv { s with cache := s.cache.set b f, pins := update s.pins b n } := by
  obtain ⟨bc, hs, hsorted⟩ := h.list
  have hbuf : ∀ j, ((s.cache.set b f).buf j).dev = (s.cache.buf j).dev ∧
      ((s.cache.set b f).buf j).blockno = (s.cache.buf j).blockno ∧
      ((s.cache.set b f).buf j).lock = (s.cache.buf j).lock := by
    intro j
    rcases eq_or_ne j b with rfl | hj
    · rw [BufCache.set_buf_self, hn]
      exact ⟨rfl, rfl, rfl⟩
    · rw [BufCache.set_buf_of_ne f hj]
      exact ⟨rfl, rfl, rfl⟩
  refine ⟨⟨_, hs.set f, hsorted⟩, h.clock, fun i hi j hj => ?_, fun j => ?_, fun q j => ?_, h.lt, fun q j hq => ?_⟩
  · rw [(hbuf i).1, (hbuf j).1, (hbuf i).2.1, (hbuf j).2.1]
    exact h.unique i hi j hj
  · change ((s.cache.set b f).buf j).refcnt = (s.users j).length + update s.pins b n j
    rcases eq_or_ne j b with rfl | hj
    · rw [BufCache.set_buf_self, hn, update_self]
    · rw [BufCache.set_buf_of_ne f hj, update_of_ne hj, h.refcnt]
  · refine (h.users q j).trans (Eq.symm (holds_congr rfl ?_))
    exact iff_of_eq (congrArg (· = some q) (hbuf j).2.2)
  · exact (hbuf j).2.2.trans (h.fill q j hq)

theorem Inv.step {e : Option Nat} (h : s.Inv) (hst : Step s e s') : s'.Inv := by
  cases hst with
  | bget pc hget => exact h.bgetStep pc hget
  | acquiresleep pc free => exact h.acquiresleep pc free
  | fill pc => exact h.fillStep pc
  | write d => exact h.write
  | bwrite => exact ⟨h.list, h.clock, h.unique, h.refcnt, h.users, h.lt, h.fill⟩
  | releasesleep pc lock => exact h.releasesleep pc lock
  | brelse pc => exact h.brelseStep pc
  | bpin =>
    refine h.pin ?_
    rw [h.refcnt, add_assoc]
  | bunpin pinned =>
    refine h.pin ?_
    rw [h.refcnt, Nat.add_sub_assoc pinned]

theorem Inv.reach (h : Reachable s) : s.Inv := by
  refine Trans.Reach.inv (P := Inv) (fun _ hi => hi.inv) ?_ h
  rintro s s' hinv ⟨e, hst⟩
  exact hinv.step hst

/-- The buffer found from the end of the list was moved to the front before any other without references. -/
theorem lru_moved {bc : Bcache} (hs : s.cache.Shows bc) (hsorted : bc.order.Pairwise fun i j => s.moved j ≤ s.moved i)
    (hlru : bc.lru = some b) : ∀ j < NBUF, (s.cache.buf j).refcnt = 0 → s.moved b ≤ s.moved j := by
  intro j hj h0
  obtain ⟨-, xs, ys, hxy, hxs⟩ := List.find?_eq_some_iff_append.1 hlru
  have horder : bc.order = ys.reverse ++ b :: xs.reverse := by
    have hrev := congrArg List.reverse hxy
    rw [List.reverse_reverse] at hrev
    rw [hrev]
    simp
  have hmem := hs.mem_order.2 hj
  rw [horder] at hmem hsorted
  rcases List.mem_append.1 hmem with hmem | hmem
  · exact (List.pairwise_append.1 hsorted).2.2 j hmem b List.mem_cons_self
  · rcases List.mem_cons.1 hmem with rfl | hmem
    · exact le_rfl
    · -- the buffers after it have references
      have hx := hxs j (List.mem_reverse.1 hmem)
      rw [← hs.buf, h0] at hx
      exact absurd hx (by decide)

/-- `x` becomes `y` with its block and its data kept; who holds the sleep-lock can write the data. -/
structure Keeps (x y : Buf) : Prop where
  dev : y.dev = x.dev
  blockno : y.blockno = x.blockno
  valid : x.valid = true → y.valid = true
  data : y.data = x.data ∨ x.lock ≠ none

theorem Keeps.refl (x : Buf) : Keeps x x := ⟨rfl, rfl, id, .inl rfl⟩

theorem Keeps.of_update {x : Buf} (hc : c.buf = update s.cache.buf j x)
    (h : b = j → Keeps (s.cache.buf j) x) : Keeps (s.cache.buf b) (c.buf b) := by
  rw [hc]
  rcases eq_or_ne b j with rfl | hne
  · rw [update_self]
    exact h rfl
  · rw [update_of_ne hne]
    exact .refl _

theorem Inv.step_keeps {e : Option Nat} (h : s.Inv) (hst : Step s e s') (hb : 0 < (s.cache.buf b).refcnt) :
    Keeps (s.cache.buf b) (s'.cache.buf b) := by
  cases hst with
  | bget pc hget =>
    obtain ⟨bc, hs, -⟩ := h.list
    obtain ⟨-, ⟨-, rfl⟩ | ⟨-, -, hlru, rfl⟩⟩ := hs.bget_cases hget
    · exact .of_update rfl fun _ => ⟨rfl, rfl, id, .inl rfl⟩
    · refine .of_update rfl fun e => ?_
      have h0 := (Bcache.lru_some hlru).2
      rw [← hs.buf, ← e] at h0
      exact absurd h0 hb.ne'
  | acquiresleep | releasesleep | bpin | bunpin => exact .of_update rfl fun _ => ⟨rfl, rfl, id, .inl rfl⟩
  | fill pc =>
    refine .of_update rfl fun _ => ⟨rfl, rfl, fun _ => rfl, .inr ?_⟩
    rw [h.fill _ _ pc]
    exact Option.some_ne_none _
  | write d pc lock =>
    refine .of_update rfl fun _ => ⟨rfl, rfl, id, .inr ?_⟩
    rw [lock]
    exact Option.some_ne_none _
  | bwrite => exact .refl _
  | brelse pc =>
    rename_i p j
    change Keeps _ ((s.brelse p j).cache.buf b)
    rw [brelse_fields.1]
    rcases eq_or_ne b j with rfl | hne
    · rw [brelse_buf_self]
      exact ⟨rfl, rfl, id, .inl rfl⟩
    · rw [brelse_buf_of_ne hne]
      exact .refl _

/-- The links make one list of all buffers, no block is in two buffers, `refcnt` counts the calls of `bget` and `bpin` that
have not been undone, a buffer with references keeps its block, and the buffer that is recycled is, of those without
references, the one that `brelse` moved to the front least recently. -/
theorem buffer_cache (h : Reachable s) : (∃ order, s.cache.links.Cycle bhead order ∧ order.Perm (List.range NBUF)) ∧
    (∀ i < NBUF, ∀ j < NBUF, (s.cache.buf i).dev = (s.cache.buf j).dev →
      (s.cache.buf i).blockno = (s.cache.buf j).blockno → (s.cache.buf i).dev ≠ 0 → i = j) ∧
    (∀ b, (s.cache.buf b).refcnt = (s.users b).length + s.pins b) ∧
    (∀ e s', Step s e s' → ∀ b, 0 < (s.cache.buf b).refcnt → Keeps (s.cache.buf b) (s'.cache.buf b)) ∧
    ∀ b s', Step s (some b) s' →
      (s.cache.buf b).refcnt = 0 ∧ ∀ j < NBUF, (s.cache.buf j).refcnt = 0 → s.moved b ≤ s.moved j := by
  have hinv := Inv.reach h
  obtain ⟨bc, hs, hsorted⟩ := hinv.list
  refine ⟨⟨bc.order, hs.cycle, hs.perm⟩, hinv.unique, hinv.refcnt, fun e s' hst b hb => hinv.step_keeps hst hb,
    fun b s' hst => ?_⟩
  generalize he : some b = e at hst
  cases hst with
  | bget pc hget =>
    obtain ⟨-, ⟨hc, -⟩ | ⟨hc, -, hlru, -⟩⟩ := hs.bget_cases hget
    · rw [hc] at he
      cases he
    · rw [hc, if_pos rfl] at he
      cases he
      exact ⟨hs.buf ▸ (Bcache.lru_some hlru).2, lru_moved hs hsorted hlru⟩
  | _ => cases he

/-- Process 0 reads and releases block 7: buffer 0, at the end of the list, is recycled for it and moved to the front.
Buffer 1 is recycled for the next block. -/
theorem buffer_cache_recycled : ∃ s s', Reachable s ∧ Step s (some 1) s' ∧ s.moved 0 = 1 ∧
    ∀ j < NBUF, (s.cache.buf j).refcnt = 0 → s.moved 1 ≤ s.moved j := by
  let s₀ : BufSys := ⟨.binit, fun _ _ _ => 0, fun _ => .out, fun _ => [], fun _ => 0, fun _ => 0, 0⟩
  have h0 : Reachable s₀ := .of_init ⟨rfl, fun _ => rfl, fun _ => rfl, fun _ => rfl, fun _ => rfl⟩
  have hs0 : s₀.cache.Shows .binit := BufCache.binit_shows
  have hget : s₀.cache.bget 1 7 =
      some (0, s₀.cache.set 0 fun x => { x with dev := 1, blockno := 7, valid := false, refcnt := 1 }) := by
    unfold BufCache.bget
    rw [hs0.cached, hs0.lru]
    rfl
  have h1 := h0.tail ⟨_, .bget (p := 0) rfl hget⟩
  have h2 := h1.tail ⟨_, .acquiresleep (p := 0) (b := 0) rfl rfl⟩
  have h3 := h2.tail ⟨_, .fill (p := 0) (b := 0) rfl⟩
  have h4 := h3.tail ⟨_, .releasesleep (p := 0) (b := 0) rfl rfl⟩
  have h5 := h4.tail ⟨_, .brelse (p := 0) (b := 0) rfl⟩
  have hs5 := ((((hs0.set (i := 0) fun x => { x with dev := 1, blockno := 7, valid := false, refcnt := 1 }).set (i := 0)
    fun x => { x with lock := some 0 }).set (i := 0) fun x => { x with data := fun _ => 0, valid := true }).set (i := 0)
    fun x => { x with lock := none }).relse (i := 0) (by decide)
  obtain ⟨s, hr, hs, hpc, hmoved⟩ : ∃ s, Reachable s ∧ s.cache.Shows _ ∧ s.pc 0 = .out ∧ s.moved 0 = 1 :=
    ⟨_, h5, hs5, rfl, rfl⟩
  rcases hs.bget 1 8 with ⟨-, hn⟩ | ⟨i, c, bc, hc, hbc, -⟩
  · cases hn
  · cases hbc
    have hst := Step.bget hpc hc
    have hnone : s.cache.cached 1 8 = none := hs.cached
    rw [if_pos hnone] at hst
    exact ⟨s, _, hr, hst, hmoved, ((buffer_cache hr).2.2.2.2 1 _ hst).2⟩

end BufSys

end Xv6
