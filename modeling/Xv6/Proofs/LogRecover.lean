import Xv6.LogDisk

/-!
# What single block writes do to a recoverable disk

`Recovers l d v`: installing the log found on disk `d` leads to the home blocks `v`. The predicates
`Copying`, `Installing` and `Clearing` are the points of `commit` and `recover_from_log`; every
`bwrite` between two of them keeps the disk recoverable, and the header write of `commit` is the one
that changes `v`.
-/

namespace Xv6

open Function

section Header
variable {lh : LogHeader} {d : Bytes}

private theorem load_foldl_store (f : Nat → Nat) (a k : Nat) (is : List Nat) (d : Bytes)
    (h : ∀ i ∈ is, 4 + 4 * i + 4 ≤ a ∨ a + k ≤ 4 + 4 * i) :
    (is.foldl (fun d i => d.store (4 + 4 * i) 4 (f i)) d).load a k = d.load a k := by
  induction is generalizing d with
  | nil => rfl
  | cons i is ih =>
    rw [List.foldl_cons, ih _ fun j hj => h j (List.mem_cons_of_mem _ hj)]
    exact Bytes.load_store_of_disjoint (h i (List.mem_cons_self ..))

theorem headN_putHead (h : lh.n < 2 ^ 31) : headN (putHead lh d) = lh.n := by
  have hl : (putHead lh d).load 0 4 = lh.n := by
    rw [putHead, load_foldl_store _ _ _ _ _ fun i _ => by omega]
    exact Bytes.load_store_of_lt (by omega)
  rw [headN, hl]
  exact if_pos h

theorem headBlock_putHead {i : Nat} (hi : i < lh.n) (hb : lh.block i < 2 ^ 32) :
    headBlock (putHead lh d) i = lh.block i := by
  have hsplit : List.range lh.n = List.range i ++ i :: (List.range' (i + 1) (lh.n - i - 1)) := by
    rw [List.range_eq_range', List.range_eq_range', ← List.range'_succ,
      show lh.n = i + (lh.n - i - 1 + 1) by omega, ← List.range'_append_1]
    simp
  rw [headBlock, putHead, hsplit, List.foldl_append, List.foldl_cons,
    load_foldl_store _ _ _ _ _ fun j hj => by
      have := List.mem_range'_1.1 hj
      omega]
  exact Bytes.load_store_of_lt (by omega)

theorem headN_lt (d : Bytes) : headN d < 2 ^ 31 := by
  unfold headN; dsimp only; split <;> omega

end Header

section
variable {l : Log} {d v : Nat → Bytes} {b t : Nat}

/-- The first `t` blocks of the transaction are in the log; the header on disk is still empty. -/
structure Copying (l : Log) (d v : Nat → Bytes) (t : Nat) : Prop where
  head : headN (d l.start) = 0
  copied : ∀ i < t, i < l.lh.n → d (l.start + i + 1) = v (l.lh.block i)

/-- The header on disk is the one in memory, and the first `t` blocks are installed. -/
structure Installing (l : Log) (d v : Nat → Bytes) (t : Nat) : Prop where
  n : headN (d l.start) = l.lh.n
  block : ∀ i < l.lh.n, headBlock (d l.start) i = l.lh.block i
  installed : ∀ i < t, i < l.lh.n → d (l.lh.block i) = v (l.lh.block i)

/-- Everything is installed and the header in memory is empty. -/
structure Clearing (l : Log) (d v : Nat → Bytes) : Prop where
  n : l.lh.n = 0
  home : ∀ b, l.Home b → d b = v b

structure HeadOk (l : Log) : Prop where
  size_pos : 0 < l.size
  lt : l.lh.n < 2 ^ 31
  area : ∀ i < l.lh.n, i + 1 < l.size
  home : ∀ i < l.lh.n, l.Home (l.lh.block i)

theorem Log.not_home_start (h : 0 < l.size) : ¬ l.Home l.start := fun hh => hh.2 (by omega)

theorem Log.not_home_area (h : t + 1 < l.size) : ¬ l.Home (l.start + t + 1) :=
  fun hh => hh.2 (by omega)

theorem HeadOk.of_recovers (hs : 0 < l.size) (h : Recovers l d v) :
    HeadOk { l with lh := getHead (d l.start) } :=
  ⟨hs, headN_lt _, h.area, h.home⟩

theorem HeadOk.clear (h : HeadOk l) : HeadOk l.clear :=
  ⟨h.size_pos, Nat.two_pow_pos _, fun _ hi => absurd hi (Nat.not_lt_zero _),
    fun _ hi => absurd hi (Nat.not_lt_zero _)⟩

theorem Recovers.disk_eq (h : Recovers l d v) (hn : headN (d l.start) = 0) (hb : l.Home b) :
    d b = v b :=
  h.rest b hb fun k hk => by omega

theorem Recovers.of_head_zero (hn : headN (d l.start) = 0) (h : ∀ b, l.Home b → d b = v b) :
    Recovers l d v :=
  ⟨fun k hk => by omega, fun k hk => by omega, fun k hk => by omega, fun b hb _ => h b hb⟩

/-- `bwrite` of a log block while the header is empty (`write_log`). -/
theorem Copying.write (h : Copying l d v t) :
    Copying l (update d (l.start + t + 1) (v (l.lh.block t))) v (t + 1) := by
  refine ⟨?_, fun i hi hn => ?_⟩
  · rw [update_of_ne (by omega)]; exact h.head
  · rcases Nat.lt_succ_iff_lt_or_eq.1 hi with hi | rfl
    · rw [update_of_ne (by omega)]; exact h.copied i hi hn
    · rw [update_self]

theorem Recovers.write_log {x : Bytes} (hl : HeadOk l) (ht : t < l.lh.n)
    (hn : headN (d l.start) = 0) (h : Recovers l d v) :
    Recovers l (update d (l.start + t + 1) x) v := by
  refine .of_head_zero ?_ fun b hb => ?_
  · rw [update_of_ne (by omega)]; exact hn
  · rw [update_of_ne]
    · exact h.disk_eq hn hb
    · rintro rfl; exact Log.not_home_area (hl.area t ht) hb

/-- The header write of `commit`: from now on recovery leads to `v`. -/
theorem Copying.commit {x : Bytes} (hl : HeadOk l) (h : Copying l d v l.lh.n)
    (hrest : ∀ b, l.Home b → (∀ i < l.lh.n, l.lh.block i ≠ b) → d b = v b) :
    Installing l (update d l.start (putHead l.lh x)) v 0 ∧
      Recovers l (update d l.start (putHead l.lh x)) v := by
  have hN : headN (putHead l.lh x) = l.lh.n := headN_putHead hl.lt
  have hB : ∀ i < l.lh.n, headBlock (putHead l.lh x) i = l.lh.block i := fun i hi =>
    headBlock_putHead hi (hl.home i hi).1
  refine ⟨⟨?_, ?_, fun i hi => absurd hi (Nat.not_lt_zero _)⟩, ?_⟩
  · rw [update_self, hN]
  · rw [update_self]; exact hB
  · refine ⟨fun k hk => ?_, fun k hk => ?_, fun k hk => ?_, fun b hb hk => ?_⟩ <;>
      rw [update_self] at hk
    · rw [hN] at hk; exact hl.area k hk
    · rw [update_self]
      rw [hN] at hk
      rw [hB k hk]; exact hl.home k hk
    · rw [hN] at hk
      rw [update_self, hB k hk, update_of_ne (by omega)]
      exact h.copied k hk hk
    · rw [update_of_ne]
      · refine hrest b hb fun i hi => ?_
        have := hk i (by rw [hN]; exact hi)
        rwa [hB i hi] at this
      · rintro rfl; exact Log.not_home_start hl.size_pos hb

theorem Installing.copy (hr : Recovers l d v) (h : Installing l d v t) {i : Nat} (hi : i < l.lh.n) :
    d (l.start + i + 1) = v (l.lh.block i) := by
  rw [hr.copy i (by rw [h.n]; exact hi), h.block i hi]

theorem Installing.install (hl : HeadOk l) (ht : t < l.lh.n) (h : Installing l d v t)
    (hr : Recovers l d v) :
    Installing l (update d (l.lh.block t) (v (l.lh.block t))) v (t + 1) ∧
      Recovers l (update d (l.lh.block t) (v (l.lh.block t))) v := by
  have hhome := hl.home t ht
  have hs : l.start ≠ l.lh.block t := fun e => Log.not_home_start hl.size_pos (e ▸ hhome)
  refine ⟨⟨?_, ?_, fun i hi hn => ?_⟩, ⟨?_, ?_, fun k hk => ?_, fun b hb hk => ?_⟩⟩
  · rw [update_of_ne hs]; exact h.n
  · rw [update_of_ne hs]; exact h.block
  · by_cases he : l.lh.block i = l.lh.block t
    · rw [he, update_self]
    · rw [update_of_ne he]
      refine h.installed i ?_ hn
      rcases Nat.lt_succ_iff_lt_or_eq.1 hi with hi | rfl
      · exact hi
      · exact absurd rfl he
  · rw [update_of_ne hs]; exact hr.area
  · rw [update_of_ne hs]; exact hr.home
  · rw [update_of_ne hs] at hk ⊢
    rw [update_of_ne]
    · exact hr.copy k hk
    · intro e
      exact Log.not_home_area (hr.area k hk) (e ▸ hhome)
  · rw [update_of_ne hs] at hk
    by_cases he : b = l.lh.block t
    · rw [he, update_self]
    · rw [update_of_ne he]; exact hr.rest b hb hk

/-- The end of `install_trans`: the home blocks are as recovery would leave them. -/
theorem Installing.done (h : Installing l d v t) (hr : Recovers l d v) (ht : l.lh.n ≤ t) :
    Clearing l.clear d v := by
  refine ⟨rfl, fun b (hb : l.Home b) => ?_⟩
  by_cases hk : ∃ k < headN (d l.start), headBlock (d l.start) k = b
  · obtain ⟨k, hk, rfl⟩ := hk
    rw [h.n] at hk
    rw [h.block k hk]
    exact h.installed k (by omega) hk
  · exact hr.rest b hb fun k hk' e => hk ⟨k, hk', e⟩

theorem Clearing.write {x : Bytes} (hs : 0 < l.size) (h : Clearing l d v) :
    headN (update d l.start (putHead l.lh x) l.start) = 0 ∧
      Recovers l (update d l.start (putHead l.lh x)) v := by
  have hn : headN (update d l.start (putHead l.lh x) l.start) = 0 := by
    rw [update_self, headN_putHead (by rw [h.n]; decide), h.n]
  refine ⟨hn, .of_head_zero hn fun b hb => ?_⟩
  rw [update_of_ne]
  · exact h.home b hb
  · rintro rfl; exact Log.not_home_start hs hb

end

end Xv6
