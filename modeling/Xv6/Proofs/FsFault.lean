import Xv6.Proofs.FsFile

/-!
# A write that fails in the middle

`either_copyin` may fail when it has already changed a part of the block. `writei` then counts nothing of that block and does
not give it to `log_write`. The call has kept its promise (`Clean`: nothing has changed outside the bytes it reports, and each
block that differs from the disk is in the log) exactly if the bytes that it copies before the first one that cannot be read
are the ones that are there (`Harmless`): below the end of the file in any case, and all of them unless the block happens to be
in the log already. It gets there if the disk has a block for each one that the file misses on the way
(`Writing.card_missing_le`), and otherwise it has stopped before (`Writing.card_free_lt`).
-/

namespace Xv6

namespace Fs

open Prog Function

/-- The byte that `readi` returns for a position. -/
def readAt (data : Nat → Bytes) (ip : Inode) (pos : Nat) : Option UInt8 := if pos < ip.size then some (byteAt data ip pos) else none

/-- After `writei` has returned `r`: no byte outside `[off, off + r)` has changed, and the blocks that differ from those on the
disk are in the log. -/
def Clean (disk : Nat → Bytes) (s : Fs) (ip : Inode) (off : Nat) (r : Int × Inode) (s' : Fs) : Prop :=
  (∀ pos : Nat, ¬ (off ≤ pos ∧ (pos : Int) < off + r.1) → readAt s'.data r.2 pos = readAt s.data ip pos) ∧
    ∀ b, s'.data b ≠ disk b → b ∈ s'.logged

def freeBlocks (sb : Super) (data : Nat → Bytes) : Finset Nat := {b ∈ Finset.range sb.size | ¬ Bit sb data b}

/-- The blocks that a file does not have, from the one for position `off` up to block `bn`. -/
def missing (data : Nat → Bytes) (ip : Inode) (off bn : Nat) : Finset Nat :=
  {b ∈ Finset.Ico (off / BSIZE) bn | blockOf data ip b = 0}

/-- If byte `f` of the source is the first one that cannot be read, and the loop gets to it in a block `bn` that the file
has, then the bytes before it in this block are there already. -/
def Harmless (sb : Super) (s : Fs) (ip : Inode) (src : Src) (off n : Nat) : Prop :=
  off ≤ ip.size → off + n ≤ MAXFILE * BSIZE → ∀ f < n, (∀ k < f, (src.byte k).isSome) → src.byte f = none →
    let bn := (off + f) / BSIZE
    blockOf s.data ip bn ≠ 0 → (missing s.data ip off bn).card ≤ (freeBlocks sb s.data).card →
      (∀ k < f, (off + k) / BSIZE = bn → off + k < ip.size → src.bytes k = byteAt s.data ip (off + k)) ∧
        (blockOf s.data ip bn ∈ s.logged ∨
          ∀ k < f, (off + k) / BSIZE = bn → src.bytes k = byteAt s.data ip (off + k))

/-- The end of a write of which `tot` bytes are in the file, and `c` more in a block that has not been given to `log_write`. -/
def failed (sb : Super) (inum : Nat) (s : Fs) (ip : Inode) (src : Src) (off tot c : Nat) : Fs :=
  (s.torn ip src off tot c).updated sb inum (grown ip (off + tot))

variable {sb : Super} {disk : Nat → Bytes} {s s₁ s' : Fs} {node : Nat → Inode} {inum off n tot c : Nat} {ip ip' : Inode} {src : Src}

theorem logged_of_changed (hdisk : ∀ b, s.data b ≠ disk b → b ∈ s.logged) (hsub : s.logged ⊆ s'.logged)
    (hch : ∀ b, s'.data b ≠ s.data b → b ∈ s'.logged) (b : Nat) (hb : s'.data b ≠ disk b) : b ∈ s'.logged := by
  by_cases he : s'.data b = s.data b
  · exact hsub (hdisk b (he ▸ hb))
  · exact hch b he

theorem mem_updated {b : Nat} : b ∈ (s.updated sb inum ip).logged ↔ b ∈ s.logged ∨ b = sb.IBLOCK inum := by
  rw [updated, List.mem_append, List.mem_singleton]

theorem updated_changed {b : Nat} (h : (s.updated sb inum ip).data b ≠ s.data b) : b ∈ (s.updated sb inum ip).logged := by
  rw [mem_updated]
  by_contra hnot
  simp only [not_or] at hnot
  exact h (updated_of_ne hnot.2)

theorem readAt_iff {data : Nat → Bytes} (hsize : ip'.size = max ip.size (off + tot)) (hoff : off ≤ ip.size) :
    (∀ pos : Nat, ¬ (off ≤ pos ∧ (pos : Int) < off + (tot : Int)) → readAt data ip' pos = readAt s.data ip pos) ↔
      ∀ pos < ip.size, ¬ (off ≤ pos ∧ pos < off + tot) → byteAt data ip' pos = byteAt s.data ip pos := by
  constructor
  · intro h pos hpos hnot
    have := h pos (by omega)
    rw [readAt, readAt, if_pos (by omega), if_pos hpos] at this
    exact Option.some.inj this
  · intro h pos hnot
    rw [readAt, readAt]
    by_cases hpos : pos < ip.size
    · rw [if_pos (by omega), if_pos hpos, h pos hpos (by omega)]
    · rw [if_neg (by omega), if_neg hpos]

theorem Writing.clean (hw : Writing sb node inum src off n s s₁ ip' tot) (hv : Valid sb s.data node) (hi : Alloc sb node inum)
    (hip : node inum = ip) (hoff : off ≤ ip.size) (hdisk : ∀ b, s.data b ≠ disk b → b ∈ s.logged) :
    Clean disk s ip off (tot, grown ip' (off + tot)) (s₁.updated sb inum (grown ip' (off + tot))) := by
  subst hip
  have hsame := sameFile_updated hw.owned (hw.alloc hi) hi.1 (grown ip' (off + tot))
  rw [update_self] at hsame
  refine ⟨(readAt_iff hw.size_eq hoff).mpr fun pos hpos hnot => ?_, ?_⟩
  · obtain ⟨hne, hbyte⟩ := hw.byteAt_eq hv hi (lt_max_of_lt_left hpos) hoff
    rw [byteAt_grown, hsame.byteAt_eq hne, hbyte, if_neg hnot]
  · refine logged_of_changed hdisk ?_ ?_
    · exact fun b hb => mem_updated.mpr (.inl (hw.grow.logged hb))
    · intro b hb
      by_cases he : s₁.data b = s.data b
      · exact updated_changed (he ▸ hb)
      · exact mem_updated.mpr (.inl (hw.grow.changed b he))

/-! ### The fault -/

theorem copy_eq_self_iff {m src : Bytes} {a b : Nat} : m.copy a src b c = m ↔ ∀ k < c, src (b + k) = m (a + k) := by
  constructor
  · intro h k hk
    have := congrFun h (a + k)
    rw [Bytes.copy, if_pos (by omega), Nat.add_sub_cancel_left, add_comm] at this
    exact this
  · intro h
    funext x
    rw [Bytes.copy]
    split
    · have := h (x - a) (by omega)
      rwa [add_comm, Nat.add_sub_cancel' (by omega)] at this
    · rfl

section

variable (hw : Writing sb node inum src off n s s₁ ip' tot) (hi : Alloc sb node inum)
  (hblock : blockOf s₁.data ip' ((off + tot) / BSIZE) ≠ 0)
include hw hi hblock

theorem torn_owned : Owned sb (s₁.torn ip' src off tot c).data (update node inum ip') ∅ ∧
    ∀ bn, blockOf s₁.data ip' bn ≠ 0 → blockOf (s₁.torn ip' src off tot c).data ip' bn = blockOf s₁.data ip' bn := by
  have hself : update node inum ip' inum = ip' := update_self ..
  exact ⟨owned_written hw.owned (hw.alloc hi) hself hblock _,
    fun bn hne => (grow_written hw.owned (hw.alloc hi) hself hblock _).block_eq hne⟩

variable (hv : Valid sb s.data node) (hip : node inum = ip) (hoff : off ≤ ip.size)
  (hc : c < min (n - tot) (BSIZE - (off + tot) % BSIZE))
include hv hip hoff hc

theorem byteAt_torn {pos : Nat} (hpos : pos < ip.size) (hnot : ¬ (off ≤ pos ∧ pos < off + tot)) :
    byteAt (failed sb inum s₁ ip' src off tot c).data (grown ip' (off + tot)) pos =
      if off + tot ≤ pos ∧ pos < off + tot + c then src.bytes (pos - off) else byteAt s.data ip pos := by
  subst hip
  obtain ⟨howned, hkeep⟩ := torn_owned hw hi hblock (c := c)
  have hself : update node inum ip' inum = ip' := update_self ..
  have hcopy := byteAt_copy hw.owned (hw.alloc hi) hself hblock src.bytes tot (c := c) (by omega) pos
  obtain ⟨hne, hbyte⟩ := hw.byteAt_eq hv hi (lt_max_of_lt_left hpos) hoff
  have hsame := sameFile_updated howned (hw.alloc hi) hi.1 (grown ip' (off + tot))
  rw [hself] at hsame
  rw [failed, byteAt_grown, hsame.byteAt_eq (by rw [hkeep _ hne]; exact hne)]
  refine hcopy.trans ?_
  rw [hbyte, if_neg hnot]
  by_cases hnew : off + tot ≤ pos ∧ pos < off + tot + c
  · rw [if_pos hnew, if_pos hnew, show pos - (off + tot) + tot = pos - off by omega]
  · rw [if_neg hnew, if_neg hnew]

theorem torn_bytes_iff :
    (∀ pos : Nat, ¬ (off ≤ pos ∧ (pos : Int) < off + (tot : Int)) →
      readAt (failed sb inum s₁ ip' src off tot c).data (grown ip' (off + tot)) pos =
        readAt s.data ip pos) ↔
      ∀ k < c, off + tot + k < ip.size → src.bytes (tot + k) = byteAt s.data ip (off + tot + k) := by
  have hsize := hw.size_eq
  rw [hip] at hsize
  rw [readAt_iff hsize hoff]
  constructor
  · intro h k hk hlt
    have := h (off + tot + k) hlt (by omega)
    rw [byteAt_torn hw hi hblock hv hip hoff hc hlt (by omega), if_pos (by omega)] at this
    rw [← this, show off + tot + k - off = tot + k by omega]
  · intro h pos hpos hnot
    rw [byteAt_torn hw hi hblock hv hip hoff hc hpos hnot]
    split
    · rename_i hnew
      have := h (pos - (off + tot)) (by omega) (by omega)
      rw [show tot + (pos - (off + tot)) = pos - off by omega, show off + tot + (pos - (off + tot)) = pos by omega] at this
      exact this
    · rfl

omit hblock in
theorem torn_old (hold : blockOf s.data ip ((off + tot) / BSIZE) ≠ 0) :
    s₁.data (blockOf s.data ip ((off + tot) / BSIZE)) = s.data (blockOf s.data ip ((off + tot) / BSIZE)) ∧
      (blockOf s.data ip ((off + tot) / BSIZE) ∈ s₁.logged ↔ blockOf s.data ip ((off + tot) / BSIZE) ∈ s.logged) := by
  subst hip
  obtain ⟨h1, h2, h3⟩ := hv.owned.block hi hold
  have hspan : ∀ bn ∈ span off tot, blockOf s.data (node inum) ((off + tot) / BSIZE) ≠ blockOf s.data (node inum) bn := by
    rintro bn ⟨pos, hpos, hpos', rfl⟩ he
    have hbn := (hv.owned.block_inj hi hold hi he).2
    have := hw.aligned
    simp only [BSIZE] at hbn this hc
    omega
  obtain ⟨h4, h5⟩ := hw.grow.frame _ h1 h2 h3 (hv.owned.block_ne_indirect hi hold hi) hspan
  exact ⟨h4, h5, fun h => hw.grow.logged h⟩

theorem torn_logged_iff (hdisk : ∀ b, s.data b ≠ disk b → b ∈ s.logged) :
    (∀ b, (failed sb inum s₁ ip' src off tot c).data b ≠ disk b →
      b ∈ (failed sb inum s₁ ip' src off tot c).logged) ↔
      (blockOf s.data ip ((off + tot) / BSIZE) ≠ 0 → blockOf s.data ip ((off + tot) / BSIZE) ∈ s.logged ∨
        ∀ k < c, src.bytes (tot + k) = byteAt s.data ip (off + tot + k)) := by
  have hgrow := hw.grow
  rw [hip] at hgrow
  have hlow : sb.nmeta ≤ blockOf s₁.data ip' ((off + tot) / BSIZE) := by
    have hself : update node inum ip' inum = ip' := update_self ..
    rw [← hself] at hblock ⊢
    exact (hw.owned.block (hw.alloc hi) hblock).1
  have hiblock := IBLOCK_lt hi.1
  have hmeta := bmapstart_lt sb
  generalize haddr : blockOf s₁.data ip' ((off + tot) / BSIZE) = addr at hblock hlow
  have htorn : ∀ b ≠ addr, (s₁.torn ip' src off tot c).data b = s₁.data b := by
    intro b hb
    rw [← haddr] at hb
    exact update_of_ne hb ..
  -- the other blocks are as after a write without a fault
  have hother : ∀ b ≠ addr, (failed sb inum s₁ ip' src off tot c).data b ≠ disk b →
      b ∈ s₁.logged ∨ b = sb.IBLOCK inum := by
    intro b hb hne
    by_cases hbi : b = sb.IBLOCK inum
    · exact .inr hbi
    · rw [failed, updated_of_ne hbi, htorn b hb] at hne
      exact .inl (logged_of_changed hdisk hgrow.logged hgrow.changed b hne)
  have hself : (failed sb inum s₁ ip' src off tot c).data addr =
      (s₁.data addr).copy ((off + tot) % BSIZE) src.bytes tot c := by
    rw [failed, updated_of_ne (by omega), ← haddr]
    exact update_self ..
  have hmem : ∀ b, b ∈ (failed sb inum s₁ ip' src off tot c).logged ↔
      b ∈ s₁.logged ∨ b = sb.IBLOCK inum := fun b => mem_updated
  have hiff : (∀ b, (failed sb inum s₁ ip' src off tot c).data b ≠ disk b →
      b ∈ (failed sb inum s₁ ip' src off tot c).logged) ↔
      ((s₁.data addr).copy ((off + tot) % BSIZE) src.bytes tot c ≠ disk addr → addr ∈ s₁.logged) := by
    constructor
    · intro h hne
      exact ((hmem addr).mp (h addr (hself ▸ hne))).resolve_right (by omega)
    · intro h b hne
      rw [hmem]
      by_cases hb : b = addr
      · subst hb
        exact .inl (h (hself ▸ hne))
      · exact hother b hb hne
  rw [hiff]
  rcases hgrow.block ((off + tot) / BSIZE) with hold | ⟨hold, -, -, hlog⟩
  · have hold' : blockOf s.data ip ((off + tot) / BSIZE) ≠ 0 := by
      rw [← hold, haddr]
      exact hblock
    obtain ⟨h1, h2⟩ := torn_old hw hi hv hip hoff hc hold'
    rw [← hold, haddr] at h1 h2 hold' ⊢
    have hbytes : ∀ k < c, byteAt s.data ip (off + tot + k) = s.data addr ((off + tot) % BSIZE + k) := by
      intro k hk
      have hdiv : (off + tot + k) / BSIZE = (off + tot) / BSIZE := by
        simp only [BSIZE] at hc ⊢
        omega
      have hmod : (off + tot + k) % BSIZE = (off + tot) % BSIZE + k := by
        simp only [BSIZE] at hc ⊢
        omega
      rw [byteAt, hdiv, hmod, ← hold, haddr]
    rw [h1, h2]
    constructor
    · intro h _
      by_cases hlog : addr ∈ s.logged
      · exact .inl hlog
      · have hd : s.data addr = disk addr := not_not.mp fun hne => hlog (hdisk addr hne)
        have heq : (s.data addr).copy ((off + tot) % BSIZE) src.bytes tot c = s.data addr := by
          rw [hd]
          exact not_not.mp fun hne => hlog (h (hd ▸ hne))
        exact .inr fun k hk => (copy_eq_self_iff.mp heq k hk).trans (hbytes k hk).symm
    · intro h hne
      rcases h hold' with hlog | hsame
      · exact hlog
      · rw [copy_eq_self_iff.mpr fun k hk => (hsame k hk).trans (hbytes k hk)] at hne
        exact hdisk addr hne
  · rw [haddr] at hlog
    exact ⟨fun _ hne => absurd hold hne, fun _ _ => hlog⟩

end

/-! ### How far the loop gets -/

theorem slot_cases (x : Slot) : x = .addr Inode.indirect ∨ ∃ bn, x = slotOf bn := by
  cases x with
  | addr j =>
    by_cases hj : j.val < NDIRECT
    · exact .inr ⟨⟨j, lt_of_lt_of_le hj (Nat.le_add_right ..)⟩, (slotOf_direct hj _).symm⟩
    · exact .inl (congrArg Slot.addr (Fin.ext (le_antisymm (Nat.le_of_lt_succ j.isLt) (Nat.le_of_not_lt hj))))
  | ind j =>
    have hk : NDIRECT + j.val - NDIRECT = j.val := Nat.add_sub_cancel_left ..
    have hlt : NDIRECT + j.val < MAXFILE := Nat.add_lt_add_left j.isLt _
    refine .inr ⟨⟨NDIRECT + j, hlt⟩, ?_⟩
    rw [slotOf_ind (not_lt.mpr (Nat.le_add_right ..)) (by rw [hk]; exact j.isLt)]
    exact congrArg Slot.ind (Fin.ext hk.symm)

namespace Writing

variable (hw : Writing sb node inum src off n s s₁ ip' tot) (hi : Alloc sb node inum)
include hw hi

theorem card_missing_le : (missing s.data (node inum) off ((off + tot) / BSIZE)).card ≤ (freeBlocks sb s.data).card := by
  have hcov : ∀ bn ∈ missing s.data (node inum) off ((off + tot) / BSIZE),
      blockOf s.data (node inum) bn = 0 ∧ blockOf s₁.data ip' bn ≠ 0 := by
    intro bn hbn
    obtain ⟨hbn, hzero⟩ := Finset.mem_filter.mp hbn
    rw [Finset.mem_Ico] at hbn
    have hdiv : max off (BSIZE * bn) / BSIZE = bn := by
      simp only [BSIZE] at hbn ⊢
      omega
    refine ⟨hzero, hdiv ▸ hw.covered _ (le_max_left ..) ?_⟩
    simp only [BSIZE] at hbn ⊢
    omega
  refine Finset.card_le_card_of_injOn (blockOf s₁.data ip') (fun bn hbn => ?_) fun bn hbn bn' _ he => ?_
  · obtain ⟨hzero, hne⟩ := hcov bn hbn
    obtain ⟨-, hlt, hfree, -⟩ := (hw.grow.block bn).resolve_left fun he => hne (he.trans hzero)
    exact Finset.mem_filter.mpr ⟨Finset.mem_range.mpr hlt, hfree⟩
  · refine (hw.owned.block_inj (hw.alloc hi) ?_ (hw.alloc hi) ?_).2
    · rw [update_self]
      exact (hcov bn hbn).2
    · rwa [update_self]

theorem exists_new (ho : Owned sb s.data node ∅) (hind : ip'.addrs Inode.indirect = (node inum).addrs Inode.indirect) {b : Nat}
    (hb : b < sb.size) (hfree : ¬ Bit sb s.data b) (hbit : Bit sb s₁.data b) :
    ∃ bn, blockOf s₁.data ip' bn = b ∧ blockOf s.data (node inum) bn = 0 := by
  rcases (hw.owned.mark_iff hb).mp hbit with h | h | ⟨⟨i, x⟩, hal, hx, -⟩
  · exact absurd h (not_lt.mpr (ho.nmeta_le_of_free hb hfree))
  · exact absurd h (Set.notMem_empty b)
  by_cases hii : i = inum
  · subst hii
    rw [update_self] at hx
    rcases slot_cases x with rfl | ⟨bn, rfl⟩
    · exact absurd (hind.symm.trans hx) (ho.slot_ne_of_free (x := .addr Inode.indirect) hb hfree hi)
    · rw [← blockOf_of_lt bn.isLt] at hx
      refine ⟨bn, hx, ?_⟩
      by_contra hne
      rw [hw.grow.block_eq hne] at hx
      exact hfree (hx ▸ (ho.block hi hne).2.2)
  · rw [Alloc, update_of_ne hii] at hal
    rw [update_of_ne hii] at hx
    rcases slot_cases x with rfl | ⟨bn, rfl⟩
    · exact absurd hx (ho.slot_ne_of_free (x := .addr Inode.indirect) hb hfree hal)
    · rw [← blockOf_of_lt bn.isLt, (hw.grow.sameFile ho hi hal hii).block, blockOf_of_lt bn.isLt] at hx
      exact absurd hx (ho.slot_ne_of_free hb hfree hal)

/-- The disk is full before the loop gets to block `hi`: there were fewer free blocks than it needed. -/
theorem card_free_lt (ho : Owned sb s.data node ∅) (hblock : blockOf s₁.data ip' ((off + tot) / BSIZE) = 0)
    (hfull : ∀ b < sb.size, Bit sb s₁.data b) {bn : Nat} (hle : (off + tot) / BSIZE ≤ bn)
    (hmap : blockOf s.data (node inum) bn ≠ 0) :
    (freeBlocks sb s.data).card < (missing s.data (node inum) off bn).card := by
  have hzero : blockOf s.data (node inum) ((off + tot) / BSIZE) = 0 := by
    by_contra hne
    exact hne ((hw.grow.block_eq hne).symm.trans hblock)
  have hlt : (off + tot) / BSIZE < bn := lt_of_le_of_ne hle fun he => hmap (he ▸ hzero)
  have hind : ip'.addrs Inode.indirect = (node inum).addrs Inode.indirect := by
    by_cases hdir : (off + tot) / BSIZE < NDIRECT
    · exact hw.direct hdir
    · refine hw.grow.indirect.resolve_right fun h => hmap ?_
      have hbn := lt_MAXFILE hmap
      rw [blockOf_of_lt hbn, slotOf_ind (by omega) (by simp only [MAXFILE] at hbn; omega), slot, if_pos h.1]
  have hmem : (off + tot) / BSIZE ∈ missing s.data (node inum) off bn :=
    Finset.mem_filter.mpr ⟨Finset.mem_Ico.mpr ⟨Nat.div_le_div_right (Nat.le_add_right ..), hlt⟩, hzero⟩
  refine lt_of_le_of_lt (Finset.card_le_card (t := ((missing s.data (node inum) off bn).erase ((off + tot) / BSIZE)).image
    (blockOf s₁.data ip')) fun b hb => ?_) (lt_of_le_of_lt Finset.card_image_le (Finset.card_erase_lt_of_mem hmem))
  obtain ⟨hb, hfree⟩ := Finset.mem_filter.mp hb
  rw [Finset.mem_range] at hb
  obtain ⟨bn', rfl, hold⟩ := hw.exists_new hi ho hind hb hfree (hfull b hb)
  have hne := ho.ne_zero_of_free hb hfree
  obtain ⟨h1, h2⟩ := hw.near bn' (by rw [hold]; exact hne)
  have hstop : bn' ≠ (off + tot) / BSIZE := fun he => hne (he ▸ hblock)
  exact Finset.mem_image.mpr ⟨bn', Finset.mem_erase.mpr ⟨hstop, Finset.mem_filter.mpr ⟨Finset.mem_Ico.mpr ⟨h1, by omega⟩, hold⟩⟩, rfl⟩

theorem harmless_iff (hip : node inum = ip) (hoff : off ≤ ip.size) (hmax : off + n ≤ MAXFILE * BSIZE)
    (hc : c < min (n - tot) (BSIZE - (off + tot) % BSIZE)) (hread : ∀ k < c, (src.byte (tot + k)).isSome)
    (hstop : src.byte (tot + c) = none) :
    Harmless sb s ip src off n ↔ (blockOf s.data ip ((off + tot) / BSIZE) ≠ 0 →
      (∀ k < c, off + tot + k < ip.size → src.bytes (tot + k) = byteAt s.data ip (off + tot + k)) ∧
        (blockOf s.data ip ((off + tot) / BSIZE) ∈ s.logged ∨
          ∀ k < c, src.bytes (tot + k) = byteAt s.data ip (off + tot + k))) := by
  subst hip
  have hall : ∀ k < tot + c, (src.byte k).isSome := fun k hk => by
    by_cases hkt : k < tot
    · exact hw.readable k hkt
    · have := hread (k - tot) (by omega)
      rwa [Nat.add_sub_cancel' (Nat.le_of_not_lt hkt)] at this
  have hbn : (off + (tot + c)) / BSIZE = (off + tot) / BSIZE := by
    simp only [BSIZE] at hc ⊢
    omega
  have hiff : ∀ P : Nat → Prop, (∀ k < tot + c, (off + k) / BSIZE = (off + tot) / BSIZE → P k) ↔ ∀ k < c, P (tot + k) := by
    refine fun P => ⟨fun h k hk => h (tot + k) (by omega) ?_, fun h k hk he => ?_⟩
    · simp only [BSIZE] at hc ⊢
      omega
    · have := hw.aligned
      obtain ⟨j, rfl⟩ : ∃ j, k = tot + j := ⟨k - tot, by simp only [BSIZE] at hc he this; omega⟩
      exact h j (by omega)
  have huniq : ∀ f, (∀ k < f, (src.byte k).isSome) → src.byte f = none → f = tot + c := by
    intro f hf hnone
    rcases Nat.lt_trichotomy f (tot + c) with hlt | he | hlt
    · simpa [hnone] using hall f hlt
    · exact he
    · simpa [hstop] using hf (tot + c) hlt
  have hiff1 := hiff fun k => off + k < (node inum).size → src.bytes k = byteAt s.data (node inum) (off + k)
  have hiff2 := hiff fun k => src.bytes k = byteAt s.data (node inum) (off + k)
  simp only [← add_assoc] at hiff1 hiff2
  constructor
  · intro h hold
    have := h hoff hmax (tot + c) (by omega) hall hstop
    simp only [hbn] at this
    rw [hiff1, hiff2] at this
    exact this hold (hw.card_missing_le hi)
  · intro h _ _ f _ hf hnone bn
    obtain rfl := huniq f hf hnone
    intro hold _
    rw [show bn = (off + tot) / BSIZE from hbn] at hold ⊢
    rw [hiff1, hiff2]
    exact h hold

end Writing

/-- What a write that fails in the middle has changed. -/
theorem write_clean_iff (sb : Super) (disk : Nat → Bytes) (s : Fs) (inum : Nat) (ip : Inode) (src : Src) (off n : Nat)
    (hv : Valid sb s.data (nodes sb s.data inum ip)) (hi : Alloc sb (nodes sb s.data inum ip) inum)
    (hdisk : ∀ b, s.data b ≠ disk b → b ∈ s.logged) (hoff : off < 2 ^ 32) (hn : n < 2 ^ 32) :
    wp (writei sb inum ip src off n) (fun r s' => Clean disk s ip off r s' ↔ Harmless sb s ip src off n) s := by
  have hself := nodes_self sb s.data inum ip
  by_cases hrej : off > ip.size ∨ off + n ≥ 2 ^ 32 ∨ off + n > MAXFILE * BSIZE
  · refine wp_writei_reject hoff hn hrej (iff_of_true ⟨fun pos _ => rfl, hdisk⟩ fun h1 h2 => ?_)
    simp only [MAXFILE, NDIRECT, NINDIRECT, BSIZE] at hrej h2
    omega
  · have hoff' : off ≤ ip.size := by omega
    refine wp_writei hv.owned hi hself hoff' (by omega) fun tot ip' s' hw => ?_
    cases hw with
    | all hw =>
      refine iff_of_true (hw.clean hv hi hself hoff' hdisk) fun _ _ f hf _ hnone => ?_
      simpa [hnone] using hw.readable f hf
    | full hw hlt hblock hfull =>
      refine iff_of_true (hw.clean hv hi hself hoff' hdisk) fun _ _ f _ _ hnone hold hcard => ?_
      have hle : tot ≤ f := by
        by_contra hlt
        simpa [hnone] using hw.readable f (by omega)
      have := hw.card_free_lt hi hv.owned hblock hfull (Nat.div_le_div_right (Nat.add_le_add_left hle off)) (by rwa [hself])
      rw [hself] at this
      exact absurd hcard (not_le.mpr this)
    | @fault _ c _ s₁ hw hblock hc hread hstop =>
      change Clean disk s ip off (tot, grown ip' (off + tot)) (failed sb inum s₁ ip' src off tot c) ↔ _
      rw [hw.harmless_iff hi hself hoff' (by omega) hc hread hstop, Clean, torn_bytes_iff hw hi hblock hv hself hoff' hc,
        torn_logged_iff hw hi hblock hv hself hoff' hc hdisk]
      constructor
      · rintro ⟨h1, h2⟩ hold
        exact ⟨h1, h2 hold⟩
      · intro h
        refine ⟨fun k hk hlt => ?_, fun hold => (h hold).2⟩
        -- a position below the size is in a block that the file had
        have hdiv : (off + tot + k) / BSIZE = (off + tot) / BSIZE := by
          simp only [BSIZE] at hc ⊢
          omega
        have hold : blockOf s.data ip ((off + tot + k) / BSIZE) ≠ 0 := by
          have := hv.noHole inum hi (off + tot + k)
          rw [hself] at this
          exact this hlt
        exact (h (hdiv ▸ hold)).1 k hk hlt

/-! ### A page that is not there -/

/-- The small disk, with block 5 in use. -/
def tornFs : Fs := { tinyFs.taken tinySuper 5 with logged := [] }

def oneByte : Inode := { emptyFile.setAddr 0 5 with size := 1 }

/-- Two bytes, the second of which is on a page that is not mapped. -/
def halfMapped : Src := .user (fun p => if p = 0 then some (fun _ => 7) else none) (PGSIZE - 1)

theorem nodes_tornFs {i : Nat} (ip : Inode) (hi : i < tinySuper.ninodes) :
    nodes tinySuper tornFs.data 1 ip i = nodes tinySuper tinyFs.data 1 ip i := by
  by_cases hne : i = 1
  · rw [hne, nodes_self, nodes_self]
  · have hlow : tinySuper.IBLOCK i < 4 := IBLOCK_lt hi
    have h1 : tinySuper.IBLOCK i ≠ tinySuper.BBLOCK 5 := by
      have : tinySuper.BBLOCK 5 = 4 := rfl
      omega
    rw [nodes_of_ne _ hne, nodes_of_ne _ hne, dinode, dinode, tornFs, taken_of_ne h1 (by omega)]

theorem valid_tornFs : Valid tinySuper tornFs.data (nodes tinySuper tornFs.data 1 oneByte) := by
  have halloc : Alloc tinySuper (nodes tinySuper tinyFs.data 1 emptyFile) 1 := ⟨by decide, by decide⟩
  have hzero : ∀ k < BSIZE, (tinyFs.taken tinySuper 5).data 5 k = 0 := fun k hk => taken_zero hk
  have howned := (valid_tinyFs.owned.taken (b := 5) (by decide) (by decide)).link_addr (j := 0) (Set.notMem_empty 5) halloc
    (by rw [nodes_self]; rfl) hzero
  rw [nodes_self, nodes_update] at howned
  refine ⟨howned.congr_node fun i hi => ?_, fun i hi => ?_⟩
  · rw [nodes_tornFs oneByte hi]
    by_cases hne : i = 1
    · rw [hne, nodes_self, nodes_self]
      exact ⟨rfl, rfl⟩
    · rw [nodes_of_ne _ hne, nodes_of_ne _ hne]
      exact ⟨rfl, rfl⟩
  · have hi' : Alloc tinySuper (nodes tinySuper tinyFs.data 1 emptyFile) i := by
      rw [Alloc, nodes_tornFs oneByte hi.1] at hi
      refine ⟨hi.1, ?_⟩
      by_cases hne : i = 1
      · rw [hne, nodes_self]
        decide
      · rw [nodes_of_ne _ hne, ← nodes_of_ne oneByte hne]
        exact hi.2
    obtain rfl := alloc_tinyFs hi'
    rw [nodes_self]
    intro pos hpos
    obtain rfl : pos = 0 := Nat.lt_one_iff.mp hpos
    decide

/-- The call returns 0, and the byte of the file has changed; the block is not in the log. -/
theorem torn_write : Valid tinySuper tornFs.data (nodes tinySuper tornFs.data 1 oneByte) ∧
    ∃ r s', writei tinySuper 1 oneByte halfMapped 0 2 tornFs = .ok (r, s') ∧ r.1 = 0 ∧
      readAt s'.data r.2 0 = some 7 ∧ readAt tornFs.data oneByte 0 = some 0 ∧ s'.data 5 ≠ tornFs.data 5 ∧ 5 ∉ s'.logged ∧
      ¬ Clean tornFs.data tornFs oneByte 0 r s' := by
  refine ⟨valid_tornFs, _, _, rfl, rfl, rfl, rfl, ?_, by decide, ?_⟩
  · intro h
    exact absurd (congrFun h 0) (by decide)
  · intro h
    exact absurd (h.1 0 (by decide)) (by decide)

/-- The same call, with the condition that fails. -/
theorem write_clean_iff_torn : ¬ Harmless tinySuper tornFs oneByte halfMapped 0 2 ∧
    wp (writei tinySuper 1 oneByte halfMapped 0 2)
      (fun r s' => Clean tornFs.data tornFs oneByte 0 r s' ↔ Harmless tinySuper tornFs oneByte halfMapped 0 2) tornFs := by
  have h := write_clean_iff tinySuper tornFs.data tornFs 1 oneByte halfMapped 0 2 valid_tornFs ⟨by decide, by decide⟩
    (fun _ h => absurd rfl h) (by decide) (by decide)
  refine ⟨fun hh => ?_, h⟩
  exact absurd (((h.of_eq rfl).mpr hh).1 0 (by decide)) (by decide)

end Fs

end Xv6
