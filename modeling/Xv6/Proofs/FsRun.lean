import Xv6.Proofs.FsFault

/-!
# The file system over whole runs

Inodes are allocated, written, truncated and freed, one call after the other. The bitmap always says which blocks belong
to files, no block belongs to two of them, and a call changes its own file only.
-/

namespace Xv6

namespace Fs

open Prog Function Relation

variable (sb : Super)

inductive FileStep (s s' : Fs) : Prop
  | ialloc {r} (type : UInt16) (run : ialloc sb type (sb.ninodes - 1) 1 s = .ok (r, s'))
  | op {inum : Nat} {op : FileOp} (alloc : Alloc sb (dinode sb s.data) inum) (run : op.run sb inum s = .ok ((), s'))

variable {sb} {s s₁ s' : Fs} {data data' data'' d : Nat → Bytes} {inum off n tot c : Nat} {ip ip' : Inode} {src : Src}

/-- The file system is in order, and the files other than `inum` are as they were. -/
def Checked (sb : Super) (inum : Nat) (data data' : Nat → Bytes) : Prop :=
  Valid sb data' (dinode sb data') ∧ SameOthers sb inum data data'

theorem Checked.trans (h : Checked sb inum data data') (h' : Checked sb inum data' data'') : Checked sb inum data data'' := by
  refine ⟨h'.1, fun i hi hne => ?_⟩
  obtain ⟨h1, h2⟩ := h.2 i hi hne
  obtain ⟨h3, h4⟩ := h'.2 i hi hne
  rw [h1] at h3 h4
  exact ⟨h3, fun ht => (h4 ht).trans (h2 ht)⟩

theorem nodes_dinode (inum : Nat) : nodes sb data inum (dinode sb data inum) = dinode sb data := update_eq_self ..

theorem Saved.checked (h : Saved sb inum data data' ip) : Checked sb inum data data' := by
  have hv := h.valid
  rw [← h.disk, nodes_dinode] at hv
  exact ⟨hv, h.others⟩

theorem Owned.nodes_congr (h : Owned sb data (nodes sb d inum ip) ∅) (ht : ip'.type = ip.type) (ha : ip'.addrs = ip.addrs) :
    Owned sb data (nodes sb d inum ip') ∅ := by
  refine h.congr_node fun i _ => ?_
  by_cases hne : i = inum
  · rw [hne, nodes_self, nodes_self]
    exact ⟨ht, ha⟩
  · rw [nodes_of_ne _ hne, nodes_of_ne _ hne]
    exact ⟨rfl, rfl⟩

theorem Valid.of_nodes (hv : Valid sb data (dinode sb data)) (ho : Owned sb data (nodes sb data inum ip) ∅)
    (hh : NoHole data ip) : Valid sb data (nodes sb data inum ip) := by
  refine ⟨ho, fun i hi => ?_⟩
  by_cases hne : i = inum
  · rw [hne, nodes_self]
    exact hh
  · rw [Alloc, nodes_of_ne _ hne] at hi
    rw [nodes_of_ne _ hne]
    exact hv.noHole i hi

theorem Valid.empty (hv : Valid sb data (dinode sb data)) (h : ∀ x b, ¬ Holds sb data (dinode sb data) (inum, x) b)
    (ha : ip = noBlocks ip) (hs : ip.size = 0) : Valid sb data (nodes sb data inum ip) := by
  refine hv.of_nodes (hv.owned.congr (fun _ _ => Iff.rfl) ?_) fun pos hpos => absurd hpos (by omega)
  rintro ⟨i, x⟩ b
  by_cases hne : i = inum
  · subst hne
    refine iff_of_false (fun hh => hh.2.2 ?_) (h x b)
    rw [← hh.2.1, nodes_self, ha, slot_noBlocks]
  · simp only [Holds, Alloc, nodes_of_ne _ hne]

theorem Valid.updated (hv : Valid sb s.data (nodes sb s.data inum ip)) (hi : inum < sb.ninodes) (hf : ip.Fits) :
    Checked sb inum s.data (s.updated sb inum ip).data := by
  have hnode : dinode sb (s.updated sb inum ip).data = nodes sb s.data inum ip := by
    funext i
    by_cases h : i = inum
    · rw [h, nodes_self, dinode_updated_self hf]
    · rw [nodes_of_ne _ h, dinode_updated_of_ne h]
  refine ⟨?_, sameOthers_updated hv hi (fun _ _ => rfl) (fun _ _ _ => ⟨fun _ => rfl, fun _ _ => rfl⟩) hv.owned ip⟩
  rw [hnode]
  exact ⟨hv.owned.updated hi ip, fun i hi' => (sameFile_updated hv.owned hi' hi ip).noHole (hv.noHole i hi')⟩

section
variable (hv : Valid sb s.data (nodes sb s.data inum ip)) (hi : Alloc sb (nodes sb s.data inum ip) inum)
include hv hi

/-- `writei`, when it has stopped in the middle of a block. -/
theorem Writing.saved_torn (hw : Writing sb (nodes sb s.data inum ip) inum src off n s s₁ ip' tot) (hoff : off ≤ ip.size)
    (hblock : blockOf s₁.data ip' ((off + tot) / BSIZE) ≠ 0) :
    Saved sb inum s.data ((s₁.torn ip' src off tot c).updated sb inum (grown ip' (off + tot))).data
      (grown ip' (off + tot)) := by
  have hgrow := (hw.grow.mono (Set.subset_univ _)).trans ((grow_written hw.owned (hw.alloc hi) (update_self ..) hblock
    ((s₁.data (blockOf s₁.data ip' ((off + tot) / BSIZE))).copy ((off + tot) % BSIZE) src.bytes tot c)).mono (Set.subset_univ _))
  obtain ⟨howned, hkeep⟩ := torn_owned hw hi hblock (c := c)
  have hhole := hw.noHole hv hi
  rw [nodes_self] at hhole
  rw [nodes_update] at howned
  refine saved_updated hv hi hgrow.low (fun i hi' hne => hgrow.sameFile hv.owned hi hi' hne)
    (howned.nodes_congr (grown_type ..) (grown_addrs ..)) (fun pos hpos => ?_) ?_
  · have h := hhole hoff pos hpos
    rw [blockOf_grown] at h ⊢
    rwa [hkeep _ h]
  · rw [grown_type, hw.grow.fields, nodes_self]

theorem Freeing.saved (hf : Freeing sb (nodes sb s.data inum ip) inum s ∅ s₁) :
    Saved sb inum s.data (s₁.updated sb inum { noBlocks ip with size := 0 }).data { noBlocks ip with size := 0 } := by
  have howned := hf.owned
  rw [blocksIn_empty, nodes_update, nodes_self] at howned
  exact saved_updated hv hi (fun b hb => hf.frame b (.inl hb)) (fun i hi' _ => hf.sameFile hv.owned hi')
    (howned.nodes_congr rfl rfl) (fun pos hpos => absurd hpos (Nat.not_lt_zero pos)) rfl

end

section
variable (hv : Valid sb s.data (dinode sb s.data))
include hv

theorem wp_ialloc {type : UInt16} (hn : n ≤ sb.ninodes - inum) : wp (ialloc sb type n inum) (fun r s' =>
    (r = none ∧ s' = s) ∨ ∃ i, r = some i ∧ (dinode sb s.data i).type = 0 ∧ Checked sb i s.data s'.data) s := by
  induction n generalizing inum with
  | zero => exact wp_pure.mpr (.inl ⟨rfl, rfl⟩)
  | succ n ih =>
    rw [ialloc, wp_bind, wp_get]
    by_cases h : (dinode sb s.data inum).type = 0
    · rw [if_pos h, wp_bind]
      refine wp_iupdate (wp_pure.mpr (.inr ⟨_, rfl, h, (hv.empty ?_ rfl rfl).updated (by omega) ?_⟩))
      · exact fun x b hh => hh.1.2 h
      · exact ⟨Nat.two_pow_pos 32, fun _ => Nat.two_pow_pos 32⟩
    · rw [if_neg h]
      exact ih (by omega)

theorem wp_fileOp (op : FileOp) (hi : Alloc sb (dinode sb s.data) inum) :
    wp (op.run sb inum) (fun _ s' => Checked sb inum s.data s'.data) s := by
  rw [FileOp.run, wp_bind, wp_get]
  have hfits := hv.fits hi
  have hnew := hv
  have hi' := hi
  rw [← nodes_dinode inum] at hv hi
  have hself := nodes_self sb s.data inum (dinode sb s.data inum)
  cases op with
  | writei src off n =>
    dsimp only
    rw [wp_bind]
    by_cases hrej : off.toNat > (dinode sb s.data inum).size ∨ off.toNat + n.toNat ≥ 2 ^ 32 ∨
        off.toNat + n.toNat > MAXFILE * BSIZE
    · exact wp_writei_reject off.isLt n.isLt hrej (wp_pure.mpr ⟨hnew, fun i _ _ => ⟨rfl, fun _ => rfl⟩⟩)
    · refine wp_writei hv.owned hi hself (by omega) (by omega) fun tot ip' s₁ hw => wp_pure.mpr ?_
      cases hw with
      | all hw | full hw => exact (hw.saved hv hi (by omega)).checked
      | fault hw hb => exact (hw.saved_torn hv hi (by omega) hb).checked
  | itrunc =>
    dsimp only
    rw [wp_bind]
    exact wp_itrunc hv.owned hi hself fun s₁ hf => wp_pure.mpr (hf.saved hv hi).checked
  | iupdate major minor nlink =>
    refine wp_iupdate (Valid.updated (hnew.of_nodes (hv.owned.nodes_congr rfl rfl) ?_) hi.1 ⟨hfits.1, hfits.2⟩)
    exact hnew.noHole inum hi'
  | iput =>
    dsimp only
    rw [wp_bind]
    refine wp_itrunc hv.owned hi hself fun s₁ hf => wp_iupdate ?_
    have hs := hf.saved hv hi
    refine hs.checked.trans ((hs.checked.1.empty (fun x b hh => hh.2.2 ?_) rfl rfl).updated hi.1 ?_)
    · rw [← hh.2.1, hs.disk]
      exact slot_noBlocks _ (dinode sb s.data inum) x
    · exact ⟨Nat.two_pow_pos 32, fun _ => Nat.two_pow_pos 32⟩

end

/-- From a file system in order, every run of calls leads to one, none of them panics, and each leaves the other files as
they are. -/
theorem fsck_run (hv : Valid sb s.data (dinode sb s.data)) (h : ReflTransGen (FileStep sb) s s') :
    Valid sb s'.data (dinode sb s'.data) ∧
    (∀ inum op, Alloc sb (dinode sb s'.data) inum → wp (FileOp.run sb inum op) (fun _ t => Checked sb inum s'.data t.data) s') ∧
    ∀ type, wp (ialloc sb type (sb.ninodes - 1) 1) (fun r t => (r = none ∧ t = s') ∨
      ∃ i, r = some i ∧ (dinode sb s'.data i).type = 0 ∧ Checked sb i s'.data t.data) s' := by
  have hv' : Valid sb s'.data (dinode sb s'.data) := by
    induction h with
    | refl => exact hv
    | tail _ hst ih =>
      cases hst with
      | ialloc type run =>
        rcases (wp_ialloc ih (le_rfl)).of_eq run with ⟨-, rfl⟩ | ⟨i, -, -, hc⟩
        · exact ih
        · exact hc.1
      | op alloc run => exact ((wp_fileOp ih _ alloc).of_eq run).1
  exact ⟨hv', fun inum op hi => wp_fileOp hv' op hi, fun type => wp_ialloc hv' (le_rfl)⟩

/-- A file is made, written and removed. -/
theorem fsck_run_tiny : ∃ s₁ s₂ s₃, ialloc tinySuper T_FILE (tinySuper.ninodes - 1) 1 (tinyFs.updated tinySuper 1 emptyFile) =
      .ok (some 2, s₁) ∧ FileOp.run tinySuper 2 (.writei halfMapped 0 1) s₁ = .ok ((), s₂) ∧
    contents s₂.data (dinode tinySuper s₂.data 2) = [7] ∧ FileOp.run tinySuper 2 .iput s₂ = .ok ((), s₃) ∧
    Valid tinySuper s₃.data (dinode tinySuper s₃.data) := by
  have hv := (valid_tinyFs.updated (by decide) ⟨by decide, fun _ => Nat.two_pow_pos 32⟩).1
  have hop : ∀ {s s' : Fs} (op : FileOp), op.run tinySuper 2 s = .ok ((), s') → (dinode tinySuper s.data 2).type ≠ 0 →
      FileStep tinySuper s s' := fun _ hrun ht => .op ⟨by decide, ht⟩ hrun
  exact ⟨_, _, _, rfl, rfl, by decide, rfl, (fsck_run hv (((ReflTransGen.single (.ialloc T_FILE rfl)).tail
    (hop (.writei halfMapped 0 1) rfl (by decide))).tail (hop .iput rfl (by decide)))).1⟩

end Fs

end Xv6
