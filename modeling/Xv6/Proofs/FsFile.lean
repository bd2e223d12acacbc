import Xv6.Proofs.FsTrunc
import Xv6.Proofs.FsWrite

/-!
# A file is an array of bytes

The state of the file system is read as one list of bytes for each inode (`contents`). In a file system that is in order
(`Valid`: each block has one owner, and there are no holes) `writei` replaces a part of one of these lists or appends to it,
`itrunc` makes one of them empty, `readi` returns a part of one, and each of them leaves the other lists alone.
-/

namespace Xv6

namespace Src

/-- The first `k` bytes of the source. -/
def take (src : Src) (k : Nat) : List UInt8 := (List.range k).map src.bytes

end Src

namespace Fs

open Prog

/-- The bytes of a file. -/
def contents (data : Nat → Bytes) (ip : Inode) : List UInt8 := bytes data ip 0 ip.size

/-- A list of bytes of which those from `off` on are replaced. -/
def patch (old : List UInt8) (off : Nat) (new : List UInt8) : List UInt8 :=
  old.take off ++ new ++ old.drop (off + new.length)

/-- The inodes: `ip` is inode `inum` in memory, the others are those on the disk. -/
def nodes (sb : Super) (data : Nat → Bytes) (inum : Nat) (ip : Inode) : Nat → Inode :=
  Function.update (dinode sb data) inum ip

structure Valid (sb : Super) (data : Nat → Bytes) (node : Nat → Inode) : Prop where
  owned : Owned sb data node ∅
  noHole (i : Nat) (hi : Alloc sb node i) : NoHole data (node i)

/-- Every inode but `inum` is on the disk as it was, with the same contents. -/
def SameOthers (sb : Super) (inum : Nat) (data data' : Nat → Bytes) : Prop :=
  ∀ i < sb.ninodes, i ≠ inum → dinode sb data' i = dinode sb data i ∧
    ((dinode sb data i).type ≠ 0 → contents data' (dinode sb data i) = contents data (dinode sb data i))

variable {sb : Super} {W : Set Nat} {s s₁ s' : Fs} {data data' data'' : Nat → Bytes} {node node' : Nat → Inode} {E : Set Nat}
  {i inum off n tot : Nat} {ip ip' : Inode} {src : Src}

/-! ### Files that have not changed -/

/-- The blocks of a file are the same, with the same bytes. -/
structure SameFile (data data' : Nat → Bytes) (ip : Inode) : Prop where
  block (bn : Nat) : blockOf data' ip bn = blockOf data ip bn
  byte (bn : Nat) (h : blockOf data ip bn ≠ 0) : data' (blockOf data ip bn) = data (blockOf data ip bn)

namespace SameFile

section

variable (h : SameFile data data' ip)
include h

theorem trans (h' : SameFile data' data'' ip) : SameFile data data'' ip where
  block bn := (h'.block bn).trans (h.block bn)
  byte bn hne := by
    have := h'.byte bn (by rw [h.block]; exact hne)
    rw [h.block] at this
    exact this.trans (h.byte bn hne)

theorem byteAt_eq {pos : Nat} (hne : blockOf data ip (pos / BSIZE) ≠ 0) : byteAt data' ip pos = byteAt data ip pos := by
  rw [byteAt, byteAt, h.block, h.byte _ hne]

theorem noHole (hh : NoHole data ip) : NoHole data' ip := by
  intro pos hpos
  rw [h.block]
  exact hh pos hpos

theorem contents_eq (hh : NoHole data ip) : contents data' ip = contents data ip := by
  refine List.map_congr_left fun k hk => h.byteAt_eq (hh _ ?_)
  have := List.mem_range.mp hk
  omega

end

theorem of_frame (hf : ∀ x, slot data ip x ≠ 0 → data' (slot data ip x) = data (slot data ip x)) :
    SameFile data data' ip where
  block := blockOf_congr (slot_congr fun hne => hf (.addr Inode.indirect) hne)
  byte bn hne := by
    have hlt := lt_MAXFILE hne
    rw [blockOf_of_lt hlt] at hne ⊢
    exact hf _ hne

end SameFile

theorem Grow.sameFile (h : Grow sb W s (node inum) s' ip') (ho : Owned sb s.data node ∅) (hi : Alloc sb node inum)
    (hi' : Alloc sb node i) (hne : i ≠ inum) : SameFile s.data s'.data (node i) := by
  refine .of_frame fun x hx => ?_
  obtain ⟨h1, h2⟩ := ho.slot_range hi' hx
  refine (h.frame _ h1 h2 (ho.bit_of_slot hi' hx) ?_ ?_).1
  · intro he
    have he : slot s.data (node i) x = slot s.data (node inum) (.addr Inode.indirect) := he
    exact hne (ho.slot_inj hi' hi hx he).1
  · intro bn _ he
    have hlt := lt_MAXFILE (he ▸ hx)
    rw [blockOf_of_lt hlt] at he
    exact hne (ho.slot_inj hi' hi hx he).1

theorem sameFile_updated (h : Owned sb s.data node E) (hi : Alloc sb node i) (hinum : inum < sb.ninodes) (ip : Inode) :
    SameFile s.data (s.updated sb inum ip).data (node i) := by
  refine .of_frame fun x hx => updated_of_ne ?_
  have := (h.slot_range hi hx).1
  have := IBLOCK_lt hinum
  have := bmapstart_lt sb
  omega

theorem Freeing.sameFile {R : Set Slot} (h : Freeing sb node inum s R s') (ho : Owned sb s.data node ∅)
    (hi' : Alloc sb node i) : SameFile s.data s'.data (node i) :=
  .of_frame fun _ hx => h.frame _ (.inr (ho.slot_range hi' hx).1)

/-- Only the types and the block numbers matter for who owns what. -/
theorem Owned.congr_node (h : Owned sb data node E)
    (hn : ∀ i < sb.ninodes, (node' i).type = (node i).type ∧ (node' i).addrs = (node i).addrs) : Owned sb data node' E := by
  have hslot : ∀ i < sb.ninodes, ∀ x, slot data (node' i) x = slot data (node i) x := by
    intro i hi x
    cases x with
    | addr j => exact congrFun (hn i hi).2 j
    | ind j => simp only [slot, (hn i hi).2]
  refine h.congr (fun _ _ => Iff.rfl) ?_
  rintro ⟨i, x⟩ b
  rw [Holds, Holds, Alloc, Alloc, and_assoc, and_assoc]
  refine and_congr_right fun hi => ?_
  rw [hslot i hi, (hn i hi).1]

/-! ### `writei` -/

/-- The inode when `writei` has written up to `off`. -/
def grown (ip : Inode) (off : Nat) : Inode := if off > ip.size then { ip with size := off } else ip

theorem grown_size (ip : Inode) (off : Nat) : (grown ip off).size = max ip.size off := by
  rw [grown]
  split
  · simp only
    omega
  · omega

theorem grown_type (ip : Inode) (off : Nat) : (grown ip off).type = ip.type := by
  rw [grown]
  split <;> rfl

theorem grown_addrs (ip : Inode) (off : Nat) : (grown ip off).addrs = ip.addrs := by
  rw [grown]
  split <;> rfl

theorem blockOf_grown (data : Nat → Bytes) (ip : Inode) (off bn : Nat) :
    blockOf data (grown ip off) bn = blockOf data ip bn := by
  rw [grown]
  split <;> rfl

theorem byteAt_grown (data : Nat → Bytes) (ip : Inode) (off pos : Nat) :
    byteAt data (grown ip off) pos = byteAt data ip pos := by
  rw [byteAt, byteAt, blockOf_grown]

theorem SameFile.grown (h : SameFile data data' ip) (off : Nat) : SameFile data data' (grown ip off) where
  block bn := by
    rw [blockOf_grown, blockOf_grown]
    exact h.block bn
  byte bn := by
    rw [blockOf_grown]
    exact h.byte bn

theorem wp_writei {Q : Int × Inode → Fs → Prop} (h : Owned sb s.data node ∅) (hi : Alloc sb node inum) (hip : node inum = ip)
    (hoff : off ≤ ip.size) (hn : off + n ≤ MAXFILE * BSIZE)
    (hQ : ∀ tot ip' s', Written sb node inum src off n s tot ip' s' →
      Q (tot, grown ip' (off + tot)) (s'.updated sb inum (grown ip' (off + tot)))) :
    wp (writei sb inum ip src off n) Q s := by
  subst hip
  have hmod : (off + n) % 2 ^ 32 = off + n := by
    simp only [MAXFILE, NDIRECT, NINDIRECT, BSIZE] at hn
    omega
  rw [writei, hmod, if_neg (by omega), if_neg (by omega), wp_bind]
  refine wp_writeLoop hi hn (Writing.start h inum src off n) (by omega) fun tot ip' s' hw => ?_
  dsimp only
  rw [← grown, wp_bind]
  refine wp_iupdate ?_
  rw [wp_pure]
  exact hQ tot ip' s' hw

theorem wp_writei_reject {Q : Int × Inode → Fs → Prop} (hoff : off < 2 ^ 32) (hn : n < 2 ^ 32)
    (h : off > ip.size ∨ off + n ≥ 2 ^ 32 ∨ off + n > MAXFILE * BSIZE) (hQ : Q (-1, ip) s) :
    wp (writei sb inum ip src off n) Q s := by
  rw [writei]
  split
  · rw [wp_pure]
    exact hQ
  · rename_i h1
    rw [if_pos (by simp only [MAXFILE, NDIRECT, NINDIRECT, BSIZE] at h ⊢; omega), wp_pure]
    exact hQ

theorem map_range_patch (f g : Nat → UInt8) {size : Nat} (hoff : off ≤ size) (k : Nat) :
    (List.range (max size (off + k))).map (fun pos => if off ≤ pos ∧ pos < off + k then g (pos - off) else f pos) =
      patch ((List.range size).map f) off ((List.range k).map g) := by
  refine List.ext_getElem ?_ fun pos h1 h2 => ?_
  · simp only [patch, List.length_map, List.length_range, List.length_append, List.length_take, List.length_drop]
    omega
  · simp only [patch, List.getElem_map, List.getElem_range, List.getElem_append, List.getElem_take, List.getElem_drop,
      List.length_map, List.length_range, List.length_append, List.length_take, Nat.min_eq_left hoff]
    by_cases h : pos < off
    · rw [if_neg (by omega), dif_pos (by omega), dif_pos h]
    · by_cases h' : pos < off + k
      · rw [if_pos (by omega), dif_pos h', dif_neg h]
      · rw [if_neg (by omega), dif_neg h', Nat.add_sub_cancel' (Nat.le_of_not_lt h')]

theorem Owned.addrs_lt (h : Owned sb data node E) (hi : Alloc sb node i) (j : Fin (NDIRECT + 1)) : (node i).addrs j < 2 ^ 32 := by
  by_cases h0 : (node i).addrs j = 0
  · omega
  · have hlt : (node i).addrs j < sb.size := (h.slot_range (x := .addr j) hi h0).2
    have := sb.size_lt
    omega

section

variable (hw : Writing sb node inum src off n s s₁ ip' tot)
include hw

theorem Writing.byteAt_eq (hv : Valid sb s.data node) (hi : Alloc sb node inum)
    {pos : Nat} (hpos : pos < max (node inum).size (off + tot)) (hoff : off ≤ (node inum).size) :
    blockOf s₁.data ip' (pos / BSIZE) ≠ 0 ∧
      byteAt s₁.data ip' pos = if off ≤ pos ∧ pos < off + tot then src.bytes (pos - off) else byteAt s.data (node inum) pos := by
  have hor : blockOf s.data (node inum) (pos / BSIZE) ≠ 0 ∨ off ≤ pos ∧ pos < off + tot := by
    by_cases hlt : pos < (node inum).size
    · exact .inl (hv.noHole inum hi pos hlt)
    · exact .inr (by omega)
  exact ⟨hw.mapped_of hor, hw.bytes pos hor⟩

theorem Writing.size_eq : (grown ip' (off + tot)).size = max (node inum).size (off + tot) := by
  rw [grown_size, hw.grow.fields]

theorem Writing.noHole (hv : Valid sb s.data node) (hi : Alloc sb node inum)
    (hoff : off ≤ (node inum).size) : NoHole s₁.data (grown ip' (off + tot)) := by
  intro pos hpos
  rw [hw.size_eq] at hpos
  rw [blockOf_grown]
  exact (hw.byteAt_eq hv hi hpos hoff).1

theorem Writing.contents_eq (hv : Valid sb s.data node) (hi : Alloc sb node inum) (hoff : off ≤ (node inum).size) :
    contents s₁.data (grown ip' (off + tot)) = patch (contents s.data (node inum)) off (src.take tot) := by
  simp only [contents, Fs.bytes, zero_add, Src.take]
  rw [← map_range_patch _ _ hoff, hw.size_eq]
  refine List.map_congr_left fun pos hpos => ?_
  rw [byteAt_grown, (hw.byteAt_eq hv hi (List.mem_range.mp hpos) hoff).2]

end

theorem nodes_self (sb : Super) (data : Nat → Bytes) (inum : Nat) (ip : Inode) : nodes sb data inum ip inum = ip :=
  Function.update_self ..

theorem nodes_of_ne (ip : Inode) (h : i ≠ inum) : nodes sb data inum ip i = dinode sb data i := Function.update_of_ne h ..

theorem nodes_update (sb : Super) (data : Nat → Bytes) (inum : Nat) (ip ip' : Inode) :
    Function.update (nodes sb data inum ip) inum ip' = nodes sb data inum ip' := Function.update_idem ..

theorem sameOthers_updated (hv : Valid sb s.data (nodes sb s.data inum ip)) (hinum : inum < sb.ninodes)
    (hlow : ∀ b < sb.bmapstart, s₁.data b = s.data b)
    (hfile : ∀ i, Alloc sb (nodes sb s.data inum ip) i → i ≠ inum → SameFile s.data s₁.data (nodes sb s.data inum ip i))
    (howned : Owned sb s₁.data (nodes sb s.data inum ip') ∅) (ip'' : Inode) :
    SameOthers sb inum s.data (s₁.updated sb inum ip'').data := by
  intro i hi hne
  refine ⟨?_, fun ht => ?_⟩
  · rw [dinode_updated_of_ne hne, dinode, dinode, hlow _ (IBLOCK_lt hi)]
  · have ha : ∀ ip, Alloc sb (nodes sb s.data inum ip) i := by
      intro ip
      rw [Alloc, nodes_of_ne ip hne]
      exact ⟨hi, ht⟩
    have h1 := hfile i (ha ip) hne
    have h2 := sameFile_updated howned (ha ip') hinum ip''
    have hh := hv.noHole i (ha ip)
    rw [nodes_of_ne _ hne] at h1 h2 hh
    exact (h1.trans h2).contents_eq hh

theorem wp_readi_contents (sb : Super) {dst : Dst} (h : NoHole s.data ip) (hfits : Fits dst ip.size) :
    wp (readi sb ip dst 0 ip.size) (fun q s' => q = ((ip.size : Int), contents s.data ip, ip) ∧ s' = s) s := by
  have hsize := h.size_le
  refine wp_readi h (Nat.zero_le _) ?_ ?_ ?_
  · simp only [MAXFILE, NDIRECT, NINDIRECT, BSIZE] at hsize
    omega
  · rw [Nat.sub_zero, Nat.min_self]
    exact hfits
  · rw [Nat.sub_zero, Nat.min_self]
    exact ⟨rfl, rfl⟩

/-- The inode is on the disk and the file system in order. -/
structure Saved (sb : Super) (inum : Nat) (data data' : Nat → Bytes) (ip : Inode) : Prop where
  disk : dinode sb data' inum = ip
  others : SameOthers sb inum data data'
  valid : Valid sb data' (nodes sb data' inum ip)

theorem Valid.fits (h : Valid sb data node) (hi : Alloc sb node i) : (node i).Fits := by
  refine ⟨?_, h.owned.addrs_lt hi⟩
  have := (h.noHole i hi).size_le
  simp only [MAXFILE, NDIRECT, NINDIRECT, BSIZE] at this
  omega

theorem alloc_nodes (hi : Alloc sb (nodes sb data inum ip) inum) (ht : ip'.type = ip.type) :
    Alloc sb (nodes sb data' inum ip') inum := by
  rw [Alloc, nodes_self] at hi ⊢
  rw [ht]
  exact hi

/-- An inode is written to the disk after only its own blocks have changed. -/
theorem saved_updated (hv : Valid sb s.data (nodes sb s.data inum ip)) (hi : Alloc sb (nodes sb s.data inum ip) inum)
    (hlow : ∀ b < sb.bmapstart, s₁.data b = s.data b)
    (hfile : ∀ i, Alloc sb (nodes sb s.data inum ip) i → i ≠ inum → SameFile s.data s₁.data (nodes sb s.data inum ip i))
    (howned : Owned sb s₁.data (nodes sb s.data inum ip') ∅) (hhole : NoHole s₁.data ip') (ht : ip'.type = ip.type) :
    Saved sb inum s.data (s₁.updated sb inum ip').data ip' := by
  have hnode : ∀ i < sb.ninodes, nodes sb (s₁.updated sb inum ip').data inum ip' i = nodes sb s.data inum ip' i := by
    intro i hi
    by_cases hne : i = inum
    · rw [hne, nodes_self, nodes_self]
    · rw [nodes_of_ne _ hne, nodes_of_ne _ hne, dinode_updated_of_ne hne, dinode, dinode, hlow _ (IBLOCK_lt hi)]
  have howned' : Owned sb s₁.data (nodes sb (s₁.updated sb inum ip').data inum ip') ∅ :=
    howned.congr_node fun i hi => by rw [hnode i hi]; exact ⟨rfl, rfl⟩
  have hvalid : Valid sb (s₁.updated sb inum ip').data (nodes sb (s₁.updated sb inum ip').data inum ip') := by
    refine ⟨howned'.updated hi.1 ip', fun i hi' => (sameFile_updated howned' hi' hi.1 ip').noHole ?_⟩
    rw [Alloc, hnode i hi'.1] at hi'
    rw [hnode i hi'.1]
    by_cases hne : i = inum
    · rw [hne, nodes_self]
      exact hhole
    · rw [nodes_of_ne _ hne, ← nodes_of_ne ip hne] at hi' ⊢
      exact (hfile i hi' hne).noHole (hv.noHole i hi')
  refine ⟨?_, ?_, hvalid⟩
  · have := hvalid.fits (alloc_nodes hi ht)
    rw [nodes_self] at this
    exact dinode_updated_self this
  · exact sameOthers_updated hv hi.1 hlow hfile howned ip'

/-- `writei`, when the loop has not stopped in the middle of a block. -/
theorem Writing.saved (hw : Writing sb (nodes sb s.data inum ip) inum src off n s s₁ ip' tot)
    (hv : Valid sb s.data (nodes sb s.data inum ip)) (hi : Alloc sb (nodes sb s.data inum ip) inum) (hoff : off ≤ ip.size) :
    Saved sb inum s.data (s₁.updated sb inum (grown ip' (off + tot))).data (grown ip' (off + tot)) := by
  have hgrow := hw.grow
  have howned := hw.owned
  have hhole := hw.noHole hv hi
  rw [nodes_self] at hhole
  rw [nodes_update] at howned
  have htype : ip'.type = ip.type := by
    rw [hgrow.fields, nodes_self]
  refine saved_updated hv hi hgrow.low (fun i hi' hne => hgrow.sameFile hv.owned hi hi' hne) ?_ (hhole hoff) ?_
  · refine howned.congr_node fun i _ => ?_
    by_cases hne : i = inum
    · rw [hne, nodes_self, nodes_self, grown_type, grown_addrs]
      exact ⟨rfl, rfl⟩
    · rw [nodes_of_ne _ hne, nodes_of_ne _ hne]
      exact ⟨rfl, rfl⟩
  · rw [grown_type, htype]

theorem Writing.sameFile (hw : Writing sb (nodes sb s.data inum ip) inum src off n s s₁ ip' tot)
    (hi : Alloc sb (nodes sb s.data inum ip) inum) :
    SameFile s₁.data (s₁.updated sb inum (grown ip' (off + tot))).data (grown ip' (off + tot)) := by
  have := sameFile_updated hw.owned (hw.alloc hi) hi.1 (grown ip' (off + tot))
  rw [Function.update_self] at this
  exact this.grown (off + tot)

/-- `k` bytes of the source are in the file, from `off` on. -/
structure Patched (sb : Super) (inum : Nat) (src : Src) (off k : Nat) (s : Fs) (ip : Inode) (s' : Fs) (ip' : Inode) : Prop where
  readable (j : Nat) (hj : j < k) : (src.byte j).isSome
  type : ip'.type = ip.type
  size : ip'.size = max ip.size (off + k)
  byte (pos : Nat) (h : pos < ip'.size) :
    byteAt s'.data ip' pos = if off ≤ pos ∧ pos < off + k then src.bytes (pos - off) else byteAt s.data ip pos
  valid : Valid sb s'.data (nodes sb s'.data inum ip')
  alloc : Alloc sb (nodes sb s'.data inum ip') inum

theorem Writing.patched (hw : Writing sb (nodes sb s.data inum ip) inum src off n s s₁ ip' tot)
    (hv : Valid sb s.data (nodes sb s.data inum ip)) (hi : Alloc sb (nodes sb s.data inum ip) inum) (hoff : off ≤ ip.size) :
    Patched sb inum src off tot s ip (s₁.updated sb inum (grown ip' (off + tot))) (grown ip' (off + tot)) := by
  have hsame := hw.sameFile hi
  have hsize := hw.size_eq
  have hhole := hw.noHole hv hi
  have htype : (grown ip' (off + tot)).type = ip.type := by rw [grown_type, hw.grow.fields, nodes_self]
  have hbyte : ∀ pos < max ip.size (off + tot), byteAt s₁.data ip' pos =
      if off ≤ pos ∧ pos < off + tot then src.bytes (pos - off) else byteAt s.data ip pos := fun pos hpos => by
    have := (hw.byteAt_eq hv hi (by rw [nodes_self]; exact hpos) (by rw [nodes_self]; exact hoff)).2
    rwa [nodes_self] at this
  rw [nodes_self] at hsize hhole
  refine ⟨hw.readable, htype, hsize, fun pos hpos => ?_, (hw.saved hv hi hoff).valid, alloc_nodes hi htype⟩
  rw [hsame.byteAt_eq (hhole hoff pos hpos), byteAt_grown, hbyte pos (hsize ▸ hpos)]

theorem Writing.readBack (hw : Writing sb (nodes sb s.data inum ip) inum src off n s s₁ ip' tot)
    (hv : Valid sb s.data (nodes sb s.data inum ip)) (hi : Alloc sb (nodes sb s.data inum ip) inum) (hoff : off ≤ ip.size) :
    let ip'' := grown ip' (off + tot)
    let s' := s₁.updated sb inum ip''
    ip''.size = max ip.size (off + tot) ∧
      (∀ dst, Fits dst ip''.size → wp (readi sb ip'' dst 0 ip''.size)
        (fun q s'' => q = ((ip''.size : Int), patch (contents s.data ip) off (src.take tot), ip'') ∧ s'' = s') s') ∧
      Saved sb inum s.data s'.data ip'' := by
  intro ip'' s'
  have hsaved := hw.saved hv hi hoff
  have hsize := hw.size_eq
  have hhole := hw.noHole hv hi
  have hcontents := hw.contents_eq hv hi
  have hsame : SameFile s₁.data s'.data ip'' := hw.sameFile hi
  rw [nodes_self] at hsize hhole hcontents
  refine ⟨hsize, fun dst hfits => ?_, hsaved⟩
  have hread := wp_readi_contents sb (s := s') (hsame.noHole (hhole hoff)) hfits
  rw [hsame.contents_eq (hhole hoff), hcontents hoff] at hread
  exact hread

/-- `writei` and `itrunc` on a file as an array of bytes. -/
theorem file_as_bytes (sb : Super) (s : Fs) (inum : Nat) (ip : Inode) (hv : Valid sb s.data (nodes sb s.data inum ip))
    (hi : Alloc sb (nodes sb s.data inum ip) inum) :
    (∀ (src : Src) (off n : Nat), off < 2 ^ 32 → n < 2 ^ 32 → (∀ k < n, (src.byte k).isSome) →
      wp (writei sb inum ip src off n) (fun r s' =>
        if off > ip.size ∨ off + n ≥ 2 ^ 32 ∨ off + n > MAXFILE * BSIZE then
          r = (-1, ip) ∧ s' = s
        else
          ∃ k ≤ n, r.1 = k ∧
            (k < n → blockOf s'.data r.2 ((off + k) / BSIZE) = 0 ∧ ∀ b < sb.size, Bit sb s'.data b) ∧
            r.2.size = max ip.size (off + k) ∧
            (∀ dst, Fits dst r.2.size → wp (readi sb r.2 dst 0 r.2.size)
              (fun q s'' => q = ((r.2.size : Int), patch (contents s.data ip) off (src.take k), r.2) ∧ s'' = s') s') ∧
            Saved sb inum s.data s'.data r.2) s) ∧ wp (itrunc sb inum ip) (fun ip' s' =>
      ip'.size = 0 ∧
        (∀ dst, wp (readi sb ip' dst 0 ip'.size) (fun q s'' => q = (0, [], ip') ∧ s'' = s') s') ∧
        Saved sb inum s.data s'.data ip') s := by
  have hself := nodes_self sb s.data inum ip
  refine ⟨fun src off n hoff hn hread => ?_, ?_⟩
  · by_cases hrej : off > ip.size ∨ off + n ≥ 2 ^ 32 ∨ off + n > MAXFILE * BSIZE
    · exact wp_writei_reject hoff hn hrej (by rw [if_pos hrej]; exact ⟨rfl, rfl⟩)
    · refine wp_writei hv.owned hi hself (by omega) (by omega) fun tot ip' s₁ hw => ?_
      rw [if_neg hrej]
      have hoff' : off ≤ ip.size := by omega
      cases hw with
      | all hw =>
        exact ⟨n, Nat.le_refl n, rfl, by omega, hw.readBack hv hi hoff'⟩
      | full hw hlt hblock hfull =>
        refine ⟨tot, hw.le, rfl, fun _ => ⟨?_, fun b hb => (bit_updated hi.1).mpr (hfull b hb)⟩, hw.readBack hv hi hoff'⟩
        have hsame := sameFile_updated hw.owned (hw.alloc hi) hi.1 (grown ip' (off + tot))
        rw [Function.update_self] at hsame
        rw [blockOf_grown, hsame.block]
        exact hblock
      | @fault _ c _ _ hw _ hc _ hstop =>
        have := hread (tot + c) (by omega)
        rw [hstop] at this
        cases this
  · refine wp_itrunc hv.owned hi hself fun s₁ hf => ?_
    have howned := hf.owned
    rw [blocksIn_empty, nodes_update, hself] at howned
    have hhole : ∀ data, NoHole data { noBlocks ip with size := 0 } := fun _ pos hpos => absurd hpos (Nat.not_lt_zero pos)
    refine ⟨rfl, fun dst => ?_, ?_⟩
    · exact wp_readi_contents sb (hhole _) (by cases dst <;> simp [Fits])
    · refine saved_updated hv hi (fun b hb => hf.frame b (.inl hb)) (fun i hi' _ => hf.sameFile hv.owned hi') ?_ (hhole _) rfl
      refine howned.congr_node fun i _ => ?_
      by_cases hne : i = inum
      · rw [hne, nodes_self, nodes_self]
        exact ⟨rfl, rfl⟩
      · rw [nodes_of_ne _ hne, nodes_of_ne _ hne]
        exact ⟨rfl, rfl⟩

/-! ### A small disk -/

def tinySuper : Super where
  size := 16
  ninodes := 16
  inodestart := 2
  bmapstart := 4
  nmeta := 5
  size_lt := by decide
  inodes_le := by decide
  bitmap_le := by decide
  nmeta_le := by decide

def tinyFs : Fs where
  data b x := if b = 4 ∧ x = 0 then 0x1f else 0
  logged := []

def emptyFile : Inode where
  type := T_FILE
  major := 0
  minor := 0
  nlink := 1
  size := 0
  addrs _ := 0

theorem alloc_tinyFs (hi : Alloc tinySuper (nodes tinySuper tinyFs.data 1 ip) i) : i = 1 := by
  by_contra hne
  rw [Alloc, nodes_of_ne _ hne] at hi
  refine hi.2 ?_
  have : tinySuper.IBLOCK i ≠ 4 := by
    have := IBLOCK_lt hi.1
    simp only [tinySuper] at this ⊢
    omega
  simp only [dinode, Inode.get, tinyFs, this, false_and, if_false]
  rw [Bytes.load_eq_zero fun _ _ _ => rfl]
  rfl

theorem valid_tiny (t : UInt16) : Valid tinySuper tinyFs.data (nodes tinySuper tinyFs.data 1 { emptyFile with type := t }) := by
  have hbit : ∀ b < 16, Bit tinySuper tinyFs.data b ↔ b < 5 := by decide
  have hnot : ∀ k b, ¬ Holds tinySuper tinyFs.data (nodes tinySuper tinyFs.data 1 { emptyFile with type := t }) k b := by
    rintro ⟨i, x⟩ b ⟨hi, hx, hb⟩
    obtain rfl := alloc_tinyFs hi
    rw [nodes_self] at hx
    exact hb (hx.symm.trans (slot_noBlocks tinyFs.data { emptyFile with type := t } x))
  refine ⟨⟨fun {b} hb => ?_, fun h => absurd h (hnot _ _), fun h => absurd h (hnot _ _), fun hb => hb.elim⟩, fun i hi => ?_⟩
  · rw [hbit b hb]
    exact ⟨.inl, fun h => h.elim id fun h => h.elim False.elim fun ⟨k, hk⟩ => absurd hk (hnot k b)⟩
  · obtain rfl := alloc_tinyFs hi
    rw [nodes_self]
    exact fun pos hpos => absurd hpos (Nat.not_lt_zero pos)

theorem valid_tinyFs : Valid tinySuper tinyFs.data (nodes tinySuper tinyFs.data 1 emptyFile) := valid_tiny T_FILE

/-- Five bytes are written to a new file. -/
theorem file_as_bytes_tiny : wp (writei tinySuper 1 emptyFile (.kernel (fun x => UInt8.ofNat x) 65) 0 5) (fun r s' =>
      ∃ k : Nat, k ≤ 5 ∧ r.1 = k ∧ (k < 5 → ∀ b < tinySuper.size, Bit tinySuper s'.data b) ∧
        (∀ dst, Fits dst r.2.size → wp (readi tinySuper r.2 dst 0 r.2.size)
          (fun q s'' => q = ((r.2.size : Int), patch [] 0 ([65, 66, 67, 68, 69].take k), r.2) ∧ s'' = s') s') ∧
        Saved tinySuper 1 tinyFs.data s'.data r.2) tinyFs := by
  have h := (file_as_bytes tinySuper tinyFs 1 emptyFile valid_tinyFs ⟨by decide, by decide⟩).1
    (.kernel (fun x => UInt8.ofNat x) 65) 0 5 (by decide) (by decide) fun _ _ => rfl
  refine h.mono fun r s' hr => ?_
  rw [if_neg (by decide)] at hr
  obtain ⟨k, hk, h1, h2, -, h3, h4⟩ := hr
  refine ⟨k, hk, h1, fun hlt => (h2 hlt).2, ?_, h4⟩
  have htake : (Src.kernel (fun x => UInt8.ofNat x) 65).take k = [65, 66, 67, 68, 69].take k := by
    interval_cases k <;> rfl
  rw [htake] at h3
  exact h3

end Fs

end Xv6
