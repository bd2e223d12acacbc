import Xv6.Proofs.FsOwn

/-!
# What `bmap` does

`Grow sb W s ip s' ip'`: between `s` and `s'` a file has got blocks that were free, and only these, the bitmap, the indirect
block of the file and its blocks with numbers in `W` have changed; what has changed is in the log. `wp_bmap` says what `bmap`
returns and leaves: the block that was there, or a new one full of zeros in the slot for `bn`, or 0 and a full disk
(`Mapped`).
-/

namespace Xv6

namespace Fs

open Prog Function
open Inode (indirect)

structure Grow (sb : Super) (W : Set Nat) (s : Fs) (ip : Inode) (s' : Fs) (ip' : Inode) : Prop where
  fields : ip' = { ip with addrs := ip'.addrs }
  bits (b : Nat) (hb : b < sb.size) (h : Bit sb s.data b) : Bit sb s'.data b
  /-- The super block, the log and the inode blocks. -/
  low (b : Nat) (hb : b < sb.bmapstart) : s'.data b = s.data b
  /-- The other blocks in use. -/
  frame (b : Nat) (hb : sb.nmeta ≤ b) (hb' : b < sb.size) (h : Bit sb s.data b) (hne : b ≠ ip.addrs indirect)
    (hW : ∀ bn ∈ W, b ≠ blockOf s.data ip bn) : s'.data b = s.data b ∧ (b ∈ s'.logged → b ∈ s.logged)
  indirect : ip'.addrs indirect = ip.addrs indirect ∨
    ip.addrs indirect = 0 ∧ ip'.addrs indirect < sb.size ∧ ¬ Bit sb s.data (ip'.addrs indirect)
  block (bn : Nat) : blockOf s'.data ip' bn = blockOf s.data ip bn ∨
    blockOf s.data ip bn = 0 ∧ blockOf s'.data ip' bn < sb.size ∧ ¬ Bit sb s.data (blockOf s'.data ip' bn) ∧
      blockOf s'.data ip' bn ∈ s'.logged
  changed (b : Nat) (h : s'.data b ≠ s.data b) : b ∈ s'.logged
  logged : s.logged ⊆ s'.logged

variable {sb : Super} {W W' : Set Nat} {s s₁ s' : Fs} {node : Nat → Inode} {inum b bn addr : Nat} {ip ip1 ip' : Inode}
  {j : Fin (NDIRECT + 1)}

theorem bmapstart_le (sb : Super) (b : Nat) : sb.bmapstart ≤ sb.BBLOCK b := Nat.le_add_left ..

theorem bmapstart_lt (sb : Super) : sb.bmapstart < sb.nmeta := by
  have h2 := sb.bitmap_le
  generalize sb.size / BPB = k at h2
  omega

namespace Grow

theorem refl (sb : Super) (s : Fs) (ip : Inode) : Grow sb ∅ s ip s ip where
  fields := rfl
  bits _ _ h := h
  low _ _ := rfl
  frame _ _ _ _ _ _ := ⟨rfl, id⟩
  indirect := .inl rfl
  block _ := .inl rfl
  changed _ h := absurd rfl h
  logged := List.Subset.refl _

theorem mono (h : Grow sb W s ip s' ip') (hW : W ⊆ W') : Grow sb W' s ip s' ip' :=
  { h with frame := fun b hb hb' hbit hne hnot => h.frame b hb hb' hbit hne fun bn hbn => hnot bn (hW hbn) }

theorem trans (h : Grow sb W s ip s₁ ip1) (h' : Grow sb W s₁ ip1 s' ip') : Grow sb W s ip s' ip' where
  fields := by
    rw [h'.fields, h.fields]
  bits b hb hbit := h'.bits b hb (h.bits b hb hbit)
  low b hb := (h'.low b hb).trans (h.low b hb)
  frame b hb hb' hbit hne hW := by
    have hne' : b ≠ ip1.addrs Inode.indirect := by
      rcases h.indirect with he | ⟨-, -, hfree⟩
      · rw [he]
        exact hne
      · rintro rfl
        exact hfree hbit
    have hW' : ∀ bn ∈ W, b ≠ blockOf s₁.data ip1 bn := by
      intro bn hbn
      rcases h.block bn with he | ⟨-, -, hfree, -⟩
      · rw [he]
        exact hW bn hbn
      · rintro rfl
        exact hfree hbit
    obtain ⟨h1, h2⟩ := h.frame b hb hb' hbit hne hW
    obtain ⟨h3, h4⟩ := h'.frame b hb hb' (h.bits b hb' hbit) hne' hW'
    exact ⟨h3.trans h1, fun hb => h2 (h4 hb)⟩
  indirect := by
    rcases h'.indirect with he | ⟨h₀, hlt, hfree⟩
    · rw [he]
      exact h.indirect
    · rcases h.indirect with he' | ⟨h0', -, -⟩
      · exact .inr ⟨he' ▸ h₀, hlt, fun hbit => hfree (h.bits _ hlt hbit)⟩
      · exact .inr ⟨h0', hlt, fun hbit => hfree (h.bits _ hlt hbit)⟩
  block bn := by
    rcases h'.block bn with he | ⟨h₀, hlt, hfree, hmem⟩
    · rw [he]
      exact (h.block bn).imp_right fun ⟨h₀, hlt, hfree, hmem⟩ => ⟨h₀, hlt, hfree, h'.logged hmem⟩
    · rcases h.block bn with he' | ⟨h0', -, -, -⟩
      · exact .inr ⟨he' ▸ h₀, hlt, fun hbit => hfree (h.bits _ hlt hbit), hmem⟩
      · exact .inr ⟨h0', hlt, fun hbit => hfree (h.bits _ hlt hbit), hmem⟩
  changed b hb := by
    by_cases hb' : s'.data b = s₁.data b
    · exact h'.logged (h.changed b fun he => hb (hb'.trans he))
    · exact h'.changed b hb'
  logged := List.Subset.trans h.logged h'.logged

theorem block_eq (h : Grow sb W s ip s' ip') (hne : blockOf s.data ip bn ≠ 0) :
    blockOf s'.data ip' bn = blockOf s.data ip bn :=
  (h.block bn).resolve_right fun h' => hne h'.1

end Grow

/-! ### The steps of `bmap` -/

theorem mem_taken {b' : Nat} : b' ∈ (s.taken sb b).logged ↔ b' ∈ s.logged ∨ b' = sb.BBLOCK b ∨ b' = b := by
  simp only [taken, List.mem_append, List.mem_cons, List.not_mem_nil, or_false]

theorem taken_eq_or {b' : Nat} (hne : (s.taken sb b).data b' ≠ s.data b') : b' = sb.BBLOCK b ∨ b' = b := by
  by_contra hnot
  simp only [not_or] at hnot
  exact hne (taken_of_ne hnot.1 hnot.2)

theorem grow_addr (h : Owned sb s.data node ∅) (hb : b < sb.size) (hfree : ¬ Bit sb s.data b)
    (hx : ip.addrs j = 0)
    (hblock : ∀ bn, let b' := blockOf (s.taken sb b).data (ip.setAddr j b) bn
      b' = blockOf s.data ip bn ∨ blockOf s.data ip bn = 0 ∧ b' = b) :
    Grow sb ∅ s ip (s.taken sb b) (ip.setAddr j b) where
  fields := rfl
  bits b' hb' hbit := (bit_taken (h.nmeta_le_of_free hb hfree) hb').mpr (.inr hbit)
  low b' hb' := by
    have := bmapstart_le sb b
    have := h.nmeta_le_of_free hb hfree
    have := BBLOCK_lt hb
    exact taken_of_ne (by omega) (by omega)
  frame b' hb' hlt hbit _ _ := by
    have hlow := BBLOCK_lt hb
    have hne : b' ≠ b := by
      rintro rfl
      exact hfree hbit
    exact ⟨taken_of_ne (by omega) hne, fun hmem => (mem_taken.mp hmem).resolve_right (by omega)⟩
  indirect := by
    by_cases hj : indirect = j
    · subst hj
      rw [ip.setAddr_self]
      exact .inr ⟨hx, hb, hfree⟩
    · rw [ip.setAddr_of_ne hj]
      exact .inl rfl
  block bn := by
    refine (hblock bn).imp_right fun hnew => ?_
    obtain ⟨h₀, he⟩ := hnew
    rw [he]
    exact ⟨h₀, hb, hfree, mem_taken.mpr (.inr (.inr rfl))⟩
  changed b' hne := mem_taken.mpr (.inr (taken_eq_or hne))
  logged b' hmem := mem_taken.mpr (.inl hmem)

def setEntry (s : Fs) (blk k b : Nat) : Fs :=
  { data := Function.update s.data blk ((s.data blk).store (4 * k) 4 b), logged := s.logged ++ [blk] }

theorem setEntry_of_ne {blk k b' : Nat} (h : b' ≠ blk) : (s.setEntry blk k b).data b' = s.data b' :=
  update_of_ne h ..

theorem mem_setEntry {blk k b' : Nat} : b' ∈ (s.setEntry blk k b).logged ↔ b' ∈ s.logged ∨ b' = blk := by
  rw [setEntry, List.mem_append, List.mem_singleton]

theorem grow_entry (h : Owned sb s.data node ∅) (hi : Alloc sb node inum) (hne : (node inum).addrs indirect ≠ 0)
    (hb : b < sb.size) (hfree : ¬ Bit sb s.data b) (k : Nat)
    (hblock : ∀ bn, let b' := blockOf ((s.taken sb b).setEntry ((node inum).addrs indirect) k b).data (node inum) bn
      b' = blockOf s.data (node inum) bn ∨ blockOf s.data (node inum) bn = 0 ∧ b' = b) :
    Grow sb ∅ s (node inum) ((s.taken sb b).setEntry ((node inum).addrs indirect) k b) (node inum) := by
  have hblk : sb.nmeta ≤ (node inum).addrs indirect := (h.slot_range (x := .addr indirect) hi hne).1
  have hmeta := h.nmeta_le_of_free hb hfree
  have hbb := BBLOCK_lt hb
  have hstart := bmapstart_le sb b
  have hstart' := bmapstart_lt sb
  refine ⟨rfl, ?_, ?_, ?_, .inl rfl, ?_, ?_, ?_⟩
  · intro b' hb' hbit
    have := BBLOCK_lt hb'
    rw [Bit, setEntry_of_ne (by omega)]
    exact (bit_taken hmeta hb').mpr (.inr hbit)
  · intro b' hb'
    rw [setEntry_of_ne (by omega), taken_of_ne (by omega) (by omega)]
  · intro b' hb' _ hbit hne' _
    have hneb : b' ≠ b := by
      rintro rfl
      exact hfree hbit
    refine ⟨?_, fun hmem => ?_⟩
    · rw [setEntry_of_ne hne', taken_of_ne (by omega) hneb]
    · exact (mem_taken.mp ((mem_setEntry.mp hmem).resolve_right hne')).resolve_right (by omega)
  · intro bn
    refine (hblock bn).imp_right fun hnew => ?_
    obtain ⟨h₀, he⟩ := hnew
    rw [he]
    exact ⟨h₀, hb, hfree, mem_setEntry.mpr (.inl (mem_taken.mpr (.inr (.inr rfl))))⟩
  · intro b' hne'
    rw [mem_setEntry, mem_taken]
    by_contra hnot
    simp only [not_or] at hnot
    exact hne' ((setEntry_of_ne hnot.2).trans (taken_of_ne hnot.1.2.1 hnot.1.2.2))
  · intro b' hmem
    exact mem_setEntry.mpr (.inl (mem_taken.mpr (.inl hmem)))

/-! ### `bmap` -/

/-- `bmap` has returned `addr`. -/
structure Mapped (sb : Super) (node : Nat → Inode) (inum bn : Nat) (s : Fs) (addr : Nat) (ip' : Inode) (s' : Fs) : Prop
    extends Grow sb ∅ s (node inum) s' ip' where
  owned : Owned sb s'.data (Function.update node inum ip') ∅
  addr_eq : blockOf s'.data ip' bn = addr
  other (bn' : Nat) (h : bn' ≠ bn) : blockOf s'.data ip' bn' = blockOf s.data (node inum) bn'
  direct (h : bn < NDIRECT) : ip'.addrs Inode.indirect = (node inum).addrs Inode.indirect
  found (h : blockOf s.data (node inum) bn ≠ 0) : ip' = node inum ∧ s' = s
  fresh (h : blockOf s.data (node inum) bn = 0) (h' : addr ≠ 0) :
    addr < sb.size ∧ ¬ Bit sb s.data addr ∧ ∀ k < BSIZE, s'.data addr k = 0
  full (h : addr = 0) (b : Nat) (hb : b < sb.size) : Bit sb s'.data b

theorem mapped_refl (inum bn : Nat) (h : Owned sb s.data node ∅) (hfull : blockOf s.data (node inum) bn = 0 → ∀ b < sb.size, Bit sb s.data b) :
    Mapped sb node inum bn s (blockOf s.data (node inum) bn) (node inum) s where
  toGrow := .refl sb s (node inum)
  owned := by
    rw [update_eq_self]
    exact h
  addr_eq := rfl
  other _ _ := rfl
  direct _ := rfl
  found _ := ⟨rfl, rfl⟩
  fresh h h' := absurd h h'
  full h' := hfull h'

theorem blockOf_setSlot {data data' : Nat → Bytes} (hbn : bn < MAXFILE)
    (hslot : ∀ x, slot data' ip' x = if x = slotOf ⟨bn, hbn⟩ then b else slot data ip x) (bn' : Nat) :
    blockOf data' ip' bn' = if bn' = bn then b else blockOf data ip bn' := by
  rw [blockOf, blockOf]
  split
  · rw [hslot]
    refine if_congr ?_ rfl rfl
    constructor
    · intro he
      exact congrArg Fin.val (slotOf_inj he)
    · rintro rfl
      rfl
  · rw [if_neg (by omega)]

theorem mapped_direct (h : Owned sb s.data node ∅) (hi : Alloc sb node inum) (hbn : bn < NDIRECT)
    (hx : (node inum).addrs ⟨bn, Nat.lt_succ_of_lt hbn⟩ = 0) (hb : b < sb.size) (hfree : ¬ Bit sb s.data b) :
    Mapped sb node inum bn s b ((node inum).setAddr ⟨bn, Nat.lt_succ_of_lt hbn⟩ b) (s.taken sb b) := by
  have hlt : bn < MAXFILE := lt_of_lt_of_le hbn (Nat.le_add_right ..)
  have hj : (⟨bn, Nat.lt_succ_of_lt hbn⟩ : Fin (NDIRECT + 1)) ≠ indirect := by
    intro he
    have : bn = NDIRECT := congrArg Fin.val he
    omega
  have hblock : ∀ bn', blockOf (s.taken sb b).data ((node inum).setAddr ⟨bn, Nat.lt_succ_of_lt hbn⟩ b) bn' =
      if bn' = bn then b else blockOf s.data (node inum) bn' :=
    blockOf_setSlot hlt fun x => by
      rw [slot_setAddr fun he => absurd he hj, slotOf_direct hbn, h.slot_taken hb hfree hi]
  have hx' : blockOf s.data (node inum) bn = 0 := by
    rw [blockOf_of_lt hlt, slotOf_direct hbn]
    exact hx
  refine ⟨grow_addr h hb hfree hx ?_, ?_, ?_, ?_, fun _ => Inode.setAddr_of_ne _ hj.symm, ?_, ?_, ?_⟩
  · intro bn'
    dsimp only
    rw [hblock]
    split
    · rename_i he
      exact .inr ⟨he ▸ hx', rfl⟩
    · exact .inl rfl
  · exact (h.taken hb hfree).link_addr (Set.notMem_empty b) hi hx fun k hk => taken_zero hk
  · rw [hblock, if_pos rfl]
  · intro bn' hne
    rw [hblock, if_neg hne]
  · intro hne
    exact absurd hx' hne
  · intro _ _
    exact ⟨hb, hfree, fun k hk => taken_zero hk⟩
  · intro h0
    exact absurd h0 (h.ne_zero_of_free hb hfree)

theorem slotOf_ind (h : ¬ bn < NDIRECT) (hk : bn - NDIRECT < NINDIRECT) (h' : bn < MAXFILE) :
    slotOf ⟨bn, h'⟩ = .ind ⟨bn - NDIRECT, hk⟩ := dif_neg h

section

variable (h : Owned sb s.data node ∅)
include h

theorem mapped_entry (hi : Alloc sb node inum) (hbn : ¬ bn < NDIRECT)
    (hk : bn - NDIRECT < NINDIRECT) (hne : (node inum).addrs indirect ≠ 0)
    (hx : entry s.data ((node inum).addrs indirect) (bn - NDIRECT) = 0) (hb : b < sb.size)
    (hfree : ¬ Bit sb s.data b) : Mapped sb node inum bn s b (node inum)
      ((s.taken sb b).setEntry ((node inum).addrs indirect) (bn - NDIRECT) b) := by
  have hlt : bn < MAXFILE := by
    simp only [MAXFILE]
    omega
  have hsize := sb.size_lt
  have htaken := h.taken hb hfree
  have hblk := h.indirect_taken hb hfree hi hne
  have hblock : ∀ bn', blockOf ((s.taken sb b).setEntry ((node inum).addrs indirect) (bn - NDIRECT) b).data
      (node inum) bn' = if bn' = bn then b else blockOf s.data (node inum) bn' :=
    blockOf_setSlot hlt fun x => by
      rw [setEntry, slot_store hk (by omega) hne, slotOf_ind hbn hk, h.slot_taken hb hfree hi]
  have hb0 := h.ne_zero_of_free hb hfree
  have hbi : b ≠ (node inum).addrs indirect := (h.slot_ne_of_free (x := .addr indirect) hb hfree hi).symm
  have hx' : blockOf s.data (node inum) bn = 0 := by
    rw [blockOf_of_lt hlt, slotOf_ind hbn hk, slot, if_neg hne]
    exact hx
  refine ⟨grow_entry h hi hne hb hfree _ ?_, ?_, ?_, ?_, fun _ => rfl, ?_, ?_, ?_⟩
  · intro bn'
    dsimp only
    rw [hblock]
    split
    · rename_i he
      exact .inr ⟨he ▸ hx', rfl⟩
    · exact .inl rfl
  · refine htaken.link_entry (Set.notMem_empty b) hi hk hne ?_
    rw [entry, hblk]
    exact hx
  · rw [hblock, if_pos rfl]
  · intro bn' hne'
    rw [hblock, if_neg hne']
  · intro hne'
    exact absurd hx' hne'
  · intro _ _
    refine ⟨hb, hfree, fun k hk => ?_⟩
    rw [setEntry_of_ne hbi]
    exact taken_zero hk
  · intro h0
    exact absurd h0 hb0

theorem blockOf_newIndirect (hi : Alloc sb node inum)
    (hx : (node inum).addrs indirect = 0) (hb : b < sb.size) (hfree : ¬ Bit sb s.data b) (bn : Nat) :
    blockOf (s.taken sb b).data ((node inum).setAddr indirect b) bn = blockOf s.data (node inum) bn := by
  rw [blockOf, blockOf]
  split
  · rw [slot_setAddr fun _ => ⟨hx, fun k hk => taken_zero hk⟩, if_neg (slotOf_ne_indirect _), h.slot_taken hb hfree hi]
  · rfl

theorem mapped_newIndirect (hi : Alloc sb node inum)
    (hx : (node inum).addrs indirect = 0) (hb : b < sb.size) (hfree : ¬ Bit sb s.data b)
    (hmap : Mapped sb (update node inum ((node inum).setAddr indirect b)) inum bn (s.taken sb b) addr ip' s')
    (hbn : blockOf s.data (node inum) bn = 0) (hdir : ¬ bn < NDIRECT) : Mapped sb node inum bn s addr ip' s' := by
  have hblock := blockOf_newIndirect h hi hx hb hfree
  have hgrow := grow_addr h hb hfree hx fun bn => .inl (hblock bn)
  have hmap' := hmap.toGrow
  have howned := hmap.owned
  have hother := hmap.other
  have hfresh := hmap.fresh
  simp only [update_self, update_idem, hblock] at hmap' howned hother hfresh
  refine ⟨hgrow.trans hmap', howned, hmap.addr_eq, hother, fun h => absurd h hdir, fun hne => absurd hbn hne, fun _ hne => ?_, hmap.full⟩
  obtain ⟨h1, h2, h3⟩ := hfresh hbn hne
  exact ⟨h1, fun hbit => h2 (hgrow.bits _ h1 hbit), h3⟩

theorem wp_bmapEntry {Q : Nat × Inode → Fs → Prop} (hi : Alloc sb node inum)
    (hbn : ¬ bn < NDIRECT) (hk : bn - NDIRECT < NINDIRECT) (hne : (node inum).addrs indirect ≠ 0)
    (hQ : ∀ addr ip' s', Mapped sb node inum bn s addr ip' s' → Q (addr, ip') s') : wp (do
      let a := ((← get).data ((node inum).addrs indirect)).load (4 * (bn - NDIRECT)) 4
      if a = 0 then
        let addr ← balloc sb
        if addr = 0 then
          return (0, node inum)
        else
          setBlock ((node inum).addrs indirect)
            (((← get).data ((node inum).addrs indirect)).store (4 * (bn - NDIRECT)) 4 addr)
          logWrite ((node inum).addrs indirect)
          return (addr, node inum)
      else
        return (a, node inum) : FsM (Nat × Inode)) Q s := by
  have hlt : bn < MAXFILE := by
    simp only [MAXFILE]
    omega
  have hblock : blockOf s.data (node inum) bn = entry s.data ((node inum).addrs indirect) (bn - NDIRECT) := by
    rw [blockOf_of_lt hlt, slotOf_ind hbn hk, slot, if_neg hne]
  rw [wp_bind, wp_get]
  dsimp only
  rw [← entry]
  split
  · rename_i hx
    rw [wp_bind]
    refine wp_balloc (fun hfull => ?_) fun b hb hfree => ?_
    · rw [if_pos rfl, wp_pure]
      have hmap := mapped_refl inum bn h fun _ => hfull
      rw [hblock, hx] at hmap
      exact hQ _ _ _ hmap
    · rw [if_neg (h.ne_zero_of_free hb hfree)]
      simp only [setBlock, logWrite, wp_bind, wp_get, wp_modify, wp_pure]
      exact hQ _ _ _ (mapped_entry h hi hbn hk hne hx hb hfree)
  · rename_i hx
    rw [wp_pure, ← hblock]
    exact hQ _ _ _ (mapped_refl inum bn h fun h0 => absurd (hblock ▸ h0) hx)

theorem wp_bmap {Q : Nat × Inode → Fs → Prop} (hi : Alloc sb node inum) (hip : node inum = ip)
    (hbn : bn < MAXFILE) (hQ : ∀ addr ip' s', Mapped sb node inum bn s addr ip' s' → Q (addr, ip') s') :
    wp (bmap sb ip bn) Q s := by
  subst hip
  rw [bmap]
  split
  · rename_i hdir
    have hblock : blockOf s.data (node inum) bn = (node inum).addrs ⟨bn, Nat.lt_succ_of_lt hdir⟩ := by
      rw [blockOf_of_lt hbn, slotOf_direct hdir, slot]
    dsimp only
    split
    · rename_i hx
      rw [wp_bind]
      refine wp_balloc (fun hfull => ?_) fun b hb hfree => ?_
      · rw [if_pos rfl, wp_pure]
        have hmap := mapped_refl inum bn h fun _ => hfull
        rw [hblock, hx] at hmap
        exact hQ _ _ _ hmap
      · rw [if_neg (h.ne_zero_of_free hb hfree), wp_pure]
        exact hQ _ _ _ (mapped_direct h hi hdir hx hb hfree)
    · rename_i hx
      rw [wp_pure, ← hblock]
      exact hQ _ _ _ (mapped_refl inum bn h fun h0 => absurd (hblock ▸ h0) hx)
  · rename_i hdir
    have hk : bn - NDIRECT < NINDIRECT := by
      simp only [MAXFILE] at hbn
      omega
    rw [if_pos hk]
    dsimp only
    split
    · rename_i hx
      have hblock : blockOf s.data (node inum) bn = 0 := by
        rw [blockOf_of_lt hbn, slotOf_ind hdir hk, slot, if_pos hx]
      rw [wp_bind]
      refine wp_balloc (fun hfull => ?_) fun b hb hfree => ?_
      · rw [if_pos rfl, wp_pure]
        have hmap := mapped_refl inum bn h fun _ => hfull
        rw [hblock] at hmap
        exact hQ _ _ _ hmap
      · have hb0 := h.ne_zero_of_free hb hfree
        rw [if_neg hb0]
        have hnode := wp_bmapEntry (Q := Q) ((h.taken hb hfree).link_addr (Set.notMem_empty b) hi hx
          fun k hk => taken_zero hk) ((alloc_update ((node inum).setAddr indirect b) hi rfl).mpr hi) hdir hk
        simp only [update_self, Inode.setAddr_self] at hnode
        exact hnode hb0 fun addr ip' s' hmap => hQ _ _ _ (mapped_newIndirect h hi hx hb hfree hmap hblock hdir)
    · rename_i hx
      rw [wp_bind, wp_pure, if_neg hx]
      rw [Inode.setAddr_eq_self rfl]
      exact wp_bmapEntry h hi hdir hk hx hQ

end

end Fs

end Xv6
