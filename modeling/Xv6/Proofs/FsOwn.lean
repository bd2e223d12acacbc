import Xv6.Lib.Ledger
import Xv6.Proofs.FsBlocks

/-!
# Who owns a block

A block number stands in a slot of an inode: in `addrs` or in the indirect block (`slot`). The bitmap and the slots of the
allocated inodes are a ledger (`Owned`): the bit of a block is set exactly if the block holds meta-data, or stands in a
slot, or is in `E`, the blocks that are between `balloc` and a slot, or between a slot and `bfree`; and no block stands in two
slots. `node` are the inodes, which for an inode in memory need not be on the disk yet.

`Owned.link_addr` and `Owned.link_entry` are the two ways in which `bmap` puts a block into a slot.
-/

namespace Xv6

open Function
open Inode (indirect)

theorem Super.nmeta_pos (sb : Super) : 0 < sb.nmeta :=
  lt_of_lt_of_le (Nat.succ_pos _) sb.bitmap_le

namespace Inode

variable {ip : Inode} {j j' : Fin (NDIRECT + 1)} {b : Nat}

theorem setAddr_self (ip : Inode) : (ip.setAddr j b).addrs j = b := update_self ..

theorem setAddr_of_ne (ip : Inode) (h : j' ≠ j) : (ip.setAddr j b).addrs j' = ip.addrs j' := update_of_ne h ..

theorem setAddr_eq_self (h : ip.addrs j = b) : ip.setAddr j b = ip := by
  subst h
  rw [setAddr, update_eq_self]

end Inode

namespace Fs

/-! ### Slots -/

inductive Slot
  | addr (j : Fin (NDIRECT + 1))
  | ind (j : Fin NINDIRECT)
deriving DecidableEq

def entry (data : Nat → Bytes) (blk j : Nat) : Nat := (data blk).load (4 * j) 4

def slot (data : Nat → Bytes) (ip : Inode) : Slot → Nat
  | .addr j => ip.addrs j
  | .ind j => if ip.addrs indirect = 0 then 0 else entry data (ip.addrs indirect) j.val

def slotOf (bn : Fin MAXFILE) : Slot :=
  if h : bn.val < NDIRECT then .addr ⟨bn.val, Nat.lt_succ_of_lt h⟩
  else .ind ⟨bn.val - NDIRECT, by have := bn.isLt; simp only [MAXFILE] at this; omega⟩

/-- Block `bn` of a file, or 0. -/
def blockOf (data : Nat → Bytes) (ip : Inode) (bn : Nat) : Nat :=
  if h : bn < MAXFILE then slot data ip (slotOf ⟨bn, h⟩) else 0

/-- An inode that is in use. -/
def Alloc (sb : Super) (node : Nat → Inode) (i : Nat) : Prop := i < sb.ninodes ∧ (node i).type ≠ 0

/-- Slot `k.2` of inode `k.1` holds block `b`. -/
def Holds (sb : Super) (data : Nat → Bytes) (node : Nat → Inode) (k : Nat × Slot) (b : Nat) : Prop :=
  Alloc sb node k.1 ∧ slot data (node k.1) k.2 = b ∧ b ≠ 0

abbrev Owned (sb : Super) (data : Nat → Bytes) (node : Nat → Inode) (E : Set Nat) : Prop :=
  Ledger (· < sb.nmeta) (· < sb.size) (Bit sb data) (Holds sb data node) E

variable {sb : Super} {s : Fs} {data data' : Nat → Bytes} {node node' : Nat → Inode} {E : Set Nat} {i inum b bn : Nat} {x : Slot}
  {ip : Inode} {j : Fin (NDIRECT + 1)}

theorem slotOf_inj {bn bn' : Fin MAXFILE} (h : slotOf bn = slotOf bn') : bn = bn' := by
  rw [slotOf, slotOf] at h
  refine Fin.ext ?_
  split at h <;> split at h
  · simpa using h
  · cases h
  · cases h
  · simp only [Slot.ind.injEq, Fin.mk.injEq] at h
    omega

theorem slotOf_ne_indirect (bn : Fin MAXFILE) : slotOf bn ≠ .addr indirect := by
  rw [slotOf]
  split
  · rename_i h
    intro he
    have hval : bn.val = NDIRECT := congrArg Fin.val (Slot.addr.inj he)
    omega
  · simp

theorem slotOf_direct (h : bn < NDIRECT) (h' : bn < MAXFILE) : slotOf ⟨bn, h'⟩ = .addr ⟨bn, Nat.lt_succ_of_lt h⟩ := dif_pos h

theorem blockOf_of_lt (h : bn < MAXFILE) : blockOf data ip bn = slot data ip (slotOf ⟨bn, h⟩) := dif_pos h

theorem blockOf_congr (h : ∀ x, slot data' ip x = slot data ip x) (bn : Nat) : blockOf data' ip bn = blockOf data ip bn := by
  simp only [blockOf, h]

theorem slot_congr (h : ip.addrs indirect ≠ 0 → data' (ip.addrs indirect) = data (ip.addrs indirect))
    (x : Slot) : slot data' ip x = slot data ip x := by
  cases x with
  | addr j => rfl
  | ind j =>
    simp only [slot]
    split
    · rfl
    · rename_i hne
      rw [entry, entry, h hne]

theorem slot_setAddr (hj : j = indirect → ip.addrs indirect = 0 ∧ ∀ k < BSIZE, data b k = 0) (x : Slot) :
    slot data (ip.setAddr j b) x = if x = .addr j then b else slot data ip x := by
  cases x with
  | addr j' =>
    simp only [slot, Inode.setAddr, Slot.addr.injEq]
    by_cases h : j' = j
    · subst h
      simp
    · simp [h]
  | ind j' =>
    rw [if_neg (by simp)]
    simp only [slot]
    by_cases h : j = indirect
    · subst h
      obtain ⟨h0, hz⟩ := hj rfl
      rw [ip.setAddr_self, if_pos h0, entry, Bytes.load_eq_zero, ite_self]
      intro x _ hx
      have : j'.val < NINDIRECT := j'.isLt
      simp only [NINDIRECT, BSIZE] at this
      exact hz x (by simp only [BSIZE]; omega)
    · rw [ip.setAddr_of_ne (Ne.symm h)]

theorem slot_store {k : Nat} (hk : k < NINDIRECT) (hb : b < 2 ^ 32) (hne : ip.addrs indirect ≠ 0) (x : Slot) :
    slot (update data (ip.addrs indirect) ((data (ip.addrs indirect)).store (4 * k) 4 b)) ip x =
      if x = .ind ⟨k, hk⟩ then b else slot data ip x := by
  cases x with
  | addr j => rfl
  | ind j =>
    simp only [slot, if_neg hne, entry, update_self, Slot.ind.injEq, Fin.ext_iff]
    split
    · rename_i h
      rw [h, Bytes.load_store_of_lt (by omega)]
    · rename_i h
      rw [Bytes.load_store_of_disjoint (by omega)]

theorem alloc_update (ip : Inode) (hi : Alloc sb node inum) (ht : ip.type = (node inum).type) :
    Alloc sb (update node inum ip) i ↔ Alloc sb node i := by
  by_cases h : i = inum
  · subst h
    simp only [Alloc, update_self, ht]
  · simp only [Alloc, update_of_ne h]

namespace Owned

section

variable (h : Owned sb data node E)
include h

theorem slot_range (hi : Alloc sb node i) (hx : slot data (node i) x ≠ 0) :
    sb.nmeta ≤ slot data (node i) x ∧ slot data (node i) x < sb.size := by
  obtain ⟨h1, h2⟩ := h.held (k := (i, x)) ⟨hi, rfl, hx⟩
  exact ⟨not_lt.mp h2, h1⟩

theorem slot_inj {i' : Nat} {x' : Slot} (hi : Alloc sb node i) (hi' : Alloc sb node i')
    (hx : slot data (node i) x ≠ 0) (he : slot data (node i) x = slot data (node i') x') : i = i' ∧ x = x' := by
  have h1 : Holds sb data node (i, x) (slot data (node i) x) := ⟨hi, rfl, hx⟩
  have h2 : Holds sb data node (i', x') (slot data (node i) x) := ⟨hi', he.symm, hx⟩
  exact Prod.ext_iff.mp (h.unique h1 h2)

theorem bit_of_slot (hi : Alloc sb node i) (hx : slot data (node i) x ≠ 0) :
    Bit sb data (slot data (node i) x) := h.mark_of_held (k := (i, x)) ⟨hi, rfl, hx⟩

theorem nmeta_le_of_free (hb : b < sb.size) (hfree : ¬ Bit sb data b) : sb.nmeta ≤ b :=
  not_lt.mp (h.not_fixed_of_free hb hfree)

theorem ne_zero_of_free (hb : b < sb.size) (hfree : ¬ Bit sb data b) : b ≠ 0 := by
  have := h.nmeta_le_of_free hb hfree
  have := sb.nmeta_pos
  omega

theorem slot_ne_of_free (hb : b < sb.size) (hfree : ¬ Bit sb data b) (hi : Alloc sb node i) :
    slot data (node i) x ≠ b := by
  intro he
  exact h.not_held_of_free (k := (i, x)) hfree ⟨hi, he, h.ne_zero_of_free hb hfree⟩

end

theorem holds_congr (hind : ∀ i, Alloc sb node i → (node i).addrs indirect ≠ 0 →
    data' ((node i).addrs indirect) = data ((node i).addrs indirect)) (k : Nat × Slot) (b : Nat) :
    Holds sb data' node k b ↔ Holds sb data node k b := by
  rw [Holds, Holds]
  refine and_congr_right fun hi => ?_
  rw [slot_congr (hind k.1 hi)]

section

variable (h : Owned sb s.data node E)
include h

theorem indirect_taken (hb : b < sb.size) (hfree : ¬ Bit sb s.data b) (hi : Alloc sb node i)
    (hne : (node i).addrs indirect ≠ 0) :
    (s.taken sb b).data ((node i).addrs indirect) = s.data ((node i).addrs indirect) := by
  refine taken_of_ne ?_ (h.slot_ne_of_free (x := .addr indirect) hb hfree hi)
  have hr : sb.nmeta ≤ (node i).addrs indirect := (h.slot_range (x := .addr indirect) hi hne).1
  have := BBLOCK_lt hb
  omega

theorem slot_taken (hb : b < sb.size) (hfree : ¬ Bit sb s.data b) (hi : Alloc sb node i)
    (x : Slot) : slot (s.taken sb b).data (node i) x = slot s.data (node i) x :=
  slot_congr (h.indirect_taken hb hfree hi) x

theorem taken (hb : b < sb.size) (hfree : ¬ Bit sb s.data b) : Owned sb (s.taken sb b).data node (insert b E) := by
  have hmeta := h.nmeta_le_of_free hb hfree
  have hhold := holds_congr fun i hi hne => h.indirect_taken hb hfree hi hne
  exact (h.congr (fun _ _ => Iff.rfl) hhold).take hb hfree fun b' hb' => bit_taken hmeta hb'

theorem indirect_freed (hb : b < sb.size) (hi : Alloc sb node i) (hne : (node i).addrs indirect ≠ 0) :
    (s.freed sb b).data ((node i).addrs indirect) = s.data ((node i).addrs indirect) := by
  refine freed_of_ne ?_
  have hr : sb.nmeta ≤ (node i).addrs indirect := (h.slot_range (x := .addr indirect) hi hne).1
  have := BBLOCK_lt hb
  omega

theorem freed (hb : b ∈ E) : Owned sb (s.freed sb b).data node (E \ {b}) := by
  have hhold := holds_congr fun i hi hne => h.indirect_freed (h.loose hb).1 hi hne
  exact (h.congr (fun _ _ => Iff.rfl) hhold).give hb fun b' hb' => bit_freed

end

theorem link (h : Owned sb data node (insert b E)) (hb : b ∉ E) (hbit : ∀ b' < sb.size, Bit sb data' b' ↔ Bit sb data b')
    (hi : Alloc sb node inum) (ht : ip.type = (node inum).type) (hx : slot data (node inum) x = 0)
    (hself : ∀ x', slot data' ip x' = if x' = x then b else slot data (node inum) x')
    (hother : ∀ i, i ≠ inum → Alloc sb node i → ∀ x', slot data' (node i) x' = slot data (node i) x') :
    Owned sb data' (update node inum ip) E := by
  have hb0 : b ≠ 0 := by
    have hmeta : ¬ b < sb.nmeta := (h.loose (Set.mem_insert b E)).2.1
    have := sb.nmeta_pos
    omega
  refine (Ledger.link h hb (inum, x) ?_).congr hbit fun _ _ => Iff.rfl
  rintro ⟨i, x'⟩ b'
  rw [Holds, Holds, alloc_update ip hi ht]
  dsimp only
  by_cases hii : i = inum
  · subst hii
    rw [update_self, hself, Prod.mk.injEq]
    by_cases hxx : x' = x
    · subst hxx
      rw [if_pos rfl, hx]
      constructor
      · rintro ⟨-, rfl, -⟩
        exact .inl ⟨⟨rfl, rfl⟩, rfl⟩
      · rintro (⟨-, rfl⟩ | ⟨-, rfl, hne⟩)
        · exact ⟨hi, rfl, hb0⟩
        · exact absurd rfl hne
    · rw [if_neg hxx]
      simp [hxx]
  · rw [update_of_ne hii]
    constructor
    · rintro ⟨ha, he, hne⟩
      exact .inr ⟨ha, (hother i hii ha x').symm.trans he, hne⟩
    · rintro (⟨he, -⟩ | ⟨ha, he, hne⟩)
      · exact absurd (Prod.mk.inj he).1 hii
      · exact ⟨ha, (hother i hii ha x').trans he, hne⟩

theorem link_addr (h : Owned sb data node (insert b E)) (hb : b ∉ E) (hi : Alloc sb node inum)
    (hx : (node inum).addrs j = 0) (hz : ∀ k < BSIZE, data b k = 0) :
    Owned sb data (update node inum ((node inum).setAddr j b)) E :=
  link h hb (fun _ _ => Iff.rfl) hi rfl (x := .addr j) hx (slot_setAddr fun hj => ⟨hj ▸ hx, hz⟩) fun _ _ _ _ => rfl

theorem link_entry (h : Owned sb data node (insert b E)) (hb : b ∉ E) (hi : Alloc sb node inum) {k : Nat}
    (hk : k < NINDIRECT) (hne : (node inum).addrs indirect ≠ 0)
    (hx : entry data ((node inum).addrs indirect) k = 0) :
    Owned sb (update data ((node inum).addrs indirect)
      ((data ((node inum).addrs indirect)).store (4 * k) 4 b)) (update node inum (node inum)) E := by
  have hb' : b < sb.size := (h.loose (Set.mem_insert b E)).1
  have hsize := sb.size_lt
  have hblk : sb.nmeta ≤ (node inum).addrs indirect := (h.slot_range (x := .addr indirect) hi hne).1
  refine link h hb ?_ hi rfl (x := .ind ⟨k, hk⟩) ?_ (slot_store hk (by omega) hne) ?_
  · intro b' hb'
    have := BBLOCK_lt hb'
    rw [Bit, Bit, update_of_ne (by omega)]
  · rw [slot, if_neg hne]
    exact hx
  · intro i hii ha x'
    refine slot_congr (fun hne' => update_of_ne ?_ ..) x'
    intro he
    have he : slot data (node i) (.addr indirect) = slot data (node inum) (.addr indirect) := he
    exact hii (h.slot_inj (x := .addr indirect) ha hi hne' he).1

end Owned

end Fs

end Xv6
