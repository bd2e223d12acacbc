import Xv6.Proofs.FsBytes

/-!
# Inodes on the disk

`Inode.get` reads what `Inode.put` has written (`Inode.get_put_self`), and the inodes in the same block keep what they had
(`Inode.get_put_of_ne`). After `iupdate` the inode is on the disk as it is in memory, and no other inode, no file and no bit of
the bitmap has changed (`Updated`).
-/

namespace Xv6

namespace Inode

variable {m : Bytes} {a a' x : Nat} {ip : Inode} {addrs : Fin (NDIRECT + 1) → Nat} {l : List (Fin (NDIRECT + 1))}

theorem foldl_store_of_not_mem (hx : ¬ (a ≤ x ∧ x < a + 4 * (NDIRECT + 1))) :
    l.foldl (fun m j => m.store (a + 4 * j.val) 4 (addrs j)) m x = m x := by
  induction l generalizing m with
  | nil => rfl
  | cons j l ih =>
    have hj : j.val < NDIRECT + 1 := j.isLt
    rw [List.foldl_cons, ih, Bytes.store_of_not_mem (by omega)]

theorem load_foldl_store (h : ∀ j, addrs j < 2 ^ 32) (j : Fin (NDIRECT + 1)) :
    (l.foldl (fun m j => m.store (a + 4 * j.val) 4 (addrs j)) m).load (a + 4 * j.val) 4 =
      if j ∈ l then addrs j else m.load (a + 4 * j.val) 4 := by
  induction l generalizing m with
  | nil => rfl
  | cons k l ih =>
    rw [List.foldl_cons, ih]
    by_cases hl : j ∈ l
    · rw [if_pos hl, if_pos (List.mem_cons_of_mem k hl)]
    · rw [if_neg hl]
      by_cases hk : j = k
      · subst hk
        have := h j
        rw [if_pos List.mem_cons_self, Bytes.load_store_of_lt (by omega)]
      · have hne : j.val ≠ k.val := fun he => hk (Fin.ext he)
        rw [if_neg (by simp [hk, hl]), Bytes.load_store_of_disjoint (by omega)]

theorem load_putAddrs (h : ∀ j, addrs j < 2 ^ 32) (j : Fin (NDIRECT + 1)) :
    (putAddrs m a addrs).load (a + 4 * j.val) 4 = addrs j := by
  rw [putAddrs, load_foldl_store h, if_pos (List.mem_finRange j)]

theorem load_putAddrs_of_le {n : Nat} (h : x + n ≤ a) : (putAddrs m a addrs).load x n = m.load x n :=
  Bytes.load_congr fun _ _ _ => foldl_store_of_not_mem (by omega)

theorem put_of_not_mem (h : ¬ (a ≤ x ∧ x < a + dinodeSize)) : ip.put m a x = m x := by
  simp only [dinodeSize] at h
  rw [put, putAddrs, foldl_store_of_not_mem (by simp only [NDIRECT]; omega), Bytes.store_of_not_mem (by omega),
    Bytes.store_of_not_mem (by omega), Bytes.store_of_not_mem (by omega), Bytes.store_of_not_mem (by omega),
    Bytes.store_of_not_mem (by omega)]

/-- The numbers in an inode fit into their fields. -/
def Fits (ip : Inode) : Prop := ip.size < 2 ^ 32 ∧ ∀ j, ip.addrs j < 2 ^ 32

theorem get_put_self (h : ip.Fits) : get (ip.put m a) a = ip := by
  have hshort : ∀ v : UInt16, v.toNat < 256 ^ 2 := fun v => v.toNat_lt
  have hsize : ip.size < 256 ^ 4 := h.1
  obtain ⟨type, major, minor, nlink, size, addrs⟩ := ip
  simp only [get, put, mk.injEq]
  refine ⟨?_, ?_, ?_, ?_, ?_, ?_⟩
  iterate 4
    · rw [load_putAddrs_of_le (by omega)]
      repeat rw [Bytes.load_store_of_disjoint (by omega)]
      rw [Bytes.load_store_of_lt (hshort _), UInt16.ofNat_toNat]
  · rw [load_putAddrs_of_le (by omega), Bytes.load_store_of_lt hsize]
  · funext j
    exact load_putAddrs h.2 j

theorem get_congr {m' : Bytes} (h : ∀ x, a ≤ x → x < a + dinodeSize → m' x = m x) : get m' a = get m a := by
  have hload : ∀ b n, a ≤ b → b + n ≤ a + dinodeSize → m'.load b n = m.load b n :=
    fun b n h1 h2 => Bytes.load_congr fun x _ _ => h x (by omega) (by omega)
  simp only [get, mk.injEq]
  refine ⟨?_, ?_, ?_, ?_, ?_, ?_⟩
  · rw [hload a 2 (by omega) (by simp only [dinodeSize]; omega)]
  · rw [hload (a + 2) 2 (by omega) (by simp only [dinodeSize]; omega)]
  · rw [hload (a + 4) 2 (by omega) (by simp only [dinodeSize]; omega)]
  · rw [hload (a + 6) 2 (by omega) (by simp only [dinodeSize]; omega)]
  · rw [hload (a + 8) 4 (by omega) (by simp only [dinodeSize]; omega)]
  · funext j
    have hj : j.val < NDIRECT + 1 := j.isLt
    simp only [NDIRECT] at hj
    rw [hload (a + 12 + 4 * j.val) 4 (by omega) (by simp only [dinodeSize]; omega)]

theorem get_put_of_ne (h : a' + dinodeSize ≤ a ∨ a + dinodeSize ≤ a') : get (ip.put m a) a' = get m a' :=
  get_congr fun x h1 h2 => put_of_not_mem (by omega)

end Inode

namespace Fs

open Prog

variable {sb : Super} {s s' : Fs} {data data' : Nat → Bytes} {node : Nat → Inode} {E : Set Nat} {i inum : Nat} {ip : Inode}

theorem IBLOCK_lt (h : i < sb.ninodes) : sb.IBLOCK i < sb.bmapstart := by
  have := sb.inodes_le
  have := Nat.div_le_div_right (c := IPB) h.le
  rw [Super.IBLOCK]
  omega

def updated (sb : Super) (s : Fs) (inum : Nat) (ip : Inode) : Fs where
  data := Function.update s.data (sb.IBLOCK inum) (ip.put (s.data (sb.IBLOCK inum)) (inum % IPB * dinodeSize))
  logged := s.logged ++ [sb.IBLOCK inum]

theorem wp_iupdate {Q : Unit → Fs → Prop} (h : Q () (s.updated sb inum ip)) : wp (iupdate sb inum ip) Q s := by
  simp only [iupdate, setBlock, logWrite, wp_bind, wp_get, wp_modify]
  exact h

theorem updated_of_ne {b : Nat} (h : b ≠ sb.IBLOCK inum) : (s.updated sb inum ip).data b = s.data b :=
  Function.update_of_ne h ..

theorem updated_self : (s.updated sb inum ip).data (sb.IBLOCK inum) =
    ip.put (s.data (sb.IBLOCK inum)) (inum % IPB * dinodeSize) := Function.update_self ..

theorem dinode_updated_self (h : ip.Fits) : dinode sb (s.updated sb inum ip).data inum = ip := by
  rw [dinode, updated_self, Inode.get_put_self h]

theorem dinode_updated_of_ne (h : i ≠ inum) : dinode sb (s.updated sb inum ip).data i = dinode sb s.data i := by
  rw [dinode, dinode]
  by_cases hb : sb.IBLOCK i = sb.IBLOCK inum
  · rw [hb, updated_self]
    refine Inode.get_put_of_ne ?_
    have hb : i / IPB = inum / IPB := Nat.add_right_cancel hb
    simp only [IPB, BSIZE, dinodeSize] at hb ⊢
    omega
  · rw [updated_of_ne hb]

theorem bit_updated {b : Nat} (hi : inum < sb.ninodes) : Bit sb (s.updated sb inum ip).data b ↔ Bit sb s.data b := by
  have := IBLOCK_lt hi
  have := bmapstart_le sb b
  rw [Bit, Bit, updated_of_ne (by omega)]

theorem Owned.indirect_le (h : Owned sb data node E) (hi : Alloc sb node i) (hne : (node i).addrs Inode.indirect ≠ 0) :
    sb.nmeta ≤ (node i).addrs Inode.indirect := (h.slot_range (x := .addr Inode.indirect) hi hne).1

theorem Owned.updated (h : Owned sb s.data node E) (hi : inum < sb.ninodes) (ip : Inode) :
    Owned sb (s.updated sb inum ip).data node E := by
  have := IBLOCK_lt hi
  have := bmapstart_lt sb
  refine h.congr (fun b _ => bit_updated hi) (holds_congr fun i hi' hne => updated_of_ne ?_)
  have := h.indirect_le hi' hne
  omega

end Fs

end Xv6
