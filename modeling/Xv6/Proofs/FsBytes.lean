import Xv6.Proofs.FsBmap

/-!
# A file as bytes

`byteAt data ip pos` is the byte of the file at `pos`, and `NoHole` says that there is a block for each position below the
size. A block of a file is in no other file and is no indirect block (`Owned.block`), so that writing to it changes the bytes
of that block of that file and nothing else (`byteAt_update`). `readi` on a file without holes returns its bytes and changes
nothing (`wp_readi`).
-/

namespace Xv6

namespace Fs

open Prog

/-- The byte at `pos` of a file. -/
def byteAt (data : Nat → Bytes) (ip : Inode) (pos : Nat) : UInt8 := data (blockOf data ip (pos / BSIZE)) (pos % BSIZE)

/-- There is a block for each position below the size. -/
def NoHole (data : Nat → Bytes) (ip : Inode) : Prop := ∀ pos < ip.size, blockOf data ip (pos / BSIZE) ≠ 0

def bytes (data : Nat → Bytes) (ip : Inode) (off n : Nat) : List UInt8 := (List.range n).map fun k => byteAt data ip (off + k)

variable {sb : Super} {s s' : Fs} {data data' : Nat → Bytes} {node : Nat → Inode} {E : Set Nat} {i inum b bn addr pos off n : Nat}
  {ip ip' : Inode}

theorem lt_MAXFILE (h : blockOf data ip bn ≠ 0) : bn < MAXFILE := by
  by_contra hlt
  exact h (dif_neg hlt)

theorem NoHole.size_le (h : NoHole data ip) : ip.size ≤ MAXFILE * BSIZE := by
  by_contra hlt
  have := lt_MAXFILE (h (MAXFILE * BSIZE) (by omega))
  simp only [MAXFILE, NDIRECT, NINDIRECT, BSIZE] at this
  omega

namespace Owned

variable (h : Owned sb data node E)
include h

theorem block (hi : Alloc sb node i) (hne : blockOf data (node i) bn ≠ 0) :
    sb.nmeta ≤ blockOf data (node i) bn ∧ blockOf data (node i) bn < sb.size ∧ Bit sb data (blockOf data (node i) bn) := by
  have hlt := lt_MAXFILE hne
  rw [blockOf_of_lt hlt] at hne ⊢
  exact ⟨(h.slot_range hi hne).1, (h.slot_range hi hne).2, h.bit_of_slot hi hne⟩

theorem block_ne_indirect (hi : Alloc sb node i) (hne : blockOf data (node i) bn ≠ 0)
    {i' : Nat} (hi' : Alloc sb node i') : blockOf data (node i) bn ≠ (node i').addrs Inode.indirect := by
  have hlt := lt_MAXFILE hne
  rw [blockOf_of_lt hlt] at hne ⊢
  intro he
  have he : slot data (node i) _ = slot data (node i') (.addr Inode.indirect) := he
  exact slotOf_ne_indirect _ (h.slot_inj hi hi' hne he).2

theorem block_inj (hi : Alloc sb node i) (hne : blockOf data (node i) bn ≠ 0)
    {i' bn' : Nat} (hi' : Alloc sb node i') (he : blockOf data (node i) bn = blockOf data (node i') bn') :
    i = i' ∧ bn = bn' := by
  have hlt := lt_MAXFILE hne
  have hlt' := lt_MAXFILE (he ▸ hne)
  rw [blockOf_of_lt hlt] at hne he
  rw [blockOf_of_lt hlt'] at he
  obtain ⟨h1, h2⟩ := h.slot_inj hi hi' hne he
  exact ⟨h1, congrArg Fin.val (slotOf_inj h2)⟩

theorem slot_update (hi : Alloc sb node inum) (hne : blockOf data (node inum) bn ≠ 0) (m : Bytes)
    (hi' : Alloc sb node i) (x : Slot) :
    slot (Function.update data (blockOf data (node inum) bn) m) (node i) x = slot data (node i) x :=
  slot_congr (fun _ => Function.update_of_ne (h.block_ne_indirect hi hne hi').symm ..) x

theorem update (hi : Alloc sb node inum) (hne : blockOf data (node inum) bn ≠ 0) (m : Bytes) :
    Owned sb (Function.update data (blockOf data (node inum) bn) m) node E := by
  refine h.congr ?_ (holds_congr fun i hi' _ => Function.update_of_ne (h.block_ne_indirect hi hne hi').symm ..)
  intro b hb
  have := BBLOCK_lt hb
  have := (h.block hi hne).1
  rw [Bit, Bit, Function.update_of_ne (by omega)]

theorem byteAt_update (hi : Alloc sb node inum) (hne : blockOf data (node inum) bn ≠ 0) (m : Bytes)
    (pos : Nat) : byteAt (Function.update data (blockOf data (node inum) bn) m) (node inum) pos =
      if pos / BSIZE = bn then m (pos % BSIZE) else byteAt data (node inum) pos := by
  rw [byteAt, byteAt, blockOf_congr (h.slot_update hi hne m hi)]
  split
  · rename_i he
    rw [he, Function.update_self]
  · rename_i he
    rw [Function.update_of_ne]
    intro heq
    exact he (h.block_inj hi hne hi heq.symm).2.symm

end Owned

theorem Mapped.byteAt_eq (h : Mapped sb node inum bn s addr ip' s') (ho : Owned sb s.data node ∅) (hi : Alloc sb node inum)
    (hip : node inum = ip) (hne : blockOf s.data ip (pos / BSIZE) ≠ 0) : byteAt s'.data ip' pos = byteAt s.data ip pos := by
  subst hip
  obtain ⟨h1, h2, h3⟩ := ho.block hi hne
  rw [byteAt, byteAt, h.block_eq hne, (h.frame _ h1 h2 h3 (ho.block_ne_indirect hi hne hi) (by simp)).1]

/-! ### Reading -/

theorem wp_bmap_of_ne {Q : Nat × Inode → Fs → Prop} (hne : blockOf s.data ip bn ≠ 0)
    (hQ : Q (blockOf s.data ip bn, ip) s) : wp (bmap sb ip bn) Q s := by
  have hlt := lt_MAXFILE hne
  rw [blockOf_of_lt hlt] at hne hQ
  rw [bmap]
  split
  · rename_i hdir
    rw [slotOf_direct hdir, slot] at hne hQ
    dsimp only
    rw [if_neg hne, wp_pure]
    exact hQ
  · rename_i hdir
    have hk : bn - NDIRECT < NINDIRECT := by
      simp only [MAXFILE] at hlt
      omega
    rw [slotOf_ind hdir hk, slot] at hne hQ
    by_cases h0 : ip.addrs Inode.indirect = 0
    · rw [if_pos h0] at hne
      exact absurd rfl hne
    · rw [if_neg h0, entry] at hne hQ
      rw [if_pos hk, if_neg h0, wp_bind, wp_pure]
      dsimp only
      rw [if_neg h0, Inode.setAddr_eq_self rfl, wp_bind, wp_get, if_neg hne, wp_pure]
      exact hQ

theorem bytes_add (data : Nat → Bytes) (ip : Inode) (off m n : Nat) :
    bytes data ip off (m + n) = bytes data ip off m ++ bytes data ip (off + m) n := by
  simp only [bytes, List.range_add, List.map_append, List.map_map, Function.comp_def, add_assoc]

theorem slice_eq_bytes {m : Nat} (hm : m ≤ BSIZE - off % BSIZE) :
    slice (data (blockOf data ip (off / BSIZE))) (off % BSIZE) m = bytes data ip off m := by
  rw [slice, bytes]
  refine List.map_congr_left fun k hk => ?_
  have hk := List.mem_range.mp hk
  simp only [BSIZE] at hm
  have h1 : (off + k) / BSIZE = off / BSIZE := by
    simp only [BSIZE]
    omega
  have h2 : (off + k) % BSIZE = off % BSIZE + k := by
    simp only [BSIZE]
    omega
  rw [byteAt, h1, h2]

def Fits : Dst → Nat → Prop
  | .kernel, _ => True
  | .user room, n => n ≤ room

theorem eitherCopyout_eq {dst : Dst} {tot m : Nat} (h : Fits dst n) (hm : tot + m ≤ n) : eitherCopyout dst tot m = (true, m) := by
  cases dst with
  | kernel => rfl
  | user room => exact if_pos (le_trans hm h)

theorem wp_readLoop {dst : Dst} {turns tot : Nat} {out : List UInt8} {Q : Int × List UInt8 × Inode → Fs → Prop}
    (hturns : n ≤ tot + turns) (htot : tot ≤ n) (hfits : Fits dst n)
    (hmap : ∀ pos, off ≤ pos → pos < off + (n - tot) → blockOf s.data ip (pos / BSIZE) ≠ 0)
    (hQ : Q (n, out ++ bytes s.data ip off (n - tot), ip) s) : wp (readLoop sb dst n turns ip tot off out) Q s := by
  induction turns generalizing tot off out with
  | zero =>
    obtain rfl : tot = n := by omega
    rw [Nat.sub_self] at hQ
    rw [readLoop, wp_pure]
    simpa [bytes] using hQ
  | succ turns ih =>
    rw [readLoop]
    split
    · rename_i hlt
      rw [wp_bind]
      have hne := hmap off (le_rfl) (by omega)
      refine wp_bmap_of_ne hne ?_
      dsimp only
      rw [if_neg hne]
      generalize hm : min (n - tot) (BSIZE - off % BSIZE) = m
      have hm1 : m ≤ n - tot := by omega
      have hm2 : m ≤ BSIZE - off % BSIZE := by omega
      have hm0 : 0 < m := by
        simp only [BSIZE] at hm
        omega
      have hsplit : n - tot = m + (n - (tot + m)) := by omega
      rw [eitherCopyout_eq hfits (by omega)]
      simp only [wp_bind, wp_get, if_true, slice_eq_bytes hm2]
      refine ih (by omega) (by omega) (fun pos h1 h2 => hmap pos (by omega) (by omega)) ?_
      rw [List.append_assoc, ← bytes_add, ← hsplit]
      exact hQ
    · rename_i hge
      obtain rfl : tot = n := by omega
      rw [Nat.sub_self] at hQ
      rw [wp_pure]
      simpa [bytes] using hQ

/-- `readi` on a file without holes: the bytes up to the end of the file. -/
theorem wp_readi {dst : Dst} {Q : Int × List UInt8 × Inode → Fs → Prop} (hhole : NoHole s.data ip) (hoff : off ≤ ip.size)
    (hn : off + n < 2 ^ 32) (hfits : Fits dst (min n (ip.size - off)))
    (hQ : Q ((min n (ip.size - off) : Nat), bytes s.data ip off (min n (ip.size - off)), ip) s) :
    wp (readi sb ip dst off n) Q s := by
  rw [readi, if_neg (by rw [Nat.mod_eq_of_lt hn]; omega)]
  have hmin : (if off + n > ip.size then ip.size - off else n) = min n (ip.size - off) := by
    split <;> omega
  dsimp only
  rw [hmin]
  refine wp_readLoop (by omega) (Nat.zero_le _) hfits (fun pos h1 h2 => hhole pos (by omega)) ?_
  simpa using hQ

end Fs

end Xv6
