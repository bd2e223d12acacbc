import Xv6.Proofs.FsBytes

/-!
# The loop of `writei`

`either_copyin` copies the bytes up to the first one that cannot be read (`eitherCopyin_spec`). `Writing` is the state
between two rounds of the loop: the first `tot` bytes of the source are in the file at `off`, and nothing else has changed.
The loop ends with all bytes written, or with the disk full, or in the middle of a block with a byte of the source that
cannot be read (`Written`).
-/

namespace Xv6

open Function

/-! ### The source -/

namespace Src

/-- Byte `k` of the source, if it can be read. -/
def byte : Src → Nat → Option UInt8
  | .kernel m a, k => some (m (a + k))
  | .user pages va, k => pageByte pages (va + k)

def bytes (src : Src) : Bytes := fun k => (src.byte k).getD 0

end Src

theorem copyinPages_spec (pages : Nat → Option Bytes) {n : Nat} (m : Bytes) (dst va len : Nat) (hn : len ≤ n) :
    ∃ c ≤ len, (∀ k < c, (pageByte pages (va + k)).isSome) ∧ (c < len → pageByte pages (va + c) = none) ∧
      copyinPages pages n m dst va len = (decide (c = len), m.copy dst (fun a => (pageByte pages a).getD 0) va c) := by
  induction n generalizing m dst va len with
  | zero =>
    obtain rfl : len = 0 := by omega
    exact ⟨0, le_rfl, by omega, by omega, by simp [copyinPages, Bytes.copy_zero]⟩
  | succ n ih =>
    rw [copyinPages]
    split
    · rename_i h
      subst h
      exact ⟨0, le_rfl, by omega, by omega, by simp [Bytes.copy_zero]⟩
    · rename_i hlen
      have hpg : PGROUNDDOWN va / PGSIZE = va / PGSIZE := by
        simp only [PGROUNDDOWN, PGSIZE]
        omega
      dsimp only
      rw [hpg]
      cases hpage : pages (va / PGSIZE) with
      | none =>
        refine ⟨0, Nat.zero_le _, by omega, fun _ => ?_, ?_⟩
        · simp [pageByte, hpage]
        · simp [Bytes.copy_zero, Ne.symm hlen]
      | some page =>
        dsimp only
        generalize hk : min (PGSIZE - (va - PGROUNDDOWN va)) len = k
        simp only [PGROUNDDOWN, PGSIZE] at hk
        -- the bytes of this page
        have hbyte : ∀ i < k, pageByte pages (va + i) = some (page (i + (va - PGROUNDDOWN va))) := by
          intro i hi
          have h1 : (va + i) / PGSIZE = va / PGSIZE := by
            simp only [PGSIZE]
            omega
          have h2 : (va + i) % PGSIZE = i + (va - PGROUNDDOWN va) := by
            simp only [PGROUNDDOWN, PGSIZE]
            omega
          rw [pageByte, h1, hpage, Option.map_some, h2]
        have hcopy : m.copy dst page (va - PGROUNDDOWN va) k = m.copy dst (fun a => (pageByte pages a).getD 0) va k := by
          refine Bytes.copy_congr fun i hi => ?_
          rw [add_comm i va, hbyte i hi, Option.getD_some]
        obtain ⟨c, hc, hread, hstop, heq⟩ := ih (m.copy dst page (va - PGROUNDDOWN va) k) (dst + k)
          (PGROUNDDOWN va + PGSIZE) (len - k) (by omega)
        rw [heq]
        by_cases hkl : k = len
        · -- the last page
          obtain rfl : c = 0 := by omega
          refine ⟨k, by omega, fun i hi => ?_, by omega, ?_⟩
          · rw [hbyte i hi, Option.isSome_some]
          · rw [Bytes.copy_zero, hcopy]
            simp [hkl]
        · have hva : PGROUNDDOWN va + PGSIZE = va + k := by
            simp only [PGROUNDDOWN, PGSIZE]
            omega
          rw [hva] at hread hstop ⊢
          refine ⟨k + c, by omega, fun i hi => ?_, fun hlt => ?_, ?_⟩
          · by_cases hik : i < k
            · rw [hbyte i hik, Option.isSome_some]
            · have := hread (i - k) (by omega)
              rwa [show va + k + (i - k) = va + i by omega] at this
          · rw [← add_assoc]
            exact hstop (by omega)
          · rw [hcopy, Bytes.copy_copy]
            exact Prod.ext (decide_eq_decide.mpr (by omega)) rfl

theorem eitherCopyin_spec (src : Src) (tot : Nat) (m : Bytes) (dst len : Nat) :
    ∃ c ≤ len, (∀ k < c, (src.byte (tot + k)).isSome) ∧ (c < len → src.byte (tot + c) = none) ∧
      eitherCopyin src tot m dst len = (decide (c = len), m.copy dst src.bytes tot c) := by
  cases src with
  | kernel k a =>
    refine ⟨len, le_rfl, fun _ _ => rfl, by omega, ?_⟩
    rw [eitherCopyin, decide_eq_true rfl]
    refine Prod.ext rfl (Bytes.copy_congr fun i _ => ?_)
    simp only [Src.bytes, Src.byte, Option.getD_some]
    congr 1
    omega
  | user pages va =>
    obtain ⟨c, hc, hread, hstop, heq⟩ := copyinPages_spec pages m dst (va + tot) len (Nat.le_refl len)
    refine ⟨c, hc, fun k hk => ?_, fun hlt => ?_, ?_⟩
    · have := hread k hk
      rwa [add_assoc] at this
    · have := hstop hlt
      rwa [add_assoc] at this
    · rw [eitherCopyin, heq, Prod.mk.injEq]
      refine ⟨rfl, Bytes.copy_congr fun i _ => ?_⟩
      simp only [Src.bytes, Src.byte]
      rw [show i + (va + tot) = va + (i + tot) by omega]

namespace Fs

open Prog

variable {sb : Super} {s s₀ s₁ s' : Fs} {data : Nat → Bytes} {node : Nat → Inode} {E : Set Nat} {inum bn addr off n tot : Nat}
  {ip ip' : Inode} {src : Src}

/-! ### Writing to a block of a file -/

def written (s : Fs) (b : Nat) (m : Bytes) : Fs := { data := Function.update s.data b m, logged := s.logged ++ [b] }

/-- `c` bytes of the source are in the block for the position `off + tot`, and the block is not given to `log_write`. -/
def torn (s : Fs) (ip : Inode) (src : Src) (off tot c : Nat) : Fs :=
  let b := blockOf s.data ip ((off + tot) / BSIZE)
  { s with data := Function.update s.data b ((s.data b).copy ((off + tot) % BSIZE) src.bytes tot c) }

theorem mem_written {b b' : Nat} {m : Bytes} : b' ∈ (s.written b m).logged ↔ b' ∈ s.logged ∨ b' = b := by
  rw [written, List.mem_append, List.mem_singleton]

theorem written_of_ne {b b' : Nat} {m : Bytes} (h : b' ≠ b) : (s.written b m).data b' = s.data b' := update_of_ne h ..

section

variable (h : Owned sb s.data node ∅) (hi : Alloc sb node inum) (hip : node inum = ip)
include h hi hip

theorem blockOf_written (hne : blockOf s.data ip bn ≠ 0) (m : Bytes) (bn' : Nat) :
    blockOf (s.written (blockOf s.data ip bn) m).data ip bn' = blockOf s.data ip bn' := by
  subst hip
  exact blockOf_congr (h.slot_update hi hne m hi) bn'

theorem grow_written (hne : blockOf s.data ip bn ≠ 0) (m : Bytes) :
    Grow sb {bn} s ip (s.written (blockOf s.data ip bn) m) ip := by
  have hblock := blockOf_written h hi hip hne m
  subst hip
  have hmeta := (h.block hi hne).1
  have hstart := bmapstart_lt sb
  refine ⟨rfl, ?_, ?_, ?_, .inl rfl, ?_, ?_, ?_⟩
  · intro b hb hbit
    have := BBLOCK_lt hb
    rw [Bit, written_of_ne (by omega)]
    exact hbit
  · intro b hb
    exact written_of_ne (by omega)
  · intro b _ _ _ _ hW
    have hb := hW bn rfl
    exact ⟨written_of_ne hb, fun hmem => (mem_written.mp hmem).resolve_right hb⟩
  · intro bn'
    exact .inl (hblock bn')
  · intro b hb
    rw [mem_written]
    by_contra hnot
    simp only [not_or] at hnot
    exact hb (written_of_ne hnot.2)
  · intro b hb
    exact mem_written.mpr (.inl hb)

theorem owned_written (hne : blockOf s.data ip bn ≠ 0) (m : Bytes) :
    Owned sb (update s.data (blockOf s.data ip bn) m) node ∅ := by
  subst hip
  exact h.update hi hne m

theorem byteAt_copy (hne : blockOf s.data ip (off / BSIZE) ≠ 0) (m : Bytes) (t : Nat) {c : Nat}
    (hc : c ≤ BSIZE - off % BSIZE) (pos : Nat) : byteAt (update s.data (blockOf s.data ip (off / BSIZE))
      ((s.data (blockOf s.data ip (off / BSIZE))).copy (off % BSIZE) m t c)) ip pos =
      if off ≤ pos ∧ pos < off + c then m (pos - off + t) else byteAt s.data ip pos := by
  subst hip
  have hmod : BSIZE * (off / BSIZE) + off % BSIZE = off := Nat.div_add_mod ..
  have hmod' : BSIZE * (pos / BSIZE) + pos % BSIZE = pos := Nat.div_add_mod ..
  rw [h.byteAt_update hi hne]
  split
  · rename_i hbn
    rw [hbn] at hmod'
    rw [Bytes.copy]
    refine if_congr (by omega) ?_ ?_
    · rw [show pos % BSIZE - off % BSIZE + t = pos - off + t by omega]
    · rw [byteAt, hbn]
  · rename_i hbn
    rw [if_neg]
    intro hpos
    refine hbn ?_
    simp only [BSIZE] at hc hmod ⊢
    omega

end

/-! ### Between two rounds -/

def span (off tot : Nat) : Set Nat := { bn | ∃ pos, off ≤ pos ∧ pos < off + tot ∧ pos / BSIZE = bn }

/-- `tot` bytes of the source have been written to the file. -/
structure Writing (sb : Super) (node : Nat → Inode) (inum : Nat) (src : Src) (off n : Nat) (s₀ s : Fs) (ip : Inode)
    (tot : Nat) : Prop where
  grow : Grow sb (span off tot) s₀ (node inum) s ip
  owned : Owned sb s.data (Function.update node inum ip) ∅
  le : tot ≤ n
  aligned : tot = 0 ∨ tot = n ∨ (off + tot) % BSIZE = 0
  readable (k : Nat) (hk : k < tot) : (src.byte k).isSome
  covered (pos : Nat) (h : off ≤ pos) (h' : pos < off + tot) : blockOf s.data ip (pos / BSIZE) ≠ 0
  near (bn : Nat) (h : blockOf s.data ip bn ≠ blockOf s₀.data (node inum) bn) : off / BSIZE ≤ bn ∧ bn ≤ (off + tot) / BSIZE
  direct (h : (off + tot) / BSIZE < NDIRECT) : ip.addrs Inode.indirect = (node inum).addrs Inode.indirect
  bytes (pos : Nat) (h : blockOf s₀.data (node inum) (pos / BSIZE) ≠ 0 ∨ off ≤ pos ∧ pos < off + tot) :
    byteAt s.data ip pos = if off ≤ pos ∧ pos < off + tot then src.bytes (pos - off) else byteAt s₀.data (node inum) pos

namespace Writing

theorem start (h : Owned sb s.data node ∅) (inum : Nat) (src : Src) (off n : Nat) :
    Writing sb node inum src off n s s (node inum) 0 where
  grow := (Grow.refl sb s (node inum)).mono (Set.empty_subset _)
  owned := by
    rw [update_eq_self]
    exact h
  le := Nat.zero_le n
  aligned := .inl rfl
  readable k hk := absurd hk (Nat.not_lt_zero k)
  covered pos h h' := by omega
  near bn h := absurd rfl h
  direct _ := rfl
  bytes pos h := (if_neg (by omega)).symm

section

variable (h : Writing sb node inum src off n s₀ s ip tot)
include h

theorem alloc (hi : Alloc sb node inum) : Alloc sb (update node inum ip) inum :=
  (alloc_update ip hi (by rw [h.grow.fields])).mpr hi

theorem mapped_of {pos : Nat} (hpos : blockOf s₀.data (node inum) (pos / BSIZE) ≠ 0 ∨ off ≤ pos ∧ pos < off + tot) :
    blockOf s.data ip (pos / BSIZE) ≠ 0 := by
  rcases hpos with hne | ⟨h1, h2⟩
  · rw [h.grow.block_eq hne]
    exact hne
  · exact h.covered pos h1 h2

theorem mapped (hi : Alloc sb node inum)
    (hmap : Mapped sb (update node inum ip) inum ((off + tot) / BSIZE) s addr ip' s') :
    Writing sb node inum src off n s₀ s' ip' tot := by
  have hgrow := hmap.toGrow
  have howned := hmap.owned
  have hbyte : ∀ pos, blockOf s.data ip (pos / BSIZE) ≠ 0 → byteAt s'.data ip' pos = byteAt s.data ip pos :=
    fun pos hne => hmap.byteAt_eq h.owned (h.alloc hi) (update_self ..) hne
  have hother := hmap.other
  have hdirect := hmap.direct
  rw [update_self] at hgrow hother hdirect
  rw [update_idem] at howned
  refine ⟨h.grow.trans (hgrow.mono (Set.empty_subset _)), howned, h.le, h.aligned, h.readable, ?_, fun bn hne => ?_,
    fun hlt => (hdirect hlt).trans (h.direct hlt), ?_⟩
  · intro pos h1 h2
    have hne := h.covered pos h1 h2
    rw [hgrow.block_eq hne]
    exact hne
  · by_cases hbn : bn = (off + tot) / BSIZE
    · exact ⟨hbn ▸ Nat.div_le_div_right (Nat.le_add_right ..), hbn.le⟩
    · exact h.near bn (hother bn hbn ▸ hne)
  · intro pos hpos
    rw [hbyte pos (h.mapped_of hpos)]
    exact h.bytes pos hpos

theorem write (hi : Alloc sb node inum) (htot : tot < n)
    (hne : blockOf s.data ip ((off + tot) / BSIZE) ≠ 0) {m : Nat} (hm : m = min (n - tot) (BSIZE - (off + tot) % BSIZE))
    (hread : ∀ k < m, (src.byte (tot + k)).isSome) :
    Writing sb node inum src off n s₀ (s.written (blockOf s.data ip ((off + tot) / BSIZE))
      ((s.data (blockOf s.data ip ((off + tot) / BSIZE))).copy ((off + tot) % BSIZE) src.bytes tot m)) ip (tot + m) := by
  have hself : update node inum ip inum = ip := update_self ..
  have hpos : 0 < m := by
    simp only [BSIZE] at hm
    omega
  have hgrow := grow_written h.owned (h.alloc hi) hself hne
    ((s.data (blockOf s.data ip ((off + tot) / BSIZE))).copy ((off + tot) % BSIZE) src.bytes tot m)
  have hspan : {(off + tot) / BSIZE} ⊆ span off (tot + m) :=
    Set.singleton_subset_iff.mpr ⟨off + tot, by omega, by omega, rfl⟩
  have hspan' : span off tot ⊆ span off (tot + m) := by
    rintro bn ⟨pos, h1, h2, h3⟩
    exact ⟨pos, h1, by omega, h3⟩
  have hbyte := byteAt_copy h.owned (h.alloc hi) hself hne src.bytes tot (c := m) (by omega)
  have hdiv : (off + tot) / BSIZE ≤ (off + (tot + m)) / BSIZE := Nat.div_le_div_right (by omega)
  refine ⟨(h.grow.mono hspan').trans (hgrow.mono hspan), owned_written h.owned (h.alloc hi) hself hne _, by omega, ?_, ?_, ?_,
    fun bn hbn => ?_, fun hlt => h.direct (lt_of_le_of_lt hdiv hlt), ?_⟩
  · by_cases hlast : m = n - tot
    · exact .inr (.inl (by omega))
    · refine .inr (.inr ?_)
      simp only [BSIZE] at hm hlast ⊢
      omega
  · intro k hk
    by_cases hkt : k < tot
    · exact h.readable k hkt
    · have := hread (k - tot) (by omega)
      rwa [Nat.add_sub_cancel' (Nat.le_of_not_lt hkt)] at this
  · intro pos h1 h2
    have hold : blockOf s.data ip (pos / BSIZE) ≠ 0 := by
      by_cases hlt : pos < off + tot
      · exact h.covered pos h1 hlt
      · have : pos / BSIZE = (off + tot) / BSIZE := by
          simp only [BSIZE] at hm ⊢
          omega
        rw [this]
        exact hne
    rw [hgrow.block_eq hold]
    exact hold
  · rw [blockOf_written h.owned (h.alloc hi) hself hne] at hbn
    exact (h.near bn hbn).imp_right fun hle => hle.trans hdiv
  · intro pos hpos
    refine (hbyte pos).trans ?_
    by_cases hnew : off + tot ≤ pos ∧ pos < off + tot + m
    · rw [if_pos hnew, if_pos (by omega), show pos - (off + tot) + tot = pos - off by omega]
    · rw [if_neg hnew, h.bytes pos (hpos.imp_right fun _ => by omega)]
      exact if_congr (by omega) rfl rfl

end

end Writing

/-! ### The loop -/

inductive Written (sb : Super) (node : Nat → Inode) (inum : Nat) (src : Src) (off n : Nat) (s₀ : Fs) : Nat → Inode → Fs → Prop
  | all {ip : Inode} {s : Fs} (h : Writing sb node inum src off n s₀ s ip n) : Written sb node inum src off n s₀ n ip s
  /-- There is no block for the position `off + tot`. -/
  | full {tot : Nat} {ip : Inode} {s : Fs} (h : Writing sb node inum src off n s₀ s ip tot) (hlt : tot < n)
      (hblock : blockOf s.data ip ((off + tot) / BSIZE) = 0) (hfull : ∀ b < sb.size, Bit sb s.data b) :
      Written sb node inum src off n s₀ tot ip s
  /-- `c` bytes have been copied to a block that is not given to `log_write`. -/
  | fault {tot c ip s} (h : Writing sb node inum src off n s₀ s ip tot)
      (hblock : blockOf s.data ip ((off + tot) / BSIZE) ≠ 0) (hc : c < min (n - tot) (BSIZE - (off + tot) % BSIZE))
      (hread : ∀ k < c, (src.byte (tot + k)).isSome) (hstop : src.byte (tot + c) = none) :
      Written sb node inum src off n s₀ tot ip (s.torn ip src off tot c)

theorem wp_writeLoop {turns : Nat} {Q : Nat × Nat × Inode → Fs → Prop} (hi : Alloc sb node inum)
    (hoff : off + n ≤ MAXFILE * BSIZE) (h : Writing sb node inum src off n s₀ s ip tot) (hturns : n ≤ tot + turns)
    (hQ : ∀ tot' ip' s', Written sb node inum src off n s₀ tot' ip' s' → Q (tot', off + tot', ip') s') :
    wp (writeLoop sb src n turns ip tot (off + tot)) Q s := by
  induction turns generalizing tot ip s with
  | zero =>
    obtain rfl : tot = n := by
      have := h.le
      omega
    rw [writeLoop, wp_pure]
    exact hQ _ _ _ (.all h)
  | succ turns ih =>
    rw [writeLoop]
    split
    · rename_i hlt
      have hbn : (off + tot) / BSIZE < MAXFILE := by
        rw [Nat.div_lt_iff_lt_mul (by simp only [BSIZE]; omega)]
        omega
      rw [wp_bind]
      refine wp_bmap h.owned (h.alloc hi) (update_self ..) hbn fun addr ip' s' hmap => ?_
      have hw := h.mapped hi hmap
      have haddr := hmap.addr_eq
      dsimp only
      split
      · rename_i h0
        subst h0
        rw [wp_pure]
        exact hQ _ _ _ (.full hw hlt haddr (hmap.full rfl))
      · rename_i h0
        subst haddr
        rw [wp_bind, wp_get]
        obtain ⟨c, hc, hread, hstop, heq⟩ := eitherCopyin_spec src tot
          (s'.data (blockOf s'.data ip' ((off + tot) / BSIZE))) ((off + tot) % BSIZE)
          (min (n - tot) (BSIZE - (off + tot) % BSIZE))
        rw [heq]
        dsimp only
        simp only [setBlock, logWrite, wp_bind, wp_modify, decide_eq_true_eq]
        split
        · rename_i hall
          subst hall
          simp only [wp_bind, wp_modify]
          have hw' := hw.write hi hlt h0 rfl hread
          rw [add_assoc]
          exact ih hw' (by simp only [BSIZE]; omega)
        · rename_i hpart
          rw [wp_pure]
          exact hQ _ _ _ (.fault hw h0 (by omega) hread (hstop (by omega)))
    · rename_i hge
      obtain rfl : tot = n := by
        have := h.le
        omega
      rw [wp_pure]
      exact hQ _ _ _ (.all h)

end Fs

end Xv6
