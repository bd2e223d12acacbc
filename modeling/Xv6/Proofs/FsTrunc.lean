import Xv6.Proofs.FsInode

/-!
# `itrunc`

The blocks of the file first lose their owner and are then freed one by one: `Freeing sb node inum s₀ R s` is the state when
the blocks in the slots `R` of the inode have still to be freed. Each of them is marked in the bitmap, so that `bfree` does
not panic, and at the end the file has no block and nothing is marked for it.
-/

namespace Xv6

namespace Fs

open Prog
open Inode (indirect)

def blocksIn (data : Nat → Bytes) (ip : Inode) (R : Set Slot) : Set Nat := { b | b ≠ 0 ∧ ∃ x ∈ R, slot data ip x = b }

def noBlocks (ip : Inode) : Inode := { ip with addrs := fun _ => 0 }

structure Freeing (sb : Super) (node : Nat → Inode) (inum : Nat) (s₀ : Fs) (R : Set Slot) (s : Fs) : Prop where
  owned : Owned sb s.data (Function.update node inum (noBlocks (node inum))) (blocksIn s₀.data (node inum) R)
  frame (b : Nat) (h : b < sb.bmapstart ∨ sb.nmeta ≤ b) : s.data b = s₀.data b

variable {sb : Super} {s s₀ : Fs} {data : Nat → Bytes} {node : Nat → Inode} {inum : Nat} {ip : Inode} {R R' : Set Slot} {x : Slot}

theorem slot_noBlocks (data : Nat → Bytes) (ip : Inode) (x : Slot) : slot data (noBlocks ip) x = 0 := by
  cases x with
  | addr j => rfl
  | ind j => simp [slot, noBlocks]

theorem blocksIn_empty : blocksIn data ip ∅ = ∅ := by
  simp [blocksIn]

namespace Freeing

theorem start (h : Owned sb s.data node ∅) (hi : Alloc sb node inum) : Freeing sb node inum s Set.univ s := by
  refine ⟨?_, fun _ _ => rfl⟩
  rw [← Set.union_empty (blocksIn s.data (node inum) Set.univ)]
  refine Ledger.unlink h ?_ ?_
  · rintro b ⟨hb, x, -, hx⟩
    exact ⟨(inum, x), hi, hx, hb⟩
  · rintro ⟨i, x⟩ b
    rw [Holds, alloc_update (noBlocks (node inum)) hi rfl]
    dsimp only
    by_cases hii : i = inum
    · subst hii
      rw [Function.update_self, slot_noBlocks]
      constructor
      · rintro ⟨-, rfl, hb⟩
        exact absurd rfl hb
      · rintro ⟨⟨-, hx, hb⟩, hnot⟩
        exact absurd ⟨hb, x, Set.mem_univ x, hx⟩ hnot
    · rw [Function.update_of_ne hii]
      constructor
      · intro hk
        refine ⟨hk, ?_⟩
        rintro ⟨hb, x', -, hx'⟩
        have hk' : Holds sb s.data node (inum, x') b := ⟨hi, hx', hb⟩
        exact hii (Prod.mk.inj (h.unique hk hk')).1
      · exact And.left

theorem congr (h : Freeing sb node inum s₀ R s) (he : ∀ x, slot s₀.data (node inum) x ≠ 0 → (x ∈ R' ↔ x ∈ R)) :
    Freeing sb node inum s₀ R' s := by
  have : blocksIn s₀.data (node inum) R' = blocksIn s₀.data (node inum) R := by
    refine Set.ext fun b => and_congr_right fun hb => exists_congr fun x => ?_
    constructor
    · rintro ⟨hx, rfl⟩
      exact ⟨(he x hb).mp hx, rfl⟩
    · rintro ⟨hx, rfl⟩
      exact ⟨(he x hb).mpr hx, rfl⟩
  refine ⟨?_, h.frame⟩
  rw [this]
  exact h.owned

theorem wp_slot {Q : Unit → Fs → Prop} (x : Slot) (h : Freeing sb node inum s₀ R s) (ho : Owned sb s₀.data node ∅)
    (hi : Alloc sb node inum) (hx : x ∈ R) (hne : slot s₀.data (node inum) x ≠ 0)
    (hQ : ∀ s', Freeing sb node inum s₀ (R \ {x}) s' → Q () s') :
    wp (bfree sb (slot s₀.data (node inum) x)) Q s := by
  have hmem : slot s₀.data (node inum) x ∈ blocksIn s₀.data (node inum) R := ⟨hne, x, hx, rfl⟩
  have hr := ho.slot_range hi hne
  refine wp_bfree (h.owned.mark_of_loose hmem) (hQ _ ⟨?_, ?_⟩)
  · have hset : blocksIn s₀.data (node inum) (R \ {x}) =
        blocksIn s₀.data (node inum) R \ {slot s₀.data (node inum) x} := by
      refine Set.ext fun b => ?_
      constructor
      · rintro ⟨hb, x', ⟨hx', hne'⟩, rfl⟩
        exact ⟨⟨hb, x', hx', rfl⟩, fun he => hne' (ho.slot_inj hi hi hb he).2⟩
      · rintro ⟨⟨hb, x', hx', rfl⟩, hne'⟩
        exact ⟨hb, x', ⟨hx', fun he => hne' (congrArg _ he)⟩, rfl⟩
    rw [hset]
    exact h.owned.freed hmem
  · intro b hb
    have := BBLOCK_lt hr.2
    have := bmapstart_le sb (slot s₀.data (node inum) x)
    rw [freed_of_ne (by omega), h.frame b hb]

end Freeing

/-! ### The two loops -/

def restDirect (l : List (Fin NDIRECT)) : Set Slot :=
  { x | ∀ i : Fin NDIRECT, x = .addr i.castSucc → i ∈ l }

def restAddrs (ip : Inode) (l : List (Fin NDIRECT)) : Inode :=
  { ip with addrs := fun j => if h : j.val < NDIRECT then if ⟨j.val, h⟩ ∈ l then ip.addrs j else 0 else ip.addrs j }

variable {i : Fin NDIRECT} {l : List (Fin NDIRECT)}

theorem mem_restDirect : x ∈ restDirect l ↔ ∀ i : Fin NDIRECT, x = .addr i.castSucc → i ∈ l := Iff.rfl

theorem restDirect_cons (hi : i ∉ l) : restDirect l = restDirect (i :: l) \ {.addr i.castSucc} := by
  refine Set.ext fun x => ?_
  rw [Set.mem_sdiff, Set.mem_singleton_iff, mem_restDirect, mem_restDirect]
  constructor
  · intro hx
    exact ⟨fun i' hi' => List.mem_cons_of_mem i (hx i' hi'), fun he => hi (hx i he)⟩
  · rintro ⟨hx, hne⟩ i' rfl
    exact (List.mem_cons.mp (hx i' rfl)).resolve_left fun he => hne (congrArg (fun i => Slot.addr (Fin.castSucc i)) he)

theorem restAddrs_castSucc (i : Fin NDIRECT) :
    (restAddrs ip l).addrs i.castSucc = if i ∈ l then ip.addrs i.castSucc else 0 := dif_pos i.isLt

theorem restAddrs_indirect (ip : Inode) (l : List (Fin NDIRECT)) : (restAddrs ip l).addrs indirect = ip.addrs indirect := by
  simp [restAddrs, indirect]

theorem restAddrs_self : (restAddrs ip (i :: l)).addrs i.castSucc = ip.addrs i.castSucc := by
  rw [restAddrs_castSucc, if_pos List.mem_cons_self]

theorem castSucc_ne_indirect (i : Fin NDIRECT) : i.castSucc ≠ indirect := Fin.castSucc_ne_last i

theorem inode_ext {addrs addrs' : Fin (NDIRECT + 1) → Nat} (h : addrs indirect = addrs' indirect)
    (h' : ∀ i : Fin NDIRECT, addrs i.castSucc = addrs' i.castSucc) : { ip with addrs := addrs } = { ip with addrs := addrs' } := by
  have : addrs = addrs' := funext fun j => Fin.lastCases h h' j
  rw [this]

theorem restAddrs_cons (hi : i ∉ l) : restAddrs ip l = (restAddrs ip (i :: l)).setAddr i.castSucc 0 := by
  refine inode_ext ?_ fun i' => ?_
  · exact ((Inode.setAddr_of_ne _ (castSucc_ne_indirect i).symm).trans (restAddrs_indirect ip _)).symm
  · refine (restAddrs_castSucc i').trans (Eq.trans ?_ (Function.update_apply ..).symm)
    by_cases hii : i' = i
    · rw [if_pos (congrArg _ hii), if_neg (hii ▸ hi)]
    · rw [if_neg fun he => hii (Fin.castSucc_inj.mp he), restAddrs_castSucc]
      exact if_congr (by simp [hii]) rfl rfl

theorem restAddrs_finRange : restAddrs ip (List.finRange NDIRECT) = ip := by
  refine inode_ext (restAddrs_indirect ip (List.finRange NDIRECT)) fun i => ?_
  exact (restAddrs_castSucc i).trans (if_pos (List.mem_finRange i))

theorem restAddrs_nil : (restAddrs ip []).setAddr indirect 0 = noBlocks ip := by
  refine inode_ext (Function.update_self ..) fun i => ?_
  exact (Inode.setAddr_of_ne _ (castSucc_ne_indirect i)).trans ((restAddrs_castSucc i).trans (if_neg List.not_mem_nil))

theorem wp_itruncDirect {Q : Inode → Fs → Prop} (h : Owned sb s.data node ∅) (hi : Alloc sb node inum)
    (hQ : ∀ s', Freeing sb node inum s (restDirect []) s' → Q (restAddrs (node inum) []) s') :
    wp (itruncDirect sb (node inum)) Q s := by
  rw [itruncDirect]
  refine wp_foldlM (fun l ip s' => l.Nodup ∧ ip = restAddrs (node inum) l ∧ Freeing sb node inum s (restDirect l) s')
    ?_ ?_ ⟨List.nodup_finRange _, restAddrs_finRange.symm, (Freeing.start h hi).congr fun x _ => by simp [restDirect]⟩
  · rintro i l ip s' ⟨hnd, rfl, hf⟩
    obtain ⟨hil, hnd⟩ := List.nodup_cons.mp hnd
    rw [restAddrs_self]
    split
    · rename_i hne
      have hmem : .addr i.castSucc ∈ restDirect (i :: l) := fun i' hi' => by
        rw [Fin.castSucc_inj.mp (Slot.addr.inj hi')]
        exact List.mem_cons_self
      rw [wp_bind]
      refine hf.wp_slot (.addr i.castSucc) h hi hmem hne fun s'' hf' => ?_
      rw [wp_pure]
      exact ⟨hnd, (restAddrs_cons hil).symm, restDirect_cons hil ▸ hf'⟩
    · rename_i hz
      rw [ne_eq, not_not] at hz
      rw [wp_pure]
      refine ⟨hnd, ?_, hf.congr fun x hx => ?_⟩
      · rw [restAddrs_cons hil, Inode.setAddr_eq_self (restAddrs_self.trans hz)]
      · rw [restDirect_cons hil, Set.mem_sdiff, Set.mem_singleton_iff]
        refine and_iff_left ?_
        rintro rfl
        exact hx hz
  · rintro ip s' ⟨-, rfl, hf⟩
    exact hQ s' hf

theorem addr_mem_restDirect (j : Fin (NDIRECT + 1)) : .addr j ∈ restDirect [] ↔ j = indirect := by
  constructor
  · intro hall
    induction j using Fin.lastCases with
    | last => rfl
    | cast i => exact absurd (hall i rfl) List.not_mem_nil
  · rintro rfl i hi
    exact absurd (Slot.addr.inj hi).symm (castSucc_ne_indirect i)

def restIndirect (l : List Nat) : Set Slot := { x | x = .addr indirect ∨ ∃ j : Fin NINDIRECT, j.val ∈ l ∧ x = .ind j }

theorem restIndirect_cons {j : Fin NINDIRECT} {l : List Nat} (hj : j.val ∉ l) :
    restIndirect l = restIndirect (j.val :: l) \ {.ind j} := by
  refine Set.ext fun x => ?_
  rw [Set.mem_sdiff, Set.mem_singleton_iff]
  constructor
  · rintro (rfl | ⟨j', hj', rfl⟩)
    · exact ⟨.inl rfl, by simp⟩
    · exact ⟨.inr ⟨j', List.mem_cons_of_mem _ hj', rfl⟩, fun he => hj (Slot.ind.inj he ▸ hj')⟩
  · rintro ⟨rfl | ⟨j', hj', rfl⟩, hne⟩
    · exact .inl rfl
    · exact .inr ⟨j', (List.mem_cons.mp hj').resolve_left fun he => hne (Fin.ext he ▸ rfl), rfl⟩

theorem wp_itruncIndirect {Q : Unit → Fs → Prop} (h : Owned sb s₀.data node ∅) (hi : Alloc sb node inum)
    (hne : (node inum).addrs indirect ≠ 0) (hf : Freeing sb node inum s₀ (restIndirect (List.range NINDIRECT)) s)
    (hQ : ∀ s', Freeing sb node inum s₀ (restIndirect []) s' → Q () s') :
    wp (itruncIndirect sb ((node inum).addrs indirect)) Q s := by
  rw [itruncIndirect]
  refine wp_foldlM (fun l _ s' => l.Nodup ∧ (∀ j ∈ l, j < NINDIRECT) ∧ Freeing sb node inum s₀ (restIndirect l) s')
    ?_ (fun _ s' hf => hQ s' hf.2.2) ⟨List.nodup_range, fun j hj => List.mem_range.mp hj, hf⟩
  rintro j l _ s' ⟨hnd, hlt, hf⟩
  obtain ⟨hjl, hnd'⟩ := List.nodup_cons.mp hnd
  have hlt' : ∀ j ∈ l, j < NINDIRECT := fun j' hj' => hlt j' (List.mem_cons_of_mem j hj')
  obtain ⟨k, rfl⟩ : ∃ k : Fin NINDIRECT, k.val = j := ⟨⟨j, hlt j List.mem_cons_self⟩, rfl⟩
  have hslot : (s'.data ((node inum).addrs indirect)).load (4 * k.val) 4 = slot s₀.data (node inum) (.ind k) := by
    rw [slot, if_neg hne, entry, hf.frame _ (.inr (h.indirect_le hi hne))]
  rw [wp_bind, wp_get]
  dsimp only
  rw [hslot]
  split
  · rename_i hnz
    have hmem : .ind k ∈ restIndirect (k.val :: l) := .inr ⟨k, List.mem_cons_self, rfl⟩
    exact hf.wp_slot (.ind k) h hi hmem hnz fun s'' hf' => ⟨hnd', hlt', restIndirect_cons hjl ▸ hf'⟩
  · rename_i hz
    rw [ne_eq, not_not] at hz
    rw [wp_pure]
    refine ⟨hnd', hlt', hf.congr fun x hx => ?_⟩
    rw [restIndirect_cons hjl, Set.mem_sdiff, Set.mem_singleton_iff]
    refine and_iff_left ?_
    rintro rfl
    exact hx hz

theorem wp_itrunc {Q : Inode → Fs → Prop} (h : Owned sb s.data node ∅) (hi : Alloc sb node inum) (hip : node inum = ip)
    (hQ : ∀ s', Freeing sb node inum s ∅ s' →
      Q { noBlocks ip with size := 0 } (s'.updated sb inum { noBlocks ip with size := 0 })) :
    wp (itrunc sb inum ip) Q s := by
  subst hip
  rw [itrunc, wp_bind]
  refine wp_itruncDirect h hi fun s₁ hf1 => ?_
  dsimp only
  rw [restAddrs_indirect]
  split
  · rename_i hne
    simp only [wp_bind]
    refine wp_itruncIndirect h hi hne (hf1.congr ?_) fun s₂ hf2 => ?_
    · intro x _
      cases x with
      | addr j =>
        rw [addr_mem_restDirect]
        simp [restIndirect]
      | ind j => simp [restIndirect, restDirect]
    · have hmem : .addr indirect ∈ restIndirect [] := .inl rfl
      rw [wp_bind]
      refine hf2.wp_slot (.addr indirect) h hi hmem hne fun s₃ hf3 => ?_
      rw [wp_bind, wp_pure, restAddrs_nil, wp_bind]
      refine wp_iupdate ?_
      rw [wp_pure]
      exact hQ s₃ (hf3.congr fun x _ => by simp [restIndirect])
  · rename_i hz
    rw [ne_eq, not_not] at hz
    rw [wp_bind, wp_pure, ← Inode.setAddr_eq_self ((restAddrs_indirect _ _).trans hz), restAddrs_nil, wp_bind]
    refine wp_iupdate ?_
    rw [wp_pure]
    refine hQ s₁ (hf1.congr fun x hx => ?_)
    cases x with
    | addr j =>
      rw [addr_mem_restDirect]
      refine ⟨fun hmem => hmem.elim, ?_⟩
      rintro rfl
      exact hx hz
    | ind j => exact absurd (if_pos hz) hx

end Fs

end Xv6
