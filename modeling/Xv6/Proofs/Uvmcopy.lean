import Xv6.Proofs.Growproc

/-!
# `uvmcopy`

`fork` copies the user pages of the parent one by one. The table that is filled grows page by page (`Grew`), and
the parent's table and pages are not among those that change, so each round finds them as the call did.
-/

namespace Xv6

open Prog

variable {K : Layout} {old new v n sz : Nat} {nodeO nodeN node : Nat → Nat → Option Nat} {s s' : Kmem} {L L' : List Nat}

/-- The pages that `uvmcopy` is to make: those of the table `node` in `s`. -/
def Pages.copy (s : Kmem) (node : Nat → Nat → Option Nat) : Pages :=
  ⟨fun v => PTE_FLAGS (leafOf s.mem node v), fun v i => s.mem (PTE2PA (leafOf s.mem node v) + i)⟩

theorem PTE_FLAGS_lt {e : Nat} : PTE_FLAGS e < 1024 := Nat.lt_succ_of_le Nat.and_le_right

theorem PTE_FLAGS_or_valid {e : Nat} (he : e &&& PTE_V ≠ 0) : PTE_FLAGS e ||| PTE_V = PTE_FLAGS e := by
  refine or_valid_eq PTE_FLAGS_lt ?_
  rwa [PTE_FLAGS, Nat.and_assoc, show 0x3FF &&& PTE_V = PTE_V by decide]

/-- The page-table pages of the new table are not pages of the old one. -/
structure TablesApart (s : Kmem) (nodeO nodeN : Nat → Nat → Option Nat) (n : Nat) : Prop where
  table : ∀ {l x p}, nodeO l x = some p → ∀ l' x', nodeN l' x' ≠ some p
  page : ∀ {v}, v < n → ∀ l x, nodeN l x ≠ some (PTE2PA (leafOf s.mem nodeO v))

section

variable (ho : UserSpace K old nodeO L s (· < npg sz)) (ha : TablesApart s nodeO nodeN (npg sz))
  (hg : Grew K new nodeN L s 0 (.copy s nodeO) node L' s' v)
include ho ha hg

theorem Grew.same_table {l x p : Nat} (hp : nodeO l x = some p) : SamePage s.mem s'.mem p :=
  hg.same (ho.sound.pool.tree.aligned hp) (ha.table hp) fun hL => ho.sound.pool.apart hL l x hp

theorem Grew.tree_old : PageTree s'.mem old nodeO :=
  ho.sound.pool.tree.of_same fun _ _ _ hp => hg.same_table ho ha hp

theorem Grew.leafOf_old : leafOf s'.mem nodeO = leafOf s.mem nodeO :=
  funext fun _ => leafOf_of_same fun _ _ hp => hg.same_table ho ha hp

theorem Grew.same_old {v' : Nat} (hv : v' < npg sz) : SamePage s.mem s'.mem (PTE2PA (leafOf s.mem nodeO v')) :=
  hg.same PTE2PA_aligned (ha.page hv) (ho.page_not_mem hv)

end

theorem Grew.wp_uncopy {Q : Bool → Kmem → Prop} {P : Pages} (hn : UserSpace K new nodeN L s (· < 0))
    (hg : Grew K new nodeN L s 0 P node L' s' v)
    (hQ : ∀ L'' s'', Grew K new nodeN L s 0 P node L'' s'' 0 → Q false s'') :
    wp (do uvmunmap K new 0 (v * PGSIZE / PGSIZE) true; return false) Q s' := by
  rw [wp_bind, Nat.mul_div_cancel _ (by decide), uvmunmap, if_neg (by decide), show (0 : Nat) = 0 * PGSIZE from rfl]
  refine wp_uvmunmapLoop_space hg.space (fun k hk => by omega) fun s'' L'' hspace hun => wp_pure.mpr (hQ L'' s'' ?_)
  exact hg.undo hn (hspace.congr_user fun x => by omega) hun

theorem wp_uvmcopyLoop_grew {Q : Bool → Kmem → Prop} (ho : UserSpace K old nodeO L s (· < npg sz))
    (hn : UserSpace K new nodeN L s (· < 0)) (ha : TablesApart s nodeO nodeN (npg sz))
    (hg : Grew K new nodeN L s 0 (.copy s nodeO) node L' s' v) (hle : v + n = npg sz)
    (hcount : L.length ≤ L'.length + 3 * v)
    (h1 : ∀ node' L'' s'', Grew K new nodeN L s 0 (.copy s nodeO) node' L'' s'' (npg sz) → Q true s'')
    (h0 : ∀ node' L'' s'', Grew K new nodeN L s 0 (.copy s nodeO) node' L'' s'' 0 → L.length < 3 * npg sz → Q false s'') :
    wp (uvmcopyLoop K old new n (v * PGSIZE)) Q s' := by
  induction n generalizing node L' s' v with
  | zero =>
    rw [uvmcopyLoop, wp_pure]
    rw [add_zero] at hle
    exact h1 node L' s' (hle ▸ hg)
  | succ n ih =>
    have hv : v < npg sz := by omega
    have hr := (ho.user hv).2
    have htree := hg.tree_old ho ha
    obtain ⟨q, hq⟩ := leafOf_ne_zero (valid_ne_zero hr.valid)
    have hq0 : q + 8 * (v % 512) ≠ 0 := by have := htree.ne_zero hq; omega
    have hload : s'.mem.load (q + 8 * (v % 512)) 8 = leafOf s.mem nodeO v := by
      rw [← leafOf_of_some hq, hg.leafOf_old ho ha]
    rw [uvmcopyLoop, wp_bind, wp_walk_leaf htree (ho.page_lt hv) hq]
    simp only [if_neg hq0, wp_bind, load64, wp_get, wp_pure, hload, if_neg hr.valid]
    refine wp_kalloc_pool hg.space.sound.pool (fun hL => ?_) fun c L'' hL => ?_
    · rw [if_pos rfl]
      rw [hL] at hcount
      exact hg.wp_uncopy hn fun L'' s'' hg' => h0 node L'' s'' hg' (lt_of_le_of_lt hcount (by simp; omega))
    · subst hL
      rw [List.length_cons] at hcount
      simp only [if_neg hg.space.sound.pool.chain.2.1, memmove, wp_bind, wp_modify]
      have hpage : IsPage K c := hg.space.page List.mem_cons_self
      -- the page that was taken is not the one that is copied
      have hne : PTE2PA (leafOf s.mem nodeO v) ≠ c := fun he => ho.page_not_mem hv (he ▸ hg.sub List.mem_cons_self)
      have hout : Outside s'.mem (s'.mem.fill c PGSIZE 5) c := outside_fill
      refine hg.wp_mappages ⟨hout.trans (outside_copy (le_rfl) (le_rfl)), rfl⟩ PTE_FLAGS_lt ?_
        (PTE_FLAGS_or_valid hr.valid).symm (fun i hi => ?_) (fun node' L' s₁ hg' hle' => ?_) fun node' L' s₁ hg' hle' => ?_
      · rw [PTE_FLAGS_or_valid hr.valid]
        exact hr.leaf
      · have h₁ := hout.samePage hpage.aligned PTE2PA_aligned hne (PTE2PA (leafOf s.mem nodeO v) + i) (by omega) (by omega)
        have h₂ := hg.same_old ho ha hv (PTE2PA (leafOf s.mem nodeO v) + i) (by omega) (by omega)
        show (s'.mem.fill c PGSIZE 5).copy c (s'.mem.fill c PGSIZE 5) _ PGSIZE (c + i) = _
        rw [Bytes.copy, if_pos (by omega), Nat.add_sub_cancel_left, add_comm i, h₁, h₂]
        rfl
      · simp only [Bool.not_true, Bool.false_eq_true, if_false]
        have hnext := ih hg' (by omega) (by omega)
        rwa [Nat.succ_mul] at hnext
      · simp only [Bool.not_false, if_true, wp_bind]
        refine wp_kfree hpage ?_
        exact hg'.wp_uncopy hn fun L'' s'' hg'' => h0 node' L'' s'' hg'' (by omega)

/-- What `uvmcopy` does. The old table and its pages are as before. With 0, the user pages of the new table are those
below `sz`, with the flags and the bytes of the old ones, in pages of the free list `L`; with -1 there are none, the
pages of `L` are still there, but for page-table pages, and there were less than three for each page of the user. -/
structure Copied (K : Layout) (old new sz : Nat) (nodeO : Nat → Nat → Option Nat) (L : List Nat) (s : Kmem) (ok : Bool)
    (s' : Kmem) : Prop where
  entries : ∀ v < 2 ^ 26, pteOf s'.mem old v = pteOf s.mem old v
  pages : ∀ v < npg sz, SamePage s.mem s'.mem (PTE2PA (pteOf s.mem old v))
  copied : ok = true → (∀ v < TRAPFRAME / PGSIZE, pteOf s'.mem new v &&& PTE_V ≠ 0 ↔ v * PGSIZE < PGROUNDUP sz) ∧
    ∀ v < npg sz, PTE_FLAGS (pteOf s'.mem new v) = PTE_FLAGS (pteOf s.mem old v) ∧
      (∀ i < PGSIZE, s'.mem (PTE2PA (pteOf s'.mem new v) + i) = s.mem (PTE2PA (pteOf s.mem old v) + i)) ∧
      PTE2PA (pteOf s'.mem new v) ∈ L ∧
      (∀ v' < npg sz, PTE2PA (pteOf s'.mem new v) = PTE2PA (pteOf s'.mem new v') → v = v') ∧
      (∀ v' < 2 ^ 26, pteOf s.mem old v' &&& PTE_V ≠ 0 → PTE2PA (pteOf s'.mem new v) ≠ PTE2PA (pteOf s.mem old v')) ∧
      ∀ l x, nodeO l x ≠ some (PTE2PA (pteOf s'.mem new v))
  undone : ok = false → (∀ v < TRAPFRAME / PGSIZE, pteOf s'.mem new v &&& PTE_V = 0) ∧
    L.length < 3 * npg sz ∧ ∃ node L', Pool new node L' s' ∧ ∀ p ∈ L, p ∈ L' ∨ ∃ l x, node l x = some p

theorem Grew.copied {ok : Bool} (ho : UserSpace K old nodeO L s (· < npg sz)) (ha : TablesApart s nodeO nodeN (npg sz))
    (hg : Grew K new nodeN L s 0 (.copy s nodeO) node L' s' (if ok then npg sz else 0))
    (hfew : ok = false → L.length < 3 * npg sz) : Copied K old new sz nodeO L s ok s' := by
  have hold : ∀ v < 2 ^ 26, pteOf s.mem old v = leafOf s.mem nodeO v := fun v hv => ho.sound.pool.tree.pteOf_eq hv
  refine ⟨fun v hv => ?_, fun v hv => ?_, fun hok => ?_, fun hok => ?_⟩
  · rw [(hg.tree_old ho ha).pteOf_eq hv, hg.leafOf_old ho ha, hold v hv]
  · rw [hold v (ho.page_lt hv)]
    exact hg.same_old ho ha hv
  · rw [hok, if_pos rfl] at hg
    refine ⟨fun v hv => ?_, fun v hv => ?_⟩
    · rw [hg.space.valid_iff hv, PGROUNDUP_eq, Nat.mul_lt_mul_right (by decide)]
    · have hnew : ∀ {v}, v < npg sz → pteOf s'.mem new v = leafOf s'.mem node v := fun hv =>
        hg.space.sound.pool.tree.pteOf_eq (hg.space.page_lt hv)
      obtain ⟨hmem, hflags, hbytes⟩ := hg.new v (Nat.zero_le v) hv
      rw [hnew hv, hold v (ho.page_lt hv)]
      refine ⟨hflags, hbytes, hmem, fun v' hv' he => ?_, fun v' hv' hvalid he => ?_, fun l x =>
        ho.sound.pool.apart hmem l x⟩
      · rw [hnew hv'] at he
        exact hg.space.alone hv (hg.space.user hv').2.valid he
      · rw [hold v' hv'] at hvalid he
        exact (ho.sound.leaves v' hvalid).2 (he ▸ hmem)
  · rw [hok, if_neg (by decide)] at hg
    refine ⟨fun v hv => ?_, hfew hok, node, L', hg.space.sound.pool, fun p hp => ?_⟩
    · by_contra hvalid
      exact absurd ((hg.space.valid_iff hv).mp hvalid) (Nat.not_lt_zero v)
    · rcases hg.back hp with hp | hp | ⟨v', h1, h2, -⟩
      · exact .inl hp
      · exact .inr hp
      · omega

/-- `uvmcopy` copies all of the user's memory, or nothing when there is not enough memory for it. -/
theorem uvmcopy_copied {K : Layout} {old new sz : Nat} {nodeO nodeN : Nat → Nat → Option Nat} {s : Kmem} {L : List Nat}
    (ho : UserSpace K old nodeO L s (· < npg sz)) (hn : UserSpace K new nodeN L s fun _ => False)
    (ha : TablesApart s nodeO nodeN (npg sz)) :
    wp (uvmcopy K old new sz) (Copied K old new sz nodeO L s) s := by
  have hn0 : UserSpace K new nodeN L s (· < 0) := hn.congr_user fun v => by simp
  rw [uvmcopy, show (0 : Nat) = 0 * PGSIZE from rfl]
  exact wp_uvmcopyLoop_grew ho hn0 ha (.refl hn0) (zero_add _) le_rfl
    (fun node' L' s' hg => hg.copied ho ha Bool.noConfusion) fun node' L' s' hg hfew => hg.copied ho ha fun _ => hfew

/-! ### A copy of one page -/

theorem load_leafTable {a : Nat} (h1 : 0x87FFB000 ≤ a) (h2 : a + 8 ≤ 0x87FFC000) : (leafTable 0).load a 8 = 0 := by
  rw [leafTable, Bytes.load_store_of_disjoint (by omega), smallTable, Bytes.load_store_of_disjoint (by omega),
    Bytes.load_store_of_disjoint (by omega), load_startMem (.inl ⟨h1, h2⟩)]

theorem userSpace_rootOnly : UserSpace smallLayout 0x87FFB000 (rootOnly 0x87FFB000) freePages
    ⟨leafTable 0, 0x87FFA000⟩ fun _ => False := by
  have htree : PageTree (leafTable 0) 0x87FFB000 (rootOnly 0x87FFB000) :=
    pageTree_rootOnly (by decide) (by decide) fun j hj => load_leafTable (by omega) (by omega)
  have hleaf : ∀ v, leafOf (leafTable 0) (rootOnly 0x87FFB000) v = 0 := fun v => leafOf_of_none (if_neg (by simp))
  refine ⟨⟨pool_leafTable htree fun hp => (of_rootOnly hp).2.2 ▸ le_rfl, fun v hv => absurd (by rw [hleaf]; rfl) hv⟩,
    userSpace_leafTable.page, False.elim, fun h => h.elim, fun _ _ => by rw [hleaf]; rfl⟩

theorem tablesApart_rootOnly :
    TablesApart ⟨leafTable 0, 0x87FFA000⟩ smallNode (rootOnly 0x87FFB000) (npg PGSIZE) := by
  refine ⟨fun hp l x hx => ?_, fun {v} hv l x hx => ?_⟩
  · obtain ⟨-, -, rfl⟩ := of_rootOnly hx
    rcases of_smallNode hp with he | he | he <;> exact absurd he (by decide)
  · have hv0 : v = 0 := Nat.lt_one_iff.mp hv
    obtain ⟨-, -, he⟩ := of_rootOnly hx
    rw [leafOf_leafTable (by decide), if_pos hv0] at he
    exact absurd he (by decide)

/-- The page of text is copied: the free list has a page for it and for two page-table pages. -/
theorem uvmcopy_copied_one : wp (uvmcopy smallLayout 0x87FFD000 0x87FFB000 PGSIZE) (fun ok s' => ok = true ∧
    Copied smallLayout 0x87FFD000 0x87FFB000 PGSIZE smallNode freePages ⟨leafTable 0, 0x87FFA000⟩ ok s')
    ⟨leafTable 0, 0x87FFA000⟩ :=
  (uvmcopy_copied userSpace_leafTable userSpace_rootOnly tablesApart_rootOnly).mono fun ok s' h =>
    ⟨Bool.eq_true_of_not_eq_false fun hf => absurd (h.undone hf).2.1 (by decide), h⟩

end Xv6
