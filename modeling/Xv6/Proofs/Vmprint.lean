import Xv6.Vmprint

/-!
# What `vmprint` prints

The leaves of a table are listed with their page numbers (`leaves`). `print_pagetable` prints them all, in their order,
each with its physical range, and with the last nine bits of its page number as the virtual address. So the lines are
right exactly when all leaves lie below page 512.
-/

namespace Xv6

variable {m : Bytes} {l t v w i e : Nat} {s : Kmem}

/-- The leaves of a table that covers the pages `w` with `w / 512 ^ (l + 1) = v`, with their page numbers. -/
def leaves (m : Bytes) : (l pagetable v : Nat) → List (Nat × Nat)
  | 0, t, v => (List.range 512).filterMap fun i =>
      if pteAt m t i &&& PTE_V ≠ 0 then some (v * 512 + i, pteAt m t i) else none
  | l + 1, t, v => (List.range 512).flatMap fun i =>
      if pteAt m t i &&& PTE_V ≠ 0 then leaves m l (PTE2PA (pteAt m t i)) (v * 512 + i) else []

/-! ### The walk -/

theorem PX_page : PX l (w * PGSIZE) = w / 512 ^ l % 512 := by
  rw [PX_eq, PGSIZE, pow_add, pow_mul, ← Nat.div_div_eq_div_mul, show 2 ^ 12 = 4096 from rfl, show 2 ^ 9 = 512 from rfl,
    Nat.mul_div_cancel _ (by decide)]

theorem walkLoop_eq_lookup : walkLoop (w * PGSIZE) false l t s = .ok ((lookup s.mem w l t).getD 0, s) := by
  induction l generalizing t with
  | zero =>
    have h0 : PX 0 (w * PGSIZE) = w % 512 := by rw [PX_page]; simp
    simp only [walkLoop, lookup, h0]
    rfl
  | succ l ih =>
    rw [lookup]
    by_cases hv : pteAt s.mem t (w / 512 ^ (l + 1) % 512) &&& PTE_V ≠ 0
    · rw [if_pos hv, ← ih, ← PX_page]
      rw [← PX_page] at hv
      exact congrFun (if_pos hv : (if _ then _ else _ : VM Nat) = _) s
    · rw [if_neg hv]
      rw [← PX_page] at hv
      exact congrFun (if_neg hv : (if _ then _ else _ : VM Nat) = _) s

theorem walk_eq_lookup (hw : w * PGSIZE < MAXVA) :
    walk t (w * PGSIZE) false s = .ok ((lookup s.mem w 2 t).getD 0, s) := by
  have hs : walk t (w * PGSIZE) false s = walkLoop (w * PGSIZE) false 2 t s := by
    unfold walk
    rw [if_neg (not_le.mpr hw)]
  rw [hs, walkLoop_eq_lookup]

theorem lookup_ne_zero {a : Nat} (h : WfTable m l t) (hl : lookup m w l t = some a) : a ≠ 0 := by
  induction l generalizing t with
  | zero =>
    cases hl
    have := h.1
    omega
  | succ l ih =>
    rw [lookup] at hl
    split at hl
    · rename_i hv
      exact ih (h.2 _ (Nat.mod_lt _ (by decide)) hv).2 hl
    · cases hl

theorem walkLeaf_iff (h : WfTable s.mem 2 t) : WalkLeaf s t (w * PGSIZE) e ↔
    w * PGSIZE < MAXVA ∧ ∃ a, lookup s.mem w 2 t = some a ∧ s.mem.load a 8 = e ∧ e &&& PTE_V ≠ 0 := by
  constructor
  · rintro ⟨a, hwalk, h0, hload, hv⟩
    have hw : w * PGSIZE < MAXVA := by
      by_contra hc
      have : walk t (w * PGSIZE) false s = .error .walk := by
        unfold walk
        rw [if_pos (not_lt.mp hc)]
        rfl
      rw [this] at hwalk
      cases hwalk
    rw [walk_eq_lookup hw] at hwalk
    refine ⟨hw, a, ?_, hload, hv⟩
    cases hl : lookup s.mem w 2 t with
    | none =>
      rw [hl] at hwalk
      cases hwalk
      exact absurd rfl h0
    | some b =>
      rw [hl] at hwalk
      cases hwalk
      rfl
  · rintro ⟨hw, a, hl, hload, hv⟩
    exact ⟨a, by rw [walk_eq_lookup hw, hl]; rfl, lookup_ne_zero h hl, hload, hv⟩

/-! ### The leaves -/

theorem mem_leaves : (w, e) ∈ leaves m l t v ↔
    w / 512 ^ (l + 1) = v ∧ ∃ a, lookup m w l t = some a ∧ m.load a 8 = e ∧ e &&& PTE_V ≠ 0 := by
  induction l generalizing t v with
  | zero =>
    simp only [leaves, List.mem_filterMap, List.mem_range, lookup, Option.some.injEq, exists_eq_left', Option.ite_none_right_eq_some,
      Prod.mk.injEq]
    constructor
    · rintro ⟨i, hi, hv, rfl, rfl⟩
      have hm : (v * 512 + i) % 512 = i := by omega
      refine ⟨by omega, ?_, hv⟩
      rw [hm]
      rfl
    · rintro ⟨rfl, rfl, hv⟩
      exact ⟨w % 512, Nat.mod_lt _ (by decide), hv, by omega, rfl⟩
  | succ l ih =>
    have hdiv : w / 512 ^ (l + 1 + 1) = w / 512 ^ (l + 1) / 512 := by rw [Nat.div_div_eq_div_mul, ← pow_succ]
    simp only [leaves, List.mem_flatMap, List.mem_range, lookup]
    constructor
    · rintro ⟨i, hi, hmem⟩
      split at hmem
      · rename_i hv
        obtain ⟨hw, hrest⟩ := ih.mp hmem
        have hm : w / 512 ^ (l + 1) % 512 = i := by omega
        refine ⟨by omega, ?_⟩
        rw [hm, if_pos hv]
        exact hrest
      · cases hmem
    · rintro ⟨hw, a, hl, hrest⟩
      split at hl
      · rename_i hv
        refine ⟨w / 512 ^ (l + 1) % 512, Nat.mod_lt _ (by decide), ?_⟩
        rw [if_pos hv]
        exact ih.mpr ⟨by omega, a, hl, hrest⟩
      · cases hl

theorem leaves_sorted : (leaves m l t v).Pairwise fun x y => x.1 < y.1 := by
  induction l generalizing t v with
  | zero =>
    rw [leaves, List.pairwise_filterMap]
    refine List.pairwise_lt_range.imp ?_
    intro i j hij x hx y hy
    simp only [Option.ite_none_right_eq_some, Option.some.injEq] at hx hy
    rw [← hx.2, ← hy.2]
    exact Nat.add_lt_add_left hij _
  | succ l ih =>
    rw [leaves, List.pairwise_flatMap]
    constructor
    · intro i _
      split
      · exact ih
      · exact .nil
    · refine List.pairwise_lt_range.imp ?_
      -- the page numbers below entry `i` have the prefix `v * 512 + i`
      have hpre : ∀ i, ∀ x ∈ (if pteAt m t i &&& PTE_V ≠ 0 then leaves m l (PTE2PA (pteAt m t i)) (v * 512 + i) else []),
          x.1 / 512 ^ (l + 1) = v * 512 + i := by
        intro i x hx
        split at hx
        · exact (mem_leaves.mp hx).1
        · cases hx
      intro i j hij x hx y hy
      by_contra hc
      have := Nat.div_le_div_right (c := 512 ^ (l + 1)) (not_lt.mp hc)
      rw [hpre i x hx, hpre j y hy] at this
      omega

/-! ### The lines -/

/-- What the line of a leaf says: of the page number, only the index at the last level. -/
def printed (x : Nat × Nat) : LeafRange := pageRange (x.1 % 512 * PGSIZE) x.2

theorem mapM_eq_some_map {α β : Type} {f : α → Option β} {g : α → β} {xs : List α} (h : ∀ x ∈ xs, f x = some (g x)) :
    xs.mapM f = some (xs.map g) := by
  induction xs with
  | nil => rfl
  | cons x xs ih =>
    rw [List.mapM_cons, h x (by simp), ih fun y hy => h y (by simp [hy])]
    rfl

theorem leafRange_flatten {xs : List Nat} {f : Nat → List VmLine} :
    (xs.map f).flatten.filterMap VmLine.leafRange = xs.flatMap fun i => (f i).filterMap VmLine.leafRange := by
  rw [← List.flatMap_def, List.filterMap_flatMap]

theorem printPagetable_leaves (h : WfTable m l t) (lev v : Nat) : ∃ lines, printPagetable m (l + 1) t lev = some lines ∧
    lines.filterMap VmLine.leafRange = (leaves m l t v).map printed := by
  induction l generalizing t lev v with
  | zero =>
    have hent : ∀ i ∈ List.range 512, printEntry m (printPagetable m 0) t lev i = some (
        if pteAt m t i &&& PTE_V ≠ 0 then [.leaf lev i (pageRange (i * PGSIZE) (pteAt m t i))] else []) := by
      intro i hi
      unfold printEntry
      by_cases hv : pteAt m t i &&& PTE_V ≠ 0
      · rw [if_pos hv, if_pos hv, if_pos (h.2 i (List.mem_range.mp hi) hv), Nat.shiftLeft_eq]
        rfl
      · rw [if_neg hv, if_neg hv]
    refine ⟨_, by rw [printPagetable, mapM_eq_some_map hent]; rfl, ?_⟩
    rw [leafRange_flatten, leaves, List.map_filterMap, List.filterMap_eq_flatMap_toList]
    refine List.flatMap_congr fun i hi => ?_
    have hm : (v * 512 + i) % 512 = i := by have := List.mem_range.mp hi; omega
    by_cases hv : pteAt m t i &&& PTE_V ≠ 0
    · rw [if_pos hv, if_pos hv]
      simp [printed, VmLine.leafRange, hm]
    · rw [if_neg hv, if_neg hv]
      rfl
  | succ l ih =>
    have hsub : ∀ i, ∃ lines, i < 512 → pteAt m t i &&& PTE_V ≠ 0 →
        printPagetable m (l + 1) (PTE2PA (pteAt m t i)) (lev + 1) = some lines ∧
        lines.filterMap VmLine.leafRange = (leaves m l (PTE2PA (pteAt m t i)) (v * 512 + i)).map printed := by
      intro i
      by_cases hi : i < 512 ∧ pteAt m t i &&& PTE_V ≠ 0
      · obtain ⟨lines, hlines⟩ := ih (h.2 i hi.1 hi.2).2 (lev + 1) (v * 512 + i)
        exact ⟨lines, fun _ _ => hlines⟩
      · exact ⟨[], fun h1 h2 => absurd ⟨h1, h2⟩ hi⟩
    choose sub hsub using hsub
    have hent : ∀ i ∈ List.range 512, printEntry m (printPagetable m (l + 1)) t lev i = some (
        if pteAt m t i &&& PTE_V ≠ 0 then .table lev i (pteAt m t i) (PTE2PA (pteAt m t i)) :: sub i else []) := by
      intro i hi
      unfold printEntry
      by_cases hv : pteAt m t i &&& PTE_V ≠ 0
      · have hi := List.mem_range.mp hi
        rw [if_pos hv, if_pos hv, if_neg (not_not.mpr (h.2 i hi hv).1), (hsub i hi hv).1]
        rfl
      · rw [if_neg hv, if_neg hv]
    refine ⟨_, by rw [printPagetable, mapM_eq_some_map hent]; rfl, ?_⟩
    rw [leafRange_flatten, leaves, List.map_flatMap]
    refine List.flatMap_congr fun i hi => ?_
    by_cases hv : pteAt m t i &&& PTE_V ≠ 0
    · rw [if_pos hv, if_pos hv, List.filterMap_cons_none rfl, (hsub i (List.mem_range.mp hi) hv).2]
    · rw [if_neg hv, if_neg hv]
      rfl

/-! ### The ranges that are printed -/

theorem mem_leaves_root (hw : w < 512 ^ 3) : (w, e) ∈ leaves m 2 t 0 ↔
    ∃ a, lookup m w 2 t = some a ∧ m.load a 8 = e ∧ e &&& PTE_V ≠ 0 := by
  rw [mem_leaves]
  exact and_iff_right (Nat.div_eq_of_lt hw)

theorem lt_of_mem_leaves {x : Nat × Nat} (h : x ∈ leaves m 2 t 0) : x.1 < 512 ^ 3 := by
  have := (mem_leaves.mp h).1
  exact Nat.lt_of_div_eq_zero (by decide) this

theorem printed_of_low {x : Nat × Nat} (hx : x.1 < 512) : printed x = pageRange (x.1 * PGSIZE) x.2 := by
  rw [printed, Nat.mod_eq_of_lt hx]

theorem reports_of_low {lines : List VmLine} (h : WfTable s.mem 2 t)
    (hl : lines.filterMap VmLine.leafRange = (leaves s.mem 2 t 0).map printed)
    (hlow : ∀ x ∈ leaves s.mem 2 t 0, x.1 < 512) : Reports s t lines where
  sorted := by
    rw [hl, List.pairwise_map]
    refine leaves_sorted.imp_of_mem ?_
    intro x y hx hy hxy
    rw [printed_of_low (hlow x hx), printed_of_low (hlow y hy)]
    exact Nat.mul_lt_mul_of_pos_right hxy (by decide)
  sound := by
    intro r hr
    rw [hl] at hr
    obtain ⟨⟨w, e⟩, hmem, rfl⟩ := List.mem_map.mp hr
    have hw := hlow _ hmem
    refine ⟨w, e, (walkLeaf_iff h).mpr ⟨?_, (mem_leaves.mp hmem).2⟩, printed_of_low hw⟩
    exact lt_trans (Nat.mul_lt_mul_of_pos_right hw (by decide)) (by decide)
  complete := by
    intro w e hwalk
    obtain ⟨hw, hleaf⟩ := (walkLeaf_iff h).mp hwalk
    have hlt : w < 512 ^ 3 := by simp only [PGSIZE, MAXVA] at hw; omega
    have hmem := (mem_leaves_root hlt).mpr hleaf
    rw [hl, ← printed_of_low (x := (w, e)) (hlow _ hmem)]
    exact List.mem_map_of_mem hmem

theorem low_of_reports {lines : List VmLine} (h : WfTable s.mem 2 t)
    (hl : lines.filterMap VmLine.leafRange = (leaves s.mem 2 t 0).map printed) (hr : Reports s t lines) :
    ∀ x ∈ leaves s.mem 2 t 0, x.1 < 512 := by
  -- the line of a leaf at page `w` shows page `w % 512`, which is a leaf with a line of its own
  intro x hx
  have hsort := hr.sorted
  rw [hl, List.pairwise_map] at hsort
  have hline : printed x ∈ lines.filterMap VmLine.leafRange := by rw [hl]; exact List.mem_map_of_mem hx
  obtain ⟨w, e, hwalk, heq⟩ := hr.sound _ hline
  have hva : x.1 % 512 = w := Nat.eq_of_mul_eq_mul_right (show 0 < PGSIZE by decide) (congrArg LeafRange.va heq)
  have hw : w < 512 := by rw [← hva]; exact Nat.mod_lt _ (by decide)
  have hmem : (w, e) ∈ leaves s.mem 2 t 0 :=
    (mem_leaves_root (lt_trans hw (by decide))).mpr ((walkLeaf_iff h).mp hwalk).2
  have hsame : (printed x).va = (printed (w, e)).va := by
    rw [printed_of_low (x := (w, e)) hw, heq]
  have hnodup : ((leaves s.mem 2 t 0).map fun x => (printed x).va).Nodup :=
    List.pairwise_map.mpr (hsort.imp ne_of_lt)
  rw [List.inj_on_of_nodup_map hnodup hx hmem hsame]
  exact hw

/-- `print_pagetable` returns, and its leaf lines are right exactly for the tables whose leaves all lie below page 512. -/
theorem vmprint_reports (s : Kmem) (t : Nat) (h : WfTable s.mem 2 t) : ∃ lines, printPagetable s.mem 3 t 0 = some lines ∧
    (Reports s t lines ↔ LowLeaves s.mem t) := by
  obtain ⟨lines, hprint, hl⟩ := printPagetable_leaves h 0 0
  refine ⟨lines, hprint, ?_⟩
  have hlow : LowLeaves s.mem t ↔ ∀ x ∈ leaves s.mem 2 t 0, x.1 < 512 := by
    constructor
    · intro hlow x hx
      obtain ⟨-, a, ha, hload, hv⟩ := mem_leaves.mp hx
      exact hlow x.1 a (lt_of_mem_leaves hx) ha (by rw [hload]; exact hv)
    · intro hlow w a hw ha hv
      exact hlow (w, _) ((mem_leaves_root hw).mpr ⟨a, ha, rfl, hv⟩)
  rw [hlow]
  exact ⟨low_of_reports h hl, reports_of_low h hl⟩

/-! ### A table with one leaf -/

def userPte : Nat := mkPte 0x87000000 (PTE_V ||| PTE_R ||| PTE_W ||| PTE_U)

/-- A root at `0x80001000` with one leaf, below its entry 0 and entry `j` of the next table. -/
def oneLeaf (j : Nat) : Bytes :=
  ((Bytes.store (fun _ => 0) 0x80001000 8 (mkPte 0x80002000 PTE_V)).store (0x80002000 + 8 * j) 8
    (mkPte 0x80003000 PTE_V)).store 0x80003000 8 userPte

section
variable {j : Nat}

theorem pteAt_store {e : Nat} (he : e < 256 ^ 8) (i j : Nat) :
    pteAt (m.store (t + 8 * j) 8 e) t i = if i = j then e else pteAt m t i := by
  unfold pteAt
  split
  · rename_i h
    rw [h, Bytes.load_store_of_lt he]
  · exact Bytes.load_store_of_disjoint (by omega)

theorem pteAt_store_other {u i j : Nat} (hi : i < 512) (hj : j < 512) (ht : t + PGSIZE ≤ u ∨ u + PGSIZE ≤ t) :
    pteAt (m.store (u + 8 * j) 8 e) t i = pteAt m t i := by
  unfold PGSIZE at ht
  exact Bytes.load_store_of_disjoint (by omega)

theorem pteAt_zero : pteAt (fun _ => 0) t i = 0 := Bytes.load_eq_zero fun _ _ _ => rfl

theorem oneLeaf_root (hj : j < 512) (hi : i < 512) :
    pteAt (oneLeaf j) 0x80001000 i = if i = 0 then mkPte 0x80002000 PTE_V else 0 := by
  have hlt : mkPte 0x80002000 PTE_V < 256 ^ 8 := mkPte_lt (by decide) (by decide)
  have h0 := pteAt_store (m := fun _ => 0) (t := 0x80001000) hlt i 0
  rw [pteAt_zero] at h0
  rw [← h0]
  exact (pteAt_store_other (u := 0x80003000) (j := 0) hi (by decide) (by decide)).trans
    (pteAt_store_other hi hj (by decide))

theorem oneLeaf_mid (hi : i < 512) :
    pteAt (oneLeaf j) 0x80002000 i = if i = j then mkPte 0x80003000 PTE_V else 0 := by
  refine (pteAt_store_other (u := 0x80003000) (j := 0) hi (by decide) (by decide)).trans ?_
  rw [pteAt_store (mkPte_lt (by decide) (by decide))]
  refine if_congr Iff.rfl rfl ?_
  rw [← pteAt_zero (t := 0x80002000) (i := i)]
  exact pteAt_store_other (u := 0x80001000) (j := 0) hi (by decide) (by decide)

theorem oneLeaf_low (hj : j < 512) (hi : i < 512) : pteAt (oneLeaf j) 0x80003000 i = if i = 0 then userPte else 0 := by
  refine (pteAt_store (t := 0x80003000) (mkPte_lt (by decide) (by decide)) i 0).trans ?_
  refine if_congr Iff.rfl rfl ?_
  rw [pteAt_store_other hi hj (by decide), ← pteAt_zero (t := 0x80003000) (i := i)]
  exact pteAt_store_other (u := 0x80001000) (j := 0) hi (by decide) (by decide)

theorem oneLeaf_wf (hj : j < 512) : WfTable (oneLeaf j) 2 0x80001000 := by
  refine ⟨by decide, fun i hi hv => ?_⟩
  rw [oneLeaf_root hj hi] at hv ⊢
  split
  · refine ⟨by decide, by decide, fun i hi hv => ?_⟩
    rw [show PTE2PA (mkPte 0x80002000 PTE_V) = 0x80002000 by decide, oneLeaf_mid hi] at hv ⊢
    split
    · refine ⟨by decide, by decide, fun i hi hv => ?_⟩
      rw [show PTE2PA (mkPte 0x80003000 PTE_V) = 0x80003000 by decide, oneLeaf_low hj hi] at hv ⊢
      split
      · decide
      · rename_i h0
        rw [if_neg h0] at hv
        exact absurd rfl hv
    · rename_i h0
      rw [if_neg h0] at hv
      exact absurd rfl hv
  · rename_i h0
    rw [if_neg h0] at hv
    exact absurd rfl hv

end

theorem vmprint_reports_sample : WfTable (oneLeaf 0) 2 0x80001000 ∧ ∃ lines,
    printPagetable (oneLeaf 0) 3 0x80001000 0 = some lines ∧
    (Reports ⟨oneLeaf 0, 0⟩ 0x80001000 lines ↔ LowLeaves (oneLeaf 0) 0x80001000) :=
  ⟨oneLeaf_wf (by decide), vmprint_reports ⟨oneLeaf 0, 0⟩ 0x80001000 (oneLeaf_wf (by decide))⟩

/-- For a leaf of page 512, the line says page 0. -/
theorem vmprint_page_512 : WfTable (oneLeaf 1) 2 0x80001000 ∧ WalkLeaf ⟨oneLeaf 1, 0⟩ 0x80001000 0x200000 userPte ∧
    ∃ lines, printPagetable (oneLeaf 1) 3 0x80001000 0 = some lines ∧
      ⟨0, 0xfff, 0x87000000, 0x87000fff⟩ ∈ lines.filterMap VmLine.leafRange ∧ ¬ Reports ⟨oneLeaf 1, 0⟩ 0x80001000 lines := by
  have hwf := oneLeaf_wf (j := 1) (by decide)
  have hleaf : ∃ a, lookup (oneLeaf 1) 512 2 0x80001000 = some a ∧ (oneLeaf 1).load a 8 = userPte ∧ userPte &&& PTE_V ≠ 0 :=
    ⟨0x80003000, by decide +kernel, by decide +kernel, by decide⟩
  have hmem : (512, userPte) ∈ leaves (oneLeaf 1) 2 0x80001000 0 := (mem_leaves_root (by decide)).mpr hleaf
  refine ⟨hwf, (walkLeaf_iff (s := ⟨oneLeaf 1, 0⟩) (w := 512) hwf).mpr ⟨by decide, hleaf⟩, ?_⟩
  obtain ⟨lines, hprint, hl⟩ := printPagetable_leaves hwf 0 0
  refine ⟨lines, hprint, ?_, fun hr => ?_⟩
  · rw [hl]
    exact List.mem_map.mpr ⟨(512, userPte), hmem, by decide +kernel⟩
  · exact absurd (low_of_reports (s := ⟨oneLeaf 1, 0⟩) hwf hl hr _ hmem) (by decide)

end Xv6
