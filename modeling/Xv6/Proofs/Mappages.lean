import Xv6.Proofs.PageMap

/-!
# `mappages` and `uvmunmap` on the map

`mappages` adds pages to the map one after the other and stops where memory runs out; `uvmunmap` takes pages
out. Both leave the table well-formed as long as nobody maps a page of the table or a free page.
-/

namespace Xv6

open Prog

variable {m m' : Bytes} {r p q c e i v va l x n : Nat} {node node' : Nat → Nat → Option Nat} {s s' : Kmem}
  {L L' : List Nat} {K : Layout} {Q : Unit → Kmem → Prop} {pa perm : Nat}

/-- The first `k` pages from `v` on are mapped to `pa` and the pages after it; the others are as before. -/
def withPages (v k pa perm : Nat) (old : Nat → Nat) : Nat → Nat := fun v' =>
  if v ≤ v' ∧ v' < v + k then PA2PTE (pa + (v' - v) * PGSIZE) ||| perm ||| PTE_V else old v'

theorem withPages_zero {old : Nat → Nat} : withPages v 0 pa perm old = old := by
  funext v'
  exact if_neg (by omega)

theorem withPages_succ {pa perm k : Nat} {old : Nat → Nat} :
    withPages (v + 1) k (pa + PGSIZE) perm (withPages v 1 pa perm old) = withPages v (k + 1) pa perm old := by
  funext v'
  simp only [withPages]
  by_cases h : v + 1 ≤ v' ∧ v' < v + 1 + k
  · rw [if_pos h, if_pos (by omega), show pa + PGSIZE + (v' - (v + 1)) * PGSIZE = pa + (v' - v) * PGSIZE by
      rw [show v' - v = v' - (v + 1) + 1 by omega, Nat.succ_mul]; omega]
  · rw [if_neg h]
    by_cases h' : v ≤ v' ∧ v' < v + 1
    · rw [if_pos h', if_pos (by omega)]
    · rw [if_neg h', if_neg (by omega)]

/-- What `mappages` for `n` pages may have done: the first `k` pages are there, all of them if it succeeds,
and it fails only when memory has run out. A page takes two page-table pages at most. -/
def PagesMapped (r v n pa perm : Nat) (node : Nat → Nat → Option Nat) (L : List Nat) (s : Kmem) (ok : Bool)
    (s' : Kmem) : Prop :=
  ∃ node' L' k, Pool r node' L' s' ∧ Grown node L s node' L' s' ∧ L.length ≤ L'.length + 2 * n ∧ k ≤ n ∧ (ok = true ↔ k = n) ∧
    (ok = false → L' = [] ∧ L.length < 2 * n) ∧ leafOf s'.mem node' = withPages v k pa perm (leafOf s.mem node)

theorem PagesMapped.none (hpool : Pool r node' [] s') (hgrown : Grown node L s node' [] s') (hlt : L.length < 2)
    (hleaf : leafOf s'.mem node' = leafOf s.mem node) : PagesMapped r v (n + 1) pa perm node L s false s' :=
  ⟨node', [], 0, hpool, hgrown, by omega, Nat.zero_le _, by simp, fun _ => ⟨rfl, by omega⟩, by rw [withPages_zero, hleaf]⟩

theorem PagesMapped.cons {ok : Bool} {s'' : Kmem} (hgrown : Grown node L s node' L' s') (hle : L.length ≤ L'.length + 2)
    (hleaf : leafOf s'.mem node' = withPages v 1 pa perm (leafOf s.mem node))
    (h : PagesMapped r (v + 1) n (pa + PGSIZE) perm node' L' s' ok s'') :
    PagesMapped r v (n + 1) pa perm node L s ok s'' := by
  obtain ⟨node'', L'', k, hpool, hgrown', hle', hk, hok, hfail, hleaf'⟩ := h
  refine ⟨node'', L'', k + 1, hpool, hgrown.trans hgrown', by omega, by omega, by rw [hok]; omega,
    fun h => ⟨(hfail h).1, by have := (hfail h).2; omega⟩, ?_⟩
  rw [hleaf', hleaf, withPages_succ]

theorem wp_mappagesLoop_step {Q : Bool → Kmem → Prop} (h : Pool r node L s) (hv : v < 2 ^ 26)
    (hfree : leafOf s.mem node v &&& PTE_V = 0) (hw : PA2PTE pa ||| perm ||| PTE_V < 256 ^ 8)
    (h0 : ∀ node' s', Pool r node' [] s' → Grown node L s node' [] s' → L.length < 2 →
      leafOf s'.mem node' = leafOf s.mem node → Q false s')
    (h1 : ∀ node' L' s', Pool r node' L' s' → Grown node L s node' L' s' → L.length ≤ L'.length + 2 →
      leafOf s'.mem node' = withPages v 1 pa perm (leafOf s.mem node) →
      (n = 0 → Q true s') ∧
        ∀ k, n = k + 1 → wp (mappagesLoop r perm k (v * PGSIZE + PGSIZE) (pa + PGSIZE)) Q s') :
    wp (mappagesLoop r perm n (v * PGSIZE) pa) Q s := by
  rw [mappagesLoop.eq_def, wp_bind]
  refine wp_walk_grow h (page_lt_MAXVA hv) fun pte s₁ hwalk => ?_
  obtain ⟨node₁, L₁, hpool, hgrown, hle, hleaf, ⟨rfl, rfl, hlt⟩ | ⟨q, hq, rfl⟩⟩ := hwalk
  · rw [if_pos rfl, wp_pure]
    exact h0 node₁ s₁ hpool hgrown hlt (funext hleaf)
  · rw [vpx_succ, vpx_zero] at hq
    rw [PX_eq_vpx, vpx_zero, if_neg (by have := hpool.tree.ne_zero hq; omega)]
    have hload : s₁.mem.load (q + 8 * (v % 512)) 8 &&& PTE_V = 0 := by
      rw [← leafOf_of_some hq, hleaf, hfree]
    simp only [load64, store64, wp_bind, wp_get, wp_pure, wp_modify, if_neg (not_not.mpr hload)]
    obtain ⟨hpool', hgrown', hleaf'⟩ := hpool.setLeaf hq hw
    obtain ⟨hlast, hnext⟩ := h1 node₁ L₁ _ hpool' (hgrown.trans hgrown') hle (funext fun v' => by
      rw [hleaf', hleaf, withPages]
      by_cases hv' : v' = v
      · rw [if_pos hv', if_pos (by omega), hv', Nat.sub_self, zero_mul, add_zero]
      · rw [if_neg hv', if_neg (by omega)])
    cases n with
    | zero =>
      rw [wp_pure]
      exact hlast rfl
    | succ n => exact hnext n rfl

theorem wp_mappagesLoop_pages {Q : Bool → Kmem → Prop} (h : Pool r node L s) (hv : v + n < 2 ^ 26)
    (hfree : ∀ k ≤ n, leafOf s.mem node (v + k) &&& PTE_V = 0)
    (hw : ∀ k ≤ n, PA2PTE (pa + k * PGSIZE) ||| perm ||| PTE_V < 256 ^ 8)
    (hQ : ∀ ok s', PagesMapped r v (n + 1) pa perm node L s ok s' → Q ok s') :
    wp (mappagesLoop r perm n (v * PGSIZE) pa) Q s := by
  -- by induction on the rounds left; the table of the next round has the page of this one
  induction n generalizing v pa node L s with
  | zero =>
    refine wp_mappagesLoop_step h (by omega) (hfree 0 (le_rfl)) (by simpa using hw 0 (le_rfl))
      (fun node' s' hpool hgrown hlt hleaf => hQ _ _ (.none hpool hgrown hlt hleaf)) fun node' L' s' hpool hgrown hle hleaf => ?_
    exact ⟨fun _ => hQ _ _ ⟨node', L', 1, hpool, hgrown, hle, le_rfl, by simp, by simp, hleaf⟩, by simp⟩
  | succ n ih =>
    refine wp_mappagesLoop_step h (by omega) (hfree 0 (Nat.zero_le _)) (by simpa using hw 0 (Nat.zero_le _))
      (fun node' s' hpool hgrown hlt hleaf => hQ _ _ (.none hpool hgrown hlt hleaf)) fun node' L' s' hpool hgrown hle hleaf => ?_
    refine ⟨by simp, fun k hk => ?_⟩
    cases hk
    have hnext : wp (mappagesLoop r perm n ((v + 1) * PGSIZE) (pa + PGSIZE)) Q s' :=
      ih hpool (by omega) (fun k hk => ?_) (fun k hk => ?_) fun ok s'' hmapped => hQ ok s'' (.cons hgrown hle hleaf hmapped)
    · rw [Nat.succ_mul] at hnext
      exact hnext
    · rw [hleaf, withPages, if_neg (by omega), show v + 1 + k = v + (k + 1) by omega]
      exact hfree (k + 1) (by omega)
    · have := hw (k + 1) (by omega)
      rwa [Nat.succ_mul, add_comm (k * PGSIZE), ← add_assoc] at this

/-- The number of pages that a range of addresses meets. -/
def pageCount (va size : Nat) : Nat := (va + size - 1) / PGSIZE - va / PGSIZE + 1

theorem wp_mappages_pages {Q : Bool → Kmem → Prop} {size pa perm : Nat} (h : Pool r node L s) (hsize : 0 < size)
    (hva : va + size ≤ MAXVA) (hfree : ∀ k < pageCount va size, leafOf s.mem node (va / PGSIZE + k) &&& PTE_V = 0)
    (hw : ∀ k < pageCount va size, PA2PTE (pa + k * PGSIZE) ||| perm ||| PTE_V < 256 ^ 8)
    (hQ : ∀ ok s', PagesMapped r (va / PGSIZE) (pageCount va size) pa perm node L s ok s' → Q ok s') :
    wp (mappages r va size pa perm) Q s := by
  have hn : (PGROUNDDOWN (va + size - 1) - PGROUNDDOWN va) / PGSIZE = (va + size - 1) / PGSIZE - va / PGSIZE := by
    rw [PGROUNDDOWN, PGROUNDDOWN, ← Nat.sub_mul, Nat.mul_div_cancel _ (by decide)]
  simp only [mappages, if_neg (Nat.pos_iff_ne_zero.mp hsize)]
  rw [hn, PGROUNDDOWN]
  refine wp_mappagesLoop_pages h ?_ (fun k hk => hfree k (by simp only [pageCount]; omega))
    (fun k hk => hw k (by simp only [pageCount]; omega)) hQ
  have hmax : MAXVA = 2 ^ 26 * 4096 := by decide
  simp only [PGSIZE]
  omega

theorem PTE2PA_mkPte_page {pa f : Nat} (hf : f < 1024) : PTE2PA (mkPte pa f) = PGROUNDDOWN pa := by
  rw [mkPte_eq hf, PTE2PA, Nat.shiftLeft_eq, Nat.shiftRight_eq_div_pow]
  simp only [PGROUNDDOWN, PGSIZE]
  omega

theorem or_valid_lt {perm : Nat} (hp : perm < 1024) : perm ||| PTE_V < 1024 :=
  Nat.or_lt_two_pow (n := 10) hp (by decide)

/-- A table with the free list beside it, where no page of the table and no free page is mapped. -/
structure Sound (r : Nat) (node : Nat → Nat → Option Nat) (L : List Nat) (s : Kmem) : Prop where
  pool : Pool r node L s
  leaves : ∀ v, leafOf s.mem node v &&& PTE_V ≠ 0 →
    (∀ l x, node l x ≠ some (PTE2PA (leafOf s.mem node v))) ∧ PTE2PA (leafOf s.mem node v) ∉ L

theorem Sound.mapped {pa perm k : Nat} (h : Sound r node L s) (hpool : Pool r node' L' s')
    (hgrown : Grown node L s node' L' s') (hleaf : leafOf s'.mem node' = withPages v k pa perm (leafOf s.mem node))
    (hperm : perm < 1024)
    (hpa : ∀ j < k, (∀ l x, node l x ≠ some (PGROUNDDOWN (pa + j * PGSIZE))) ∧ PGROUNDDOWN (pa + j * PGSIZE) ∉ L) :
    Sound r node' L' s' := by
  have hout : ∀ {p}, (∀ l x, node l x ≠ some p) ∧ p ∉ L → (∀ l x, node' l x ≠ some p) ∧ p ∉ L' := fun hp =>
    ⟨fun l x hx => (hgrown.fresh hx).elim (hp.1 l x) fun hx => hp.2 hx.1, fun hL => hp.2 (hgrown.sub hL)⟩
  refine ⟨hpool, fun v' hv' => hout ?_⟩
  rw [hleaf, withPages] at hv' ⊢
  split at hv'
  · rename_i hin
    rw [if_pos hin, Nat.or_assoc, ← mkPte, PTE2PA_mkPte_page (or_valid_lt hperm)]
    exact hpa (v' - v) (by omega)
  · rename_i hin
    rw [if_neg hin]
    exact h.leaves v' hv'

/-! ### `uvmunmap` -/

theorem PTE2PA_aligned : PTE2PA e % PGSIZE = 0 := by
  rw [PTE2PA, Nat.shiftLeft_eq]
  exact Nat.mul_mod_left ..

structure Removable (K : Layout) (doFree : Bool) (e : Nat) : Prop where
  valid : e &&& PTE_V ≠ 0
  leaf : PTE_FLAGS e ≠ PTE_V
  page : doFree = true → IsPage K (PTE2PA e)

def Kmem.unmapped (s : Kmem) (doFree : Bool) (a e : Nat) : Kmem :=
  { (if doFree then s.freed (PTE2PA e) else s) with
    mem := (if doFree then s.freed (PTE2PA e) else s).mem.store a 8 0 }

theorem leafOf_ne_zero (hv : leafOf m node v ≠ 0) : ∃ q, node 1 (v / 512) = some q := by
  cases hq : node 1 (v / 512) with
  | none => exact absurd (leafOf_of_none hq) hv
  | some q => exact ⟨q, rfl⟩

theorem valid_ne_zero (he : e &&& PTE_V ≠ 0) : e ≠ 0 := by
  rintro rfl
  exact he rfl

theorem wp_walk_leaf {Q : Nat → Kmem → Prop} (h : PageTree s.mem r node) (hv : v < 2 ^ 26)
    (hq : node 1 (v / 512) = some q) : wp (walk r (v * PGSIZE) false) Q s ↔ Q (q + 8 * (v % 512)) s := by
  rw [wp_walk_find (page_lt_MAXVA hv), h.findPte_page hv, hq]
  rfl

theorem wp_uvmunmapLoop_step {doFree : Bool} (h : PageTree s.mem r node) (hv : v < 2 ^ 26)
    (hq : node 1 (v / 512) = some q) (hr : Removable K doFree (leafOf s.mem node v))
    (hQ : wp (uvmunmapLoop K r doFree n ((v + 1) * PGSIZE)) Q
      (s.unmapped doFree (q + 8 * (v % 512)) (leafOf s.mem node v))) :
    wp (uvmunmapLoop K r doFree (n + 1) (v * PGSIZE)) Q s := by
  rw [uvmunmapLoop, wp_bind, wp_walk_leaf h hv hq, if_neg (by have := h.ne_zero hq; omega)]
  rw [leafOf_of_some hq] at hr hQ
  simp only [load64, wp_bind, wp_get, wp_pure, if_neg hr.valid, if_neg hr.leaf, store64]
  rw [Nat.succ_mul] at hQ
  cases doFree with
  | false =>
    simp only [Bool.false_eq_true, if_false, wp_bind, wp_modify]
    exact hQ
  | true =>
    simp only [if_true, wp_bind]
    exact wp_kfree (hr.page rfl) hQ

theorem unmapped_spec (doFree : Bool) (h : PageTree s.mem r node) (hq : node 1 (v / 512) = some q)
    (ha : doFree = true → ∀ l x, node l x ≠ some (PTE2PA e)) :
    PageTree (s.unmapped doFree (q + 8 * (v % 512)) e).mem r node ∧
      ∀ v', leafOf (s.unmapped doFree (q + 8 * (v % 512)) e).mem node v' =
        if v' = v then 0 else leafOf s.mem node v' := by
  -- the page that is freed is no page of the table
  have hfreed : ∀ l x p, node l x = some p →
      SamePage s.mem (if doFree then s.freed (PTE2PA e) else s).mem p := by
    intro l x p hp
    cases doFree with
    | false => exact fun _ _ _ => rfl
    | true => exact Kmem.outside_freed.samePage PTE2PA_aligned (h.aligned hp) fun he => ha rfl l x (he ▸ hp)
  have h' := h.of_same fun l x q hq => hfreed _ x q hq
  refine ⟨h'.setLeaf hq, fun v' => ?_⟩
  rw [Kmem.unmapped]
  dsimp only
  rw [h'.leafOf_setLeaf hq (by decide), leafOf_of_same fun x q hq => hfreed 1 x q hq]

def withoutPages (v n : Nat) (old : Nat → Nat) : Nat → Nat := fun v' => if v ≤ v' ∧ v' < v + n then 0 else old v'

theorem withoutPages_succ {old old' : Nat → Nat} (h : ∀ v', old' v' = if v' = v then 0 else old v') :
    withoutPages (v + 1) n old' = withoutPages v (n + 1) old := by
  funext v'
  simp only [withoutPages, h]
  by_cases hin : v + 1 ≤ v' ∧ v' < v + 1 + n
  · rw [if_pos hin, if_pos (by omega)]
  · rw [if_neg hin]
    by_cases he : v' = v
    · rw [if_pos he, if_pos (by omega)]
    · rw [if_neg he, if_neg (by omega)]

def LeavesApart (m : Bytes) (node : Nat → Nat → Option Nat) : Prop :=
  ∀ v, leafOf m node v &&& PTE_V ≠ 0 → ∀ l x, node l x ≠ some (PTE2PA (leafOf m node v))

theorem LeavesApart.unmapped (ha : LeavesApart m node)
    (hm : ∀ v', leafOf m' node v' = if v' = v then 0 else leafOf m node v') : LeavesApart m' node := by
  intro v' hv'
  by_cases he : v' = v
  · rw [hm, if_pos he] at hv'
    exact absurd rfl hv'
  · rw [hm, if_neg he] at hv' ⊢
    exact ha v' hv'

theorem wp_uvmunmapLoop_pages {doFree : Bool} (h : PageTree s.mem r node)
    (ha : LeavesApart s.mem node) (hv : v + n ≤ 2 ^ 26) (hr : ∀ k < n, Removable K doFree (leafOf s.mem node (v + k)))
    (hQ : ∀ s', PageTree s'.mem r node → leafOf s'.mem node = withoutPages v n (leafOf s.mem node) → Q () s') :
    wp (uvmunmapLoop K r doFree n (v * PGSIZE)) Q s := by
  induction n generalizing v s with
  | zero =>
    rw [uvmunmapLoop, wp_pure]
    exact hQ s h (funext fun v' => (if_neg (by omega)).symm)
  | succ n ih =>
    have hfirst := hr 0 (Nat.succ_pos _)
    rw [add_zero] at hfirst
    obtain ⟨q, hq⟩ := leafOf_ne_zero (valid_ne_zero hfirst.valid)
    refine wp_uvmunmapLoop_step h (by omega) hq hfirst ?_
    obtain ⟨htree, hleaf⟩ := unmapped_spec doFree h hq fun _ => ha v hfirst.valid
    refine ih htree (ha.unmapped hleaf) (by omega) (fun k hk => ?_) fun s' htree' hleaf' =>
      hQ s' htree' (by rw [hleaf', withoutPages_succ hleaf])
    rw [hleaf, if_neg (by omega), show v + 1 + k = v + (k + 1) by omega]
    exact hr (k + 1) (by omega)

theorem of_wp_kfree (h : wp (kfree K p) Q s) : IsPage K p ∧ Q () (s.freed p) := by
  by_cases hcond : p % PGSIZE ≠ 0 ∨ p < K.kend ∨ p ≥ PHYSTOP
  · simp only [kfree, wp_bind, if_pos hcond, wp_fail] at h
  · refine ⟨⟨by omega, by omega, by omega⟩, ?_⟩
    simp only [kfree, wp_bind, if_neg hcond, memset, store64, wp_modify, wp_get] at h
    exact h

theorem removable_of_wp {doFree : Bool} (h : PageTree s.mem r node)
    (ha : LeavesApart s.mem node) (hw : wp (uvmunmapLoop K r doFree n (v * PGSIZE)) Q s) :
    ∀ k < n, v + k < 2 ^ 26 ∧ Removable K doFree (leafOf s.mem node (v + k)) := by
  induction n generalizing v s with
  | zero => exact fun k hk => absurd hk (Nat.not_lt_zero k)
  | succ n ih =>
    rw [uvmunmapLoop, wp_bind] at hw
    have hv : v < 2 ^ 26 := by
      by_contra hv
      have hva : v * PGSIZE ≥ MAXVA := by
        have hmax : MAXVA = 2 ^ 26 * 4096 := by decide
        simp only [PGSIZE]
        omega
      simp only [walk, if_pos hva, wp_bind, wp_fail] at hw
    rw [wp_walk_find (page_lt_MAXVA hv), h.findPte_page hv] at hw
    cases hq : node 1 (v / 512) with
    | none =>
      simp only [hq, Option.map_none, Option.getD_none, if_true, wp_bind, wp_fail] at hw
    | some q =>
      have hne : ¬ q + 8 * (v % 512) = 0 := by have := h.ne_zero hq; omega
      simp only [hq, Option.map_some, Option.getD_some, if_neg hne, load64, wp_bind, wp_get, wp_pure, store64] at hw
      rw [← leafOf_of_some hq] at hw
      have hvalid : leafOf s.mem node v &&& PTE_V ≠ 0 := fun he => by simp only [if_pos he, wp_bind, wp_fail] at hw
      have hleaf : PTE_FLAGS (leafOf s.mem node v) ≠ PTE_V := fun he => by
        simp only [if_neg hvalid, if_pos he, wp_bind, wp_fail] at hw
      simp only [if_neg hvalid, if_neg hleaf] at hw
      obtain ⟨hpage, hrest⟩ : (doFree = true → IsPage K (PTE2PA (leafOf s.mem node v))) ∧
          wp (uvmunmapLoop K r doFree n ((v + 1) * PGSIZE)) Q
            (s.unmapped doFree (q + 8 * (v % 512)) (leafOf s.mem node v)) := by
        rw [Nat.succ_mul]
        cases doFree with
        | false =>
          simp only [Bool.false_eq_true, if_false, wp_bind, wp_modify] at hw
          exact ⟨by simp, hw⟩
        | true =>
          simp only [if_true, wp_bind] at hw
          have hfree := of_wp_kfree hw
          exact ⟨fun _ => hfree.1, hfree.2⟩
      obtain ⟨htree, hleaf'⟩ := unmapped_spec doFree h hq fun _ => ha v hvalid
      intro k hk
      cases k with
      | zero => exact ⟨hv, hvalid, hleaf, hpage⟩
      | succ k =>
        have := ih htree (ha.unmapped hleaf') hrest k (by omega)
        rwa [hleaf', if_neg (by omega), show v + 1 + k = v + (k + 1) by omega] at this

/-! ### The table as a map -/

/-- Each page-table page is pointed to once, and none of them is mapped. -/
def WellFormed (m : Bytes) (r : Nat) : Prop := ∃ node, PageTree m r node ∧ LeavesApart m node

theorem LeavesApart.without (ha : LeavesApart m node) (hm : leafOf m' node = withoutPages v n (leafOf m node)) :
    LeavesApart m' node := by
  intro v' hv'
  rw [hm, withoutPages] at hv' ⊢
  split at hv'
  · exact absurd rfl hv'
  · rename_i hin
    rw [if_neg hin]
    exact ha v' hv'

/-- A page table is a map from pages to entries: lookups change nothing, `mappages` adds the pages it is asked
for (a first part of them when memory runs out), `uvmunmap` takes pages out, and the table stays well-formed. -/
theorem page_table_map (K : Layout) {r : Nat} {node : Nat → Nat → Option Nat} {L : List Nat} {s : Kmem}
    (h : Sound r node L s) : (∀ va, wp (walkaddr r va) (fun _ s' => s' = s) s) ∧
    (∀ va < MAXVA, wp (walk r va false) (fun pte s' => s' = s ∧
      (if pte = 0 then 0 else s.mem.load pte 8) = pteOf s.mem r (va / PGSIZE)) s) ∧
    (∀ va size pa perm, 0 < size → va + size ≤ MAXVA → perm < 1024 →
      pa + (pageCount va size - 1) * PGSIZE < 2 ^ 64 →
      (∀ k < pageCount va size, pteOf s.mem r (va / PGSIZE + k) &&& PTE_V = 0) →
      (∀ k < pageCount va size, (∀ l x, node l x ≠ some (PGROUNDDOWN (pa + k * PGSIZE))) ∧
        PGROUNDDOWN (pa + k * PGSIZE) ∉ L) →
      wp (mappages r va size pa perm) (fun ok s' => ∃ node' L' k, Sound r node' L' s' ∧
        k ≤ pageCount va size ∧ (ok = true ↔ k = pageCount va size) ∧
        ∀ v < 2 ^ 26, pteOf s'.mem r v = withPages (va / PGSIZE) k pa perm (pteOf s.mem r) v) s) ∧
    (∀ va n doFree, va % PGSIZE = 0 →
      (∀ k < n, va / PGSIZE + k < 2 ^ 26 ∧ Removable K doFree (pteOf s.mem r (va / PGSIZE + k))) →
      wp (uvmunmap K r va n doFree) (fun _ s' => WellFormed s'.mem r ∧
        ∀ v < 2 ^ 26, pteOf s'.mem r v = withoutPages (va / PGSIZE) n (pteOf s.mem r) v) s) ∧
    ∀ va n doFree Q, wp (uvmunmap K r va n doFree) Q s → va % PGSIZE = 0 ∧
      ∀ k < n, va / PGSIZE + k < 2 ^ 26 ∧ Removable K doFree (pteOf s.mem r (va / PGSIZE + k)) := by
  have htree := h.pool.tree
  have hapart : LeavesApart s.mem node := fun v hv => (h.leaves v hv).1
  refine ⟨fun va => wp_walkaddr_find.mpr rfl, fun va hva => ?_, fun va size pa perm hsize hva hperm hpa hfree hout => ?_,
    fun va n doFree hal hr => ?_, fun va n doFree Q hw => ?_⟩
  · rw [wp_walk_find hva]
    exact ⟨rfl, htree.load_findPte hva⟩
  · have hlt : ∀ k < pageCount va size, va / PGSIZE + k < 2 ^ 26 := by
      have hmax : MAXVA = 2 ^ 26 * 4096 := by decide
      simp only [pageCount, PGSIZE]
      omega
    refine wp_mappages_pages h.pool hsize hva (fun k hk => ?_) (fun k hk => ?_) fun ok s' hmapped => ?_
    · rw [← htree.pteOf_eq (hlt k hk)]
      exact hfree k hk
    · rw [Nat.or_assoc, ← mkPte, mkPte_eq (or_valid_lt hperm)]
      have hp := or_valid_lt hperm
      have hk' : k * PGSIZE ≤ (pageCount va size - 1) * PGSIZE := Nat.mul_le_mul_right _ (by omega)
      omega
    · obtain ⟨node', L', k, hpool, hgrown, -, hk, hok, -, hleaf⟩ := hmapped
      refine ⟨node', L', k, h.mapped hpool hgrown hleaf hperm fun j hj => hout j (by omega), hk, hok, fun v hv => ?_⟩
      rw [hpool.tree.pteOf_eq hv, hleaf, withPages, withPages, htree.pteOf_eq hv]
  · simp only [uvmunmap, if_neg (not_not.mpr hal)]
    have hr' : ∀ k < n, Removable K doFree (leafOf s.mem node (va / PGSIZE + k)) := fun k hk => by
      rw [← htree.pteOf_eq (hr k hk).1]
      exact (hr k hk).2
    obtain hn | hn := Nat.eq_zero_or_pos n
    · subst hn
      rw [uvmunmapLoop, wp_pure]
      exact ⟨⟨node, htree, hapart⟩, fun v hv => (if_neg (by omega)).symm⟩
    · have hlast := (hr (n - 1) (by omega)).1
      have hva : va = va / PGSIZE * PGSIZE := (Nat.div_mul_cancel (Nat.dvd_of_mod_eq_zero hal)).symm
      rw [hva]
      refine wp_uvmunmapLoop_pages htree hapart (by omega) hr' fun s' htree' hleaf => ?_
      rw [← hva]
      refine ⟨⟨node, htree', hapart.without hleaf⟩, fun v hv => ?_⟩
      rw [htree'.pteOf_eq hv, hleaf, withoutPages, withoutPages, htree.pteOf_eq hv]
  · have hal : va % PGSIZE = 0 := by
      by_contra hal
      simp only [uvmunmap, if_pos hal, wp_bind, wp_fail] at hw
    simp only [uvmunmap, if_neg (not_not.mpr hal)] at hw
    have hva : va = va / PGSIZE * PGSIZE := (Nat.div_mul_cancel (Nat.dvd_of_mod_eq_zero hal)).symm
    rw [hva] at hw
    refine ⟨hal, fun k hk => ?_⟩
    obtain ⟨hlt, hrem⟩ := removable_of_wp htree hapart hw k hk
    exact ⟨hlt, by rwa [htree.pteOf_eq hlt]⟩

/-! ### A small table -/

def rootOnly (r : Nat) : Nat → Nat → Option Nat := fun l x => if l = 3 ∧ x = 0 then some r else none

theorem of_rootOnly (hp : rootOnly r l x = some p) : l = 3 ∧ x = 0 ∧ p = r := by
  by_cases hx : l = 3 ∧ x = 0
  · rw [rootOnly, if_pos hx] at hp
    exact ⟨hx.1, hx.2, (Option.some.inj hp).symm⟩
  · rw [rootOnly, if_neg hx] at hp
    cases hp

theorem pageTree_rootOnly (hr : r % PGSIZE = 0) (h0 : r ≠ 0) (hz : ∀ j < 512, m.load (r + 8 * j) 8 = 0) :
    PageTree m r (rootOnly r) := by
  refine ⟨rfl, fun {l x p} hp => ?_, fun {l x p} hp => ?_, fun {l x p} hp => ?_, fun {l v p} hl hp => ?_,
    fun {l v q} hq => ?_, fun {l x l' x' p} hp hp' => ?_⟩
  · have := of_rootOnly hp
    omega
  · rw [(of_rootOnly hp).2.2]
    exact hr
  · rw [(of_rootOnly hp).2.2]
    exact h0
  · have := of_rootOnly hp
    omega
  · obtain ⟨hl, -, rfl⟩ := of_rootOnly hq
    rw [hz _ (Nat.mod_lt v (by decide)), child_zero, rootOnly, if_neg (by omega)]
  · have h₁ := of_rootOnly hp
    have h2 := of_rootOnly hp'
    omega

/-- The pages of the free list. -/
def freePages : List Nat := [0x87FFA000, 0x87FF9000, 0x87FF8000]

/-- Memory with the free list, and the string `hi` at `0x87FFC000` and at `0x2000`. -/
def startMem : Bytes :=
  (((Bytes.store (fun _ => 0) 0x87FF9000 8 0x87FF8000).store 0x87FFA000 8 0x87FF9000).store 0x87FFC000 2 0x6968).store
    0x2000 2 0x6968

theorem load_startMem {a : Nat} (h : 0x87FFB000 ≤ a ∧ a + 8 ≤ 0x87FFC000 ∨ 0x87FFD000 ≤ a) : startMem.load a 8 = 0 := by
  refine Bytes.load_eq_zero fun x h1 h2 => ?_
  rw [startMem, Bytes.store_of_not_mem (by omega), Bytes.store_of_not_mem (by omega), Bytes.store_of_not_mem (by omega),
    Bytes.store_of_not_mem (by omega)]

/-- Page-table pages of the three levels, the last with the entries of the first 512 pages, all zero. -/
def smallTable : Bytes :=
  (startMem.store (0x87FFD000 + 8 * (0 % 512)) 8 (PA2PTE 0x87FFE000 ||| PTE_V)).store
    (0x87FFE000 + 8 * (0 % 512)) 8 (PA2PTE 0x87FFF000 ||| PTE_V)

def smallNode : Nat → Nat → Option Nat :=
  addNode (addNode (rootOnly 0x87FFD000) (1 + 1) 0 0x87FFE000) (0 + 1) 0 0x87FFF000

theorem of_smallNode (hp : smallNode l x = some p) : p = 0x87FFD000 ∨ p = 0x87FFE000 ∨ p = 0x87FFF000 := by
  rcases of_addNode hp with ⟨-, -, rfl⟩ | hp
  · exact .inr (.inr rfl)
  · rcases of_addNode hp with ⟨-, -, rfl⟩ | hp
    · exact .inr (.inl rfl)
    · exact .inl (of_rootOnly hp).2.2

theorem smallTable_spec : PageTree smallTable 0x87FFD000 smallNode ∧ ∀ v, leafOf smallTable smallNode v = 0 := by
  have hzero : ∀ a ≥ 0x87FFD000, startMem.load a 8 = 0 := fun a ha => load_startMem (.inr ha)
  have h₀ : PageTree startMem 0x87FFD000 (rootOnly 0x87FFD000) :=
    pageTree_rootOnly (by decide) (by decide) fun j _ => hzero _ (by omega)
  have hnew : ∀ l x, rootOnly 0x87FFD000 l x ≠ some 0x87FFE000 := fun l x hx => by
    have := of_rootOnly hx
    omega
  have h₁ := h₀.link (l := 1) (v := 0) (c := 0x87FFE000) h₀.root rfl (by decide) (by decide) (by decide) hnew
    fun j _ => hzero _ (by omega)
  have hleaf1 := h₀.leafOf_link (l := 1) (v := 0) (c := 0x87FFE000) (w := PA2PTE 0x87FFE000 ||| PTE_V)
    h₀.root rfl (by decide) hnew fun j _ => hzero _ (by omega)
  have hnew' : ∀ l x, addNode (rootOnly 0x87FFD000) (1 + 1) 0 0x87FFE000 l x ≠ some 0x87FFF000 := fun l x hx => by
    rcases of_addNode hx with ⟨-, -, hp⟩ | hx
    · cases hp
    · have := of_rootOnly hx
      omega
  have hz : ∀ j < 512, (startMem.store (0x87FFD000 + 8 * (0 % 512)) 8 (PA2PTE 0x87FFE000 ||| PTE_V)).load
      (0x87FFF000 + 8 * j) 8 = 0 := fun j hj => by
    rw [Bytes.load_store_of_disjoint (by omega), hzero _ (by omega)]
  have hq : addNode (rootOnly 0x87FFD000) (1 + 1) 0 0x87FFE000 (0 + 2) (0 / 512) = some 0x87FFE000 := rfl
  refine ⟨h₁.link (l := 0) (v := 0) hq rfl (by decide) (by decide) (by decide) hnew' hz, fun v => ?_⟩
  have hleaf2 := h₁.leafOf_link (l := 0) (v := 0) (c := 0x87FFF000) (w := PA2PTE 0x87FFF000 ||| PTE_V) hq rfl
    (by decide) hnew' hz v
  refine hleaf2.trans ((hleaf1 v).trans (leafOf_of_none ?_))
  rw [rootOnly, if_neg (by omega)]

/-- The entry of a page of text, as `exec` maps it. -/
def textPte : Nat := PA2PTE 0x87FFC000 ||| (PTE_R ||| PTE_U ||| PTE_X) ||| PTE_V

/-- The small table with the page at `0x87FFC000` as page `v`. -/
def leafTable (v : Nat) : Bytes := smallTable.store (0x87FFF000 + 8 * (v % 512)) 8 textPte

theorem smallNode_zero (hv : v < 512) : smallNode 1 (v / 512) = some 0x87FFF000 := by
  rw [Nat.div_eq_of_lt hv]
  rfl

theorem leafOf_leafTable (hv : v < 512) (w : Nat) : leafOf (leafTable v) smallNode w = if w = v then textPte else 0 := by
  rw [leafTable, smallTable_spec.1.leafOf_setLeaf (smallNode_zero hv) (by decide), smallTable_spec.2]

theorem eq_of_leafTable {w : Nat} (hv : v < 512) (hw : leafOf (leafTable v) smallNode w &&& PTE_V ≠ 0) :
    leafOf (leafTable v) smallNode w = textPte := by
  rw [leafOf_leafTable hv] at hw ⊢
  split at hw
  · rename_i he
    rw [if_pos he]
  · exact absurd rfl hw

theorem apart_leafTable (hv : v < 512) : LeavesApart (leafTable v) smallNode := fun w hw l x hx => by
  rw [eq_of_leafTable hv hw] at hx
  rcases of_smallNode hx with he | he | he <;> exact absurd he (by decide)

theorem lt_of_mem_freePages (hp : p ∈ freePages) : p < 0x87FFB000 ∧ 0x87FF8000 ≤ p ∧ p % PGSIZE = 0 :=
  (by decide : ∀ p ∈ freePages, p < 0x87FFB000 ∧ 0x87FF8000 ≤ p ∧ p % PGSIZE = 0) p hp

theorem pool_leafTable (ht : PageTree (leafTable v) r node) (hnode : ∀ {l x p}, node l x = some p → 0x87FFB000 ≤ p) :
    Pool r node freePages ⟨leafTable v, 0x87FFA000⟩ := by
  have hchain : Chain startMem 0x87FFA000 freePages := ⟨rfl, by decide, by decide, by decide, by decide, by decide,
    show startMem.load 0x87FF8000 8 = 0 by decide⟩
  refine ⟨ht, hchain.congr fun p hp b h1 h2 => ?_, by decide, fun hp => (lt_of_mem_freePages hp).2.2, fun hp => ?_,
    fun hp l x hx => ?_⟩
  · have := (lt_of_mem_freePages hp).1
    simp only [PGSIZE] at *
    rw [leafTable, Bytes.store_of_not_mem (by omega), smallTable, Bytes.store_of_not_mem (by omega),
      Bytes.store_of_not_mem (by omega)]
  · have := (lt_of_mem_freePages hp).1
    omega
  · have := (lt_of_mem_freePages hp).1
    have := hnode hx
    omega

theorem sound_leafTable (hv : v < 512) : Sound 0x87FFD000 smallNode freePages ⟨leafTable v, 0x87FFA000⟩ := by
  refine ⟨pool_leafTable (smallTable_spec.1.setLeaf (smallNode_zero hv)) fun hp => ?_, fun w hw => ⟨apart_leafTable hv w hw, ?_⟩⟩
  · rcases of_smallNode hp with rfl | rfl | rfl <;> decide
  · rw [show leafOf _ smallNode w = textPte from eq_of_leafTable hv hw]
    decide

/-- A process that had the root of its own page table mapped would have a table that is not well-formed. -/
theorem mappages_own_root : Sound 0x87FFD000 smallNode freePages ⟨leafTable 1, 0x87FFA000⟩ ∧
    WellFormed (leafTable 1) 0x87FFD000 ∧ pteOf (leafTable 1) 0x87FFD000 0 &&& PTE_V = 0 ∧
    wp (mappages 0x87FFD000 0 PGSIZE 0x87FFD000 PTE_R)
      (fun ok s' => ok = true ∧ ¬ WellFormed s'.mem 0x87FFD000) ⟨leafTable 1, 0x87FFA000⟩ := by
  have hs := sound_leafTable (v := 1) (by decide)
  have htree := hs.pool.tree
  have hleaf : leafOf (leafTable 1) smallNode 0 = 0 := by rw [leafOf_leafTable (by decide), if_neg (by decide)]
  have hq : smallNode 1 (0 / 512) = some 0x87FFF000 := rfl
  have hpte : pteOf (leafTable 1) 0x87FFD000 0 = 0 := by rw [htree.pteOf_eq (by decide), hleaf]
  refine ⟨hs, ⟨smallNode, htree, apart_leafTable (by decide)⟩, by rw [hpte]; rfl, ?_⟩
  have hfind : findPte (leafTable 1) (0 * PGSIZE) 2 0x87FFD000 = some (0x87FFF000 + 8 * (0 % 512)) := by
    rw [htree.findPte_page (by decide), hq]
    rfl
  have hload : (leafTable 1).load (0x87FFF000 + 8 * (0 % 512)) 8 = 0 := by rw [← leafOf_of_some hq, hleaf]
  rw [mappages, if_neg (by decide)]
  dsimp only
  rw [show (PGROUNDDOWN (0 + PGSIZE - 1) - PGROUNDDOWN 0) / PGSIZE = 0 from rfl, mappagesLoop, walk,
    if_neg (by decide)]
  simp only [wp_bind]
  refine (wp_walkLoop_found hfind).mpr ?_
  have hv : ¬ (0 &&& PTE_V ≠ 0) := by decide
  simp only [load64, store64, wp_bind, wp_get, wp_pure, wp_modify, hload, if_neg hv,
    if_neg (show ¬ 0x87FFF000 + 8 * (0 % 512) = 0 by decide)]
  refine ⟨trivial, ?_⟩
  rintro ⟨node, htree', hapart⟩
  have hroot : leafOf ((leafTable 1).store (0x87FFF000 + 8 * (0 % 512)) 8 (PA2PTE 0x87FFD000 ||| PTE_R ||| PTE_V)) node 0 =
      PA2PTE 0x87FFD000 ||| PTE_R ||| PTE_V := by
    rw [← htree'.pteOf_eq (by decide), (htree.setLeaf hq).pteOf_eq (by decide), htree.leafOf_setLeaf hq (by decide),
      if_pos rfl]
  refine hapart 0 (by rw [hroot]; decide) 3 0 ?_
  rw [hroot]
  exact htree'.root

/-- Two pages are mapped, the second with a new page-table page, and the page of text is taken out and freed. -/
theorem page_table_map_small : Sound 0x87FFD000 smallNode freePages ⟨leafTable 0, 0x87FFA000⟩ ∧
    wp (mappages 0x87FFD000 (511 * PGSIZE) (2 * PGSIZE) 0x87FF6000 PTE_R) (fun ok s' => ∃ node' L' k,
      Sound 0x87FFD000 node' L' s' ∧ k ≤ 2 ∧ (ok = true ↔ k = 2) ∧ ∀ v < 2 ^ 26,
        pteOf s'.mem 0x87FFD000 v = withPages 511 k 0x87FF6000 PTE_R (pteOf (leafTable 0) 0x87FFD000) v) ⟨leafTable 0, 0x87FFA000⟩ ∧
    wp (uvmunmap smallLayout 0x87FFD000 0 1 true) (fun _ s' => WellFormed s'.mem 0x87FFD000 ∧ ∀ v < 2 ^ 26,
      pteOf s'.mem 0x87FFD000 v = withoutPages 0 1 (pteOf (leafTable 0) 0x87FFD000) v) ⟨leafTable 0, 0x87FFA000⟩ := by
  have hs := sound_leafTable (v := 0) (by decide)
  have hpte : ∀ w < 2 ^ 26, pteOf (leafTable 0) 0x87FFD000 w = if w = 0 then textPte else 0 := fun w hw => by
    rw [hs.pool.tree.pteOf_eq hw, leafOf_leafTable (by decide)]
  obtain ⟨-, -, hmap, hun, -⟩ := page_table_map smallLayout hs
  refine ⟨hs, hmap (511 * PGSIZE) (2 * PGSIZE) 0x87FF6000 PTE_R (by decide) (by decide) (by decide) (by decide)
    (fun k hk => ?_) (fun k hk => ?_), hun 0 1 true rfl fun k hk => ?_⟩
  · have hk : k < 2 := hk
    rw [hpte _ (by simp only [PGSIZE]; omega), if_neg (by simp only [PGSIZE]; omega)]
    rfl
  · have hk : k < 2 := hk
    have hlow : PGROUNDDOWN (0x87FF6000 + k * PGSIZE) < 0x87FF8000 := by simp only [PGROUNDDOWN, PGSIZE]; omega
    refine ⟨fun l x hx => ?_, fun hp => absurd (lt_of_mem_freePages hp).2.1 (not_le.mpr hlow)⟩
    rcases of_smallNode hx with he | he | he <;> omega
  · obtain rfl : k = 0 := Nat.lt_one_iff.mp hk
    refine ⟨by decide, ?_⟩
    rw [hpte _ (by decide), if_pos (by decide)]
    exact ⟨by decide, by decide, fun _ => ⟨by decide, by decide, by decide⟩⟩

end Xv6
