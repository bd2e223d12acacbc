import Xv6.Proofs.Pages

/-!
# What the functions of `kalloc.c` and `vm.c` do to the owners of pages

One lemma for each function, in the form in which a caller uses it: the function returns with `Q` if `Q`
holds for everything it may have done.
-/

namespace Xv6

open Ghost Prog

variable {τ : Type} {K : Layout} {s s' : Kmem} {g g' : Ghost τ} {m : Bytes}
  {p q c r l x v va e f i n : Nat} {o : Owner τ} {t : τ} {Q : Unit → Kmem → Prop} {v₀ : Nat}

/-! ### `kalloc.c` -/

def Kmem.freed (s : Kmem) (pa : Nat) : Kmem := ⟨(s.mem.fill pa PGSIZE 1).store pa 8 s.freelist, pa⟩

theorem Kmem.outside_freed : Outside s.mem (s.freed c).mem c :=
  outside_fill.trans (outside_store (le_rfl) (by simp only [PGSIZE]; omega))

theorem wp_kfree (hp : IsPage K p) (h : Q () (s.freed p)) : wp (kfree K p) Q s := by
  have hcond : ¬ (p % PGSIZE ≠ 0 ∨ p < K.kend ∨ p ≥ PHYSTOP) := by
    have h1 := hp.aligned
    have h2 := hp.ge
    have h3 := hp.lt
    omega
  simp only [kfree, wp_bind, if_neg hcond, memset, store64, wp_modify, wp_get]
  exact h

theorem PInv.freelist_lt (h : PInv K s g) : s.freelist < 256 ^ 8 := by
  obtain ⟨L, hL, -, hmem⟩ := h.free
  cases L with
  | nil => rw [show s.freelist = 0 from hL]; decide
  | cons p L =>
    rw [hL.1]
    exact lt_trans (h.lt ((hmem p).mpr List.mem_cons_self)) (by decide)

theorem PInv.freed (h : PInv K s g) (hc : g.own c = some (.held t)) (hpin : g.pin c = none) :
    PInv K (s.freed c) (g.set c .free) :=
  h.release hc hpin Kmem.outside_freed (Bytes.load_store_of_lt h.freelist_lt)

theorem wp_kalloc {Q : Nat → Kmem → Prop} (h : PInv K s g) (t : τ) (h0 : Q 0 s)
    (h1 : ∀ p s', g.own p = some .free → PInv K s' (g.set p (.held t)) → Q p s') : wp kalloc Q s := by
  simp only [kalloc, wp_bind, wp_get]
  by_cases hf : s.freelist = 0
  · rw [if_neg (not_not.mpr hf), wp_pure, hf]; exact h0
  · rw [if_pos hf]
    obtain ⟨hp, ha⟩ := h.alloc hf t
    simp only [wp_bind, load64, wp_get, wp_pure, wp_modify, memset]
    exact h1 _ _ hp (ha _ outside_fill)

theorem load_fill_zero (hi : i < 512) : (m.fill c PGSIZE 0).load (c + 8 * i) 8 = 0 :=
  Bytes.load_eq_zero fun x h1 h2 => if_pos ⟨by omega, by simp only [PGSIZE]; omega⟩

theorem PInv.memset (h : PInv K s g) (hc : Scratch g c) {k : UInt8} :
    PInv K { s with mem := s.mem.fill c PGSIZE k } g := h.write outside_fill hc

theorem Kmem.freed_store {a w : Nat} (ha : a + 8 ≤ c ∨ c + PGSIZE ≤ a) :
    Kmem.mk ((s.freed c).mem.store a 8 w) (s.freed c).freelist =
      Kmem.freed { s with mem := s.mem.store a 8 w } c := by
  refine congrArg (fun m => Kmem.mk m c) (funext fun x => ?_)
  simp only [Kmem.freed, Bytes.store, Bytes.fill]
  by_cases hx : a ≤ x ∧ x < a + 8
  · have h1 : ¬ (c ≤ x ∧ x < c + 8) := by simp only [PGSIZE] at ha; omega
    have h2 : ¬ (c ≤ x ∧ x < c + PGSIZE) := by omega
    rw [if_pos hx, if_neg h1, if_neg h2, if_pos hx]
  · rw [if_neg hx, if_neg hx]

/-! ### Entries -/

theorem PInv.entry_disjoint {o' : Owner τ} (h : PInv K s g) (hc : g.own c = some o) (hq : g.own q = some o') (hne : c ≠ q)
    (hi : i < 512) : q + 8 * i + 8 ≤ c ∨ c + PGSIZE ≤ q + 8 * i := by
  have h1 := (h.isPage hc).aligned
  have h2 := (h.isPage hq).aligned
  simp only [PGSIZE] at *
  omega

theorem outside_entry {w : Nat} : Outside m (m.store (q + 8 * (v % 512)) 8 w) q :=
  outside_store (Nat.le_add_right ..) (by simp only [PGSIZE]; omega)

theorem PInv.link (h : PInv K s g) (hq : g.own q = some (.node r (l + 1) (v / 512)))
    (he : s.mem.load (q + 8 * (v % 512)) 8 = 0) (hc : g.own c = some (.held t)) (hpin : g.pin c = none)
    (hz : 0 < l → ∀ j < 512, s.mem.load (c + 8 * j) 8 = 0) (hf : EntryFlags l f)
    (hu : l = 0 → g.usr r v → f &&& PTE_U ≠ 0) :
    PInv K { s with mem := s.mem.store (q + 8 * (v % 512)) 8 (mkPte c f) } (g.set c (.node r l v)) := by
  refine h.of_tables_set (h.same_of_outside hq outside_entry) hc nofun nofun hpin ?_
  have := h.tables.link (i := v % 512) hq (Nat.mod_lt v (by decide)) he hc hz hf
  rw [show v / 512 * 512 + v % 512 = v by omega] at this
  exact this hu (h.lt hc)

theorem PInv.unlink (h : PInv K s g) (hq : g.own q = some (.node r (l + 1) (v / 512)))
    (hc : g.own c = some (.node r l v)) (hz : 0 < l → ∀ j < 512, s.mem.load (c + 8 * j) 8 = 0) (t : τ) :
    PInv K { s with mem := s.mem.store (q + 8 * (v % 512)) 8 0 } (g.set c (.held t)) := by
  refine h.of_tables_set (h.same_of_outside hq outside_entry) hc nofun nofun (h.pin_eq_none hc nofun) ?_
  refine h.tables.unlink hq (Nat.mod_lt v (by decide)) ?_ hz
  rwa [show v / 512 * 512 + v % 512 = v by omega]

theorem PInv.setExt {w : Option Nat} (h : PInv K s g) (hq : g.own q = some (.node r 1 (v / 512)))
    (hself : Entry (g.setExt r v w) r 0 v e) (he : e < 256 ^ 8) :
    PInv K { s with mem := s.mem.store (q + 8 * (v % 512)) 8 e } (g.setExt r v w) := by
  refine h.of_tables (h.same_of_outside hq outside_entry) ?_ (fun p => ⟨Iff.rfl, Iff.rfl⟩) fun p b hp => ⟨hp, rfl⟩
  have := h.tables.setExt (i := v % 512) (e := e) (w := w) hq (Nat.mod_lt v (by decide))
  rw [show v / 512 * 512 + v % 512 = v by omega] at this
  exact this hself he

theorem PInv.setFlags (h : PInv K s g) (hq : g.own q = some (.node r (l + 1) (v / 512)))
    (hc : g.own c = some (.node r l v)) (hf : EntryFlags l f) (hu : l = 0 → g.usr r v → f &&& PTE_U ≠ 0) :
    PInv K { s with mem := s.mem.store (q + 8 * (v % 512)) 8 (mkPte c f) } g := by
  refine h.of_tables (h.same_of_outside hq outside_entry) ?_ (fun p => ⟨Iff.rfl, Iff.rfl⟩) fun p b hp => ⟨hp, rfl⟩
  have := h.tables.setFlags (i := v % 512) (c := c) (f := f) hq (Nat.mod_lt v (by decide))
  rw [show v / 512 * 512 + v % 512 = v by omega] at this
  exact this hc hf hu (h.lt hc)

/-! ### `walk` -/

/-- The number of the page of level `l` that `va` belongs to. -/
def vpx (l va : Nat) : Nat := va / 2 ^ (12 + 9 * l)

theorem vpx_succ : vpx (l + 1) va = vpx l va / 512 := by
  rw [vpx, vpx, Nat.div_div_eq_div_mul, show 12 + 9 * (l + 1) = 12 + 9 * l + 9 by omega, Nat.pow_add]

theorem PX_eq_vpx : PX l va = vpx l va % 512 := PX_eq

theorem vpx_zero (v : Nat) : vpx 0 (v * PGSIZE) = v := Nat.mul_div_cancel _ (by decide)

theorem vpx_three (hva : va < MAXVA) : vpx 3 va = 0 := Nat.div_eq_of_lt (lt_trans hva (by decide))

theorem Tables.ancestor {L X : Nat} (h : Tables m g) (hr : g.own r = some (.node r L X))
    (hp : g.own p = some (.node r l (vpx l va))) {k : Nat} (hl : l + k ≤ L) :
    ∃ q, g.own q = some (.node r (l + k) (vpx (l + k) va)) := by
  induction k with
  | zero => exact ⟨p, hp⟩
  | succ k ih =>
    obtain ⟨q, hq⟩ := ih (by omega)
    rcases h.parent hq with rfl | ⟨q', hq'⟩
    · cases hr.symm.trans hq; omega
    · exact ⟨q', by rw [← add_assoc, vpx_succ]; exact hq'⟩

theorem PInv.entry_at (h : PInv K s g) (hq : g.own q = some (.node r (l + 1) (vpx (l + 1) va))) :
    Entry g r l (vpx l va) (s.mem.load (q + 8 * PX l va) 8) := by
  rw [PX_eq_vpx]
  exact h.tables.entry_of_parent (by rw [← vpx_succ]; exact hq)

theorem Entry.sub (h : Entry g r (l + 1) v e) (ht : Tables m g) : (e = 0 ∧ ∀ p, g.own p ≠ some (.node r (l + 1) v)) ∨
      ∃ c, g.own c = some (.node r (l + 1) v) ∧ e &&& PTE_V ≠ 0 ∧ PTE2PA e = c := by
  cases h with
  | zero no => exact .inl ⟨rfl, no⟩
  | @page c f flags own =>
    have hc := (own c).mpr rfl
    refine .inr ⟨c, hc, by rw [mkPte_valid flags.lt]; exact flags.valid, ?_⟩
    exact PTE2PA_mkPte flags.lt (ht.aligned (by rw [hc]; nofun))
  | ext _ _ ext =>
    have := (ht.ext (r := r) (l := l + 1) (v := v) (by rw [ext]; nofun)).1
    omega

theorem wp_walkLoop_lookup {Q : Nat → Kmem → Prop} (h : PInv K s g) (hr : g.own r = some (.node r 3 0))
    (h0 : (∀ p, g.own p ≠ some (.node r 1 (vpx 1 va))) → Q 0 s)
    (h1 : ∀ p, g.own p = some (.node r 1 (vpx 1 va)) → Q (p + 8 * PX 0 va) s)
    (hq : g.own q = some (.node r (l + 1) (vpx (l + 1) va))) (hl : l ≤ 2) : wp (walkLoop va false l q) Q s := by
  induction l generalizing q with
  | zero =>
    rw [walkLoop, wp_pure]
    exact h1 q hq
  | succ l ih =>
    simp only [walkLoop, wp_bind, load64, wp_get, wp_pure]
    rcases (h.entry_at hq).sub h.tables with ⟨he, hno⟩ | ⟨c, hc, he, hpa⟩
    · rw [he, if_neg (by simp), if_pos (by rfl), wp_pure]
      refine h0 fun p hp => ?_
      obtain ⟨q', hq'⟩ := h.tables.ancestor (k := l) hr hp (by omega)
      exact hno q' (by rw [add_comm l 1]; exact hq')
    · rw [if_pos he, hpa]
      exact ih hc (by omega)

theorem page_lt_MAXVA (hv : v < 2 ^ 26) : v * PGSIZE < MAXVA := by
  have : MAXVA = 2 ^ 26 * PGSIZE := by decide
  rw [this]
  exact Nat.mul_lt_mul_of_pos_right hv (by decide)

theorem wp_walk_lookup {Q : Nat → Kmem → Prop} (h : PInv K s g) (hr : g.own r = some (.node r 3 0))
    (hv : v < 2 ^ 26) (h0 : (∀ p, g.own p ≠ some (.node r 1 (v / 512))) → Q 0 s)
    (h1 : ∀ p, g.own p = some (.node r 1 (v / 512)) → Q (p + 8 * (v % 512)) s) :
    wp (walk r (v * PGSIZE) false) Q s := by
  have hva := page_lt_MAXVA hv
  simp only [walk, if_neg (not_le.mpr hva)]
  refine wp_walkLoop_lookup h hr ?_ ?_ (by rw [vpx_three hva]; exact hr) (le_rfl)
  · rwa [vpx_succ, vpx_zero]
  · rwa [vpx_succ, PX_eq_vpx, vpx_zero]

/-- The page table with root `r` has got new page-table pages from the free list. -/
structure Grows (r : Nat) (g g' : Ghost τ) : Prop where
  own : ∀ p, g'.own p = g.own p ∨ g.own p = some .free ∧ ∃ l x, g'.own p = some (.node r (l + 1) x)
  ext : g'.ext = g.ext
  pin : g'.pin = g.pin
  usr : g'.usr = g.usr

theorem Grows.refl (r : Nat) (g : Ghost τ) : Grows r g g := ⟨fun _ => .inl rfl, rfl, rfl, rfl⟩

theorem Grows.trans {g'' : Ghost τ} (h : Grows r g g') (h' : Grows r g' g'') : Grows r g g'' := by
  refine ⟨fun p => ?_, h'.ext.trans h.ext, h'.pin.trans h.pin, h'.usr.trans h.usr⟩
  rcases h'.own p with e' | ⟨hf', hn'⟩
  · rw [e']; exact h.own p
  · rcases h.own p with e | ⟨hf, l, x, hn⟩
    · exact .inr ⟨e ▸ hf', hn'⟩
    · cases hf'.symm.trans hn

theorem Grows.of_ne_free (h : Grows r g g') (hp : g.own p = some o) (ho : o ≠ .free) : g'.own p = some o := by
  rcases h.own p with e | ⟨hf, -⟩
  · exact e.trans hp
  · exact absurd (Option.some.inj (hp.symm.trans hf)) ho

theorem Grows.leaf (h : Grows r g g') {r' : Nat} : g'.own p = some (.node r' 0 v) ↔ g.own p = some (.node r' 0 v) := by
  refine ⟨fun hp => ?_, fun hp => h.of_ne_free hp nofun⟩
  rcases h.own p with e | ⟨-, l, x, hn⟩
  · exact e.symm.trans hp
  · cases hn.symm.trans hp

theorem wp_walkLoop_alloc {Q : Nat → Kmem → Prop} (t : τ) (h0 : ∀ g' s', PInv K s' g' → Grows r g g' → Q 0 s')
    (h1 : ∀ g' s' p, PInv K s' g' → Grows r g g' → g'.own p = some (.node r 1 (vpx 1 va)) →
      Q (p + 8 * PX 0 va) s')
    (h : PInv K s g') (hg : Grows r g g') (hq : g'.own q = some (.node r (l + 1) (vpx (l + 1) va))) :
    wp (walkLoop va true l q) Q s := by
  induction l generalizing q s g' with
  | zero =>
    rw [walkLoop, wp_pure]
    exact h1 g' s q h hg hq
  | succ l ih =>
    simp only [walkLoop, wp_bind, load64, wp_get, wp_pure]
    rcases (h.entry_at hq).sub h.tables with ⟨he, hno⟩ | ⟨c, hc, he, hpa⟩
    · rw [he, if_neg (by simp), if_neg (by decide)]
      simp only [wp_bind]
      refine wp_kalloc h t ?_ fun c s' hc h' => ?_
      · rw [if_pos rfl, wp_pure]; exact h0 g' s h hg
      · have hcq : q ≠ c := by rintro rfl; cases hc.symm.trans hq
        have hq' : (g'.set c (.held t)).own q = some (.node r (l + 1 + 1) (vpx (l + 1 + 1) va)) := by
          rw [set_own_of_ne hcq]; exact hq
        have hpin := h.pin_eq_none hc (by simp)
        have hz := h'.memset (k := 0) (.inl ⟨⟨t, set_own_self⟩, hpin⟩)
        have he0 : (s'.mem.fill c PGSIZE 0).load (q + 8 * PX (l + 1) va) 8 = 0 := by
          rcases (hz.entry_at hq').sub hz.tables with ⟨he0, -⟩ | ⟨c', hc', -⟩
          · exact he0
          · have hne : c' ≠ c := by rintro rfl; rw [set_own_self] at hc'; cases hc'
            rw [set_own_of_ne hne] at hc'
            exact absurd hc' (hno c')
        rw [if_neg (h.ne_zero hc)]
        simp only [wp_bind, memset, store64, wp_modify]
        rw [vpx_succ] at hq'
        rw [PX_eq_vpx] at he0 ⊢
        have hl := hz.link (f := PTE_V) hq' he0 set_own_self hpin (fun _ j hj => load_fill_zero hj) rfl (by simp)
        refine ih hl (hg.trans ⟨fun p => ?_, rfl, rfl, rfl⟩) set_own_self
        by_cases hpc : p = c
        · subst hpc; exact .inr ⟨hc, l, _, set_own_self⟩
        · exact .inl (by rw [set_own_of_ne hpc, set_own_of_ne hpc])
    · rw [if_pos he, hpa]
      exact ih h hg hc

theorem wp_walk_alloc {Q : Nat → Kmem → Prop} (h : PInv K s g) (hr : g.own r = some (.node r 3 0))
    (hv : v < 2 ^ 26) (t : τ) (h0 : ∀ g' s', PInv K s' g' → Grows r g g' → Q 0 s')
    (h1 : ∀ g' s' p, PInv K s' g' → Grows r g g' → g'.own p = some (.node r 1 (v / 512)) →
      Q (p + 8 * (v % 512)) s') : wp (walk r (v * PGSIZE) true) Q s := by
  have hva := page_lt_MAXVA hv
  simp only [walk, if_neg (not_le.mpr hva)]
  refine wp_walkLoop_alloc t h0 ?_ h (.refl r g) (by rw [vpx_three hva]; exact hr)
  rwa [vpx_succ, PX_eq_vpx, vpx_zero]

/-! ### `mappages` -/

/-- A page is free for a mapping at page number `v`. -/
structure Vacant (g : Ghost τ) (r v : Nat) : Prop where
  no : ∀ p, g.own p ≠ some (.node r 0 v)
  ext : g.ext r 0 v = none

theorem Vacant.of_grows {r' : Nat} (h : Vacant g r v) (hg : Grows r' g g') : Vacant g' r v :=
  ⟨fun p hp => h.no p (hg.leaf.mp hp), by rw [hg.ext]; exact h.ext⟩

theorem PInv.vacant_entry (h : PInv K s g) (hv : Vacant g r v) (hq : g.own q = some (.node r 1 (v / 512))) :
    s.mem.load (q + 8 * (v % 512)) 8 = 0 := by
  have hent := h.tables.entry_of_parent hq
  generalize s.mem.load (q + 8 * (v % 512)) 8 = e at hent
  cases hent with
  | zero => rfl
  | @page c _ _ own => exact absurd ((own c).mpr rfl) (hv.no c)
  | ext _ _ ext => exact absurd (hv.ext.symm.trans ext) nofun

theorem wp_mappages_page {Q : Bool → Kmem → Prop} {perm : Nat} (h : PInv K s g)
    (hr : g.own r = some (.node r 3 0)) (hv : v < 2 ^ 26) (hvac : Vacant g r v) (t : τ)
    (h0 : ∀ g' s', PInv K s' g' → Grows r g g' → Q false s')
    (h1 : ∀ g' s' q, PInv K s' g' → Grows r g g' → g'.own q = some (.node r 1 (v / 512)) →
      Q true { s' with mem := s'.mem.store (q + 8 * (v % 512)) 8 (mkPte c (perm ||| PTE_V)) }) :
    wp (mappages r (v * PGSIZE) PGSIZE c perm) Q s := by
  have hn : (PGROUNDDOWN (v * PGSIZE + PGSIZE - 1) - v * PGSIZE) / PGSIZE = 0 := by
    simp only [PGROUNDDOWN, PGSIZE]; omega
  have ha : PGROUNDDOWN (v * PGSIZE) = v * PGSIZE := by simp only [PGROUNDDOWN, PGSIZE]; omega
  simp only [mappages, if_neg (show PGSIZE ≠ 0 by decide), hn, ha]
  rw [mappagesLoop, wp_bind]
  refine wp_walk_alloc h hr hv t (fun g' s' h' hg => ?_) fun g' s' q h' hg hq => ?_
  · rw [if_pos rfl, wp_pure]; exact h0 g' s' h' hg
  · have hq0 : q + 8 * (v % 512) ≠ 0 := by have := h'.ne_zero hq; omega
    simp only [if_neg hq0, wp_bind, load64, wp_get, wp_pure, h'.vacant_entry (hvac.of_grows hg) hq]
    rw [if_neg (by simp)]
    simp only [store64, wp_bind, wp_pure, wp_modify, Nat.or_assoc]
    exact h1 g' s' q h' hg hq

theorem wp_mappages {Q : Bool → Kmem → Prop} {perm : Nat} (h : PInv K s g)
    (hr : g.own r = some (.node r 3 0)) (hv : v < 2 ^ 26) (hvac : Vacant g r v)
    (hc : g.own c = some (.held t)) (hpin : g.pin c = none) (hf : LeafFlags (perm ||| PTE_V))
    (hu : g.usr r v → (perm ||| PTE_V) &&& PTE_U ≠ 0) (h0 : ∀ g' s', PInv K s' g' → Grows r g g' → Q false s')
    (h1 : ∀ g' s', PInv K s' (g'.set c (.node r 0 v)) → Grows r g g' → Q true s') :
    wp (mappages r (v * PGSIZE) PGSIZE c perm) Q s := by
  refine wp_mappages_page h hr hv hvac t h0 fun g' s' q h' hg hq => h1 g' _ ?_ hg
  exact h'.link hq (h'.vacant_entry (hvac.of_grows hg) hq) (hg.of_ne_free hc nofun)
    (by rw [hg.pin]; exact hpin) (fun h => absurd h (lt_irrefl 0)) hf
    fun _ => by rw [hg.usr]; exact hu

theorem wp_mappages_ext {Q : Bool → Kmem → Prop} {perm : Nat} (h : PInv K s g)
    (hr : g.own r = some (.node r 3 0)) (hv : v < 2 ^ 26) (hvac : Vacant g r v) (t : τ) (hc : c < 2 ^ 56)
    (hf : LeafFlags (perm ||| PTE_V)) (hu : (perm ||| PTE_V) &&& PTE_U = 0)
    (h0 : ∀ g' s', PInv K s' g' → Grows r g g' → Q false s')
    (h1 : ∀ g' s', PInv K s' (g'.setExt r v (some c)) → Grows r g g' → Q true s') :
    wp (mappages r (v * PGSIZE) PGSIZE c perm) Q s := by
  refine wp_mappages_page h hr hv hvac t h0 fun g' s' q h' hg hq => h1 g' _ ?_ hg
  exact h'.setExt hq (.ext hf hu (if_pos ⟨rfl, rfl, rfl⟩) (hvac.of_grows hg).no) (mkPte_lt hf.lt hc)

/-! ### `uvmunmap` -/

def Ghost.freeLeaves (g : Ghost τ) (r v₀ n : Nat) : Ghost τ :=
  { g with own := fun p => match g.own p with
      | some (.node r' 0 v) => if r' = r ∧ v₀ ≤ v ∧ v < v₀ + n then some .free else some (.node r' 0 v)
      | o => o }

theorem Ghost.freeLeaves_own_leaf (hp : g.own p = some (.node r 0 v)) (h : v₀ ≤ v ∧ v < v₀ + n) :
    (g.freeLeaves r v₀ n).own p = some .free := by
  simp only [freeLeaves, hp, true_and]
  rw [if_pos h]

theorem Ghost.freeLeaves_own_of_ne (hp : ∀ v, v₀ ≤ v → v < v₀ + n → g.own p ≠ some (.node r 0 v)) :
    (g.freeLeaves r v₀ n).own p = g.own p := by
  simp only [freeLeaves]
  split
  · rename_i r' v' he
    rw [if_neg, he]
    rintro ⟨rfl, h1, h2⟩
    exact hp v' h1 h2 he
  · rfl

theorem Ghost.freeLeaves_zero : g.freeLeaves r v₀ 0 = g := by
  refine congrArg (fun w => Ghost.mk w g.ext g.pin g.usr) (funext fun p => ?_)
  exact freeLeaves_own_of_ne fun v h1 h2 => absurd h2 (by omega)

theorem PInv.freeLeaves_succ (h : PInv K s g) (hc : g.own c = some (.node r 0 v₀)) :
    (g.set c .free).freeLeaves r (v₀ + 1) n = g.freeLeaves r v₀ (n + 1) := by
  refine congrArg (fun w => Ghost.mk w g.ext g.pin g.usr) (funext fun p => ?_)
  by_cases hpc : p = c
  · subst hpc
    refine (freeLeaves_own_of_ne fun v _ _ hv => ?_).trans ?_
    · rw [set_own_self] at hv; cases hv
    · rw [set_own_self]; exact (freeLeaves_own_leaf hc ⟨le_rfl, by omega⟩).symm
  · by_cases hleaf : ∃ v, v₀ ≤ v ∧ v < v₀ + (n + 1) ∧ g.own p = some (.node r 0 v)
    · obtain ⟨v, h1, h2, hv⟩ := hleaf
      have hne : v ≠ v₀ := by rintro rfl; exact hpc (h.tables.unique hv hc)
      refine (freeLeaves_own_leaf (v := v) ?_ ⟨by omega, by omega⟩).trans (freeLeaves_own_leaf hv ⟨h1, h2⟩).symm
      rw [set_own_of_ne hpc]; exact hv
    · have hno : ∀ v, v₀ ≤ v → v < v₀ + (n + 1) → g.own p ≠ some (.node r 0 v) :=
        fun v h1 h2 hv => hleaf ⟨v, h1, h2, hv⟩
      refine (freeLeaves_own_of_ne fun v h1 h2 => ?_).trans ?_
      · rw [set_own_of_ne hpc]; exact hno v (by omega) (by omega)
      · rw [set_own_of_ne hpc]; exact (freeLeaves_own_of_ne hno).symm

theorem PInv.leaf_entry (h : PInv K s g) (hc : g.own c = some (.node r 0 v)) (hr : g.own r = some (.node r 3 0)) :
    ∃ q f, g.own q = some (.node r 1 (v / 512)) ∧ LeafFlags f ∧
      s.mem.load (q + 8 * (v % 512)) 8 = mkPte c f := by
  rcases h.tables.parent hc with rfl | ⟨q, hq⟩
  · cases hr.symm.trans hc
  · obtain ⟨f, hf, he, -⟩ := (h.tables.entry_of_parent hq).of_own hc
    exact ⟨q, f, hq, hf, he⟩

theorem LeafFlags.ne_valid (h : LeafFlags f) : f ≠ PTE_V := by
  rintro rfl
  exact h.leaf (by decide)

theorem wp_uvmunmap_round {doFree : Bool} (h : PInv K s g) (hr : g.own r = some (.node r 3 0)) (hv : v < 2 ^ 26)
    (hq : g.own q = some (.node r 1 (v / 512))) (hf : LeafFlags f) (he : s.mem.load (q + 8 * (v % 512)) 8 = mkPte c f)
    (h1 : wp (do
      if doFree then kfree K (PTE2PA (mkPte c f))
      store64 (q + 8 * (v % 512)) 0
      uvmunmapLoop K r doFree n (v * PGSIZE + PGSIZE)) Q s) : wp (uvmunmapLoop K r doFree (n + 1) (v * PGSIZE)) Q s := by
  rw [uvmunmapLoop, wp_bind]
  refine wp_walk_lookup h hr hv (fun hno => absurd hq (hno q)) fun q' hq' => ?_
  obtain rfl := h.tables.unique hq hq'
  have hq0 : q + 8 * (v % 512) ≠ 0 := by have := h.ne_zero hq; omega
  simp only [if_neg hq0, wp_bind, load64, wp_get, wp_pure, he]
  rw [if_neg (by rw [mkPte_valid hf.lt]; exact hf.valid), if_neg (by
    rw [PTE_FLAGS_mkPte hf.lt]; exact hf.ne_valid)]
  simpa only [wp_bind] using h1

theorem wp_uvmunmapLoop (h : PInv K s g) (hr : g.own r = some (.node r 3 0))
    (t : τ) (hb : v₀ + n ≤ 2 ^ 26) (hleaf : ∀ v, v₀ ≤ v → v < v₀ + n → ∃ p, g.own p = some (.node r 0 v))
    (h1 : ∀ s', PInv K s' (g.freeLeaves r v₀ n) → Q () s') : wp (uvmunmapLoop K r true n (v₀ * PGSIZE)) Q s := by
  induction n generalizing v₀ s g with
  | zero =>
    rw [uvmunmapLoop, wp_pure]
    exact h1 s (by rw [freeLeaves_zero]; exact h)
  | succ n ih =>
    obtain ⟨c, hc⟩ := hleaf v₀ (le_rfl) (by omega)
    obtain ⟨q, f, hq, hf, he⟩ := h.leaf_entry hc hr
    refine wp_uvmunmap_round h hr (by omega) hq hf he ?_
    have hcq : c ≠ q := by rintro rfl; cases hq.symm.trans hc
    have hpa : PTE2PA (mkPte c f) = c := PTE2PA_mkPte hf.lt (h.isPage hc).aligned
    simp only [if_true, wp_bind, hpa]
    refine wp_kfree (h.isPage hc) ?_
    simp only [store64, wp_bind, wp_modify]
    rw [Kmem.freed_store (h.entry_disjoint hc hq hcq (Nat.mod_lt _ (by decide)))]
    have hfree := (h.unlink hq hc (fun h => absurd h (lt_irrefl 0)) t).freed set_own_self
      (h.pin_eq_none hc (by simp))
    rw [show (g.set c (.held t)).set c .free = g.set c .free from
      congrArg (fun w => Ghost.mk w g.ext g.pin g.usr) (Function.update_idem ..)] at hfree
    rw [show v₀ * PGSIZE + PGSIZE = (v₀ + 1) * PGSIZE from (Nat.succ_mul ..).symm]
    refine ih hfree ?_ (by omega) (fun v hv1 hv2 => ?_) fun s' hs' => h1 s' ?_
    · have hrc : r ≠ c := by rintro rfl; cases hr.symm.trans hc
      rw [set_own_of_ne hrc]; exact hr
    · obtain ⟨p, hp⟩ := hleaf v (by omega) (by omega)
      have hpc : p ≠ c := by rintro rfl; cases hp.symm.trans hc; omega
      exact ⟨p, by rw [set_own_of_ne hpc]; exact hp⟩
    · rw [← h.freeLeaves_succ hc]; exact hs'

theorem wp_uvmunmap (h : PInv K s g) (hr : g.own r = some (.node r 3 0))
    (t : τ) (hb : v₀ + n ≤ 2 ^ 26) (hleaf : ∀ v, v₀ ≤ v → v < v₀ + n → ∃ p, g.own p = some (.node r 0 v))
    (h1 : ∀ s', PInv K s' (g.freeLeaves r v₀ n) → Q () s') : wp (uvmunmap K r (v₀ * PGSIZE) n true) Q s := by
  simp only [uvmunmap, if_neg (not_not.mpr (Nat.mul_mod_left v₀ PGSIZE))]
  exact wp_uvmunmapLoop h hr t hb hleaf h1

theorem wp_uvmunmap_ext (h : PInv K s g) (hr : g.own r = some (.node r 3 0))
    (hv : v < 2 ^ 26) (hext : g.ext r 0 v = some c) (h1 : ∀ s', PInv K s' (g.setExt r v none) → Q () s') :
    wp (uvmunmap K r (v * PGSIZE) 1 false) Q s := by
  obtain ⟨-, q, hq⟩ := h.tables.ext (r := r) (l := 0) (v := v) (by rw [hext]; nofun)
  have hent := h.tables.entry_of_parent hq
  obtain ⟨f, hf, he, hno⟩ : ∃ f, LeafFlags f ∧ s.mem.load (q + 8 * (v % 512)) 8 = mkPte c f ∧
      ∀ p, g.own p ≠ some (.node r 0 v) := by
    generalize s.mem.load (q + 8 * (v % 512)) 8 = e at hent
    cases hent with
    | zero _ ext => exact absurd (ext.symm.trans hext) nofun
    | page _ _ ext => exact absurd (ext.symm.trans hext) nofun
    | ext flags _ ext no =>
      cases ext.symm.trans hext
      exact ⟨_, flags, rfl, no⟩
  simp only [uvmunmap, if_neg (not_not.mpr (Nat.mul_mod_left v PGSIZE))]
  refine wp_uvmunmap_round h hr hv hq hf he ?_
  simp only [Bool.false_eq_true, if_false, store64, wp_bind, wp_modify, uvmunmapLoop, wp_pure]
  exact h1 _ (h.setExt hq (.zero hno (if_pos ⟨rfl, rfl, rfl⟩)) (by decide))

/-! ### `freewalk` -/

/-- There is nothing mapped in the page table with root `r`. -/
structure NoLeaf (g : Ghost τ) (r : Nat) : Prop where
  no : ∀ p v, g.own p ≠ some (.node r 0 v)
  ext : ∀ v, g.ext r 0 v = none

structure Pruned (r l : Nat) (g g' : Ghost τ) : Prop where
  own : ∀ p, g'.own p = g.own p ∨ g'.own p = some .free ∧ ∃ k x, k < l ∧ g.own p = some (.node r k x)
  ext : g'.ext = g.ext
  pin : g'.pin = g.pin
  usr : g'.usr = g.usr

namespace Pruned

theorem refl (r l : Nat) (g : Ghost τ) : Pruned r l g g := ⟨fun _ => .inl rfl, rfl, rfl, rfl⟩

theorem trans {g'' : Ghost τ} (h : Pruned r l g g') (h' : Pruned r l g' g'') : Pruned r l g g'' := by
  refine ⟨fun p => ?_, h'.ext.trans h.ext, h'.pin.trans h.pin, h'.usr.trans h.usr⟩
  rcases h'.own p with e' | ⟨hf', k, x, hk, hn⟩
  · rw [e']; exact h.own p
  · rcases h.own p with e | ⟨hf, -⟩
    · exact .inr ⟨hf', k, x, hk, e ▸ hn⟩
    · cases hf.symm.trans hn

theorem mono {k : Nat} (h : Pruned r k g g') (hk : k ≤ l) : Pruned r l g g' :=
  ⟨fun p => (h.own p).imp id fun ⟨hf, k', x, hk', hn⟩ => ⟨hf, k', x, by omega, hn⟩, h.ext, h.pin, h.usr⟩

theorem node {r' k : Nat} (h : Pruned r l g g') (hp : g'.own p = some (.node r' k x)) :
    g.own p = some (.node r' k x) := by
  rcases h.own p with e | ⟨hf, -⟩
  · exact e.symm.trans hp
  · cases hf.symm.trans hp

theorem of_ge {k : Nat} (h : Pruned r l g g') (hp : g.own p = some (.node r k x)) (hk : l ≤ k) :
    g'.own p = some (.node r k x) := by
  rcases h.own p with e | ⟨-, k', x', hk', hn⟩
  · exact e.trans hp
  · cases hp.symm.trans hn; omega

theorem noLeaf (h : Pruned r l g g') (hn : NoLeaf g r) : NoLeaf g' r :=
  ⟨fun p v hp => hn.no p v (h.node hp), fun v => by rw [h.ext]; exact hn.ext v⟩

end Pruned

theorem PInv.entry_zero (h : PInv K s g) (hno : NoLeaf g r) (hq : g.own q = some (.node r (l + 1) x))
    (hi : i < 512) (hp : ∀ p, g.own p ≠ some (.node r l (x * 512 + i))) : s.mem.load (q + 8 * i) 8 = 0 := by
  have hent := h.tables.entry hq i hi
  generalize s.mem.load (q + 8 * i) 8 = e at hent
  cases hent with
  | zero => rfl
  | @page c _ _ own => exact absurd ((own c).mpr rfl) (hp c)
  | ext _ _ ext =>
    obtain ⟨rfl, -⟩ := h.tables.ext (r := r) (l := l) (v := x * 512 + i) (by rw [ext]; nofun)
    exact absurd ((hno.ext _).symm.trans ext) nofun

/-- One page-table page of level `l + 1`, if the recursive call does what it should. -/
theorem wp_freewalkLoop {sub : Nat → VM Unit}
    (hsub : ∀ {s : Kmem} {g : Ghost τ} {c v : Nat} {Q : Unit → Kmem → Prop}, 0 < l → PInv K s g → NoLeaf g r →
      g.own c = some (.node r l v) → (∀ s' g', PInv K s' g' → Pruned r l g g' →
        (∀ j < 512, s'.mem.load (c + 8 * j) 8 = 0) → Q () (s'.freed c)) → wp (sub c) Q s) (t : τ) (h : PInv K s g) (hno : NoLeaf g r)
    (hq : g.own q = some (.node r (l + 1) x)) (hn : n ≤ 512)
    (hdone : ∀ j < 512 - n, ∀ p, g.own p ≠ some (.node r l (x * 512 + j)))
    (h1 : ∀ s' g', PInv K s' g' → Pruned r (l + 1) g g' → (∀ j < 512, s'.mem.load (q + 8 * j) 8 = 0) →
      Q () s') : wp (freewalkLoop sub q n) Q s := by
  induction n generalizing s g with
  | zero =>
    rw [freewalkLoop, wp_pure]
    exact h1 s g h (.refl ..) fun j hj => h.entry_zero hno hq hj (hdone j hj)
  | succ n ih =>
    have hi : 512 - (n + 1) < 512 := by omega
    generalize hie : 512 - (n + 1) = i at *
    have hent := h.tables.entry hq i hi
    simp only [freewalkLoop, wp_bind, load64, wp_get, wp_pure, hie]
    generalize he : s.mem.load (q + 8 * i) 8 = e at hent
    cases hent with
    | zero no =>
      rw [if_neg (by simp), if_neg (by simp)]
      refine ih h hno hq (by omega) (fun j hj => ?_) h1
      by_cases hji : j = i
      · subst hji; exact no
      · exact hdone j (by omega)
    | ext _ _ ext =>
      obtain ⟨rfl, -⟩ := h.tables.ext (r := r) (l := l) (v := x * 512 + i) (by rw [ext]; simp)
      exact absurd ((hno.ext _).symm.trans ext) (by simp)
    | @page c f flags own =>
      have hc := (own c).mpr rfl
      cases l with
      | zero => exact absurd hc (hno.no c _)
      | succ l =>
        obtain rfl : f = PTE_V := flags
        have hpa : PTE2PA (mkPte c PTE_V) = c := PTE2PA_mkPte (by decide) (h.isPage hc).aligned
        rw [if_pos ⟨by rw [mkPte_valid (by decide)]; decide, by rw [mkPte_and (by decide) (by decide)]; decide⟩]
        simp only [wp_bind, hpa]
        refine hsub (Nat.succ_pos _) h hno hc fun s' g' h' hpr hz => ?_
        have hq' := hpr.of_ge hq (by omega)
        have hc' := hpr.of_ge hc (le_rfl)
        have hcq : c ≠ q := by rintro rfl; cases hq'.symm.trans hc'
        simp only [store64, wp_bind, wp_modify]
        rw [Kmem.freed_store (h.entry_disjoint hc hq hcq hi)]
        have hv : (x * 512 + i) / 512 = x ∧ (x * 512 + i) % 512 = i := by omega
        have hfree := ((h'.unlink (v := x * 512 + i) (by rw [hv.1]; exact hq') hc' (fun _ => hz) t).freed
          set_own_self (h'.pin_eq_none hc' (by simp)))
        rw [hv.2] at hfree
        have hpr' : Pruned r (l + 1 + 1) g' ((g'.set c (.held t)).set c .free) := by
          refine ⟨fun p => ?_, rfl, rfl, rfl⟩
          by_cases hpc : p = c
          · subst hpc; exact .inr ⟨set_own_self, _, _, Nat.lt_succ_self _, hc'⟩
          · exact .inl (by rw [set_own_of_ne hpc, set_own_of_ne hpc])
        have hall := (hpr.mono (Nat.le_succ _)).trans hpr'
        refine ih hfree (hall.noLeaf hno) (hall.of_ge hq (le_rfl)) (by omega) (fun j hj p hp => ?_)
          fun s'' g'' h'' hpr'' => h1 s'' g'' h'' (hall.trans hpr'')
        by_cases hji : j = i
        · subst hji
          obtain rfl := (own p).mp (hall.node hp)
          rw [set_own_self] at hp; cases hp
        · exact hdone j (by omega) p (hall.node hp)

theorem wp_freewalk (t : τ) (h : PInv K s g) (hno : NoLeaf g r) (hq : g.own q = some (.node r (l + 1) x))
    (h1 : ∀ s' g', PInv K s' g' → Pruned r (l + 1) g g' → (∀ j < 512, s'.mem.load (q + 8 * j) 8 = 0) →
      Q () (s'.freed q)) : wp (freewalk K (l + 1) q) Q s := by
  induction l generalizing s g q x Q with
  | zero =>
    rw [freewalk, wp_bind]
    refine wp_freewalkLoop (fun h => absurd h (lt_irrefl 0)) t h hno hq (le_rfl)
      (fun j hj => absurd hj (Nat.not_lt_zero _)) fun s' g' h' hpr hz => ?_
    exact wp_kfree (h.isPage hq) (h1 s' g' h' hpr hz)
  | succ l ih =>
    rw [freewalk, wp_bind]
    refine wp_freewalkLoop (fun _ h hno hc h1 => ih h hno hc h1) t h hno hq (le_rfl)
      (fun j hj => absurd hj (Nat.not_lt_zero _)) fun s' g' h' hpr hz => ?_
    exact wp_kfree (h.isPage hq) (h1 s' g' h' hpr hz)

def Ghost.dropTable (g : Ghost τ) (r : Nat) : Ghost τ :=
  { g with own := fun p => match g.own p with
      | some (.node r' l x) => if r' = r then some .free else some (.node r' l x)
      | o => o }

theorem Ghost.dropTable_own_congr (h : g'.own p = g.own p) : (g'.dropTable r).own p = (g.dropTable r).own p := by
  simp only [dropTable, h]

theorem Ghost.dropTable_own_node (hp : g.own p = some (.node r l x)) : (g.dropTable r).own p = some .free := by
  simp only [dropTable, hp, if_true]

theorem Ghost.dropTable_own_of_ne (hp : ∀ l x, g.own p ≠ some (.node r l x)) : (g.dropTable r).own p = g.own p := by
  simp only [dropTable]
  split
  · rename_i r' l x he
    rw [if_neg, he]
    rintro rfl
    exact hp l x he
  · rfl

theorem Ghost.dropTable_own_ne : (g.dropTable r).own p ≠ some (.node r l x) := fun hp => by
  by_cases hnode : ∃ l x, g.own p = some (.node r l x)
  · obtain ⟨l', x', hp'⟩ := hnode
    rw [dropTable_own_node hp'] at hp; cases hp
  · rw [dropTable_own_of_ne fun l x hp => hnode ⟨l, x, hp⟩] at hp
    exact hnode ⟨l, x, hp⟩

end Xv6
