import Xv6.Proofs.VmSpec

/-!
# User memory

`Table g r n` says that the page table with root `r` has the user pages 0 to `n - 1`. The functions that grow,
shrink, copy and free user memory keep that in step with the size.
-/

namespace Xv6

open Ghost Prog

variable {τ : Type} {K : Layout} {s s' : Kmem} {g g' : Ghost τ} {m : Bytes}
  {p q c r l x v va e f i n k sz : Nat} {o : Owner τ} {t : τ} {Q : Bool → Kmem → Prop}

def npg (sz : Nat) : Nat := (sz + PGSIZE - 1) / PGSIZE

theorem PGROUNDUP_eq : PGROUNDUP sz = npg sz * PGSIZE := rfl

theorem PGROUNDUP_div : PGROUNDUP sz / PGSIZE = npg sz := Nat.mul_div_cancel _ (by decide)

theorem npg_mul : npg (n * PGSIZE) = n := by simp only [npg, PGSIZE]; omega

theorem npg_mono {sz' : Nat} (h : sz ≤ sz') : npg sz ≤ npg sz' :=
  Nat.div_le_div_right (by simp only [PGSIZE]; omega)

structure Table (g : Ghost τ) (r n : Nat) : Prop where
  root : g.own r = some (.node r 3 0)
  leaves : ∀ v, (∃ p, g.own p = some (.node r 0 v)) ↔ v < n
  ext : ∀ v < 2 ^ 20, g.ext r 0 v = none

theorem PInv.leaves_le (h : PInv K s g) (hT : Table g r n) : n ≤ 2 ^ 15 := by
  choose! p hp using fun v => (hT.leaves v).mpr
  have hlt : ∀ v < n, (p v - KERNBASE) / PGSIZE < 2 ^ 15 := fun v hv => by
    have hstop : PHYSTOP = KERNBASE + PGSIZE * 2 ^ 15 := by decide
    have hv' := (h.isPage (hp v hv)).lt
    rw [hstop] at hv'
    exact Nat.div_lt_of_lt_mul (Nat.sub_lt_left_of_lt_add (h.base_le (hp v hv)) hv')
  have hinj : Function.Injective fun v : Fin n => (⟨(p v - KERNBASE) / PGSIZE, hlt v v.isLt⟩ : Fin (2 ^ 15)) := by
    intro v w hvw
    have hvw : (p v - KERNBASE) / PGSIZE = (p w - KERNBASE) / PGSIZE := congrArg Fin.val hvw
    have heq : p v = p w := by
      have h1 := (h.isPage (hp v v.isLt)).aligned
      have h2 := (h.isPage (hp w w.isLt)).aligned
      have h3 := h.base_le (hp v v.isLt)
      have h4 := h.base_le (hp w w.isLt)
      simp only [KERNBASE, PGSIZE] at h1 h2 h3 h4 hvw
      omega
    have hown := hp v v.isLt
    rw [heq, hp w w.isLt] at hown
    exact Fin.ext (by injection hown with hown; injection hown with _ _ hx; exact hx.symm)
  simpa using Fintype.card_le_of_injective _ hinj

/-- A page that is free or belongs to the page table with root `r`. -/
def Mine (r : Nat) (o : Option (Owner τ)) : Prop := o = some .free ∨ ∃ l x, o = some (.node r l x)

/-- Pages have moved between the free list and the page table with root `r`. -/
structure Moves (r : Nat) (g g' : Ghost τ) : Prop where
  own : ∀ p, g'.own p = g.own p ∨ Mine r (g.own p) ∧ Mine r (g'.own p)
  ext : g'.ext = g.ext
  pin : g'.pin = g.pin
  usr : g'.usr = g.usr

namespace Moves

theorem refl (r : Nat) (g : Ghost τ) : Moves r g g := ⟨fun _ => .inl rfl, rfl, rfl, rfl⟩

theorem trans {g'' : Ghost τ} (h : Moves r g g') (h' : Moves r g' g'') : Moves r g g'' := by
  refine ⟨fun p => ?_, h'.ext.trans h.ext, h'.pin.trans h.pin, h'.usr.trans h.usr⟩
  rcases h.own p with e | ⟨h1, h2⟩ <;> rcases h'.own p with e' | ⟨h1', h2'⟩
  · exact .inl (e'.trans e)
  · exact .inr ⟨e ▸ h1', h2'⟩
  · exact .inr ⟨h1, e' ▸ h2⟩
  · exact .inr ⟨h1, h2'⟩

theorem iff (h : Moves r g g') (ho : ¬ Mine r (some o)) : g'.own p = some o ↔ g.own p = some o := by
  rcases h.own p with e | ⟨h1, h2⟩
  · rw [e]
  · exact ⟨fun hp => absurd (hp ▸ h2) ho, fun hp => absurd (hp ▸ h1) ho⟩

theorem node {r' : Nat} (h : Moves r g g') (hr : r' ≠ r) :
    g'.own p = some (.node r' l x) ↔ g.own p = some (.node r' l x) := by
  refine h.iff ?_
  rintro (e | ⟨l, x, e⟩) <;> cases e
  exact hr rfl

theorem held (h : Moves r g g') : g'.own p = some (.held t) ↔ g.own p = some (.held t) := by
  refine h.iff ?_
  rintro (e | ⟨l, x, e⟩) <;> cases e

theorem table {r' : Nat} (h : Moves r g g') (hr : r' ≠ r) (hT : Table g r' n) : Table g' r' n := by
  refine ⟨(h.node hr).mpr hT.root, fun v => ?_, fun v hv => by rw [h.ext]; exact hT.ext v hv⟩
  rw [← hT.leaves v]
  exact exists_congr fun p => h.node hr

theorem of_grows (h : Grows r g g') : Moves r g g' :=
  ⟨fun p => (h.own p).imp id fun ⟨hf, _, _, hn⟩ => ⟨.inl hf, .inr ⟨_, _, hn⟩⟩, h.ext, h.pin, h.usr⟩

theorem freeLeaves {v₀ : Nat} : Moves r g (g.freeLeaves r v₀ n) := by
  refine ⟨fun p => ?_, rfl, rfl, rfl⟩
  by_cases hleaf : ∃ v, v₀ ≤ v ∧ v < v₀ + n ∧ g.own p = some (.node r 0 v)
  · obtain ⟨v, h1, h2, hv⟩ := hleaf
    exact .inr ⟨.inr ⟨0, v, hv⟩, .inl (freeLeaves_own_leaf hv ⟨h1, h2⟩)⟩
  · exact .inl (freeLeaves_own_of_ne fun v h1 h2 hv => hleaf ⟨v, h1, h2, hv⟩)

theorem of_alloc (hc : g.own c = some .free) (h : Moves r (g.set c (.held t)) g') (ho : Mine r (some o)) :
    Moves r g (g'.set c o) := by
  refine ⟨fun p => ?_, h.ext, h.pin, h.usr⟩
  by_cases hpc : p = c
  · subst hpc
    rw [set_own_self]
    exact .inr ⟨.inl hc, ho⟩
  · have := h.own p
    rwa [set_own_of_ne hpc, ← set_own_of_ne (g := g') (o := o) hpc] at this

end Moves

theorem Table.of_grows {r' : Nat} (hT : Table g r n) (h : Grows r' g g') : Table g' r n := by
  refine ⟨h.of_ne_free hT.root nofun, fun v => ?_, fun v hv => by rw [h.ext]; exact hT.ext v hv⟩
  rw [← hT.leaves v]
  exact exists_congr fun p => h.leaf

theorem Table.set_other (hT : Table g r n) (hc : ∀ l x, g.own c ≠ some (.node r l x))
    (ho : ∀ l x, o ≠ .node r l x) : Table (g.set c o) r n := by
  refine ⟨(set_own_iff (hc _ _) (ho _ _)).mpr hT.root, fun v => ?_, hT.ext⟩
  rw [← hT.leaves v]
  exact exists_congr fun p => set_own_iff (hc _ _) (ho _ _)

theorem Table.set_leaf (hT : Table g r n) (hc : ∀ l x, g.own c ≠ some (.node r l x)) :
    Table (g.set c (.node r 0 n)) r (n + 1) := by
  refine ⟨(set_own_iff (hc _ _) (by rintro ⟨⟩)).mpr hT.root, fun v => ?_, hT.ext⟩
  by_cases hv : v = n
  · subst hv; exact ⟨fun _ => Nat.lt_succ_self _, fun _ => ⟨c, set_own_self⟩⟩
  · have : (∃ p, (g.set c (.node r 0 n)).own p = some (.node r 0 v)) ↔ v < n := by
      rw [← hT.leaves v]
      refine exists_congr fun p => set_own_iff (hc _ _) ?_
      rintro ⟨⟩; exact hv rfl
    rw [this]
    omega

theorem Table.freeLeaves (hT : Table g r n) (hk : k ≤ n) : Table (g.freeLeaves r k (n - k)) r k := by
  refine ⟨?_, fun v => ?_, hT.ext⟩
  · rw [freeLeaves_own_of_ne fun v _ _ h => by cases hT.root.symm.trans h]; exact hT.root
  · constructor
    · rintro ⟨p, hp⟩
      by_contra hv
      by_cases hleaf : ∃ w, k ≤ w ∧ w < k + (n - k) ∧ g.own p = some (.node r 0 w)
      · obtain ⟨w, h1, h2, hw⟩ := hleaf
        rw [freeLeaves_own_leaf hw ⟨h1, h2⟩] at hp; cases hp
      · rw [freeLeaves_own_of_ne fun w h1 h2 hw => hleaf ⟨w, h1, h2, hw⟩] at hp
        have := (hT.leaves v).mp ⟨p, hp⟩
        exact hleaf ⟨v, by omega, by omega, hp⟩
    · intro hv
      obtain ⟨p, hp⟩ := (hT.leaves v).mpr (by omega)
      refine ⟨p, ?_⟩
      rw [freeLeaves_own_of_ne fun w h1 h2 hw => by cases hp.symm.trans hw; omega]
      exact hp

theorem Table.vacant (hT : Table g r n) (hv : n ≤ v) (hlt : v < 2 ^ 20) : Vacant g r v :=
  ⟨fun p hp => by have := (hT.leaves v).mp ⟨p, hp⟩; omega, hT.ext v hlt⟩

/-! ### Growing and shrinking -/

theorem wp_uvmdealloc {Q : Nat → Kmem → Prop} {oldsz newsz : Nat} (h : PInv K s g)
    (hT : Table g r (npg oldsz)) (t : τ) (hge : oldsz ≤ newsz → Q oldsz s)
    (hlt : newsz < oldsz → ∀ s' g', PInv K s' g' → Moves r g g' → Table g' r (npg newsz) → Q newsz s') :
    wp (uvmdealloc K r oldsz newsz) Q s := by
  rw [uvmdealloc]
  by_cases hsz : newsz ≥ oldsz
  · rw [if_pos hsz, wp_pure]; exact hge hsz
  · have hlt := hlt (Nat.lt_of_not_le hsz)
    have hnpg : npg newsz ≤ npg oldsz := npg_mono (by omega)
    rw [if_neg hsz]
    by_cases hup : PGROUNDUP newsz < PGROUNDUP oldsz
    · have hn : (PGROUNDUP oldsz - PGROUNDUP newsz) / PGSIZE = npg oldsz - npg newsz := by
        rw [PGROUNDUP_eq, PGROUNDUP_eq, ← Nat.sub_mul, Nat.mul_div_cancel _ (by decide)]
      have hb := h.leaves_le hT
      simp only [if_pos hup, wp_bind, hn]
      rw [PGROUNDUP_eq]
      refine wp_uvmunmap h hT.root t (by omega) (fun v _ hv => (hT.leaves v).mpr (by omega)) fun s' h' => ?_
      exact wp_pure.mpr (hlt s' _ h' .freeLeaves (hT.freeLeaves hnpg))
    · rw [if_neg hup, wp_pure]
      rw [PGROUNDUP_eq, PGROUNDUP_eq] at hup
      have heq : npg newsz = npg oldsz :=
        le_antisymm hnpg (Nat.le_of_mul_le_mul_right (Nat.le_of_not_lt hup) (by decide))
      exact hlt s g h (.refl r g) (heq ▸ hT)

theorem PInv.pin_free (h : PInv K s g) (hc : g.own c = some .free) : g.pin c = none := h.pin_eq_none hc nofun

theorem wp_uvmallocLoop {Q : Nat → Kmem → Prop} {newsz xperm k₀ : Nat} {g₀ : Ghost τ} (t : τ)
    (hf : LeafFlags (PTE_R ||| PTE_U ||| xperm ||| PTE_V)) (hu : (PTE_R ||| PTE_U ||| xperm ||| PTE_V) &&& PTE_U ≠ 0)
    (h1 : ∀ s' g', PInv K s' g' → Moves r g₀ g' → Table g' r (k + n) → Q newsz s')
    (h0 : ∀ s' g', PInv K s' g' → Moves r g₀ g' → Table g' r k₀ → Q 0 s')
    (h : PInv K s g) (hM : Moves r g₀ g) (hT : Table g r k) (hk : k₀ ≤ k) :
    wp (uvmallocLoop K r (k₀ * PGSIZE) newsz xperm n (k * PGSIZE)) Q s := by
  induction n generalizing k s g with
  | zero =>
    rw [uvmallocLoop, wp_pure]
    exact h1 s g h hM hT
  | succ n ih =>
    -- what the function does when it cannot go on
    have hundo : ∀ s' g', PInv K s' g' → Moves r g₀ g' → Table g' r k →
        wp (do let _ ← uvmdealloc K r (k * PGSIZE) (k₀ * PGSIZE); return 0) Q s' := fun s' g' h' hM' hT' => by
      rw [wp_bind]
      refine wp_uvmdealloc h' (by rw [npg_mul]; exact hT') t (fun hge => ?_) fun _ s'' g'' h'' hM'' hT'' => ?_
      · have : k = k₀ := le_antisymm (Nat.le_of_mul_le_mul_right hge (by decide)) hk
        exact wp_pure.mpr (h0 s' g' h' hM' (this ▸ hT'))
      · rw [npg_mul] at hT''
        exact wp_pure.mpr (h0 s'' g'' h'' (hM'.trans hM'') hT'')
    have hb := h.leaves_le hT
    rw [uvmallocLoop, wp_bind]
    refine wp_kalloc h t ?_ fun c s' hc h' => ?_
    · rw [if_pos rfl]; exact hundo s g h hM hT
    · have hcn : ∀ l x, g.own c ≠ some (.node r l x) := by rw [hc]; simp
      have hpin := h.pin_free hc
      have hz := h'.memset (k := 0) (.inl ⟨⟨t, set_own_self⟩, hpin⟩)
      have hT' : Table (g.set c (.held t)) r k := hT.set_other hcn (by simp)
      rw [if_neg (h.ne_zero hc)]
      simp only [memset, wp_bind, wp_modify]
      refine wp_mappages hz hT'.root (by omega) (hT'.vacant (le_rfl) (by omega)) set_own_self hpin hf
        (fun _ => hu) (fun g' s'' h'' hG => ?_) fun g' s'' h'' hG => ?_
      · have hcg : g'.own c = some (.held t) := hG.of_ne_free set_own_self (by simp)
        simp only [Bool.not_false, if_true, wp_bind]
        refine wp_kfree (h''.isPage hcg) ?_
        refine (hundo (s''.freed c) (g'.set c .free) (h''.freed hcg (by rw [hG.pin]; exact hpin))
          (hM.trans ((Moves.of_grows hG).of_alloc hc (.inl rfl))) ?_)
        exact (hT'.of_grows hG).set_other (by rw [hcg]; simp) (by simp)
      · have hcg : g'.own c = some (.held t) := hG.of_ne_free set_own_self (by simp)
        simp only [Bool.not_true, Bool.false_eq_true, if_false]
        rw [show k * PGSIZE + PGSIZE = (k + 1) * PGSIZE from (Nat.succ_mul ..).symm]
        refine ih (fun s' g' h' hM' hT' => h1 s' g' h' hM' ?_) h''
          (hM.trans ((Moves.of_grows hG).of_alloc hc (.inr ⟨0, k, rfl⟩)))
          ((hT'.of_grows hG).set_leaf (by rw [hcg]; simp)) (by omega)
        rwa [add_assoc, add_comm 1 n] at hT'

theorem wp_uvmalloc {Q : Nat → Kmem → Prop} {oldsz newsz xperm : Nat} (h : PInv K s g)
    (hT : Table g r (npg oldsz)) (t : τ) (hf : LeafFlags (PTE_R ||| PTE_U ||| xperm ||| PTE_V))
    (hu : (PTE_R ||| PTE_U ||| xperm ||| PTE_V) &&& PTE_U ≠ 0) (hle : newsz < oldsz → Q oldsz s)
    (h1 : oldsz ≤ newsz → ∀ s' g', PInv K s' g' → Moves r g g' → Table g' r (npg newsz) → Q newsz s')
    (h0 : ∀ s' g', PInv K s' g' → Moves r g g' → Table g' r (npg oldsz) → Q 0 s') :
    wp (uvmalloc K r oldsz newsz xperm) Q s := by
  rw [uvmalloc]
  by_cases hsz : newsz < oldsz
  · rw [if_pos hsz, wp_pure]; exact hle hsz
  · rw [if_neg hsz]
    have hn : npg oldsz + (newsz - PGROUNDUP oldsz + PGSIZE - 1) / PGSIZE = npg newsz := by
      simp only [npg, PGROUNDUP, PGSIZE]; omega
    refine wp_uvmallocLoop t hf hu (fun s' g' h' hM hT' => h1 (by omega) s' g' h' hM ?_) h0 h (.refl r g) hT
      (le_rfl)
    rwa [← hn]

/-! ### Making and freeing a page table -/

theorem wp_uvmcreate {Q : Nat → Kmem → Prop} (h : PInv K s g) (t : τ) (h0 : Q 0 s)
    (h1 : ∀ c s', g.own c = some .free → PInv K s' (g.set c (.node c 3 0)) → Q c s') : wp uvmcreate Q s := by
  rw [uvmcreate, wp_bind]
  refine wp_kalloc h t ?_ fun c s' hc h' => ?_
  · rw [if_pos rfl, wp_pure]; exact h0
  · have hpin := h.pin_free hc
    have hz := h'.memset (k := 0) (.inl ⟨⟨t, set_own_self⟩, hpin⟩)
    rw [if_neg (h.ne_zero hc)]
    simp only [memset, wp_bind, wp_modify, wp_pure]
    refine h1 c _ hc ?_
    have ht := hz.tables.mkRoot set_own_self (fun j hj => load_fill_zero hj) 3 0
    have hset : (g.set c (.held t)).set c (.node c 3 0) = g.set c (.node c 3 0) :=
      congrArg (fun w => Ghost.mk w g.ext g.pin g.usr) (Function.update_idem ..)
    rw [← hset]
    exact hz.of_tables_set (fun _ _ _ _ _ => rfl) set_own_self (by simp) (by simp) hpin ht

theorem wp_freewalk_root {Q : Unit → Kmem → Prop} (t : τ) (h : PInv K s g) (hno : NoLeaf g r)
    (hr : g.own r = some (.node r 3 0)) (h1 : ∀ s', PInv K s' (g.dropTable r) → Q () s') : wp (freewalk K 3 r) Q s := by
  refine wp_freewalk t h hno hr fun s' g' h' hpr hz => h1 _ ?_
  have hr' := hpr.of_ge hr (le_rfl)
  have hroot := h'.of_tables_set (o := .held t) (fun _ _ _ _ _ => rfl) hr' nofun nofun (h'.pin_eq_none hr' nofun)
    (h'.tables.unRoot hr' hz)
  have hfree := hroot.freed set_own_self (h'.pin_eq_none hr' nofun)
  refine (congrArg (PInv K (s'.freed r)) ?_).mp hfree
  have hown : ((g'.set r (.held t)).set r .free).own = (g.dropTable r).own := funext fun p => by
    by_cases hpr' : p = r
    · subst hpr'; rw [set_own_self, dropTable_own_node hr]
    · rw [set_own_of_ne hpr', set_own_of_ne hpr']
      by_cases hnode : ∃ l x, g.own p = some (.node r l x)
      · obtain ⟨l, x, hp⟩ := hnode
        rw [dropTable_own_node hp]
        rcases hpr.own p with e | ⟨hf, -⟩
        · exact absurd (h'.tables.eq_root hr' hz (e.trans hp)) hpr'
        · exact hf
      · rw [dropTable_own_of_ne fun l x hp => hnode ⟨l, x, hp⟩]
        rcases hpr.own p with e | ⟨-, k, x, -, hp⟩
        · exact e
        · exact absurd ⟨k, x, hp⟩ hnode
  exact Ghost.eq_of hown hpr.ext hpr.pin hpr.usr

theorem Ghost.dropTable_freeLeaves {v₀ : Nat} : (g.freeLeaves r v₀ n).dropTable r = g.dropTable r := by
  refine congrArg (fun w => Ghost.mk w g.ext g.pin g.usr) (funext fun p => ?_)
  by_cases hleaf : ∃ v, v₀ ≤ v ∧ v < v₀ + n ∧ g.own p = some (.node r 0 v)
  · obtain ⟨v, h1, h2, hv⟩ := hleaf
    have hf := freeLeaves_own_leaf hv ⟨h1, h2⟩
    refine (dropTable_own_of_ne fun l x hp => ?_).trans (hf.trans (dropTable_own_node hv).symm)
    cases hf.symm.trans hp
  · exact dropTable_own_congr (freeLeaves_own_of_ne fun v h1 h2 hv => hleaf ⟨v, h1, h2, hv⟩)

theorem wp_uvmfree {Q : Unit → Kmem → Prop} (h : PInv K s g) (hT : Table g r (npg sz))
    (hext : ∀ v, g.ext r 0 v = none) (t : τ) (h1 : ∀ s', PInv K s' (g.dropTable r) → Q () s') :
    wp (uvmfree K r sz) Q s := by
  have hb := h.leaves_le hT
  rw [uvmfree]
  by_cases hsz : sz > 0
  · simp only [if_pos hsz, wp_bind, PGROUNDUP_div]
    rw [show (0 : Nat) = 0 * PGSIZE from rfl]
    refine wp_uvmunmap h hT.root t (by omega) (fun v _ hv => (hT.leaves v).mpr (by omega)) fun s' h' => ?_
    have hT' := hT.freeLeaves (Nat.zero_le (npg sz))
    refine wp_freewalk_root t h' ⟨fun p v hp => ?_, hext⟩ hT'.root fun s'' h'' => h1 s'' ?_
    · exact absurd ((hT'.leaves v).mp ⟨p, hp⟩) (Nat.not_lt_zero v)
    · rwa [dropTable_freeLeaves] at h''
  · have h0 : npg sz = 0 := by simp only [npg, PGSIZE]; omega
    rw [if_neg hsz]
    refine wp_freewalk_root t h ⟨fun p v hp => ?_, hext⟩ hT.root h1
    exact absurd ((hT.leaves v).mp ⟨p, hp⟩) (h0 ▸ Nat.not_lt_zero v)

/-! ### Copying a page table -/

theorem or_valid_eq (hf : f < 1024) (hv : f &&& PTE_V ≠ 0) : f ||| PTE_V = f := by
  have hall : ∀ f < 1024, f &&& PTE_V ≠ 0 → f ||| PTE_V = f := by decide +kernel
  exact hall f hf hv

theorem LeafFlags.or_valid (h : LeafFlags f) : f ||| PTE_V = f := or_valid_eq h.lt h.valid

theorem wp_uvmcopyLoop {r₁ r₂ j : Nat} {g₀ : Ghost τ} (t : τ) (hne : r₁ ≠ r₂)
    (h1 : ∀ s' g', PInv K s' g' → Moves r₂ g₀ g' → Table g' r₂ (j + n) → Q true s')
    (h0 : ∀ s' g', PInv K s' g' → Moves r₂ g₀ g' → Table g' r₂ 0 → Q false s')
    (h : PInv K s g) (hM : Moves r₂ g₀ g) (hT1 : Table g r₁ (j + n)) (hT2 : Table g r₂ j)
    (hu : ∀ v, ¬ g.usr r₂ v) : wp (uvmcopyLoop K r₁ r₂ n (j * PGSIZE)) Q s := by
  induction n generalizing j s g with
  | zero =>
    rw [uvmcopyLoop, wp_pure]
    exact h1 s g h hM hT2
  | succ n ih =>
    have hb := h.leaves_le hT1
    -- what the function does when it cannot go on
    have hundo : ∀ s' g', PInv K s' g' → Moves r₂ g₀ g' → Table g' r₂ j →
        wp (do uvmunmap K r₂ 0 (j * PGSIZE / PGSIZE) true; return false) Q s' := fun s' g' h' hM' hT' => by
      rw [wp_bind, Nat.mul_div_cancel _ (by decide), show (0 : Nat) = 0 * PGSIZE from rfl]
      refine wp_uvmunmap h' hT'.root t (by omega) (fun v _ hv => (hT'.leaves v).mpr (by omega)) fun s'' h'' => ?_
      exact wp_pure.mpr (h0 s'' _ h'' (hM'.trans .freeLeaves) (hT'.freeLeaves (Nat.zero_le j)))
    obtain ⟨b, hb'⟩ := (hT1.leaves j).mpr (by omega)
    obtain ⟨q, f, hq, hf, he⟩ := h.leaf_entry hb' hT1.root
    rw [uvmcopyLoop, wp_bind]
    refine wp_walk_lookup h hT1.root (by omega) (fun hno => absurd hq (hno q)) fun q' hq' => ?_
    obtain rfl := h.tables.unique hq hq'
    have hq0 : q + 8 * (j % 512) ≠ 0 := by have := h.ne_zero hq; omega
    simp only [if_neg hq0, wp_bind, load64, wp_get, wp_pure, he]
    rw [if_neg (by rw [mkPte_valid hf.lt]; exact hf.valid), wp_bind]
    refine wp_kalloc h t ?_ fun c s' hc h' => ?_
    · rw [if_pos rfl]; exact hundo s g h hM hT2
    · have hcn : ∀ r l x, g.own c ≠ some (.node r l x) := by rw [hc]; simp
      have hpin := h.pin_free hc
      have hz : PInv K { s' with mem := s'.mem.copy c s'.mem (PTE2PA (mkPte b f)) PGSIZE } (g.set c (.held t)) :=
        h'.write (outside_copy (le_rfl) (le_rfl)) (.inl ⟨⟨t, set_own_self⟩, hpin⟩)
      have hT' : Table (g.set c (.held t)) r₂ j := hT2.set_other (hcn _) (by simp)
      rw [if_neg (h.ne_zero hc)]
      simp only [memmove, wp_bind, wp_modify, PTE_FLAGS_mkPte hf.lt]
      refine wp_mappages hz hT'.root (by omega) (hT'.vacant (le_rfl) (by omega)) set_own_self hpin
        (by rw [hf.or_valid]; exact hf) (fun hj => absurd hj (hu j)) (fun g' s'' h'' hG => ?_)
        fun g' s'' h'' hG => ?_
      · have hcg : g'.own c = some (.held t) := hG.of_ne_free set_own_self (by simp)
        simp only [Bool.not_false, if_true, wp_bind]
        refine wp_kfree (h''.isPage hcg) ?_
        exact hundo (s''.freed c) (g'.set c .free) (h''.freed hcg (by rw [hG.pin]; exact hpin))
          (hM.trans ((Moves.of_grows hG).of_alloc hc (.inl rfl)))
          ((hT'.of_grows hG).set_other (by rw [hcg]; simp) (by simp))
      · have hcg : g'.own c = some (.held t) := hG.of_ne_free set_own_self (by simp)
        have hM' := (Moves.of_grows hG).of_alloc (o := .node r₂ 0 j) hc (.inr ⟨0, j, rfl⟩)
        simp only [Bool.not_true, Bool.false_eq_true, if_false]
        rw [show j * PGSIZE + PGSIZE = (j + 1) * PGSIZE from (Nat.succ_mul ..).symm]
        have hjn : j + 1 + n = j + (n + 1) := by omega
        refine ih (hjn ▸ h1) h'' (hM.trans hM') (hjn ▸ hM'.table hne hT1)
          ((hT'.of_grows hG).set_leaf (by rw [hcg]; simp)) fun v => ?_
        rw [hM'.usr]; exact hu v

theorem wp_uvmcopy {r₁ r₂ : Nat} (h : PInv K s g) (t : τ) (hne : r₁ ≠ r₂)
    (hT1 : Table g r₁ (npg sz)) (hT2 : Table g r₂ 0) (hu : ∀ v, ¬ g.usr r₂ v)
    (h1 : ∀ s' g', PInv K s' g' → Moves r₂ g g' → Table g' r₂ (npg sz) → Q true s')
    (h0 : ∀ s' g', PInv K s' g' → Moves r₂ g g' → Table g' r₂ 0 → Q false s') : wp (uvmcopy K r₁ r₂ sz) Q s := by
  rw [uvmcopy, show (0 : Nat) = 0 * PGSIZE from rfl]
  exact wp_uvmcopyLoop (j := 0) t hne (by rwa [zero_add]) h0 h (.refl r₂ g) (by rwa [zero_add]) hT2 hu

/-! ### Access to user memory -/

theorem LeafFlags.clear (h : LeafFlags f) : LeafFlags (f - (f &&& PTE_U)) := by
  have hall : ∀ f < 1024, (f - (f &&& PTE_U)) &&& PTE_V = f &&& PTE_V ∧
      (f - (f &&& PTE_U)) &&& (PTE_R ||| PTE_W ||| PTE_X) = f &&& (PTE_R ||| PTE_W ||| PTE_X) := by
    decide +kernel
  obtain ⟨h1, h2⟩ := hall f h.lt
  exact ⟨lt_of_le_of_lt (Nat.sub_le ..) h.lt, by rw [h1]; exact h.valid, by rw [h2]; exact h.leaf⟩

theorem wp_uvmclear {Q : Unit → Kmem → Prop} (h : PInv K s g) (hT : Table g r n) (hv : v < n)
    (hu : ¬ g.usr r v) (h1 : ∀ s', PInv K s' g → Q () s') : wp (uvmclear r (v * PGSIZE)) Q s := by
  have hb := h.leaves_le hT
  obtain ⟨c, hc⟩ := (hT.leaves v).mpr hv
  obtain ⟨q, f, hq, hf, he⟩ := h.leaf_entry hc hT.root
  rw [uvmclear, wp_bind]
  refine wp_walk_lookup h hT.root (by omega) (fun hno => absurd hq (hno q)) fun q' hq' => ?_
  obtain rfl := h.tables.unique hq hq'
  have hq0 : q + 8 * (v % 512) ≠ 0 := by have := h.ne_zero hq; omega
  have hpte : mkPte c f - (mkPte c f &&& PTE_U) = mkPte c (f - (f &&& PTE_U)) := by
    rw [mkPte_and hf.lt (by decide), mkPte_eq hf.lt, mkPte_eq hf.clear.lt]
    exact Nat.add_sub_assoc (Nat.and_le_left) _
  simp only [if_neg hq0, wp_bind, load64, wp_get, wp_pure, he, store64, wp_modify, hpte]
  exact h1 _ (h.setFlags hq hc hf.clear fun _ h => absurd h hu)

theorem wp_walkaddr {Q : Nat → Kmem → Prop} (h : PInv K s g) (hr : g.own r = some (.node r 3 0))
    (h0 : (g.usr r v → v < 2 ^ 26 → ∀ p, g.own p ≠ some (.node r 0 v)) → Q 0 s)
    (h1 : ∀ c, g.own c = some (.node r 0 v) → Q c s) : wp (walkaddr r (v * PGSIZE)) Q s := by
  rw [walkaddr]
  by_cases hva : v * PGSIZE ≥ MAXVA
  · rw [if_pos hva, wp_pure]
    exact h0 fun _ hv => absurd hva (not_le.mpr (page_lt_MAXVA hv))
  · have hv : v < 2 ^ 26 := by
      have : MAXVA = 2 ^ 26 * PGSIZE := by decide
      rw [this] at hva
      exact Nat.lt_of_mul_lt_mul_right (Nat.lt_of_not_le hva)
    rw [if_neg hva, wp_bind]
    refine wp_walk_lookup h hr hv (fun hno => ?_) fun q hq => ?_
    · rw [if_pos rfl, wp_pure]
      refine h0 fun _ _ p hp => ?_
      obtain ⟨q, -, hq, -⟩ := h.leaf_entry hp hr
      exact hno q hq
    · have hq0 : q + 8 * (v % 512) ≠ 0 := by have := h.ne_zero hq; omega
      have hent := h.tables.entry_of_parent hq
      simp only [if_neg hq0, wp_bind, load64, wp_get, wp_pure]
      generalize s.mem.load (q + 8 * (v % 512)) 8 = e at hent
      cases hent with
      | zero no =>
        rw [if_pos (by rfl), wp_pure]
        exact h0 fun _ _ => no
      | ext flags user _ no =>
        rw [if_neg (by rw [mkPte_valid flags.lt]; exact flags.valid),
          if_pos (by rw [mkPte_and flags.lt (by decide)]; exact user), wp_pure]
        exact h0 fun _ _ => no
      | @page c f flags own _ user =>
        have hc := (own c).mpr rfl
        rw [if_neg (by rw [mkPte_valid flags.lt]; exact flags.valid), mkPte_and flags.lt (by decide)]
        by_cases hu : f &&& PTE_U = 0
        · rw [if_pos hu, wp_pure]
          exact h0 fun hur => absurd hu (user rfl hur)
        · rw [if_neg hu, wp_pure, PTE2PA_mkPte flags.lt (h.isPage hc).aligned]
          exact h1 c hc

theorem PGROUNDDOWN_eq : PGROUNDDOWN va = va / PGSIZE * PGSIZE := rfl

theorem wp_copyout {dstva : Nat} {src : List UInt8} (h : PInv K s g)
    (hr : g.own r = some (.node r 3 0)) (h1 : ∀ b s', PInv K s' g → Q b s') : wp (copyout r dstva src) Q s := by
  induction hlen : src.length using Nat.strong_induction_on generalizing dstva src s with
  | _ len ih =>
    rw [copyout]
    by_cases h0 : src.length = 0
    · rw [dif_pos h0, wp_pure]; exact h1 true s h
    · rw [dif_neg h0, wp_bind, PGROUNDDOWN_eq]
      refine wp_walkaddr h hr (fun _ => ?_) fun c hc => ?_
      · rw [if_pos rfl, wp_pure]; exact h1 false s h
      · have hoff : dstva - dstva / PGSIZE * PGSIZE < PGSIZE := by simp only [PGSIZE]; omega
        simp only [if_neg (h.ne_zero hc), wp_bind, wp_modify]
        refine ih _ ?_ (h.write (outside_copy (Nat.le_add_right ..) (by omega)) (.inr ⟨r, _, hc⟩)) rfl
        rw [List.length_drop]
        omega

theorem wp_copyin {Q : Option (List UInt8) → Kmem → Prop} {srcva len : Nat} (h : PInv K s g)
    (hr : g.own r = some (.node r 3 0)) (h1 : ∀ b, Q b s) : wp (copyin r srcva len) Q s := by
  induction len using Nat.strong_induction_on generalizing srcva Q with
  | _ len ih =>
    rw [copyin]
    by_cases h0 : len = 0
    · rw [dif_pos h0, wp_pure]; exact h1 _
    · rw [dif_neg h0, wp_bind, PGROUNDDOWN_eq]
      refine wp_walkaddr h hr (fun _ => ?_) fun c hc => ?_
      · rw [if_pos rfl, wp_pure]; exact h1 _
      · have hoff : srcva - srcva / PGSIZE * PGSIZE < PGSIZE := by simp only [PGSIZE]; omega
        simp only [if_neg (h.ne_zero hc), wp_bind, wp_get]
        exact ih _ (by omega) fun b => wp_pure.mpr (h1 _)

theorem wp_copyinstrPage {dst : Nat} (h : PInv K s g) (hc : Scratch g c)
    (hd : c ≤ dst) (hn : dst + n ≤ c + PGSIZE) (h1 : ∀ b s', PInv K s' g → Q b s') :
    wp (copyinstrPage n dst p) Q s := by
  induction n generalizing dst p s with
  | zero => rw [copyinstrPage, wp_pure]; exact h1 false s h
  | succ n ih =>
    simp only [copyinstrPage, wp_bind, wp_get, wp_modify]
    have h' : PInv K { s with mem := s.mem.fill dst 1 (s.mem p) } g :=
      h.write (fun a ha => Bytes.fill_of_not_mem (by omega)) hc
    split
    · rw [wp_pure]; exact h1 true _ h'
    · exact ih h' (by omega) (by omega)

theorem wp_copyinstr {dst srcva max : Nat} (h : PInv K s g)
    (hr : g.own r = some (.node r 3 0)) (hc : Scratch g c) (hd : c ≤ dst) (hn : dst + max ≤ c + PGSIZE)
    (h1 : ∀ b s', PInv K s' g → Q b s') : wp (copyinstr r dst srcva max) Q s := by
  induction max using Nat.strong_induction_on generalizing srcva dst s with
  | _ max ih =>
    rw [copyinstr]
    by_cases h0 : max = 0
    · rw [dif_pos h0, wp_pure]; exact h1 false s h
    · rw [dif_neg h0, wp_bind, PGROUNDDOWN_eq]
      refine wp_walkaddr h hr (fun _ => ?_) fun c' hc' => ?_
      · rw [if_pos rfl, wp_pure]; exact h1 false s h
      · have hoff : srcva - srcva / PGSIZE * PGSIZE < PGSIZE := by simp only [PGSIZE]; omega
        simp only [if_neg (h.ne_zero hc'), wp_bind]
        refine wp_copyinstrPage h hc hd (by omega) fun b s' h' => ?_
        cases b with
        | true => simp only [if_true, wp_pure]; exact h1 true s' h'
        | false =>
          simp only [Bool.false_eq_true, if_false]
          exact ih _ (by omega) h' (by omega) (by omega)

end Xv6
