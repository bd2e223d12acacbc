import Xv6.ProcMem
import Xv6.Proofs.UvmSpec

/-!
# Address spaces

`Space K g r n t` is the page table of a process: `n` user pages, the trampoline, and the trapframe page `t`.
`Frame R T g g'` says how far an operation may have changed the owners of pages: only free pages, page
tables with a root in `R` and pages held under a tag in `T` are concerned.
-/

namespace Xv6

open Ghost Prog

variable {τ : Type} {K : Layout} {s s' : Kmem} {g g' g'' : Ghost τ} {R R' : Nat → Prop} {T T' : τ → Prop}
  {p c r l x v n sz : Nat} {o o' : Owner τ} {t : Nat} {tag : τ}

def Loose (R : Nat → Prop) (T : τ → Prop) : Owner τ → Prop
  | .free => True
  | .node r _ _ => R r
  | .held t => T t

structure Frame (R : Nat → Prop) (T : τ → Prop) (g g' : Ghost τ) : Prop where
  own : ∀ {p o}, ¬ Loose R T o → (g'.own p = some o ↔ g.own p = some o)
  ext : ∀ {r l v}, ¬ R r → g'.ext r l v = g.ext r l v
  pin : ∀ {p t}, g.own p = some (.held t) → ¬ T t → g'.pin p = g.pin p

namespace Frame

theorem refl (R : Nat → Prop) (T : τ → Prop) (g : Ghost τ) : Frame R T g g := ⟨fun _ => Iff.rfl, fun _ => rfl, fun _ _ => rfl⟩

theorem node (h : Frame R T g g') (hr : ¬ R r) :
    g'.own p = some (.node r l x) ↔ g.own p = some (.node r l x) := h.own (o := .node r l x) hr

theorem held (h : Frame R T g g') (ht : ¬ T tag) : g'.own p = some (.held tag) ↔ g.own p = some (.held tag) :=
  h.own (o := .held tag) ht

theorem trans (h : Frame R T g g') (h' : Frame R T g' g'') : Frame R T g g'' :=
  ⟨fun ho => (h'.own ho).trans (h.own ho), fun hr => (h'.ext hr).trans (h.ext hr),
    fun hp ht => (h'.pin ((h.held ht).mpr hp) ht).trans (h.pin hp ht)⟩

theorem mono (h : Frame R T g g') (hR : ∀ r, R r → R' r) (hT : ∀ t, T t → T' t) : Frame R' T' g g' := by
  refine ⟨fun {p o} ho => h.own fun hl => ho ?_, fun hr => h.ext fun hl => hr (hR _ hl),
    fun hp ht => h.pin hp fun hl => ht (hT _ hl)⟩
  cases o with
  | free => trivial
  | node r l x => exact hR r hl
  | held t => exact hT t hl

theorem of_moves (h : Moves r g g') (hr : R r) : Frame R T g g' := by
  refine ⟨fun {p o} ho => h.iff ?_, fun _ => by rw [h.ext], fun _ _ => by rw [h.pin]⟩
  rintro (e | ⟨l, x, e⟩) <;> cases e
  · exact ho trivial
  · exact ho hr

theorem set (hc : g.own c = some o') (ho' : Loose R T o') (ho : Loose R T o) : Frame R T g (g.set c o) := by
  refine ⟨fun {p o₁} h₁ => set_own_iff ?_ ?_, fun _ => rfl, fun _ _ => rfl⟩
  · rintro e; cases hc.symm.trans e; exact h₁ ho'
  · rintro rfl; exact h₁ ho

theorem setExt {w : Option Nat} (hr : R r) : Frame R T g (g.setExt r v w) := by
  refine ⟨fun _ => Iff.rfl, fun {r' l v'} h' => if_neg ?_, fun _ _ => rfl⟩
  rintro ⟨rfl, -⟩
  exact h' hr

theorem dropTable (hr : R r) : Frame R T g (g.dropTable r) := by
  refine ⟨fun {p o} ho => ?_, fun _ => rfl, fun _ _ => rfl⟩
  by_cases hnode : ∃ l x, g.own p = some (.node r l x)
  · obtain ⟨l, x, hp⟩ := hnode
    rw [dropTable_own_node hp, hp]
    constructor <;> rintro ⟨⟩
    · exact absurd trivial ho
    · exact absurd hr ho
  · rw [dropTable_own_of_ne fun l x hp => hnode ⟨l, x, hp⟩]

theorem dropRoot (h : Frame (· = r) T g g') (ht : Tables s.mem g) (ht' : Tables s'.mem g')
    (hno : ∀ p l x, g.own p ≠ some (.node r l x)) (hno' : ∀ p l x, g'.own p ≠ some (.node r l x)) :
    Frame (fun _ => False) T g g' := by
  refine ⟨fun {p o} ho => ?_, fun {r' l v} _ => ?_, h.pin⟩
  · by_cases hl : Loose (· = r) T o
    · cases o with
      | free => exact absurd trivial ho
      | node r' l x =>
        obtain rfl : r' = r := hl
        exact ⟨fun e => absurd e (hno' _ _ _), fun e => absurd e (hno _ _ _)⟩
      | held t => exact absurd hl ho
    · exact h.own hl
  · by_cases hr : r' = r
    · subst hr
      have hnone : ∀ {m : Bytes} {g : Ghost τ}, Tables m g → (∀ p l x, g.own p ≠ some (.node r' l x)) →
          g.ext r' l v = none := fun ht hno => by
        by_contra hne
        obtain ⟨-, q, hq⟩ := ht.ext hne
        exact hno _ _ _ hq
      rw [hnone ht hno, hnone ht' hno']
    · exact h.ext hr

theorem dropTag (h : Frame R (· = tag) g g') (hno : ∀ p, g.own p ≠ some (.held tag))
    (hno' : ∀ p, g'.own p ≠ some (.held tag)) : Frame R (fun _ => False) g g' := by
  refine ⟨fun {p o} ho => ?_, h.ext, fun {p t} hp _ => h.pin hp ?_⟩
  · by_cases hl : Loose R (· = tag) o
    · cases o with
      | free => exact absurd trivial ho
      | node r l x => exact absurd hl ho
      | held t =>
        obtain rfl : t = tag := hl
        exact ⟨fun e => absurd e (hno' _), fun e => absurd e (hno _)⟩
    · exact h.own hl
  · rintro rfl; exact hno p hp

theorem table (h : Frame R T g g') (hr : ¬ R r) (hT : Table g r n) : Table g' r n := by
  refine ⟨(h.node hr).mpr hT.root, fun v => ?_, fun v hv => by rw [h.ext hr]; exact hT.ext v hv⟩
  rw [← hT.leaves v]
  exact exists_congr fun p => h.node hr

end Frame

theorem Tables.no_node {m : Bytes} (h : Tables m g) (hr : g.own r = some .free) :
    ∀ p l x, g.own p ≠ some (.node r l x) := fun p l x hp => by
  obtain ⟨L, X, hr', -⟩ := h.root hp
  cases hr.symm.trans hr'

structure Space (K : Layout) (g : Ghost τ) (r n t : Nat) : Prop where
  table : Table g r n
  ext : ∀ v, g.ext r 0 v = if v = TRAMPOLINE / PGSIZE then some K.trampoline
    else if v = TRAPFRAME / PGSIZE then some t else none

theorem Space.of_frame (h : Space K g r n t) (hF : Frame R T g g') (hr : ¬ R r) : Space K g' r n t :=
  ⟨hF.table hr h.table, fun v => (hF.ext hr).trans (h.ext v)⟩

theorem Space.of_moves {n' : Nat} (h : Space K g r n t) (hM : Moves r g g') (hT : Table g' r n') :
    Space K g' r n' t :=
  ⟨hT, fun v => by rw [hM.ext]; exact h.ext v⟩

theorem TRAMPOLINE_eq : TRAMPOLINE = (2 ^ 26 - 1) * PGSIZE := by decide

theorem TRAPFRAME_eq : TRAPFRAME = (2 ^ 26 - 2) * PGSIZE := by decide

theorem TRAMPOLINE_div : TRAMPOLINE / PGSIZE = 2 ^ 26 - 1 := by decide

theorem TRAPFRAME_div : TRAPFRAME / PGSIZE = 2 ^ 26 - 2 := by decide

theorem Layout.trampoline_lt_pow (K : Layout) : K.trampoline < 2 ^ 56 :=
  lt_of_le_of_lt (le_trans (Nat.le_add_right ..) (K.trampoline_lt.trans K.kend_le)) (by decide)

theorem setExt_ext_self {w : Option Nat} : (g.setExt r v w).ext r 0 v = w := if_pos ⟨rfl, rfl, rfl⟩

theorem setExt_ext_of_ne {w : Option Nat} {v' : Nat} (h : v' ≠ v) : (g.setExt r v w).ext r 0 v' = g.ext r 0 v' :=
  if_neg fun e => h e.2.2

theorem wp_procFreepagetable {Q : Unit → Kmem → Prop} (h : PInv K s g) (hS : Space K g r (npg sz) t) (tag : τ)
    (h1 : ∀ s' g', PInv K s' g' → Frame (· = r) (fun _ => False) g g' → (∀ p l x, g'.own p ≠ some (.node r l x)) →
      g'.usr = g.usr → Q () s') : wp (Kern.procFreepagetable K r sz) Q s := by
  have hne : (2 ^ 26 - 2 : Nat) ≠ 2 ^ 26 - 1 := by decide
  have hT := hS.table
  rw [Kern.procFreepagetable, wp_bind, TRAMPOLINE_eq]
  refine wp_uvmunmap_ext (c := K.trampoline) h hT.root (by decide) ?_ fun s₁ h₁ => ?_
  · rw [hS.ext, TRAMPOLINE_div, if_pos rfl]
  rw [wp_bind, TRAPFRAME_eq]
  refine wp_uvmunmap_ext (c := t) h₁ hT.root (by decide) ?_ fun s₂ h₂ => ?_
  · rw [setExt_ext_of_ne hne, hS.ext, TRAMPOLINE_div, TRAPFRAME_div, if_neg hne, if_pos rfl]
  generalize hg2 : (g.setExt r (2 ^ 26 - 1) none).setExt r (2 ^ 26 - 2) none = g₂ at h₂
  have hF : Frame (· = r) (fun _ => False) g g₂ := by
    rw [← hg2]; exact Frame.trans (R := (· = r)) (.setExt rfl) (.setExt rfl)
  have hext : ∀ v, g₂.ext r 0 v = none := fun v => by
    subst hg2
    by_cases h2 : v = 2 ^ 26 - 2
    · subst h2; exact setExt_ext_self
    · rw [setExt_ext_of_ne h2]
      by_cases h1 : v = 2 ^ 26 - 1
      · subst h1; exact setExt_ext_self
      · rw [setExt_ext_of_ne h1, hS.ext, TRAMPOLINE_div, TRAPFRAME_div, if_neg h1, if_neg h2]
  have hT2 : Table g₂ r (npg sz) := by
    subst hg2; exact ⟨hT.root, hT.leaves, fun v _ => hext v⟩
  exact wp_uvmfree h₂ hT2 hext tag fun s' h' => h1 s' _ h' (hF.trans (.dropTable rfl)) (fun p l x => dropTable_own_ne)
    (by subst hg2; rfl)

theorem wp_procPagetable {Q : Nat → Kmem → Prop} (h : PInv K s g) (ht : t < 2 ^ 56) (tag : τ)
    (h0 : ∀ s' g', PInv K s' g' → Frame (fun _ => False) (fun _ => False) g g' → g'.usr = g.usr → Q 0 s')
    (h1 : ∀ r s' g', PInv K s' g' → g.own r = some .free → Frame (· = r) (fun _ => False) g g' →
      Space K g' r 0 t → g'.usr = g.usr → Q r s') : wp (Kern.procPagetable K t) Q s := by
  have hne : (2 ^ 26 - 1 : Nat) ≠ 2 ^ 26 - 2 := by decide
  rw [Kern.procPagetable, wp_bind]
  refine wp_uvmcreate h tag ?_ fun r s₁ hr h₁ => ?_
  · rw [if_pos rfl, wp_pure]; exact h0 s g h (.refl ..) rfl
  have hno := h.tables.no_node hr
  have hF1 : Frame (· = r) (fun _ => False) g (g.set r (.node r 3 0)) := .set hr trivial rfl
  have hext1 : ∀ v, (g.set r (.node r 3 0)).ext r 0 v = none := fun v => by
    by_contra hne
    obtain ⟨-, q, hq⟩ := h.tables.ext hne
    exact hno _ _ _ hq
  have hT1 : Table (g.set r (.node r 3 0)) r 0 := by
    refine ⟨set_own_self, fun v => ⟨fun ⟨p, hp⟩ => ?_, fun hv => absurd hv (Nat.not_lt_zero v)⟩, fun v _ => hext1 v⟩
    by_cases hpr : p = r
    · subst hpr; rw [set_own_self] at hp; cases hp
    · rw [set_own_of_ne hpr] at hp; exact absurd hp (hno _ _ _)
  -- what the function does when it cannot go on
  have hundo : ∀ s₂ g₂, PInv K s₂ g₂ → Frame (· = r) (fun _ => False) g g₂ → Table g₂ r (npg 0) →
      (∀ v, g₂.ext r 0 v = none) → g₂.usr = g.usr →
      wp (do uvmfree K r 0; return 0) Q s₂ := fun s₂ g₂ h₂ hF2 hT2 hext2 hu => by
    rw [wp_bind]
    refine wp_uvmfree h₂ hT2 hext2 tag fun s' h' => wp_pure.mpr ?_
    refine h0 s' _ h' ((hF2.trans (.dropTable rfl)).dropRoot h.tables h'.tables hno ?_) hu
    exact fun p l x => dropTable_own_ne
  rw [if_neg (h.ne_zero hr), wp_bind, TRAMPOLINE_eq]
  have hvac1 : ∀ v, Vacant (g.set r (.node r 3 0)) r v := fun v =>
    ⟨fun p hp => absurd ((hT1.leaves v).mp ⟨p, hp⟩) (Nat.not_lt_zero v), hext1 v⟩
  refine wp_mappages_ext h₁ set_own_self (by decide) (hvac1 _) tag K.trampoline_lt_pow
    ⟨by decide, by decide, by decide⟩ (by decide) (fun g₂ s₂ h₂ hG2 => ?_) fun g₂ s₂ h₂ hG2 => ?_
  · have hM := Moves.of_grows hG2
    simp only [Bool.not_false, if_true]
    refine hundo s₂ g₂ h₂ (hF1.trans (.of_moves hM rfl)) (hT1.of_grows hG2) (fun v => ?_) hG2.usr
    rw [hG2.ext]; exact hext1 v
  have hF2 : Frame (· = r) (fun _ => False) g (g₂.setExt r (2 ^ 26 - 1) (some K.trampoline)) :=
    (hF1.trans (.of_moves (.of_grows hG2) rfl)).trans (.setExt rfl)
  have hext2 : ∀ v, v ≠ 2 ^ 26 - 1 → (g₂.setExt r (2 ^ 26 - 1) (some K.trampoline)).ext r 0 v = none := fun v hv => by
    rw [setExt_ext_of_ne hv, hG2.ext]; exact hext1 v
  have hT2 := hT1.of_grows hG2
  have hvac2 : Vacant (g₂.setExt r (2 ^ 26 - 1) (some K.trampoline)) r (2 ^ 26 - 2) :=
    ⟨((hvac1 _).of_grows hG2).no, hext2 _ hne.symm⟩
  simp only [Bool.not_true, Bool.false_eq_true, if_false, wp_bind]
  rw [TRAPFRAME_eq]
  refine wp_mappages_ext h₂ hT2.root (by decide) hvac2 tag ht ⟨by decide, by decide, by decide⟩ (by decide)
    (fun g₃ s₃ h3 hG3 => ?_) fun g₃ s₃ h3 hG3 => ?_
  · have hr3 : g₃.own r = some (.node r 3 0) := hG3.of_ne_free hT2.root (by simp)
    have hext3 : ∀ v, g₃.ext r 0 v = (g₂.setExt r (2 ^ 26 - 1) (some K.trampoline)).ext r 0 v := by
      rw [hG3.ext]; exact fun _ => rfl
    simp only [Bool.not_false, if_true]
    rw [wp_bind]
    refine wp_uvmunmap_ext h3 hr3 (by decide) ((hext3 _).trans setExt_ext_self) fun s₄ h4 => ?_
    have hF4 := (hF2.trans (.of_moves (.of_grows hG3) rfl)).trans
      (.setExt (v := 2 ^ 26 - 1) (w := none) (R := (· = r)) rfl)
    have hnone : ∀ v, (g₃.setExt r (2 ^ 26 - 1) none).ext r 0 v = none := fun v => by
      by_cases hv : v = 2 ^ 26 - 1
      · subst hv; exact setExt_ext_self
      · rw [setExt_ext_of_ne hv, hext3]; exact hext2 v hv
    refine hundo s₄ _ h4 hF4 ⟨hr3, fun v => ?_, fun v _ => hnone v⟩ hnone (hG3.usr.trans hG2.usr)
    rw [show npg 0 = 0 from rfl, ← hT2.leaves v]
    exact exists_congr fun p => hG3.leaf
  · simp only [Bool.not_true, Bool.false_eq_true, if_false, wp_pure]
    have hr3 : g₃.own r = some (.node r 3 0) := hG3.of_ne_free hT2.root (by simp)
    have hspace : ∀ v, (g₃.setExt r (2 ^ 26 - 2) (some t)).ext r 0 v = if v = TRAMPOLINE / PGSIZE then
        some K.trampoline else if v = TRAPFRAME / PGSIZE then some t else none := fun v => by
      rw [TRAMPOLINE_div, TRAPFRAME_div]
      by_cases h2 : v = 2 ^ 26 - 2
      · subst h2; rw [setExt_ext_self, if_neg hne.symm, if_pos rfl]
      · rw [setExt_ext_of_ne h2, hG3.ext, if_neg h2]
        by_cases h1 : v = 2 ^ 26 - 1
        · subst h1; rw [if_pos rfl]; exact setExt_ext_self
        · rw [if_neg h1]; exact hext2 v h1
    refine h1 r s₃ _ h3 hr ((hF2.trans (.of_moves (.of_grows hG3) rfl)).trans (.setExt rfl))
      ⟨⟨hr3, fun v => ?_, fun v hv => ?_⟩, hspace⟩ (hG3.usr.trans hG2.usr)
    · rw [← hT2.leaves v]
      exact exists_congr fun p => hG3.leaf
    · rw [hspace, TRAMPOLINE_div, TRAPFRAME_div, if_neg (by omega), if_neg (by omega)]

end Xv6
