import Xv6.Proofs.ExecFail
import Xv6.Proofs.UserSpace

/-!
# A page table that is owned, as a map

`PInv` says who owns the pages of a table, and `UserSpace` what the table maps. The pages that are owned by a table are
the ones that a walk from its root finds, so the first gives the second.
-/

namespace Xv6

open Ghost Kern

variable {K : Layout} {k k' : Kmem} {g : Ghost Tag} {p q r l x v n t e : Nat}

def nodeOf (m : Bytes) (r : Nat) : Nat → Nat → Option Nat := fun l x =>
  if 1 ≤ l ∧ l ≤ 3 then tablePage m r (3 - l) x else none

section

variable (h : PInv K k g) (hr : g.own r = some (.node r 3 0))
include h hr

theorem nodeOf_iff : nodeOf k.mem r l x = some p ↔ 1 ≤ l ∧ g.own p = some (.node r l x) := by
  rw [nodeOf]
  by_cases hl : 1 ≤ l ∧ l ≤ 3
  · rw [if_pos hl, tablePage_iff h hr (by omega), show 3 - (3 - l) = l by omega, and_iff_right hl.1]
  · rw [if_neg hl]
    refine iff_of_false (by simp) fun ⟨h1, hp⟩ => ?_
    obtain ⟨l', x', hr', hle, -⟩ := h.tables.root hp
    cases hr.symm.trans hr'
    exact hl ⟨h1, hle⟩

theorem pageTree_nodeOf : PageTree k.mem r (nodeOf k.mem r) := by
  have hiff : ∀ {l x p}, nodeOf k.mem r l x = some p ↔ 1 ≤ l ∧ g.own p = some (.node r l x) := nodeOf_iff h hr
  refine ⟨hiff.mpr ⟨by omega, hr⟩, fun hp => ?_, fun hp => (h.isPage (hiff.mp hp).2).aligned,
    fun hp => h.ne_zero (hiff.mp hp).2, fun hl hp => ?_, fun {l v q} hq => Option.ext fun p => ?_, fun hp hp' => ?_⟩
  · obtain ⟨h1, hp⟩ := hiff.mp hp
    obtain ⟨l', x', hr', hle, heq⟩ := h.tables.root hp
    cases hr.symm.trans hr'
    refine ⟨h1, hle, fun hl => ?_⟩
    obtain rfl := heq hl
    cases hr.symm.trans hp
    rfl
  · rcases h.tables.parent (hiff.mp hp).2 with rfl | ⟨q, hq⟩
    · cases hr.symm.trans (hiff.mp hp).2
      omega
    · exact ⟨q, hiff.mpr ⟨by omega, hq⟩⟩
  · rw [hiff, and_iff_right (by omega), child]
    rcases (h.tables.entry_of_parent (hiff.mp hq).2).pointer h.tables with ⟨he, hno⟩ | ⟨c, hc, hv, -, hpa⟩
    · rw [he]
      exact iff_of_false (hno p) (by simp)
    · rw [if_pos hv, hpa, Option.some.injEq]
      exact ⟨fun hp => h.tables.unique hc hp, fun he => he ▸ hc⟩
  · cases (hiff.mp hp).2.symm.trans (hiff.mp hp').2
    exact ⟨rfl, rfl⟩

theorem entry_leafOf : Entry g r 0 v (leafOf k.mem (nodeOf k.mem r) v) := by
  cases hq : nodeOf k.mem r 1 (v / 512) with
  | some q =>
    rw [leafOf_of_some hq]
    exact h.tables.entry_of_parent ((nodeOf_iff h hr).mp hq).2
  | none =>
    have hno : ∀ q, g.own q ≠ some (.node r 1 (v / 512)) := fun q hq' => by
      rw [(nodeOf_iff h hr).mpr ⟨le_rfl, hq'⟩] at hq
      cases hq
    rw [leafOf_of_none hq]
    refine .zero (fun p hp => ?_) ?_
    · rcases h.tables.parent hp with rfl | ⟨q, hq'⟩
      · cases hr.symm.trans hp
      · exact hno q hq'
    · by_contra hx
      obtain ⟨-, q, hq'⟩ := h.tables.ext hx
      exact hno q hq'

end

theorem leafOf_owned (h : PInv K k g) (hS : Space K g r n t) (hv : v < n) :
    ∃ f, LeafFlags f ∧ leafOf k.mem (nodeOf k.mem r) v = mkPte (PTE2PA (leafOf k.mem (nodeOf k.mem r) v)) f ∧
      g.own (PTE2PA (leafOf k.mem (nodeOf k.mem r) v)) = some (.node r 0 v) := by
  obtain ⟨p, hp⟩ := (hS.table.leaves v).mpr hv
  have he := entry_leafOf (v := v) h hS.table.root
  obtain ⟨f, flags, he, -⟩ := he.of_own hp
  rw [he, PTE2PA_mkPte flags.lt (h.isPage hp).aligned]
  exact ⟨f, flags, rfl, hp⟩

theorem leafOf_valid {tag : Tag} (h : PInv K k g) (hS : Space K g r n t) (ht : g.own t = some (.held tag))
    (hv : leafOf k.mem (nodeOf k.mem r) v &&& PTE_V ≠ 0) :
    (v < n ∧ g.own (PTE2PA (leafOf k.mem (nodeOf k.mem r) v)) = some (.node r 0 v)) ∨
    (TRAPFRAME / PGSIZE ≤ v ∧ ∀ o, g.own (PTE2PA (leafOf k.mem (nodeOf k.mem r) v)) = some o → ∃ t, o = .held t) := by
  have he := entry_leafOf (v := v) h hS.table.root
  generalize leafOf k.mem (nodeOf k.mem r) v = e at he hv
  cases he with
  | zero => exact absurd rfl hv
  | @page c f flags own =>
    have hc := (own c).mpr rfl
    rw [PTE2PA_mkPte flags.lt (h.isPage hc).aligned]
    exact .inl ⟨(hS.table.leaves v).mp ⟨c, hc⟩, hc⟩
  | @ext c f flags _ hx =>
    rw [hS.ext] at hx
    split at hx
    · cases hx
      rw [PTE2PA_mkPte flags.lt K.trampoline_aligned]
      refine .inr ⟨by subst v; decide, fun o ho => absurd (h.isPage ho).ge ?_⟩
      have := K.trampoline_lt
      simp only [PGSIZE] at this
      omega
    · split at hx
      · cases hx
        rw [PTE2PA_mkPte flags.lt (h.isPage ht).aligned]
        exact .inr ⟨by omega, fun o ho => ⟨tag, Option.some.inj (ho.symm.trans ht)⟩⟩
      · cases hx

theorem PInv.userSpace {tag : Tag} (h : PInv K k g) (hS : Space K g r n t) (ht : g.own t = some (.held tag)) :
    ∃ L, UserSpace K r (nodeOf k.mem r) L k (· < n) := by
  obtain ⟨L, hchain, hnodup, hfree⟩ := h.free
  have hr := hS.table.root
  have htree := pageTree_nodeOf h hr
  have hpage : ∀ {p}, p ∈ L → IsPage K p := fun hp => h.isPage ((hfree _).mpr hp)
  have hb := h.leaves_le hS.table
  have htf := trapframe_page
  refine ⟨L, ⟨⟨htree, hchain, hnodup, fun hp => (hpage hp).aligned, fun hp => h.lt ((hfree _).mpr hp),
    fun hp l x hx => ?_⟩, fun v hv => ?_⟩, hpage, fun {v} hv => ?_, fun {v v'} hv hv' he => ?_, fun {v} hv hn => ?_⟩
  · cases ((hfree _).mpr hp).symm.trans ((nodeOf_iff h hr).mp hx).2
  · -- neither a user page nor the page of somebody else is a page of the table, or free
    rcases leafOf_valid h hS ht hv with ⟨-, hp⟩ | ⟨-, hp⟩
    · refine ⟨fun l x hx => ?_, fun hL => ?_⟩
      · obtain ⟨hl, hx⟩ := (nodeOf_iff h hr).mp hx
        cases hp.symm.trans hx
        omega
      · cases hp.symm.trans ((hfree _).mpr hL)
    · refine ⟨fun l x hx => ?_, fun hL => ?_⟩
      · obtain ⟨_, he⟩ := hp _ ((nodeOf_iff h hr).mp hx).2
        cases he
      · obtain ⟨_, he⟩ := hp _ ((hfree _).mpr hL)
        cases he
  · obtain ⟨f, hf, he, hp⟩ := leafOf_owned h hS hv
    refine ⟨by omega, ?_, ?_, fun _ => h.isPage hp⟩
    · rw [he, mkPte_valid hf.lt]
      exact hf.valid
    · rw [he, PTE_FLAGS_mkPte hf.lt]
      exact hf.ne_valid
  · obtain ⟨-, -, -, hp⟩ := leafOf_owned h hS hv
    rw [he] at hp
    rcases leafOf_valid h hS ht hv' with ⟨-, hp'⟩ | ⟨-, hp'⟩
    · cases hp.symm.trans hp'
      rfl
    · obtain ⟨_, he⟩ := hp' _ hp
      cases he
  · by_contra hv'
    rcases leafOf_valid h hS ht hv' with ⟨hv', -⟩ | ⟨hv', -⟩
    · exact hn hv'
    · omega

end Xv6
