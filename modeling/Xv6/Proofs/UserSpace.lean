import Xv6.Proofs.UserCopySpec

/-!
# User pages

`UserSpace` describes a page table with user pages that are mapped once and belong to nobody else. `uvmdealloc` takes
pages out of it, and `uvmalloc` and `uvmcopy` put pages of the free list into it; `Grew` says what has become of the
free list, the map and the bytes on the way, so that a failure in the middle can be undone.
-/

namespace Xv6

open Prog

/-- The user pages of the table are those in `U`, and each of them is mapped once. -/
structure UserSpace (K : Layout) (r : Nat) (node : Nat → Nat → Option Nat) (L : List Nat) (s : Kmem) (U : Nat → Prop) :
    Prop where
  sound : Sound r node L s
  page : ∀ {p}, p ∈ L → IsPage K p
  user : ∀ {v}, U v → v < TRAPFRAME / PGSIZE ∧ Removable K true (leafOf s.mem node v)
  alone : ∀ {v v'}, U v → leafOf s.mem node v' &&& PTE_V ≠ 0 →
    PTE2PA (leafOf s.mem node v) = PTE2PA (leafOf s.mem node v') → v = v'
  empty : ∀ {v}, v < TRAPFRAME / PGSIZE → ¬ U v → leafOf s.mem node v &&& PTE_V = 0

variable {K : Layout} {m m' : Bytes} {r p q c v va n : Nat} {node node' : Nat → Nat → Option Nat} {s s' : Kmem}
  {L L' : List Nat} {U : Nat → Prop} {Q : Nat → Kmem → Prop}

theorem or_valid {perm : Nat} : (perm ||| PTE_V) &&& PTE_V ≠ 0 := by
  intro h
  have := congrArg (Nat.testBit · 0) h
  simp [PTE_V] at this

theorem trapframe_page : TRAPFRAME / PGSIZE = 2 ^ 26 - 2 := by decide

namespace UserSpace

theorem congr_user {U' : Nat → Prop} (h : UserSpace K r node L s U) (hU : ∀ v, U' v ↔ U v) : UserSpace K r node L s U' :=
  ⟨h.sound, h.page, fun hv => h.user ((hU _).mp hv), fun hv => h.alone ((hU _).mp hv),
    fun hv hn => h.empty hv fun hu => hn ((hU _).mpr hu)⟩

variable (h : UserSpace K r node L s U)
include h

theorem page_not_mem (hv : U v) : PTE2PA (leafOf s.mem node v) ∉ L :=
  (h.sound.leaves v (h.user hv).2.valid).2

theorem page_apart (hv : U v) : ∀ l x, node l x ≠ some (PTE2PA (leafOf s.mem node v)) :=
  (h.sound.leaves v (h.user hv).2.valid).1

theorem unmap (hv : U v) (hq : node 1 (v / 512) = some q) :
    UserSpace K r node (PTE2PA (leafOf s.mem node v) :: L) (s.unmapped true (q + 8 * (v % 512)) (leafOf s.mem node v))
      (fun x => U x ∧ x ≠ v) ∧ (∀ v', leafOf (s.unmapped true (q + 8 * (v % 512)) (leafOf s.mem node v)).mem node v' =
      if v' = v then 0 else leafOf s.mem node v') ∧
    ∀ p, p % PGSIZE = 0 → (∀ l x, node l x ≠ some p) → p ≠ PTE2PA (leafOf s.mem node v) →
      SamePage s.mem (s.unmapped true (q + 8 * (v % 512)) (leafOf s.mem node v)).mem p := by
  have hpage := (h.user hv).2.page rfl
  have hout := h.page_apart hv
  have hnL := h.page_not_mem hv
  have halone : ∀ v', leafOf s.mem node v' &&& PTE_V ≠ 0 →
      PTE2PA (leafOf s.mem node v) = PTE2PA (leafOf s.mem node v') → v = v' := fun v' => h.alone hv
  obtain ⟨-, hleaf⟩ := unmapped_spec true h.sound.pool.tree hq fun _ => hout
  generalize hc : PTE2PA (leafOf s.mem node v) = c at *
  have hc0 : c ≠ 0 := by
    have hbase := K.base_le.trans ((Nat.le_add_right ..).trans (K.trampoline_lt.trans hpage.ge))
    rintro rfl
    exact absurd hbase (by decide)
  have hfree := h.sound.pool.free hpage.aligned hc0 (lt_trans hpage.lt (by decide)) hout hnL
  have hset := hfree.setLeaf (v := v) (w := 0) hq (by decide)
  have hst : s.unmapped true (q + 8 * (v % 512)) (leafOf s.mem node v) =
      ⟨(s.freed c).mem.store (q + 8 * (v % 512)) 8 0, c⟩ := by
    rw [Kmem.unmapped, hc]
    rfl
  rw [hst] at hleaf ⊢
  refine ⟨⟨⟨hset.1, fun v' hv' => ?_⟩, fun {p} hp => ?_, fun {v'} hv' => ?_, fun {v₁ v₂} h₁ h₂ he => ?_,
    fun {v'} hlt hn => ?_⟩, hleaf, fun p hp hn hne => ?_⟩
  · have hvv : v' ≠ v := by
      rintro rfl
      rw [hleaf, if_pos rfl] at hv'
      exact hv' rfl
    rw [hleaf, if_neg hvv] at hv' ⊢
    refine ⟨(h.sound.leaves v' hv').1, fun hmem => ?_⟩
    rcases List.mem_cons.mp hmem with he | hmem
    · exact hvv (halone v' hv' he.symm).symm
    · exact (h.sound.leaves v' hv').2 hmem
  · rcases List.mem_cons.mp hp with rfl | hp
    · exact hpage
    · exact h.page hp
  · rw [hleaf, if_neg hv'.2]
    exact h.user hv'.1
  · have hne : v₂ ≠ v := by
      rintro rfl
      rw [hleaf, if_pos rfl] at h₂
      exact h₂ rfl
    rw [hleaf v₂, if_neg hne] at h₂ he
    rw [hleaf v₁, if_neg h₁.2] at he
    exact h.alone h₁.1 h₂ he
  · by_cases he : v' = v
    · rw [hleaf, if_pos he]
      rfl
    · rw [hleaf, if_neg he]
      exact h.empty hlt fun hu => hn ⟨hu, he⟩
  · refine (Kmem.outside_freed.samePage hpage.aligned hp hne).trans (outside_entry.samePage (h.sound.pool.tree.aligned hq) hp ?_)
    rintro rfl
    exact hn _ _ hq

end UserSpace

/-- What `uvmunmap` has done when it has freed the `n` pages from `v` on. -/
structure Unmapped (node : Nat → Nat → Option Nat) (s : Kmem) (L : List Nat) (v n : Nat) (s' : Kmem) (L' : List Nat) :
    Prop where
  leaf : leafOf s'.mem node = withoutPages v n (leafOf s.mem node)
  list : ∀ p, p ∈ L' ↔ p ∈ L ∨ ∃ k < n, p = PTE2PA (leafOf s.mem node (v + k))
  same : ∀ {q}, q % PGSIZE = 0 → (∀ l x, node l x ≠ some q) →
    (∀ k < n, q ≠ PTE2PA (leafOf s.mem node (v + k))) → SamePage s.mem s'.mem q

theorem Unmapped.refl : Unmapped node s L v 0 s L :=
  ⟨funext fun _ => (if_neg (by omega)).symm, fun p => by simp, fun _ _ _ _ _ _ => rfl⟩

theorem wp_uvmunmapLoop_space {Q : Unit → Kmem → Prop} (h : UserSpace K r node L s U) (hn : ∀ k < n, U (v + k))
    (hQ : ∀ s' L', UserSpace K r node L' s' (fun x => U x ∧ ¬ (v ≤ x ∧ x < v + n)) → Unmapped node s L v n s' L' →
      Q () s') : wp (uvmunmapLoop K r true n (v * PGSIZE)) Q s := by
  induction n generalizing v s L U with
  | zero =>
    rw [uvmunmapLoop, wp_pure]
    exact hQ s L (h.congr_user fun x => ⟨fun hx => hx.1, fun hx => ⟨hx, by omega⟩⟩) .refl
  | succ n ih =>
    have hv := hn 0 (Nat.succ_pos n)
    rw [add_zero] at hv
    have hr := (h.user hv).2
    have htf := trapframe_page
    obtain ⟨q, hq⟩ := leafOf_ne_zero (valid_ne_zero hr.valid)
    refine wp_uvmunmapLoop_step h.sound.pool.tree (by have := (h.user hv).1; omega) hq hr ?_
    obtain ⟨hspace, hleaf, hsame⟩ := h.unmap hv hq
    have hrest : ∀ k, leafOf (s.unmapped true (q + 8 * (v % 512)) (leafOf s.mem node v)).mem node (v + 1 + k) =
        leafOf s.mem node (v + (k + 1)) := fun k => by
      rw [hleaf, if_neg (by omega), show v + 1 + k = v + (k + 1) by omega]
    refine ih hspace (fun k hk => ⟨?_, by omega⟩) fun s' L' hspace' hun => hQ s' L' ?_
      ⟨by rw [hun.leaf, withoutPages_succ hleaf], fun p => ?_, ?_⟩
    · rw [show v + 1 + k = v + (k + 1) by omega]
      exact hn (k + 1) (by omega)
    · exact hspace'.congr_user fun x => ⟨fun hx => ⟨⟨hx.1, by omega⟩, by omega⟩, fun hx => ⟨hx.1.1, by omega⟩⟩
    · rw [hun.list, List.mem_cons]
      constructor
      · rintro ((rfl | hp) | ⟨k, hk, rfl⟩)
        · exact .inr ⟨0, Nat.succ_pos n, rfl⟩
        · exact .inl hp
        · refine .inr ⟨k + 1, by omega, ?_⟩
          rw [hrest k]
      · rintro (hp | ⟨k, hk, rfl⟩)
        · exact .inl (.inr hp)
        · cases k with
          | zero => exact .inl (.inl rfl)
          | succ k => exact .inr ⟨k, by omega, by rw [hrest k]⟩
    · intro p hp hn' hne
      have hne0 := hne 0 (Nat.succ_pos n)
      refine (hsame p hp hn' hne0).trans (hun.same hp hn' fun k hk => ?_)
      rw [hrest k]
      exact hne (k + 1) (by omega)

theorem wp_uvmdealloc_space {oldsz newsz : Nat} (h : UserSpace K r node L s (· < npg oldsz))
    (hge : oldsz ≤ newsz → Q oldsz s) (hlt : newsz < oldsz → ∀ s' L', UserSpace K r node L' s' (· < npg newsz) →
      Unmapped node s L (npg newsz) (npg oldsz - npg newsz) s' L' → Q newsz s') :
    wp (uvmdealloc K r oldsz newsz) Q s := by
  rw [uvmdealloc]
  by_cases hle : newsz ≥ oldsz
  · rw [if_pos hle, wp_pure]
    exact hge hle
  · rw [if_neg hle]
    have hmono : npg newsz ≤ npg oldsz := npg_mono (by omega)
    by_cases hpg : PGROUNDUP newsz < PGROUNDUP oldsz
    · have hn : (PGROUNDUP oldsz - PGROUNDUP newsz) / PGSIZE = npg oldsz - npg newsz := by
        rw [PGROUNDUP_eq, PGROUNDUP_eq, ← Nat.sub_mul, Nat.mul_div_cancel _ (by decide)]
      have hal : PGROUNDUP newsz % PGSIZE = 0 := by
        rw [PGROUNDUP_eq]
        exact Nat.mul_mod_left ..
      simp only [if_pos hpg, wp_bind, uvmunmap, if_neg (not_not.mpr hal), hn]
      rw [PGROUNDUP_eq]
      refine wp_uvmunmapLoop_space h (fun k hk => by omega) fun s' L' hspace hun => ?_
      rw [wp_pure]
      exact hlt (by omega) s' L' (hspace.congr_user fun x => by omega) hun
    · have hn : npg oldsz = npg newsz := by
        rw [PGROUNDUP_eq, PGROUNDUP_eq, Nat.mul_lt_mul_right (by decide)] at hpg
        omega
      simp only [if_neg hpg, wp_pure]
      refine hlt (by omega) s L (h.congr_user fun x => by rw [hn]) ?_
      rw [hn, Nat.sub_self]
      exact .refl

/-! ### A new page -/

/-- `kalloc` has returned `c`, and nothing but that page has been written to since. -/
structure Took (s : Kmem) (c : Nat) (s₁ : Kmem) : Prop where
  outside : Outside s.mem s₁.mem c
  freelist : s₁.freelist = s.mem.load c 8

def Kmem.taken (s : Kmem) (c : Nat) : Kmem := ⟨(s.mem.fill c PGSIZE 5).fill c PGSIZE 0, s.mem.load c 8⟩

theorem took_taken : Took s c (s.taken c) := ⟨outside_fill.trans outside_fill, rfl⟩

theorem taken_zero {i : Nat} (hi : i < PGSIZE) : (s.taken c).mem (c + i) = 0 := if_pos ⟨by omega, by omega⟩

namespace UserSpace

variable (h : UserSpace K r node (c :: L) s U) {s₁ : Kmem}
include h

theorem head_apart : ∀ l x, node l x ≠ some c := h.sound.pool.apart List.mem_cons_self

theorem head_not_mem : c ∉ L := (List.nodup_cons.mp h.sound.pool.nodup).1

theorem leafOf_took (ht : Took s c s₁) : leafOf s₁.mem node = leafOf s.mem node := funext fun _ =>
  leafOf_of_same fun _ _ hq => ht.outside.samePage (h.page List.mem_cons_self).aligned
    (h.sound.pool.tree.aligned hq) fun he => h.head_apart _ _ (he ▸ hq)

theorem sound_took (ht : Took s c s₁) : Sound r node L s₁ := by
  have hpool : Pool r node L s₁ := by
    rw [show s₁ = ⟨s₁.mem, s.mem.load c 8⟩ by rw [← ht.freelist]]
    exact h.sound.pool.alloc ht.outside
  refine ⟨hpool, fun v hv => ?_⟩
  rw [h.leafOf_took ht] at hv ⊢
  exact ⟨(h.sound.leaves v hv).1, fun hL => (h.sound.leaves v hv).2 (.tail _ hL)⟩

theorem head_ne (hv : leafOf s.mem node v &&& PTE_V ≠ 0) : PTE2PA (leafOf s.mem node v) ≠ c := fun he =>
  (h.sound.leaves v hv).2 (he ▸ List.mem_cons_self)

theorem leafOf_mapped {perm : Nat} (ht : Took s c s₁)
    (hleaf : leafOf s'.mem node' = withPages v 1 c perm (leafOf s₁.mem node)) :
    leafOf s'.mem node' v = mkPte c (perm ||| PTE_V) ∧ ∀ v', v' ≠ v → leafOf s'.mem node' v' = leafOf s.mem node v' := by
  rw [hleaf, h.leafOf_took ht]
  refine ⟨?_, fun v' hne => if_neg (by omega)⟩
  rw [withPages, if_pos (by omega), Nat.sub_self, zero_mul, add_zero, Nat.or_assoc, mkPte]

theorem map {perm : Nat} (ht : Took s c s₁) (hv : v < TRAPFRAME / PGSIZE) (hpool : Pool r node' L' s')
    (hgrown : Grown node L s₁ node' L' s')
    (hleaf : leafOf s'.mem node' = withPages v 1 c perm (leafOf s₁.mem node))
    (hperm : perm < 1024) (hflags : perm ||| PTE_V ≠ PTE_V) : UserSpace K r node' L' s' (fun x => U x ∨ x = v) := by
  have hpage : IsPage K c := h.page List.mem_cons_self
  have hlt := or_valid_lt hperm
  have hout : ∀ j < 1, (∀ l x, node l x ≠ some (PGROUNDDOWN (c + j * PGSIZE))) ∧ PGROUNDDOWN (c + j * PGSIZE) ∉ L := by
    intro j hj
    have hc : PGROUNDDOWN (c + j * PGSIZE) = c := by
      have := hpage.aligned
      simp only [PGROUNDDOWN, PGSIZE] at *
      omega
    rw [hc]
    exact ⟨h.head_apart, h.head_not_mem⟩
  obtain ⟨hself, hother⟩ := h.leafOf_mapped ht hleaf
  have hpa : PTE2PA (mkPte c (perm ||| PTE_V)) = c := PTE2PA_mkPte hlt hpage.aligned
  refine ⟨(h.sound_took ht).mapped hpool hgrown hleaf hperm hout, fun hp => h.page (.tail _ (hgrown.sub hp)),
    fun {v'} hv' => ?_, fun {v₁ v₂} h₁ h₂ he => ?_, fun {v'} hlt' hn' => ?_⟩
  · by_cases he : v' = v
    · rw [he, hself]
      refine ⟨hv, ?_, ?_, fun _ => ?_⟩
      · rw [mkPte_valid hlt]
        exact or_valid
      · rwa [PTE_FLAGS_mkPte hlt]
      · rwa [hpa]
    · rw [hother v' he]
      exact h.user (hv'.resolve_right he)
  · by_cases h1v : v₁ = v <;> by_cases h2v : v₂ = v
    · rw [h1v, h2v]
    · rw [h1v, hself, hpa, hother v₂ h2v] at he
      rw [hother v₂ h2v] at h₂
      exact absurd he.symm (h.head_ne h₂)
    · have hu := h₁.resolve_right h1v
      rw [h2v, hself, hpa, hother v₁ h1v] at he
      exact absurd he (h.head_ne (h.user hu).2.valid)
    · rw [hother v₂ h2v] at h₂ he
      rw [hother v₁ h1v] at he
      exact h.alone (h₁.resolve_right h1v) h₂ he
  · rw [hother v' fun he => hn' (.inr he)]
    exact h.empty hlt' fun hu => hn' (.inl hu)

theorem same_grown (ht : Took s c s₁) (hgrown : Grown node L s₁ node' L' s') (hq : q % PGSIZE = 0)
    (hn : ∀ l x, node l x ≠ some q) (hL : q ∉ c :: L) : SamePage s.mem s'.mem q :=
  (ht.outside.samePage (h.page List.mem_cons_self).aligned hq fun he => hL (he ▸ List.mem_cons_self)).trans
    (hgrown.same hq hn fun hq => absurd (.tail _ hq) hL)

theorem pool_unget (hpool : Pool r node' L' s') (hgrown : Grown node L s₁ node' L' s') :
    Pool r node' (c :: L') (s'.freed c) ∧ leafOf (s'.freed c).mem node' = leafOf s'.mem node' := by
  have hpage : IsPage K c := h.page List.mem_cons_self
  have hn : ∀ l x, node' l x ≠ some c := fun l x hx =>
    (hgrown.fresh hx).elim (h.head_apart l x) fun hx => h.head_not_mem hx.1
  refine ⟨hpool.free hpage.aligned h.sound.pool.chain.2.1 (lt_trans hpage.lt (by decide)) hn fun hL =>
    h.head_not_mem (hgrown.sub hL), funext fun v => leafOf_of_same fun x q hq =>
    Kmem.outside_freed.samePage hpage.aligned (hpool.tree.aligned hq) fun he => hn _ _ (he ▸ hq)⟩

theorem unget (ht : Took s c s₁) (hpool : Pool r node' L' s') (hgrown : Grown node L s₁ node' L' s')
    (hleaf : leafOf s'.mem node' = leafOf s₁.mem node) : UserSpace K r node' (c :: L') (s'.freed c) U := by
  obtain ⟨hpool', hsame⟩ := h.pool_unget hpool hgrown
  rw [hleaf, h.leafOf_took ht] at hsame
  refine ⟨⟨hpool', fun v hv => ?_⟩, fun {p} hp => ?_, ?_, ?_, ?_⟩
  · rw [hsame] at hv ⊢
    obtain ⟨hn, hL⟩ := h.sound.leaves v hv
    refine ⟨fun l x hx => (hgrown.fresh hx).elim (hn l x) fun hx => hL (.tail _ hx.1), fun hmem => ?_⟩
    rcases List.mem_cons.mp hmem with he | hmem
    · exact h.head_ne hv he
    · exact hL (.tail _ (hgrown.sub hmem))
  · rcases List.mem_cons.mp hp with rfl | hp
    · exact h.page List.mem_cons_self
    · exact h.page (.tail _ (hgrown.sub hp))
  · rw [hsame]
    exact h.user
  · rw [hsame]
    exact h.alone
  · rw [hsame]
    exact h.empty

end UserSpace

theorem UserSpace.le (h : UserSpace K r node L s (· < n)) : n ≤ PHYSTOP / PGSIZE := by
  have hinj : Set.InjOn (fun v => PTE2PA (leafOf s.mem node v) / PGSIZE) (Finset.range n) := by
    intro v₁ h₁ v₂ h₂ he
    have h1' := List.mem_range.mp (by simpa using h₁)
    have h2' := List.mem_range.mp (by simpa using h₂)
    refine h.alone h1' (h.user h2').2.valid ?_
    have a₁ := ((h.user h1').2.page rfl).aligned
    have a₂ := ((h.user h2').2.page rfl).aligned
    rw [← Nat.div_mul_cancel (Nat.dvd_of_mod_eq_zero a₁), ← Nat.div_mul_cancel (Nat.dvd_of_mod_eq_zero a₂)]
    exact congrArg (· * PGSIZE) he
  have hmaps : ∀ v ∈ Finset.range n, PTE2PA (leafOf s.mem node v) / PGSIZE ∈ Finset.range (PHYSTOP / PGSIZE) := by
    intro v hv
    have hp := (h.user (Finset.mem_range.mp hv)).2.page rfl
    rw [Finset.mem_range]
    have hphys : PHYSTOP = PHYSTOP / PGSIZE * PGSIZE := by decide
    exact Nat.div_lt_of_lt_mul (by rw [mul_comm, ← hphys]; exact hp.lt)
  have := Finset.card_le_card_of_injOn _ hmaps hinj
  rwa [Finset.card_range, Finset.card_range] at this

def live (e : Nat) : Nat := if e &&& PTE_V = 0 then 0 else e

/-- What user pages are to be: page `v` has the flags `flags v` and the bytes `byte v`. -/
structure Pages where
  flags : Nat → Nat
  byte : Nat → Nat → UInt8

def Pages.zero (xperm : Nat) : Pages := ⟨fun _ => PTE_R ||| PTE_U ||| xperm ||| PTE_V, fun _ _ => 0⟩

/-- From a table with `n₀` user pages, `uvmalloc` or `uvmcopy` has come to `v`: pages of the free list have become
user pages and page-table pages, and what was there before is as it was. -/
structure Grew (K : Layout) (r : Nat) (node₀ : Nat → Nat → Option Nat) (L₀ : List Nat) (s₀ : Kmem) (n₀ : Nat)
    (P : Pages) (node : Nat → Nat → Option Nat) (L : List Nat) (s : Kmem) (v : Nat) : Prop where
  space : UserSpace K r node L s (· < v)
  le : n₀ ≤ v
  fresh : ∀ {l x p}, node l x = some p → node₀ l x = some p ∨ p ∈ L₀
  sub : ∀ {p}, p ∈ L → p ∈ L₀
  back : ∀ {p}, p ∈ L₀ → p ∈ L ∨ (∃ l x, node l x = some p) ∨
    ∃ v', n₀ ≤ v' ∧ v' < v ∧ PTE2PA (leafOf s.mem node v') = p
  leaf : ∀ v', ¬ (n₀ ≤ v' ∧ v' < v) → live (leafOf s.mem node v') = live (leafOf s₀.mem node₀ v')
  new : ∀ v', n₀ ≤ v' → v' < v → PTE2PA (leafOf s.mem node v') ∈ L₀ ∧
    PTE_FLAGS (leafOf s.mem node v') = P.flags v' ∧
    ∀ i < PGSIZE, s.mem (PTE2PA (leafOf s.mem node v') + i) = P.byte v' i
  same : ∀ {q}, q % PGSIZE = 0 → (∀ l x, node₀ l x ≠ some q) → q ∉ L₀ → SamePage s₀.mem s.mem q

namespace Grew

variable {node₀ : Nat → Nat → Option Nat} {L₀ : List Nat} {s₀ s₁ : Kmem} {n₀ : Nat} {P : Pages}

theorem refl (h : UserSpace K r node L s (· < n)) : Grew K r node L s n P node L s n :=
  ⟨h, le_rfl, .inl, id, .inl, fun _ _ => rfl, fun v' h1 h2 => by omega, fun _ _ _ _ _ _ => rfl⟩

theorem undo (h : Grew K r node₀ L₀ s₀ n₀ P node L s v) (h₀ : UserSpace K r node₀ L₀ s₀ (· < n₀))
    (hspace : UserSpace K r node L' s' (· < n₀)) (hun : Unmapped node s L n₀ (v - n₀) s' L') :
    Grew K r node₀ L₀ s₀ n₀ P node L' s' n₀ := by
  refine ⟨hspace, le_rfl, h.fresh, fun {p} hp => ?_, fun {p} hp => ?_, fun v' _ => ?_, fun v' h1 h2 => by omega,
    fun {q} hq hn hL => ?_⟩
  · rcases (hun.list p).mp hp with hp | ⟨k, hk, rfl⟩
    · exact h.sub hp
    · exact (h.new (n₀ + k) (by omega) (by omega)).1
  · rcases h.back hp with hp | hp | ⟨v', h1, h2, rfl⟩
    · exact .inl ((hun.list p).mpr (.inl hp))
    · exact .inr (.inl hp)
    · refine .inl ((hun.list _).mpr (.inr ⟨v' - n₀, by omega, ?_⟩))
      rw [show n₀ + (v' - n₀) = v' by omega]
  · rw [hun.leaf, withoutPages]
    have hle := h.le
    by_cases hin : n₀ ≤ v' ∧ v' < n₀ + (v - n₀)
    · have htf := trapframe_page
      have hb := h.space.le
      have hv' : v' < TRAPFRAME / PGSIZE := by
        have : PHYSTOP / PGSIZE < 2 ^ 26 - 2 := by decide
        omega
      rw [if_pos hin, show live 0 = 0 from rfl, live, if_pos (h₀.empty hv' (by omega))]
    · rw [if_neg hin]
      exact h.leaf v' (by omega)
  · have hqn : ∀ l x, node l x ≠ some q := fun l x hx => (h.fresh hx).elim (hn l x) hL
    refine (h.same hq hn hL).trans (hun.same hq hqn fun k hk he => hL ?_)
    rw [he]
    exact (h.new (n₀ + k) (by omega) (by omega)).1

theorem more {perm : Nat} (h : Grew K r node₀ L₀ s₀ n₀ P node (c :: L) s v) (ht : Took s c s₁)
    (hv : v < TRAPFRAME / PGSIZE) (hpool : Pool r node' L' s') (hgrown : Grown node L s₁ node' L' s')
    (hleaf : leafOf s'.mem node' = withPages v 1 c perm (leafOf s₁.mem node))
    (hperm : perm < 1024) (hflags : perm ||| PTE_V ≠ PTE_V) (hP : P.flags v = perm ||| PTE_V)
    (hbyte : ∀ i < PGSIZE, s₁.mem (c + i) = P.byte v i) : Grew K r node₀ L₀ s₀ n₀ P node' L' s' (v + 1) := by
  have hpage : IsPage K c := h.space.page List.mem_cons_self
  have hle := h.le
  obtain ⟨hpte, hother⟩ := h.space.leafOf_mapped ht hleaf
  have hself : PTE2PA (leafOf s'.mem node' v) = c := by
    rw [hpte]
    exact PTE2PA_mkPte (or_valid_lt hperm) hpage.aligned
  refine ⟨(h.space.map ht hv hpool hgrown hleaf hperm hflags).congr_user fun x => by omega, by omega,
    fun {l x p} hp => ?_, fun hp => h.sub (.tail _ (hgrown.sub hp)), fun {p} hp => ?_, fun v' hv' => ?_,
    fun v' h1 h2 => ?_, fun {q} hq hn hL => ?_⟩
  · exact (hgrown.fresh hp).elim h.fresh fun hp => .inr (h.sub (.tail _ hp.1))
  · rcases h.back hp with hp | ⟨l, x, hp⟩ | ⟨v', h1, h2, rfl⟩
    · rcases List.mem_cons.mp hp with rfl | hp
      · exact .inr (.inr ⟨v, hle, by omega, hself⟩)
      · exact (hgrown.gone hp).imp_right .inl
    · exact .inr (.inl ⟨l, x, hgrown.keep hp⟩)
    · exact .inr (.inr ⟨v', h1, by omega, by rw [hother v' (by omega)]⟩)
  · rw [hother v' (by omega)]
    exact h.leaf v' (by omega)
  · by_cases he : v' = v
    · rw [he, hself]
      refine ⟨h.sub List.mem_cons_self, by rw [hpte, PTE_FLAGS_mkPte (or_valid_lt hperm), hP], fun i hi => ?_⟩
      have hsame : SamePage s₁.mem s'.mem c := hgrown.same hpage.aligned h.space.head_apart fun hc =>
        absurd hc h.space.head_not_mem
      rw [hsame _ (by omega) (by omega)]
      exact hbyte i hi
    · rw [hother v' he]
      obtain ⟨hmem, hfl, hbytes⟩ := h.new v' h1 (by omega)
      have hu : v' < v := by omega
      refine ⟨hmem, hfl, fun i hi => ?_⟩
      rw [h.space.same_grown ht hgrown PTE2PA_aligned (h.space.page_apart hu) (h.space.page_not_mem hu) _ (by omega)
        (by omega)]
      exact hbytes i hi
  · exact (h.same hq hn hL).trans (h.space.same_grown ht hgrown hq
      (fun l x hx => (h.fresh hx).elim (hn l x) hL) fun hq => hL (h.sub hq))

theorem unget (h : Grew K r node₀ L₀ s₀ n₀ P node (c :: L) s v) (ht : Took s c s₁) (hpool : Pool r node' L' s')
    (hgrown : Grown node L s₁ node' L' s') (hleaf : leafOf s'.mem node' = leafOf s₁.mem node) :
    Grew K r node₀ L₀ s₀ n₀ P node' (c :: L') (s'.freed c) v := by
  have hpage : IsPage K c := h.space.page List.mem_cons_self
  have heq : leafOf (s'.freed c).mem node' = leafOf s.mem node := by
    rw [(h.space.pool_unget hpool hgrown).2, hleaf, h.space.leafOf_took ht]
  have hsame : ∀ {q}, q % PGSIZE = 0 → (∀ l x, node l x ≠ some q) → q ∉ c :: L →
      SamePage s.mem (s'.freed c).mem q := fun hq hn hL =>
    (h.space.same_grown ht hgrown hq hn hL).trans (Kmem.outside_freed.samePage hpage.aligned hq fun he => hL (he ▸ List.mem_cons_self))
  refine ⟨h.space.unget ht hpool hgrown hleaf, h.le, fun {l x p} hp => ?_, fun {p} hp => ?_, fun {p} hp => ?_,
    fun v' hv' => ?_, fun v' h1 h2 => ?_, fun {q} hq hn hL => ?_⟩
  · exact (hgrown.fresh hp).elim h.fresh fun hp => .inr (h.sub (.tail _ hp.1))
  · rcases List.mem_cons.mp hp with rfl | hp
    · exact h.sub List.mem_cons_self
    · exact h.sub (.tail _ (hgrown.sub hp))
  · rcases h.back hp with hp | ⟨l, x, hp⟩ | ⟨v', h1, h2, rfl⟩
    · rcases List.mem_cons.mp hp with rfl | hp
      · exact .inl List.mem_cons_self
      · exact (hgrown.gone hp).elim (fun hp => .inl (.tail _ hp)) fun hp => .inr (.inl hp)
    · exact .inr (.inl ⟨l, x, hgrown.keep hp⟩)
    · exact .inr (.inr ⟨v', h1, h2, by rw [heq]⟩)
  · rw [heq]
    exact h.leaf v' hv'
  · rw [heq]
    obtain ⟨hmem, hfl, hbytes⟩ := h.new v' h1 h2
    refine ⟨hmem, hfl, fun i hi => ?_⟩
    rw [hsame PTE2PA_aligned (h.space.page_apart h2) (h.space.page_not_mem h2) _ (by omega) (by omega)]
    exact hbytes i hi
  · exact (h.same hq hn hL).trans (hsame hq (fun l x hx => (h.fresh hx).elim (hn l x) hL) fun hq => hL (h.sub hq))

theorem wp_undo (h : Grew K r node₀ L₀ s₀ n₀ P node L s v)
    (h₀ : UserSpace K r node₀ L₀ s₀ (· < n₀)) (hQ : ∀ x L' s', Grew K r node₀ L₀ s₀ n₀ P node L' s' n₀ → Q x s') :
    wp (uvmdealloc K r (v * PGSIZE) (n₀ * PGSIZE)) Q s := by
  have hspace : UserSpace K r node L s (· < npg (v * PGSIZE)) := by
    rw [npg_mul]
    exact h.space
  refine wp_uvmdealloc_space hspace (fun hle => ?_) fun _ s' L' hspace' hun => ?_
  · have hv : v = n₀ := le_antisymm (Nat.le_of_mul_le_mul_right hle (by decide)) h.le
    subst hv
    exact hQ _ L s h
  · rw [npg_mul] at hspace'
    rw [npg_mul, npg_mul] at hun
    exact hQ _ L' s' (h.undo h₀ hspace' hun)

end Grew

/-- `mappages` puts the page that has been taken at the end of the user pages, or there is no memory for a page-table
page and the page goes back. -/
theorem Grew.wp_mappages {Q : Bool → Kmem → Prop} {node₀ : Nat → Nat → Option Nat} {L₀ : List Nat} {s₀ s₁ : Kmem}
    {n₀ perm : Nat} {P : Pages} (h : Grew K r node₀ L₀ s₀ n₀ P node (c :: L) s v) (ht : Took s c s₁)
    (hperm : perm < 1024) (hflags : perm ||| PTE_V ≠ PTE_V) (hP : P.flags v = perm ||| PTE_V)
    (hbyte : ∀ i < PGSIZE, s₁.mem (c + i) = P.byte v i)
    (h1 : ∀ node' L' s', Grew K r node₀ L₀ s₀ n₀ P node' L' s' (v + 1) → L.length ≤ L'.length + 2 → Q true s')
    (h0 : ∀ node' L' s', Grew K r node₀ L₀ s₀ n₀ P node' L' (s'.freed c) v → L.length < 2 → Q false s') :
    wp (mappages r (v * PGSIZE) PGSIZE c perm) Q s₁ := by
  have hv : v < TRAPFRAME / PGSIZE := by
    have hb := h.space.le
    have : PHYSTOP / PGSIZE < TRAPFRAME / PGSIZE := by decide
    omega
  have hpage : IsPage K c := h.space.page List.mem_cons_self
  have hdiv : v * PGSIZE / PGSIZE = v := Nat.mul_div_cancel _ (by decide)
  have hcount : pageCount (v * PGSIZE) PGSIZE = 1 := by
    simp only [pageCount, PGSIZE]
    omega
  have hmax : v * PGSIZE + PGSIZE ≤ MAXVA := by
    have hmax : MAXVA = 2 ^ 26 * 4096 := by decide
    rw [trapframe_page] at hv
    simp only [PGSIZE]
    omega
  refine wp_mappages_pages (h.space.sound_took ht).pool (by decide) hmax (fun k hk => ?_) (fun k hk => ?_)
    fun ok s' hmapped => ?_
  · rw [hdiv, show v + k = v by omega, h.space.leafOf_took ht]
    exact h.space.empty hv (lt_irrefl v)
  · rw [show k = 0 by omega, zero_mul, add_zero, Nat.or_assoc, ← mkPte]
    exact mkPte_lt (or_valid_lt hperm) (lt_trans hpage.lt (by decide))
  · obtain ⟨node', L'', k, hpool, hgrown, hle, hk, hok, hfail, hleaf⟩ := hmapped
    rw [hcount] at hle hk hok hfail
    rw [hdiv] at hleaf
    cases ok with
    | true =>
      rw [hok.mp rfl] at hleaf
      exact h1 _ _ _ (h.more ht hv hpool hgrown hleaf hperm hflags hP hbyte) hle
    | false =>
      have hk0 : k = 0 := by
        have : k ≠ 1 := fun hk1 => absurd (hok.mpr hk1) (by decide)
        omega
      rw [hk0, withPages_zero] at hleaf
      exact h0 _ _ _ (h.unget ht hpool hgrown hleaf) (hfail rfl).2

theorem wp_uvmallocLoop_grew {node₀ : Nat → Nat → Option Nat} {L₀ : List Nat} {s₀ : Kmem}
    {n₀ newsz xperm : Nat} (hx : PTE_R ||| PTE_U ||| xperm < 1024) (hflags : PTE_R ||| PTE_U ||| xperm ||| PTE_V ≠ PTE_V)
    (h₀ : UserSpace K r node₀ L₀ s₀ (· < n₀)) (h : Grew K r node₀ L₀ s₀ n₀ (.zero xperm) node L s v)
    (h1 : ∀ node' L' s', Grew K r node₀ L₀ s₀ n₀ (.zero xperm) node' L' s' (v + n) → Q newsz s')
    (h0 : ∀ node' L' s', Grew K r node₀ L₀ s₀ n₀ (.zero xperm) node' L' s' n₀ → Q 0 s') :
    wp (uvmallocLoop K r (n₀ * PGSIZE) newsz xperm n (v * PGSIZE)) Q s := by
  induction n generalizing node L s v with
  | zero =>
    rw [uvmallocLoop, wp_pure]
    exact h1 _ _ _ h
  | succ n ih =>
    simp only [uvmallocLoop, wp_bind]
    refine wp_kalloc_pool h.space.sound.pool (fun _ => ?_) fun c L' hL => ?_
    · simp only [if_true, wp_bind]
      exact h.wp_undo h₀ fun x L' s' hg => wp_pure.mpr (h0 _ _ _ hg)
    · subst hL
      simp only [if_neg h.space.sound.pool.chain.2.1, memset, wp_bind, wp_modify]
      refine h.wp_mappages took_taken hx hflags rfl (fun i hi => taken_zero hi) (fun node' L' s' hg _ => ?_)
        fun node' L' s' hg _ => ?_
      · simp only [Bool.not_true, Bool.false_eq_true, if_false]
        have hnext := ih hg fun node' L' s' hg =>
          h1 node' L' s' (by rwa [show v + (n + 1) = v + 1 + n by omega])
        rwa [Nat.succ_mul] at hnext
      · simp only [Bool.not_false, if_true, wp_bind]
        refine wp_kfree (h.space.page List.mem_cons_self) ?_
        rw [wp_bind]
        exact hg.wp_undo h₀ fun x L' s' hg => wp_pure.mpr (h0 _ _ _ hg)

theorem rounds_eq {oldsz newsz : Nat} (hle : oldsz ≤ newsz) :
    (newsz - PGROUNDUP oldsz + PGSIZE - 1) / PGSIZE = npg newsz - npg oldsz := by
  simp only [PGROUNDUP, npg, PGSIZE]
  omega

theorem wp_uvmalloc_grew {oldsz newsz xperm : Nat} (hx : PTE_R ||| PTE_U ||| xperm < 1024)
    (hflags : PTE_R ||| PTE_U ||| xperm ||| PTE_V ≠ PTE_V) (h : UserSpace K r node L s (· < npg oldsz))
    (hle : oldsz ≤ newsz)
    (h1 : ∀ node' L' s', Grew K r node L s (npg oldsz) (.zero xperm) node' L' s' (npg newsz) → Q newsz s')
    (h0 : ∀ node' L' s', Grew K r node L s (npg oldsz) (.zero xperm) node' L' s' (npg oldsz) → Q 0 s') :
    wp (uvmalloc K r oldsz newsz xperm) Q s := by
  simp only [uvmalloc, if_neg (not_lt.mpr hle), rounds_eq hle]
  rw [PGROUNDUP_eq]
  refine wp_uvmallocLoop_grew hx hflags h (.refl h) (fun node' L' s' hg => h1 node' L' s' ?_) h0
  have := npg_mono hle
  rwa [show npg oldsz + (npg newsz - npg oldsz) = npg newsz by omega] at hg

/-- The pages of the table stand for the addresses below `n * PGSIZE`. -/
theorem UserSpace.valid_iff (h : UserSpace K r node L s (· < n)) (hv : v < TRAPFRAME / PGSIZE) :
    pteOf s.mem r v &&& PTE_V ≠ 0 ↔ v < n := by
  have htf := trapframe_page
  rw [h.sound.pool.tree.pteOf_eq (by omega)]
  exact ⟨fun hvalid => by
    by_contra hn
    exact hvalid (h.empty hv hn), fun hlt => (h.user hlt).2.valid⟩

theorem UserSpace.page_lt (h : UserSpace K r node L s (· < n)) (hv : v < n) : v < 2 ^ 26 := by
  have htf := trapframe_page
  have := (h.user hv).1
  omega

theorem live_of_valid {e : Nat} (he : e &&& PTE_V ≠ 0) : live e = e := if_neg he

theorem eq_of_live {e e' : Nat} (h : live e' = live e) (he : e &&& PTE_V ≠ 0) : e' = e := by
  rw [live_of_valid he] at h
  have he' : e' &&& PTE_V ≠ 0 := fun h0 => by
    rw [live, if_pos h0] at h
    exact valid_ne_zero he h.symm
  rwa [live_of_valid he'] at h

/-- The user's pages below `n` are as they were. -/
structure Keeps (r n : Nat) (m m' : Bytes) : Prop where
  entry : ∀ v < n, pteOf m' r v = pteOf m r v
  byte : ∀ va < n * PGSIZE, m' (phys m' r va) = m (phys m r va)

theorem Keeps.refl : Keeps r n m m := ⟨fun _ _ => rfl, fun _ _ => rfl⟩

theorem Keeps.trans {m'' : Bytes} (h : Keeps r n m m') (h' : Keeps r n m' m'') : Keeps r n m m'' :=
  ⟨fun v hv => (h'.entry v hv).trans (h.entry v hv), fun va hva => (h'.byte va hva).trans (h.byte va hva)⟩

theorem Keeps.mono {k : Nat} (h : Keeps r n m m') (hn : k ≤ n) : Keeps r k m m' :=
  ⟨fun v hv => h.entry v (by omega), fun va hva => h.byte va (lt_of_lt_of_le hva (Nat.mul_le_mul_right _ hn))⟩

theorem Keeps.of_pages (htree : PageTree m r node) (htree' : PageTree m' r node') (hn : n ≤ 2 ^ 26)
    (hleaf : ∀ v < n, leafOf m' node' v = leafOf m node v)
    (hsame : ∀ v < n, SamePage m m' (PTE2PA (leafOf m node v))) : Keeps r n m m' := by
  have hentry : ∀ v < n, pteOf m' r v = pteOf m r v := fun v hv => by
    rw [htree'.pteOf_eq (by omega), htree.pteOf_eq (by omega), hleaf v hv]
  refine ⟨hentry, fun va hva => ?_⟩
  have hv : va / PGSIZE < n := Nat.div_lt_of_lt_mul (by rwa [mul_comm])
  have hmod := Nat.mod_lt va (show PGSIZE > 0 by decide)
  rw [phys, hentry _ hv, phys, htree.pteOf_eq (by omega)]
  exact hsame _ hv _ (by omega) (by omega)

theorem UserSpace.le_pow (h : UserSpace K r node L s (· < n)) : n ≤ 2 ^ 26 :=
  h.le.trans (by decide)

theorem Grew.keeps {node₀ : Nat → Nat → Option Nat} {L₀ : List Nat} {s₀ : Kmem} {n₀ : Nat} {P : Pages}
    (h : Grew K r node₀ L₀ s₀ n₀ P node L s v) (h₀ : UserSpace K r node₀ L₀ s₀ (· < n₀)) : Keeps r n₀ s₀.mem s.mem :=
  .of_pages h₀.sound.pool.tree h.space.sound.pool.tree h₀.le_pow
    (fun v' hv => eq_of_live (h.leaf v' (by omega)) (h₀.user hv).2.valid)
    fun _ hv => h.same PTE2PA_aligned (h₀.page_apart hv) (h₀.page_not_mem hv)

theorem phys_page (hn : n * PGSIZE ≤ va) (hlt : va < p * PGSIZE) : n ≤ va / PGSIZE ∧ va / PGSIZE < p :=
  ⟨(Nat.le_div_iff_mul_le (by decide)).mpr hn, Nat.div_lt_of_lt_mul (by rwa [mul_comm])⟩

theorem Grew.phys_new {node₀ : Nat → Nat → Option Nat} {L₀ : List Nat} {s₀ : Kmem} {n₀ : Nat} {P : Pages}
    (h : Grew K r node₀ L₀ s₀ n₀ P node L s v) (hge : n₀ * PGSIZE ≤ va) (hlt : va < v * PGSIZE) :
    s.mem (phys s.mem r va) = P.byte (va / PGSIZE) (va % PGSIZE) := by
  obtain ⟨h1, h2⟩ := phys_page hge hlt
  rw [phys, h.space.sound.pool.tree.pteOf_eq (h.space.page_lt h2)]
  exact (h.new _ h1 h2).2.2 _ (Nat.mod_lt va (by decide))

theorem Unmapped.keeps (h : UserSpace K r node L s (· < n)) (hun : Unmapped node s L v (n - v) s' L')
    (h' : UserSpace K r node L' s' (· < v)) (hle : v ≤ n) : Keeps r v s.mem s'.mem := by
  refine .of_pages h.sound.pool.tree h'.sound.pool.tree h'.le_pow (fun w hw => ?_) fun w hw => ?_
  · rw [hun.leaf, withoutPages, if_neg (by omega)]
  · have hwn : w < n := by omega
    refine hun.same PTE2PA_aligned (h.page_apart hwn) fun k hk he => ?_
    have := h.alone hwn (h.user (show v + k < n by omega)).2.valid he
    omega

theorem UserSpace.size_le {sz : Nat} (h : UserSpace K r node L s (· < npg sz)) : sz ≤ PHYSTOP := by
  have hb := h.le
  have hphys : PHYSTOP = 2281701376 := by decide
  rw [hphys] at hb ⊢
  simp only [npg, PGSIZE] at hb
  omega

end Xv6
