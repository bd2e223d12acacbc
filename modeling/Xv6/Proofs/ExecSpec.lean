import Xv6.Exec
import Xv6.Proofs.AddrSpace

/-!
# What `exec` does to the owners of pages
-/

namespace Xv6

open Ghost Prog Kern

variable {τ : Type} {K : Layout} {s s' : Kmem} {g g' g'' : Ghost τ} {R : Nat → Prop} {T : τ → Prop}
  {p c r l x v n sz : Nat} {t : Nat} {tag : τ} {data : List UInt8}

theorem readi_length_le {off : Nat} : (readi data off n).length ≤ n := by
  rw [readi]
  split
  · exact Nat.zero_le _
  · rw [List.length_take]; exact Nat.min_le_left ..

theorem wp_loadsegLoop {Q : Bool → Kmem → Prop} {N v₀ j offset : Nat} (h : PInv K s g) (hT : Table g r N)
    (hu : ∀ v, g.usr r v) (hN : v₀ + j + n ≤ N) (h1 : ∀ b s', PInv K s' g → Q b s') :
    wp (loadsegLoop r (v₀ * PGSIZE) data offset sz n (j * PGSIZE)) Q s := by
  have hb := h.leaves_le hT
  induction n generalizing j s with
  | zero => rw [loadsegLoop, wp_pure]; exact h1 true s h
  | succ n ih =>
    rw [loadsegLoop, wp_bind, ← add_mul]
    refine wp_walkaddr h hT.root (fun hno => ?_) fun c hc => ?_
    · obtain ⟨p, hp⟩ := (hT.leaves (v₀ + j)).mpr (by omega)
      exact absurd hp (hno (hu _) (by omega) p)
    · simp only [if_neg (h.ne_zero hc), wp_bind, wp_modify]
      generalize hlen : (if sz - j * PGSIZE < PGSIZE then sz - j * PGSIZE else PGSIZE) = len
      have hle : len ≤ PGSIZE := by rw [← hlen]; split <;> omega
      generalize hbytes : readi data ((offset + j * PGSIZE) % 2 ^ 32) len = bytes
      have hbl : bytes.length ≤ PGSIZE := by rw [← hbytes]; exact readi_length_le.trans hle
      have h' : PInv K { s with mem := s.mem.copy c (fun j => bytes.getD j 0) 0 bytes.length } g :=
        h.write (outside_copy (le_rfl) (by omega)) (.inr ⟨r, _, hc⟩)
      split
      · rw [wp_pure]; exact h1 false _ h'
      · rw [show j * PGSIZE + PGSIZE = (j + 1) * PGSIZE from (Nat.succ_mul ..).symm]
        exact ih h' (by omega)

theorem wp_loadseg {Q : Bool → Kmem → Prop} {va offset : Nat} (h : PInv K s g) (hT : Table g r n)
    (hu : ∀ v, g.usr r v) (hva : va % PGSIZE = 0) (hle : npg (va + sz) ≤ n) (h1 : ∀ b s', PInv K s' g → Q b s') :
    wp (loadseg r va data offset sz) Q s := by
  obtain ⟨v₀, rfl⟩ : ∃ v₀, va = v₀ * PGSIZE := ⟨va / PGSIZE, by simp only [PGSIZE] at *; omega⟩
  rw [loadseg, show (0 : Nat) = 0 * PGSIZE from rfl]
  refine wp_loadsegLoop h hT hu ?_ h1
  simp only [npg, PGSIZE] at *
  omega

theorem flags2perm_leaf (flags : Nat) : LeafFlags (PTE_R ||| PTE_U ||| flags2perm flags ||| PTE_V) ∧
    (PTE_R ||| PTE_U ||| flags2perm flags ||| PTE_V) &&& PTE_U ≠ 0 := by
  simp only [flags2perm]
  split <;> split <;> exact ⟨⟨by decide, by decide, by decide⟩, by decide⟩

theorem Proghdr.parse_lt (l : List UInt8) : (Proghdr.parse l).vaddr < 2 ^ 64 ∧ (Proghdr.parse l).memsz < 2 ^ 64 :=
  ⟨Bytes.load_lt .., Bytes.load_lt ..⟩

theorem wp_loadSegments {Q : Bool × Nat → Kmem → Prop} {off : Nat} {g₀ : Ghost τ} (tag : τ)
    (h1 : ∀ b sz' s' g', PInv K s' g' → Moves r g₀ g' → Table g' r (npg sz') → Q (b, sz') s')
    (h : PInv K s g) (hM : Moves r g₀ g) (hT : Table g r (npg sz)) (hu : ∀ v, g.usr r v) :
    wp (loadSegments K r data n off sz) Q s := by
  induction n generalizing off sz s g with
  | zero => rw [loadSegments, wp_pure]; exact h1 true sz s g h hM hT
  | succ n ih =>
    have hbad : wp (pure (false, sz) : VM (Bool × Nat)) Q s := wp_pure.mpr (h1 false sz s g h hM hT)
    rw [loadSegments]
    dsimp only
    obtain ⟨hva, hms⟩ := Proghdr.parse_lt (readi data off proghdrSize)
    by_cases hlen : (readi data off proghdrSize).length ≠ proghdrSize
    · rw [if_pos hlen]; exact hbad
    rw [if_neg hlen]
    generalize Proghdr.parse (readi data off proghdrSize) = ph at *
    obtain ⟨type, flags, poff, vaddr, filesz, memsz⟩ := ph
    dsimp only at *
    by_cases htype : type ≠ ELF_PROG_LOAD
    · rw [if_pos htype]; exact ih h hM hT hu
    rw [if_neg htype]
    by_cases hfs : memsz < filesz
    · simp only [if_pos hfs]; exact hbad
    by_cases hwrap : (vaddr + memsz) % 2 ^ 64 < vaddr
    · simp only [if_neg hfs, if_pos hwrap]; exact hbad
    by_cases hal : vaddr % PGSIZE ≠ 0
    · simp only [if_neg hfs, if_neg hwrap, if_pos hal]; exact hbad
    have hsum : (vaddr + memsz) % 2 ^ 64 = vaddr + memsz := by omega
    simp only [if_neg hfs, if_neg hwrap, if_neg hal]
    rw [hsum, wp_bind]
    obtain ⟨hf, hfu⟩ := flags2perm_leaf flags
    -- the segment is in place, up to `sz1`
    have hgo : ∀ {sz1 s₁ g₁}, PInv K s₁ g₁ → Moves r g₀ g₁ → Table g₁ r (npg sz1) → (∀ v, g₁.usr r v) →
        vaddr + memsz ≤ sz1 → sz ≤ sz1 → wp (if sz1 = 0 then pure (false, sz) else do
          if !(← loadseg r vaddr data (poff % 2 ^ 32) (filesz % 2 ^ 32)) then return (false, sz1)
          loadSegments K r data n ((off + proghdrSize) % 2 ^ 32) sz1) Q s₁ :=
          fun {sz1 s₁ g₁} h₁ hM1 hT1 hu1 hle hsz => by
      by_cases h0 : sz1 = 0
      · obtain rfl : sz = sz1 := by omega
        rw [if_pos h0, wp_pure]; exact h1 false sz s₁ g₁ h₁ hM1 hT1
      · rw [if_neg h0, wp_bind]
        refine wp_loadseg h₁ hT1 hu1 (not_not.mp hal) (npg_mono ?_) fun b s₂ h2 => ?_
        · exact (Nat.add_le_add_left ((Nat.mod_le ..).trans (Nat.le_of_not_lt hfs)) _).trans hle
        · cases b with
          | false => simp only [Bool.not_false, if_true, wp_pure]; exact h1 false sz1 s₂ g₁ h2 hM1 hT1
          | true => simp only [Bool.not_true, Bool.false_eq_true, if_false]; exact ih h2 hM1 hT1 hu1
    refine wp_uvmalloc h hT tag hf hfu (fun hlt => hgo h hM hT hu (le_of_lt hlt) (le_rfl))
      (fun hge s₁ g₁ h₁ hM1 hT1 => hgo h₁ (hM.trans hM1) hT1 (by rw [hM1.usr]; exact hu) (le_rfl) hge)
      fun s₁ g₁ h₁ hM1 hT1 => ?_
    rw [if_pos rfl, wp_pure]
    exact h1 false sz s₁ g₁ h₁ (hM.trans hM1) hT1

theorem wp_strlen {Q : Nat → Kmem → Prop} {a : Nat} (h : ∀ n, Q n s) : wp (strlen a) Q s := by
  simp only [strlen, wp_bind, wp_get, wp_pure]
  exact h _

theorem wp_pushArgs {Q : Option (Nat × List Nat) → Kmem → Prop} {stackbase sp : Nat} {argv ustack : List Nat}
    (h : PInv K s g) (hr : g.own r = some (.node r 3 0)) (h1 : ∀ o s', PInv K s' g → Q o s') :
    wp (pushArgs r stackbase argv sp ustack) Q s := by
  induction argv generalizing sp ustack s with
  | nil => rw [pushArgs, wp_pure]; exact h1 _ s h
  | cons a argv ih =>
    rw [pushArgs]
    by_cases hmax : ustack.length ≥ MAXARG
    · rw [if_pos hmax, wp_pure]; exact h1 _ s h
    rw [if_neg hmax, wp_bind]
    refine wp_strlen fun len => ?_
    dsimp only
    split
    · rw [wp_pure]; exact h1 _ s h
    · simp only [wp_bind, wp_get]
      refine wp_copyout h hr fun b s' h' => ?_
      cases b with
      | false => simp only [Bool.not_false, if_true, wp_pure]; exact h1 _ s' h'
      | true => simp only [Bool.not_true, Bool.false_eq_true, if_false]; exact ih h'

theorem wp_buildStack {Q : Option (Nat × Nat) → Kmem → Prop} {stackbase : Nat} {argv : List Nat} (h : PInv K s g)
    (hr : g.own r = some (.node r 3 0)) (h1 : ∀ o s', PInv K s' g → Q o s') : wp (buildStack r stackbase sz argv) Q s := by
  rw [buildStack, wp_bind]
  refine wp_pushArgs h hr fun o s' h' => ?_
  cases o with
  | none => exact wp_pure.mpr (h1 none s' h')
  | some a =>
    dsimp only
    split
    · exact wp_pure.mpr (h1 none s' h')
    · rw [wp_bind]
      refine wp_copyout h' hr fun b s'' h'' => ?_
      cases b <;> exact wp_pure.mpr (h1 _ s'' h'')

theorem wp_buildImage {Q : Option Image → Kmem → Prop} {argv : List Nat} (h : PInv K s g) (ht : t < 2 ^ 56)
    (tag : τ) (hu : ∀ r v, ¬ g.usr r v)
    (h0 : ∀ s' g', PInv K s' g' → Frame (fun _ => False) (fun _ => False) g g' → (∀ r v, ¬ g'.usr r v) → Q none s')
    (h1 : ∀ im s' g', PInv K s' g' → g.own im.pagetable = some .free →
      Frame (· = im.pagetable) (fun _ => False) g g' → Space K g' im.pagetable (npg im.sz) t →
      (∀ r v, ¬ g'.usr r v) → Q (some im) s') : wp (buildImage K t data argv) Q s := by
  have hbad : wp (pure none : VM (Option Image)) Q s := wp_pure.mpr (h0 s g h (.refl ..) hu)
  rw [buildImage]
  generalize readi data 0 elfhdrSize = elf
  by_cases hlen : elf.length ≠ elfhdrSize
  · simp only [if_pos hlen]; exact hbad
  by_cases hmagic : field elf 0 4 ≠ ELF_MAGIC
  · simp only [if_neg hlen, if_pos hmagic]; exact hbad
  simp only [if_neg hlen, if_neg hmagic]
  rw [wp_bind]
  refine wp_procPagetable h ht tag (fun s₁ g₁ h₁ hF1 hu1 => ?_) fun r s₁ g₁ h₁ hr hF1 hS1 hu1 => ?_
  · rw [if_pos rfl, wp_pure]; exact h0 s₁ g₁ h₁ hF1 (by rw [hu1]; exact hu)
  have hno := h.tables.no_node hr
  -- what the function does when it cannot go on
  have hundo : ∀ {sz s₂ g₂}, PInv K s₂ g₂ → Frame (· = r) (fun _ => False) g g₂ → Space K g₂ r (npg sz) t →
      (∀ r v, ¬ g₂.usr r v) → wp (do procFreepagetable K r sz; return none) Q s₂ :=
    fun {sz s₂ g₂} h2 hF2 hS2 hu2 => by
      rw [wp_bind]
      refine wp_procFreepagetable h2 hS2 tag fun s' g' h' hF' hno' hu' => wp_pure.mpr (h0 s' g' h' ?_ ?_)
      · exact (hF2.trans hF').dropRoot h.tables h'.tables hno hno'
      · rw [hu']; exact hu2
  rw [if_neg (h.ne_zero hr), wp_bind]
  -- while the segments are loaded, all user pages are accessible
  have hu1' : PInv K s₁ { g₁ with usr := fun r' _ => r' = r } := h₁.setUsr fun r' v e => .inr fun p hp => by
    subst e
    exact absurd ((hS1.table.leaves v).mp ⟨p, hp⟩) (Nat.not_lt_zero v)
  refine wp_loadSegments tag
    (fun b sz s₂ g₂ h2 hM2 hT2 => ?_) hu1' (.refl ..) ⟨hS1.table.root, hS1.table.leaves, hS1.table.ext⟩ fun _ => rfl
  have hF := Frame.of_moves (R := (· = r)) (T := fun _ => False) hM2 rfl
  obtain ⟨g₃, h3, hF3, hS3, hu3⟩ : ∃ g₃, PInv K s₂ g₃ ∧ Frame (· = r) (fun _ => False) g g₃ ∧
      Space K g₃ r (npg sz) t ∧ ∀ r v, ¬ g₃.usr r v :=
    ⟨{ g₂ with usr := fun _ _ => False }, h2.setUsr fun _ _ => False.elim, hF1.trans ⟨hF.own, hF.ext, hF.pin⟩,
      ⟨⟨hT2.root, hT2.leaves, hT2.ext⟩, fun v => (congrFun₃ hM2.ext r 0 v).trans (hS1.ext v)⟩, fun _ _ => id⟩
  cases b with
  | false => simp only [Bool.not_false, if_true]; exact hundo h3 hF3 hS3 hu3
  | true =>
  simp only [Bool.not_true, Bool.false_eq_true, if_false]
  have hup : npg (PGROUNDUP sz) = npg sz := by rw [PGROUNDUP_eq, npg_mul]
  rw [← hup] at hS3
  rw [wp_bind]
  refine wp_uvmalloc h3 hS3.table tag ⟨by decide, by decide, by decide⟩ (by decide)
    (fun hlt => absurd hlt (by omega)) (fun _ s₄ g₄ h4 hM4 hT4 => ?_) fun s₄ g₄ h4 hM4 hT4 => ?_
  · -- the two pages of the stack are there
    have hF4 := hF3.trans (.of_moves hM4 rfl)
    have hS4 := hS3.of_moves hM4 hT4
    have hu4 : ∀ r v, ¬ g₄.usr r v := by rw [hM4.usr]; exact hu3
    have hnpg : npg (PGROUNDUP sz + 2 * PGSIZE) = npg sz + 2 := by
      rw [PGROUNDUP_eq, ← add_mul, npg_mul]
    have hsub : PGROUNDUP sz + 2 * PGSIZE - 2 * PGSIZE = npg sz * PGSIZE := by
      rw [Nat.add_sub_cancel, PGROUNDUP_eq]
    have hpos : PGROUNDUP sz + 2 * PGSIZE ≠ 0 := by simp only [PGSIZE]; omega
    rw [if_neg hpos, hsub, wp_bind]
    refine wp_uvmclear h4 hT4 (by rw [hnpg]; omega) (hu4 _ _) fun s₅ h5 => ?_
    rw [wp_bind]
    refine wp_buildStack h5 hT4.root fun o s₆ h6 => ?_
    cases o with
    | none => exact hundo h6 hF4 hS4 hu4
    | some a => exact wp_pure.mpr (h1 _ s₆ g₄ h6 hr hF4 hS4 hu4)
  · rw [if_pos rfl]
    exact hundo h4 (hF3.trans (.of_moves hM4 rfl)) (hS3.of_moves hM4 hT4) (by rw [hM4.usr]; exact hu3)

/-! ### The arguments -/

structure HeldList (g : Ghost τ) (tag : τ) (L : List Nat) : Prop where
  nodup : L.Nodup
  mem : ∀ a, g.own a = some (.held tag) ↔ a ∈ L
  pin : ∀ a ∈ L, g.pin a = none

theorem HeldList.of_frame {L : List Nat} (h : HeldList g tag L) (hF : Frame R T g g') (ht : ¬ T tag) :
    HeldList g' tag L :=
  ⟨h.nodup, fun a => (hF.held ht).trans (h.mem a), fun a ha => (hF.pin ((h.mem a).mpr ha) ht).trans (h.pin a ha)⟩

theorem HeldList.concat {L : List Nat} (h : HeldList g tag L) (hp : PInv K s g) (hc : g.own c = some .free) :
    HeldList (g.set c (.held tag)) tag (L ++ [c]) := by
  have hcL : c ∉ L := fun hL => by cases hc.symm.trans ((h.mem c).mpr hL)
  refine ⟨List.nodup_append.mpr ⟨h.nodup, List.nodup_singleton c, ?_⟩, fun a => ?_, fun a ha => ?_⟩
  · rintro a ha b hb rfl
    exact hcL (List.mem_singleton.mp hb ▸ ha)
  · by_cases hac : a = c
    · subst hac; simp
    · rw [set_own_of_ne hac, h.mem, List.mem_append, List.mem_singleton]
      exact (or_iff_left hac).symm
  · rcases List.mem_append.mp ha with ha | ha
    · exact h.pin a ha
    · rw [List.mem_singleton.mp ha]; exact hp.pin_free hc

theorem wp_fetchaddr {Q : Option Nat → Kmem → Prop} {P : ProcMem} {addr : Nat} (h : PInv K s g)
    (hr : g.own P.pagetable = some (.node P.pagetable 3 0)) (h1 : ∀ o, Q o s) : wp (fetchaddr P addr) Q s := by
  rw [fetchaddr]
  split
  · rw [wp_pure]; exact h1 _
  · rw [wp_bind]
    exact wp_copyin h hr fun b => wp_pure.mpr (h1 _)

theorem wp_fetchArgs {Q : Bool × List Nat → Kmem → Prop} {P : ProcMem} {uargv : Nat} {argv : List Nat} {g₀ : Ghost τ}
    (h1 : ∀ b argv' s' g', PInv K s' g' → Frame (fun _ => False) (· = tag) g₀ g' → HeldList g' tag argv' →
      g'.usr = g₀.usr → Q (b, argv') s')
    (h : PInv K s g) (hF : Frame (fun _ => False) (· = tag) g₀ g) (hu : g.usr = g₀.usr)
    (hr : g.own P.pagetable = some (.node P.pagetable 3 0)) (hL : HeldList g tag argv) :
    wp (fetchArgs P uargv n argv) Q s := by
  induction n generalizing argv s g with
  | zero => rw [fetchArgs, wp_pure]; exact h1 _ _ s g h hF hL hu
  | succ n ih =>
    rw [fetchArgs, wp_bind]
    refine wp_fetchaddr h hr fun o => ?_
    cases o with
    | none => rw [wp_pure]; exact h1 _ _ s g h hF hL hu
    | some uarg =>
      dsimp only
      split
      · rw [wp_pure]; exact h1 _ _ s g h hF hL hu
      rw [wp_bind]
      refine wp_kalloc h tag ?_ fun c s₁ hc h₁ => ?_
      · rw [if_pos rfl, wp_pure]; exact h1 _ _ s g h hF hL hu
      have hL1 := hL.concat h hc
      have hset : Frame (fun _ => False) (· = tag) g (g.set c (.held tag)) := .set hc trivial rfl
      have hF1 := hF.trans hset
      have hr1 := (hset.node id).mpr hr
      rw [if_neg (h.ne_zero hc), wp_bind]
      refine wp_copyinstr h₁ hr1 (.inl ⟨⟨tag, set_own_self⟩, h.pin_free hc⟩) (le_rfl) (le_rfl)
        fun b s₂ h2 => ?_
      cases b with
      | false => simp only [Bool.not_false, if_true, wp_pure]; exact h1 _ _ s₂ _ h2 hF1 hL1 hu
      | true => simp only [Bool.not_true, Bool.false_eq_true, if_false]; exact ih h2 hF1 hu hr1 hL1

theorem wp_freeArgs {Q : Unit → Kmem → Prop} {argv : List Nat} {g₀ : Ghost τ}
    (h1 : ∀ s' g', PInv K s' g' → Frame (fun _ => False) (· = tag) g₀ g' → HeldList g' tag [] → g'.usr = g₀.usr →
      Q () s')
    (h : PInv K s g) (hF : Frame (fun _ => False) (· = tag) g₀ g) (hu : g.usr = g₀.usr) (hL : HeldList g tag argv) :
    wp (freeArgs K argv) Q s := by
  induction argv generalizing s g with
  | nil => rw [freeArgs, wp_pure]; exact h1 s g h hF hL hu
  | cons a argv ih =>
    have ha : g.own a = some (.held tag) := (hL.mem a).mpr List.mem_cons_self
    have hnot := (List.nodup_cons.mp hL.nodup).1
    rw [freeArgs, wp_bind]
    refine wp_kfree (h.isPage ha) (ih (h.freed ha (hL.pin a List.mem_cons_self))
      (hF.trans (.set ha rfl trivial)) hu ⟨(List.nodup_cons.mp hL.nodup).2, fun b => ?_, fun b hb => ?_⟩)
    · by_cases hba : b = a
      · subst hba
        rw [set_own_self]
        exact ⟨nofun, fun hb => absurd hb hnot⟩
      · rw [set_own_of_ne hba, hL.mem, List.mem_cons]; exact or_iff_right hba
    · exact hL.pin b (List.mem_cons_of_mem _ hb)

end Xv6
