import Xv6.Proofs.PipeSpec
import Xv6.Proofs.UserSpace

/-!
# `growproc`

`growproc` adds pages at the end of the user's memory or takes them away there, and on failure leaves it as it was.
-/

namespace Xv6

open Function (update_self)

open Prog

variable {K : Layout} {m m' : Bytes} {r p q c v va n : Nat} {node node' : Nat → Nat → Option Nat} {s s' : Kmem}
  {L L' : List Nat} {U : Nat → Prop}

namespace Kern

/-- `growproc(n)` does what it reports: with 0, the size has changed by `n`, the user pages are those below it,
the bytes below both sizes are as before and new pages are zero; with -1, the size, the map and the user's bytes
are as before, and the pages of the free list `L` are still there, but for page-table pages. -/
def Reports (s : Kern) (i : Fin NPROC) (n : Int) (L : List Nat) (ok : Bool) (s' : Kern) : Prop :=
  let r := (s.proc i).pagetable
  let sz := (s.proc i).sz
  let sz' := (s'.proc i).sz
  let m := s.kmem.mem
  let m' := s'.kmem.mem
  (s'.proc i).pagetable = r ∧
  (ok = true → (sz' : Int) = sz + n ∧
    (∀ v < TRAPFRAME / PGSIZE, pteOf m' r v &&& PTE_V ≠ 0 ↔ v * PGSIZE < PGROUNDUP sz') ∧
    (∀ va, va < sz → va < sz' → m' (phys m' r va) = m (phys m r va)) ∧
    ∀ va, PGROUNDUP sz ≤ va → va < PGROUNDUP sz' → m' (phys m' r va) = 0) ∧
  (ok = false → sz' = sz ∧ (∀ v < 2 ^ 26, live (pteOf m' r v) = live (pteOf m r v)) ∧
    (∀ va < PGROUNDUP sz, m' (phys m' r va) = m (phys m r va)) ∧
    ∃ node L', Pool r node L' s'.kmem ∧ ∀ p ∈ L, p ∈ L' ∨ ∃ l x, node l x = some p)

end Kern

theorem addInt_eq {sz : Nat} {n : CInt} (hsz : sz ≤ PHYSTOP) (hn : 0 ≤ (sz : Int) + n.toInt) :
    (Kern.addInt sz n : Int) = sz + n.toInt := by
  have hlt : n.toInt < 2 ^ 31 := n.toInt_lt
  have hphys : PHYSTOP = 2281701376 := by decide
  rw [Kern.addInt]
  omega

theorem le_addInt {sz : Nat} {n : CInt} (hsz : sz ≤ PHYSTOP) (hn : (sz : Int) + n.toInt < 0) :
    sz ≤ Kern.addInt sz n := by
  have hge : -2 ^ 31 ≤ n.toInt := n.le_toInt
  have hphys : PHYSTOP = 2281701376 := by decide
  rw [Kern.addInt]
  omega

open Kern in
/-- `growproc(n)` does what it reports exactly if `n` does not take more than there is. -/
theorem growproc_reports_iff {K : Layout} {s : Kern} {i : Fin NPROC} {node : Nat → Nat → Option Nat} {L : List Nat}
    (h : UserSpace K (s.proc i).pagetable node L s.kmem (· < npg (s.proc i).sz)) (n : CInt) :
    wp (growproc K i n) (fun ok s' => s.Reports i n.toInt L ok s' ↔ -((s.proc i).sz : Int) ≤ n.toInt) s := by
  have hsz := h.size_le
  have hmem : ∀ {sz'}, (∀ v < TRAPFRAME / PGSIZE, v * PGSIZE < PGROUNDUP sz' ↔ v < npg sz') := fun v _ => by
    rw [PGROUNDUP_eq, Nat.mul_lt_mul_right (by decide)]
  rw [growproc, wp_bind, wp_get]
  by_cases hpos : n.toInt > 0
  · have hnew := addInt_eq (n := n) hsz (by omega)
    rw [if_pos hpos, wp_bind, wp_vm]
    refine wp_uvmalloc_grew (by decide) (by decide) h (by omega) (fun node' L' k hg => ?_) fun node' L' k hg => ?_
    · rw [if_neg (by omega), wp_bind, wp_modifyProc, wp_pure]
      refine iff_of_true ⟨?_, fun _ => ⟨?_, fun v hv => ?_, fun va hva _ => ?_, fun va hge hlt => ?_⟩, by simp⟩ (by omega)
      all_goals simp only [update_self]
      · exact hnew
      · rw [hg.space.valid_iff hv, hmem v hv]
      · refine (hg.keeps h).byte va (lt_of_lt_of_le hva ?_)
        simp only [npg, PGSIZE]
        omega
      · simp only [update_self] at hlt
        exact hg.phys_new hge hlt
    · rw [if_pos rfl, wp_pure]
      refine iff_of_true ⟨rfl, by simp, fun _ => ⟨rfl, fun v hv => ?_, (hg.keeps h).byte, node', L',
        hg.space.sound.pool, fun p hp => ?_⟩⟩ (by omega)
      · rw [hg.space.sound.pool.tree.pteOf_eq hv, h.sound.pool.tree.pteOf_eq hv]
        exact hg.leaf v (by omega)
      · rcases hg.back hp with hp | hp | ⟨v', h1, h2, -⟩
        · exact .inl hp
        · exact .inr hp
        · omega
  · rw [if_neg hpos]
    by_cases hneg : n.toInt < 0
    · rw [if_pos hneg, wp_bind, wp_vm]
      by_cases hfit : 0 ≤ ((s.proc i).sz : Int) + n.toInt
      · have hnew := addInt_eq hsz hfit
        refine wp_uvmdealloc_space h (fun hge => by omega) fun hlt k L' hspace hun => ?_
        rw [wp_bind, wp_modifyProc, wp_pure]
        refine iff_of_true ⟨?_, fun _ => ⟨?_, fun v hv => ?_, fun va _ hva => ?_, fun va hge hlt' => ?_⟩, by simp⟩
          (by omega)
        all_goals simp only [update_self] at *
        · exact hnew
        · rw [hspace.valid_iff hv, hmem v hv]
        · refine (hun.keeps h hspace (npg_mono (by omega))).byte va (lt_of_lt_of_le hva ?_)
          simp only [npg, PGSIZE]
          omega
        · have := npg_mono (le_of_lt hlt)
          rw [PGROUNDUP_eq] at hge hlt'
          have hle : npg (addInt (s.proc i).sz n) * PGSIZE ≤ npg (s.proc i).sz * PGSIZE := Nat.mul_le_mul_right _ this
          omega
      · have hge := le_addInt (n := n) hsz (by omega)
        refine wp_uvmdealloc_space h (fun _ => ?_) fun hlt => absurd hge (by omega)
        rw [wp_bind, wp_modifyProc, wp_pure]
        refine iff_of_false (fun hrep => ?_) (by omega)
        have := (hrep.2.1 rfl).1
        simp only [update_self] at this
        omega
    · rw [if_neg hneg, wp_pure]
      refine iff_of_true ⟨rfl, fun _ => ⟨by omega, fun v hv => ?_, fun va _ _ => rfl, fun va hge hlt => by omega⟩, by simp⟩
        (by omega)
      rw [h.valid_iff hv, hmem v hv]

/-! ### A process with one page -/

theorem userSpace_leafTable :
    UserSpace smallLayout 0x87FFD000 smallNode freePages ⟨leafTable 0, 0x87FFA000⟩ (· < npg PGSIZE) := by
  have hleaf := leafOf_leafTable (v := 0) (by decide)
  rw [show npg PGSIZE = 1 by decide]
  refine ⟨sound_leafTable (by decide), fun hp => ?_, fun {v} hv => ?_, fun {v v'} hv hvalid _ => ?_, fun {v} _ hn => ?_⟩
  · obtain ⟨h1, h2, h3⟩ := lt_of_mem_freePages hp
    exact ⟨h3, le_trans (by decide) h2, h1.trans (by decide)⟩
  · rw [hleaf, if_pos (by omega)]
    exact ⟨lt_of_lt_of_le hv (by decide), by decide, by decide, fun _ => ⟨by decide, by decide, by decide⟩⟩
  · by_cases h0 : v' = 0
    · omega
    · rw [hleaf, if_neg h0] at hvalid
      exact absurd rfl hvalid
  · rw [hleaf, if_neg (by omega)]
    rfl

def onePage : Kern :=
  { Kern.zeroed (fun _ => 0) with
    kmem := ⟨leafTable 0, 0x87FFA000⟩
    proc := fun i => { (Kern.zeroed fun _ => 0).proc i with sz := PGSIZE, pagetable := 0x87FFD000 } }

open Kern in
/-- `growproc(-8192)` on a process of 4096 bytes. -/
theorem growproc_too_far : wp (growproc smallLayout firstProc (-8192#32))
    (fun ok s' => ok = true ∧ (s'.proc firstProc).sz = PGSIZE ∧
      ¬ onePage.Reports firstProc (-8192) freePages ok s') onePage := by
  have hn : (-8192#32 : CInt).toInt = -8192 := by decide
  have hsz : ∀ i, (onePage.proc i).sz = PGSIZE := fun _ => rfl
  rw [growproc, wp_bind, wp_get, if_neg (by rw [hn]; decide), if_pos (by rw [hn]; decide), wp_bind, wp_vm, uvmdealloc,
    if_pos (by rw [hsz]; decide), wp_pure, wp_bind, wp_modifyProc, wp_pure]
  refine ⟨rfl, by simp only [update_self, hsz], fun hrep => ?_⟩
  have := (hrep.2.1 rfl).1
  simp only [update_self, hsz, PGSIZE] at this
  omega

theorem growproc_reports_iff_onePage :
    UserSpace smallLayout 0x87FFD000 smallNode freePages ⟨leafTable 0, 0x87FFA000⟩ (· < npg PGSIZE) ∧
    wp (Kern.growproc smallLayout firstProc (-4096#32)) (fun ok s' =>
      onePage.Reports firstProc (-4096#32 : CInt).toInt freePages ok s' ↔
        -((onePage.proc firstProc).sz : Int) ≤ (-4096#32 : CInt).toInt) onePage :=
  ⟨userSpace_leafTable, growproc_reports_iff (s := onePage) (i := firstProc) userSpace_leafTable (-4096#32)⟩

end Xv6
