import Xv6.Proofs.Boot

/-!
# Physical pages and address spaces

What memory itself says about the pages: `tablePage` and `leafPte` read the page tables as the hardware does,
and `Owns` looks at the free list, the page tables, the process table and the file table. In every reachable
state each page has exactly one owner, and the page table of a process maps what its size says.
-/

namespace Xv6

open Ghost Prog

namespace Kern

/-- The page-table page at depth `depth` (0 is the root) for the addresses that start with `x`. -/
def tablePage (m : Bytes) (r : Nat) : (depth x : Nat) → Option Nat
  | 0, x => if x = 0 then some r else none
  | depth + 1, x =>
    (tablePage m r depth (x / 512)).bind fun q =>
      let e := m.load (q + 8 * (x % 512)) 8
      if e &&& PTE_V ≠ 0 ∧ e &&& (PTE_R ||| PTE_W ||| PTE_X) = 0 then some (PTE2PA e) else none

/-- The valid leaf for `x` in a page-table page at depth `depth`; at depth 2, `x` is a page number. -/
def leafPte (m : Bytes) (r depth x : Nat) : Option Nat :=
  (tablePage m r depth (x / 512)).bind fun q =>
    let e := m.load (q + 8 * (x % 512)) 8
    if e &&& PTE_V ≠ 0 ∧ e &&& (PTE_R ||| PTE_W ||| PTE_X) ≠ 0 then some e else none

/-- Who a page belongs to. -/
inductive PageOwner
  | free
  | table (i : Fin NPROC) (depth x : Nat)
  | user (i : Fin NPROC) (v : Nat)
  | trapframe (i : Fin NPROC)
  | pipe
  | boot

def Owns (s : Kern) (p : Nat) : PageOwner → Prop
  | .free => ∃ L, Chain s.kmem.mem s.kmem.freelist L ∧ p ∈ L
  | .table i depth x =>
    (s.proc i).pagetable ≠ 0 ∧ depth ≤ 2 ∧ tablePage s.kmem.mem (s.proc i).pagetable depth x = some p
  | .user i v => (s.proc i).pagetable ≠ 0 ∧ v < TRAPFRAME / PGSIZE ∧
    ∃ e, leafPte s.kmem.mem (s.proc i).pagetable 2 v = some e ∧ PTE2PA e = p
  | .trapframe i => (s.proc i).trapframe ≠ 0 ∧ (s.proc i).trapframe = p
  | .pipe => ∃ f, 0 < (s.file f).ref ∧ (s.file f).type = .fdPipe ∧ (s.file f).pipe = p
  | .boot => p ∈ s.boot

end Kern

open Kern

variable {K : Layout} {s : Kern} {k : Kmem} {g : Ghost Tag} {c : Fin NFILE → Nat} {i : Fin NPROC}
  {p q r l x v d n t e : Nat} {m : Bytes} {o : Owner Tag}

/-! ### Reading the page tables -/

theorem Entry.pointer (h : Entry g r (l + 1) v e) (ht : Tables m g) :
    (e = 0 ∧ ∀ p, g.own p ≠ some (.node r (l + 1) v)) ∨ ∃ c, g.own c = some (.node r (l + 1) v) ∧
      e &&& PTE_V ≠ 0 ∧ e &&& (PTE_R ||| PTE_W ||| PTE_X) = 0 ∧ PTE2PA e = c := by
  rcases h.sub ht with h0 | ⟨c, hc, hv, hpa⟩
  · exact .inl h0
  · refine .inr ⟨c, hc, hv, ?_, hpa⟩
    cases h with
    | zero => rfl
    | page flags =>
      obtain rfl : _ = PTE_V := flags
      rw [mkPte_and (by decide) (by decide)]; rfl
    | ext _ _ ext => exact absurd (ht.ext (r := r) (l := l + 1) (v := v) (by rw [ext]; nofun)).1 (by omega)

theorem tablePage_iff (h : PInv K k g) (hr : g.own r = some (.node r 3 0)) (hd : d ≤ 2) :
    tablePage k.mem r d x = some p ↔ g.own p = some (.node r (3 - d) x) := by
  induction d generalizing x p with
  | zero =>
    rw [tablePage]
    by_cases hx : x = 0
    · subst hx
      rw [if_pos rfl]
      constructor
      · rintro ⟨⟩; exact hr
      · intro hp; rw [h.tables.unique hp hr]
    · rw [if_neg hx]
      refine ⟨nofun, fun hp => ?_⟩
      obtain ⟨L, X, hr', -, heq⟩ := h.tables.root hp
      cases hr.symm.trans hr'
      obtain rfl := heq rfl
      cases hr.symm.trans hp
      exact absurd rfl hx
  | succ d ih =>
    obtain ⟨l, hl, hl'⟩ : ∃ l, 3 - (d + 1) = l + 1 ∧ 3 - d = l + 2 := ⟨1 - d, by omega, by omega⟩
    rw [hl'] at ih
    rw [tablePage, hl]
    cases hq : tablePage k.mem r d (x / 512) with
    | none =>
      refine ⟨nofun, fun hp => ?_⟩
      rcases h.tables.parent hp with rfl | ⟨q, hq'⟩
      · cases hr.symm.trans hp; omega
      · rw [(ih (by omega)).mpr hq'] at hq; cases hq
    | some q =>
      have hq' := (ih (by omega)).mp hq
      rw [Option.bind_some]
      rcases (h.tables.entry_of_parent hq').pointer h.tables with ⟨he, hno⟩ | ⟨c, hc, hv, hl, hpa⟩
      · rw [he]
        exact ⟨nofun, fun hp => absurd hp (hno p)⟩
      · dsimp only
        rw [if_pos ⟨hv, hl⟩, hpa]
        constructor
        · rintro ⟨⟩; exact hc
        · intro hp; rw [h.tables.unique hp hc]

theorem leafPte_of_lt (h : PInv K k g) (hr : g.own r = some (.node r 3 0)) (hd : d < 2) : leafPte k.mem r d x = none := by
  obtain ⟨l, hl⟩ : ∃ l, 3 - d = l + 2 := ⟨1 - d, by omega⟩
  rw [leafPte]
  cases hq : tablePage k.mem r d (x / 512) with
  | none => rfl
  | some q =>
    have hq' := (tablePage_iff h hr (by omega)).mp hq
    rw [hl] at hq'
    rw [Option.bind_some]
    rcases (h.tables.entry_of_parent hq').pointer h.tables with ⟨he, -⟩ | ⟨c, -, -, hl, -⟩
    · rw [he]; rfl
    · exact if_neg fun hlf => hlf.2 hl

theorem leafPte_cases (h : PInv K k g) (hr : g.own r = some (.node r 3 0)) :
    (leafPte k.mem r 2 v = none ∧ (∀ p, g.own p ≠ some (.node r 0 v)) ∧ g.ext r 0 v = none) ∨
    (∃ c e, leafPte k.mem r 2 v = some e ∧ PTE2PA e = c ∧ g.own c = some (.node r 0 v)) ∨
    ∃ c e, leafPte k.mem r 2 v = some e ∧ e &&& PTE_U = 0 ∧ g.ext r 0 v = some c := by
  rw [leafPte]
  cases hq : tablePage k.mem r 2 (v / 512) with
  | none =>
    have hno : ∀ q, g.own q ≠ some (.node r 1 (v / 512)) := fun q hq' => by
      rw [(tablePage_iff h hr (Nat.le_refl 2)).mpr hq'] at hq; cases hq
    refine .inl ⟨rfl, fun p hp => ?_, ?_⟩
    · rcases h.tables.parent hp with rfl | ⟨q, hq'⟩
      · cases hr.symm.trans hp
      · exact hno q hq'
    · by_contra hne
      obtain ⟨-, q, hq'⟩ := h.tables.ext hne
      exact hno q hq'
  | some q =>
    rw [Option.bind_some]
    have hent := h.tables.entry_of_parent ((tablePage_iff h hr (Nat.le_refl 2)).mp hq)
    revert hent
    generalize k.mem.load (q + 8 * (v % 512)) 8 = e
    intro hent
    have hleaf : ∀ {c f}, LeafFlags f → mkPte c f &&& PTE_V ≠ 0 ∧ mkPte c f &&& (PTE_R ||| PTE_W ||| PTE_X) ≠ 0 :=
      fun hf => ⟨by rw [mkPte_valid hf.lt]; exact hf.valid, by rw [mkPte_and hf.lt (by decide)]; exact hf.leaf⟩
    cases hent with
    | zero no ext => exact .inl ⟨rfl, no, ext⟩
    | @page c f flags own ext user =>
      have hc := (own c).mpr rfl
      refine .inr (.inl ⟨c, _, if_pos (hleaf flags), ?_, hc⟩)
      exact PTE2PA_mkPte flags.lt (h.isPage hc).aligned
    | @ext c f flags user ext no =>
      exact .inr (.inr ⟨c, _, if_pos (hleaf flags), by rw [mkPte_and flags.lt (by decide)]; exact user, ext⟩)

theorem leafPte_of_ext (h : PInv K k g) (hr : g.own r = some (.node r 3 0)) (hx : g.ext r 0 v = none) :
    (∃ e, leafPte k.mem r 2 v = some e ∧ PTE2PA e = p) ↔ g.own p = some (.node r 0 v) := by
  rcases leafPte_cases h hr with ⟨hl, hno, -⟩ | ⟨c, e, hl, rfl, hc⟩ | ⟨c, e, -, -, hx'⟩
  · refine ⟨fun ⟨e, he, _⟩ => ?_, fun hp => absurd hp (hno p)⟩
    cases hl.symm.trans he
  · constructor
    · rintro ⟨e', he', rfl⟩
      cases hl.symm.trans he'
      exact hc
    · intro hp; exact ⟨e, hl, h.tables.unique hc hp⟩
  · cases hx.symm.trans hx'

theorem Chain.unique {a : Nat} {L L' : List Nat} (h : Chain m a L) (h' : Chain m a L') : L = L' := by
  induction L generalizing a L' with
  | nil =>
    cases L' with
    | nil => rfl
    | cons p L' => obtain ⟨rfl, h0, -⟩ := h'; exact absurd h h0
  | cons p L ih =>
    obtain ⟨rfl, h0, h⟩ := h
    cases L' with
    | nil => exact absurd h' h0
    | cons q L' => obtain ⟨rfl, -, h'⟩ := h'; rw [ih h h']

/-! ### Owners -/

def Kern.PageOwner.ghost (s : Kern) : PageOwner → Owner Tag
  | .free => .free
  | .table i d x => .node (s.proc i).pagetable (3 - d) x
  | .user i v => .node (s.proc i).pagetable 0 v
  | .trapframe i => .held (.tf i)
  | .pipe => .held .pipe
  | .boot => .held .boot

def Kern.PageOwner.Proper (s : Kern) : PageOwner → Prop
  | .table i d _ => (s.proc i).Used ∧ d ≤ 2
  | .user i _ => (s.proc i).Used
  | _ => True

namespace Sys

section
variable (h : Sys K s g c)
include h

theorem used_iff_pagetable : (s.proc i).pagetable ≠ 0 ↔ (s.proc i).Used := by
  constructor
  · intro hp
    by_contra hu
    exact hp (h.bare hu).pagetable
  · intro hu; exact h.pages.ne_zero (h.mem hu).space.table.root

theorem lt_of_node (hi : (s.proc i).Used) (hp : g.own p = some (.node (s.proc i).pagetable 0 v)) :
    v < TRAPFRAME / PGSIZE := by
  have hT := (h.mem hi).space.table
  have h1 := (hT.leaves v).mp ⟨p, hp⟩
  have h2 := h.pages.leaves_le hT
  rw [TRAPFRAME_div]
  omega

theorem ext_of_lt (hi : (s.proc i).Used) (hv : v < TRAPFRAME / PGSIZE) : g.ext (s.proc i).pagetable 0 v = none := by
  rw [(h.mem hi).space.ext, TRAMPOLINE_div, TRAPFRAME_div] at *
  rw [if_neg (by omega), if_neg (by omega)]

theorem owns_iff {o : PageOwner} : Owns s p o ↔ o.Proper s ∧ g.own p = some (o.ghost s) := by
  cases o with
  | free =>
    obtain ⟨L, hL, -, hfree⟩ := h.pages.free
    constructor
    · rintro ⟨L', hL', hp⟩
      rw [hL'.unique hL] at hp
      exact ⟨trivial, (hfree p).mpr hp⟩
    · rintro ⟨-, hp⟩; exact ⟨L, hL, (hfree p).mp hp⟩
  | table i d x =>
    simp only [Owns, h.used_iff_pagetable]
    constructor
    · rintro ⟨hi, hd, hp⟩
      exact ⟨⟨hi, hd⟩, (tablePage_iff h.pages (h.mem hi).space.table.root hd).mp hp⟩
    · rintro ⟨⟨hi, hd⟩, hp⟩
      exact ⟨hi, hd, (tablePage_iff h.pages (h.mem hi).space.table.root hd).mpr hp⟩
  | user i v =>
    simp only [Owns, h.used_iff_pagetable]
    constructor
    · rintro ⟨hi, hv, hp⟩
      exact ⟨hi, (leafPte_of_ext h.pages (h.mem hi).space.table.root (h.ext_of_lt hi hv)).mp hp⟩
    · rintro ⟨hi, hp⟩
      have hv := h.lt_of_node hi hp
      exact ⟨hi, hv, (leafPte_of_ext h.pages (h.mem hi).space.table.root (h.ext_of_lt hi hv)).mpr hp⟩
  | trapframe i =>
    constructor
    · rintro ⟨h0, rfl⟩
      have hi : (s.proc i).Used := by
        by_contra hu
        exact h0 (h.bare hu).trapframe
      exact ⟨trivial, (h.mem hi).tf⟩
    · rintro ⟨-, hp⟩
      obtain ⟨-, rfl⟩ := h.acc hp
      exact ⟨h.pages.ne_zero hp, rfl⟩
  | pipe =>
    constructor
    · rintro ⟨f, href, htype, rfl⟩
      exact ⟨trivial, h.files.page ⟨href, htype, rfl, rfl⟩⟩
    · rintro ⟨-, hp⟩
      obtain ⟨f, w, hend⟩ := h.files.ends hp
      exact ⟨f, hend.ref, hend.type, hend.pipe⟩
  | boot => exact ⟨fun hp => ⟨trivial, h.boot hp⟩, fun ⟨_, hp⟩ => h.acc hp⟩

theorem ghost_inj {o o' : PageOwner} (ho : o.Proper s) (ho' : o'.Proper s) (e : o.ghost s = o'.ghost s) : o = o' := by
  have hdepth : ∀ {d d'}, 3 - d = 3 - d' → d ≤ 2 → d' ≤ 2 → d = d' := by omega
  cases o <;> cases o' <;> simp only [PageOwner.ghost, Owner.node.injEq, Owner.held.injEq, Tag.tf.injEq,
    reduceCtorEq] at e
  · rfl
  · obtain ⟨hr, hd, rfl⟩ := e
    obtain rfl := h.inj ho.1 ho'.1 hr
    rw [hdepth hd ho.2 ho'.2]
  · have := ho.2; omega
  · have := ho'.2; omega
  · obtain ⟨hr, -, rfl⟩ := e
    obtain rfl := h.inj ho ho' hr
    rfl
  · rw [e]
  · rfl
  · rfl

theorem exists_proper (hp : g.own p = some o) : ∃ w : PageOwner, w.Proper s ∧ w.ghost s = o := by
  have hacc := h.acc hp
  cases o with
  | free => exact ⟨.free, trivial, rfl⟩
  | node r l x =>
    obtain ⟨i, hi, rfl⟩ := hacc
    obtain ⟨L, X, hr, hl, -⟩ := h.pages.tables.root hp
    cases (h.mem hi).space.table.root.symm.trans hr
    cases l with
    | zero => exact ⟨.user i x, hi, rfl⟩
    | succ l =>
      refine ⟨.table i (2 - l) x, ⟨hi, by omega⟩, ?_⟩
      rw [PageOwner.ghost, show 3 - (2 - l) = l + 1 by omega]
  | held t =>
    cases t with
    | tf i => exact ⟨.trapframe i, trivial, rfl⟩
    | pipe => exact ⟨.pipe, trivial, rfl⟩
    | boot => exact ⟨.boot, trivial, rfl⟩
    | arg => exact hacc.elim
    | tmp => exact hacc.elim

theorem existsUnique_owner (hp : IsPage K p) : ∃! w, Owns s p w := by
  obtain ⟨o, ho⟩ := Option.ne_none_iff_exists'.mp ((h.pages.page p).mpr hp)
  obtain ⟨w, hw, rfl⟩ := h.exists_proper ho
  refine ⟨w, h.owns_iff.mpr ⟨hw, ho⟩, fun w' hw' => ?_⟩
  obtain ⟨hp', ho'⟩ := h.owns_iff.mp hw'
  exact h.ghost_inj hp' hw (Option.some.inj (ho'.symm.trans ho))

end

end Sys

/-! ### The address space of a process -/

theorem Sys.leafPte_isSome (h : Sys K s g c) (hi : (s.proc i).Used) :
    (leafPte s.kmem.mem (s.proc i).pagetable 2 v).isSome ↔
      v < npg (s.proc i).sz ∨ v = TRAPFRAME / PGSIZE ∨ v = TRAMPOLINE / PGSIZE := by
  have hsp := (h.mem hi).space
  have hext : g.ext (s.proc i).pagetable 0 v ≠ none ↔ v = TRAPFRAME / PGSIZE ∨ v = TRAMPOLINE / PGSIZE := by
    rw [hsp.ext]
    by_cases h1 : v = TRAMPOLINE / PGSIZE
    · rw [if_pos h1]; exact ⟨fun _ => .inr h1, fun _ => nofun⟩
    · rw [if_neg h1]
      by_cases h2 : v = TRAPFRAME / PGSIZE
      · rw [if_pos h2]; exact ⟨fun _ => .inl h2, fun _ => nofun⟩
      · rw [if_neg h2]; exact ⟨fun e => absurd rfl e, fun e => (e.elim h2 h1).elim⟩
  rw [← hsp.table.leaves v, ← hext]
  rcases leafPte_cases h.pages hsp.table.root with ⟨hl, hno, hx⟩ | ⟨c, e, hl, -, hc⟩ | ⟨c, e, hl, -, hx⟩
  · rw [hl]; exact ⟨nofun, fun e => e.elim (fun ⟨p, hp⟩ => absurd hp (hno p)) fun e => absurd hx e⟩
  · rw [hl]; exact ⟨fun _ => .inl ⟨c, hc⟩, fun _ => rfl⟩
  · rw [hl]; exact ⟨fun _ => .inr (by rw [hx]; nofun), fun _ => rfl⟩

theorem Sys.leafPte_user (h : Sys K s g c) (hi : (s.proc i).Used)
    (hl : leafPte s.kmem.mem (s.proc i).pagetable 2 v = some e)
    (hv : v = TRAPFRAME / PGSIZE ∨ v = TRAMPOLINE / PGSIZE) : e &&& PTE_U = 0 := by
  rcases leafPte_cases (v := v) h.pages (h.mem hi).space.table.root with ⟨hl', -⟩ | ⟨c, e', -, -, hc⟩ | ⟨c, e', hl', hu, -⟩
  · cases hl.symm.trans hl'
  · have := h.lt_of_node hi hc
    rw [TRAPFRAME_div, TRAMPOLINE_div] at *
    omega
  · cases hl.symm.trans hl'
    exact hu

theorem Sys.leafPte_shape (h : Sys K s g c) (hi : (s.proc i).Used) (hd : d ≤ 2) :
    (leafPte s.kmem.mem (s.proc i).pagetable d v).isSome ↔ d = 2 ∧
      (v * PGSIZE < PGROUNDUP (s.proc i).sz ∨ v = TRAPFRAME / PGSIZE ∨ v = TRAMPOLINE / PGSIZE) := by
  rcases Nat.lt_or_eq_of_le hd with hd | rfl
  · rw [leafPte_of_lt h.pages (h.mem hi).space.table.root hd]
    exact ⟨nofun, fun e => absurd e.1 (ne_of_lt hd)⟩
  · rw [PGROUNDUP_eq, Nat.mul_lt_mul_right (by decide), h.leafPte_isSome hi]
    exact ⟨fun e => ⟨rfl, e⟩, fun e => e.2⟩

/-! ### In every reachable state -/

/-- Boots a machine whose memory is zero, and looks at the state after `userinit`. -/
def bootThen (K : Layout) (f : Kern → Bool) : Bool :=
  match kinit K ⟨fun _ => 0, 0⟩ with
  | .error _ => false
  | .ok (_, k) =>
    match userinit K { zeroed (fun _ => 0) with kmem := k } with
    | .ok (true, s) => f s
    | _ => false

theorem exists_booted {f : Kern → Bool} (h : bootThen K f = true) : ∃ s, Reachable K s ∧ f s = true := by
  rw [bootThen] at h
  split at h
  · cases h
  rename_i k hk
  split at h
  · rename_i s hu
    exact ⟨s, Trans.Reach.of_init ⟨_, .kinit hk, hu⟩, h⟩
  · cases h

/-- Process `i` calls `fork`, and it and `j` can run. -/
def forks (K : Layout) (i j : Fin NPROC) (s : Kern) : Bool :=
  (call K i .fork s).toOption.any fun x =>
    decide ((s.proc i).state = .runnable ∧ (x.2.proc i).state = .runnable ∧ (x.2.proc j).state = .runnable)

theorem exists_reachable : ∃ s, Reachable smallLayout s ∧
    ∃ i j, i ≠ j ∧ (s.proc i).state = .runnable ∧ (s.proc j).state = .runnable := by
  obtain ⟨s, h, hs⟩ := exists_booted (K := smallLayout) (f := forks smallLayout ⟨0, by decide⟩ ⟨1, by decide⟩)
    (by decide +kernel)
  simp only [forks] at hs
  cases hc : call smallLayout ⟨0, by decide⟩ .fork s with
  | error e =>
    rw [hc] at hs
    cases hs
  | ok x =>
    rw [hc] at hs
    obtain ⟨hi, hi', hj⟩ := of_decide_eq_true hs
    exact ⟨x.2, h.tail (.call _ .fork hi hc), _, _, by decide, hi', hj⟩

/-- Each page of `[PGROUNDUP(end), PHYSTOP)` has exactly one owner, and the pages of the free list are different. -/
theorem page_owner_unique (h : Reachable K s) :
    (∃ L, Chain s.kmem.mem s.kmem.freelist L ∧ L.Nodup) ∧ (∀ p o, Owns s p o → IsPage K p) ∧
    ∀ p, p % PGSIZE = 0 → PGROUNDUP K.kend ≤ p → p < PHYSTOP → ∃! o, Owns s p o := by
  obtain ⟨g, hs⟩ := (Inv.reach h).sys
  obtain ⟨L, hL, hnd, -⟩ := hs.pages.free
  refine ⟨⟨L, hL, hnd⟩, fun p o ho => hs.pages.isPage (hs.owns_iff.mp ho).2, fun p hal hge hlt => ?_⟩
  exact hs.existsUnique_owner ⟨hal, le_trans le_PGROUNDUP hge, hlt⟩

theorem page_owner_unique_small : ∃ s, Reachable smallLayout s ∧ ∃! o, Owns s (PHYSTOP - PGSIZE) o :=
  let ⟨s, h, _⟩ := exists_reachable
  ⟨s, h, (page_owner_unique h).2.2 _ (by decide) (by decide) (by decide)⟩

/-- The valid leaves of a page table are the pages of `[0, PGROUNDUP(sz))`, the trapframe and the trampoline, and
no call panics, but for `init exiting`; while booting, `userinit` can only fail for lack of memory. -/
theorem address_space_shape (h : Reachable K s) :
    (∀ i, (s.proc i).pagetable ≠ 0 →
      (∀ d ≤ 2, ∀ v, (leafPte s.kmem.mem (s.proc i).pagetable d v).isSome ↔ d = 2 ∧
        (v * PGSIZE < PGROUNDUP (s.proc i).sz ∨ v = TRAPFRAME / PGSIZE ∨ v = TRAMPOLINE / PGSIZE)) ∧
      ∀ v e, leafPte s.kmem.mem (s.proc i).pagetable 2 v = some e →
        v = TRAPFRAME / PGSIZE ∨ v = TRAMPOLINE / PGSIZE → e &&& PTE_U = 0) ∧
    (∀ i c e, (s.proc i).state = .runnable → call K i c s = .error e → e = .initExiting) ∧
    ∀ s₀ e, Booting K s₀ → userinit K s₀ = .error e → e = .kerneltrap := by
  have hinv := Inv.reach h
  obtain ⟨g, hs⟩ := hinv.sys
  refine ⟨fun i hp => ?_, fun i c e hi he => ?_, fun s₀ e hb he => (wpe_userinit hb).of_error he⟩
  · have hi := hs.used_iff_pagetable.mp hp
    exact ⟨fun d hd v => hs.leafPte_shape hi hd, fun v e => hs.leafPte_user hi⟩
  · by_cases hc : ∃ status, c = .exit status ∧ s.initproc = some i
    · obtain ⟨status, rfl, hi'⟩ := hc
      cases (call_exit_init hi').symm.trans he
      rfl
    · obtain ⟨a, s', hr, -⟩ := wp_call hinv hi fun status hc' hi' => hc ⟨status, hc', hi'⟩
      cases hr.symm.trans he

theorem address_space_shape_small : ∃ s, Reachable smallLayout s ∧
    ∀ i, (s.proc i).pagetable ≠ 0 → (leafPte s.kmem.mem (s.proc i).pagetable 2 (TRAPFRAME / PGSIZE)).isSome :=
  let ⟨s, h, _⟩ := exists_reachable
  ⟨s, h, fun i hi => (((address_space_shape h).1 i hi).1 2 (by decide) _).mpr ⟨rfl, .inr (.inl rfl)⟩⟩

end Xv6
