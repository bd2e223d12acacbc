import Xv6.Proofs.UvmSpec

/-!
# A page table as a map

`pteOf m r v` is the entry for page number `v` that `walk` finds in the table with root `r`. `PageTree` says
that the pages `node l x` form a three-level table: each is pointed to once, by the entry above it. Nothing is
said about the leaves, so that an entry of level 0 may hold anything. `Pool` adds the free list `L`, whose
pages `walk` takes when it has to make a page-table page.
-/

namespace Xv6

open Prog

/-- Where `walk` finds the entry for `va` without allocating, from a page-table page of level `level`. -/
def findPte (m : Bytes) (va : Nat) : (level pagetable : Nat) → Option Nat
  | 0, pagetable => some (pagetable + 8 * PX 0 va)
  | level + 1, pagetable =>
    let v := m.load (pagetable + 8 * PX (level + 1) va) 8
    if v &&& PTE_V ≠ 0 then findPte m va level (PTE2PA v) else none

/-- The entry for page `v`; zero where there is no page-table page for it. -/
def pteOf (m : Bytes) (r v : Nat) : Nat := ((findPte m (v * PGSIZE) 2 r).map (m.load · 8)).getD 0

def child (e : Nat) : Option Nat := if e &&& PTE_V ≠ 0 then some (PTE2PA e) else none

/-- `node l x` is the page-table page of level `l` (3 for the root) for the addresses `va` with
`vpx l va = x`. -/
structure PageTree (m : Bytes) (r : Nat) (node : Nat → Nat → Option Nat) : Prop where
  root : node 3 0 = some r
  level : ∀ {l x p}, node l x = some p → 1 ≤ l ∧ l ≤ 3 ∧ (l = 3 → x = 0)
  aligned : ∀ {l x p}, node l x = some p → p % PGSIZE = 0
  ne_zero : ∀ {l x p}, node l x = some p → p ≠ 0
  parent : ∀ {l v p}, l ≤ 2 → node l v = some p → ∃ q, node (l + 1) (v / 512) = some q
  entry : ∀ {l v q}, node (l + 2) (v / 512) = some q → node (l + 1) v = child (m.load (q + 8 * (v % 512)) 8)
  inj : ∀ {l x l' x' p}, node l x = some p → node l' x' = some p → l = l' ∧ x = x'

variable {m m' : Bytes} {r p q c e i v va l x n : Nat} {node node' : Nat → Nat → Option Nat} {s s' : Kmem}
  {L L' : List Nat} {K : Layout} {Q : Nat → Kmem → Prop}

def leafOf (m : Bytes) (node : Nat → Nat → Option Nat) (v : Nat) : Nat :=
  ((node 1 (v / 512)).map fun q => m.load (q + 8 * (v % 512)) 8).getD 0

theorem leafOf_of_some (hq : node 1 (v / 512) = some q) : leafOf m node v = m.load (q + 8 * (v % 512)) 8 := by
  simp only [leafOf, hq, Option.map_some, Option.getD_some]

theorem leafOf_of_none (hq : node 1 (v / 512) = none) : leafOf m node v = 0 := by
  simp only [leafOf, hq, Option.map_none, Option.getD_none]

theorem leafOf_of_same (hm : ∀ x q, node 1 x = some q → SamePage m m' q) : leafOf m' node v = leafOf m node v := by
  cases hn : node 1 (v / 512) with
  | none => rw [leafOf_of_none hn, leafOf_of_none hn]
  | some q => rw [leafOf_of_some hn, leafOf_of_some hn, (hm _ q hn).load (Nat.mod_lt v (by decide))]

theorem load_store_entry {j w : Nat} (hq : q % PGSIZE = 0) (hp : p % PGSIZE = 0) (hi : i < 512) (hj : j < 512)
    (hne : p = q → j ≠ i) : (m.store (q + 8 * i) 8 w).load (p + 8 * j) 8 = m.load (p + 8 * j) 8 := by
  simp only [PGSIZE] at hq hp
  apply Bytes.load_store_of_disjoint
  by_cases hpq : p = q
  · subst hpq
    have := hne rfl
    omega
  · omega

theorem child_zero : child 0 = none := by decide

theorem child_mkPte (hc : c % PGSIZE = 0) : child (PA2PTE c ||| PTE_V) = some c := by
  have hand : mkPte c PTE_V &&& PTE_V = PTE_V &&& PTE_V := mkPte_valid (by decide)
  rw [← mkPte, child, if_pos (by rw [hand]; decide), PTE2PA_mkPte (by decide) hc]

def addNode (node : Nat → Nat → Option Nat) (l v c : Nat) : Nat → Nat → Option Nat :=
  fun l' x' => if l' = l ∧ x' = v then some c else node l' x'

theorem addNode_self : addNode node l v c l v = some c := if_pos ⟨rfl, rfl⟩

theorem addNode_of_some (hno : node l v = none) {l' x' : Nat} (hp : node l' x' = some p) :
    addNode node l v c l' x' = some p := by
  rw [addNode, if_neg, hp]
  rintro ⟨rfl, rfl⟩
  rw [hno] at hp
  cases hp

theorem of_addNode {l' x' : Nat} (hp : addNode node l v c l' x' = some p) :
    (l' = l ∧ x' = v ∧ p = c) ∨ node l' x' = some p := by
  by_cases hx : l' = l ∧ x' = v
  · rw [addNode, if_pos hx] at hp
    exact .inl ⟨hx.1, hx.2, (Option.some.inj hp).symm⟩
  · rw [addNode, if_neg hx] at hp
    exact .inr hp

namespace PageTree

variable (h : PageTree m r node)
include h

theorem entry_at (hq : node (l + 2) (vpx (l + 2) va) = some q) :
    node (l + 1) (vpx (l + 1) va) = child (m.load (q + 8 * PX (l + 1) va) 8) := by
  rw [PX_eq_vpx]
  exact h.entry (by rw [← vpx_succ]; exact hq)

theorem ancestor (hp : node 1 (vpx 1 va) = some p) {k : Nat} (hk : k ≤ 2) :
    ∃ q, node (k + 1) (vpx (k + 1) va) = some q := by
  induction k with
  | zero => exact ⟨p, hp⟩
  | succ k ih =>
    obtain ⟨q, hq⟩ := ih (by omega)
    rw [vpx_succ]
    exact h.parent (by omega) hq

theorem findPte_eq (hl : l ≤ 2) (hq : node (l + 1) (vpx (l + 1) va) = some q) :
    findPte m va l q = (node 1 (vpx 1 va)).map (· + 8 * PX 0 va) := by
  induction l generalizing q with
  | zero => rw [hq]; rfl
  | succ l ih =>
    have hent := h.entry_at hq
    simp only [findPte]
    by_cases hv : m.load (q + 8 * PX (l + 1) va) 8 &&& PTE_V ≠ 0
    · rw [child, if_pos hv] at hent
      rw [if_pos hv]
      exact ih (by omega) hent
    · rw [child, if_neg hv] at hent
      rw [if_neg hv]
      cases hn : node 1 (vpx 1 va) with
      | none => rfl
      | some p =>
        obtain ⟨c, hc⟩ := h.ancestor hn (show l ≤ 2 by omega)
        rw [hent] at hc
        cases hc

theorem findPte_root (hva : va < MAXVA) : findPte m va 2 r = (node 1 (vpx 1 va)).map (· + 8 * PX 0 va) :=
  h.findPte_eq (le_rfl) (by rw [vpx_three hva]; exact h.root)

theorem findPte_page (hv : v < 2 ^ 26) : findPte m (v * PGSIZE) 2 r = (node 1 (v / 512)).map (· + 8 * (v % 512)) := by
  rw [h.findPte_root (page_lt_MAXVA hv), vpx_succ, PX_eq_vpx, vpx_zero]

theorem pteOf_eq (hv : v < 2 ^ 26) : pteOf m r v = leafOf m node v := by
  rw [pteOf, h.findPte_page hv]
  cases hq : node 1 (v / 512) with
  | none => rw [leafOf_of_none hq]; rfl
  | some q => rw [leafOf_of_some hq]; rfl

theorem of_same (hm : ∀ l x q, node (l + 2) x = some q → SamePage m m' q) : PageTree m' r node := by
  refine ⟨h.root, h.level, h.aligned, h.ne_zero, h.parent, fun {l v q} hq => ?_, h.inj⟩
  rw [(hm l _ q hq).load (Nat.mod_lt v (by decide))]
  exact h.entry hq

theorem link (hq : node (l + 2) (v / 512) = some q) (hno : node (l + 1) v = none) (hc : c % PGSIZE = 0)
    (h0 : c ≠ 0) (hlt : c < 2 ^ 56) (hnew : ∀ l x, node l x ≠ some c) (hz : ∀ j < 512, m.load (c + 8 * j) 8 = 0) :
    PageTree (m.store (q + 8 * (v % 512)) 8 (PA2PTE c ||| PTE_V)) r (addNode node (l + 1) v c) := by
  have hl := (h.level hq).2.1
  have hqa := h.aligned hq
  refine ⟨addNode_of_some hno h.root, fun {l' x' p} hp => ?_, fun {l' x' p} hp => ?_, fun {l' x' p} hp => ?_,
    fun {l' v' p} hl' hp => ?_, fun {l' v' q'} hq' => ?_, fun {l₁ x₁ l₂ x₂ p} h₁ h2 => ?_⟩
  · rcases of_addNode hp with ⟨rfl, rfl, rfl⟩ | hp
    · omega
    · exact h.level hp
  · rcases of_addNode hp with ⟨rfl, rfl, rfl⟩ | hp
    · exact hc
    · exact h.aligned hp
  · rcases of_addNode hp with ⟨rfl, rfl, rfl⟩ | hp
    · exact h0
    · exact h.ne_zero hp
  · rcases of_addNode hp with ⟨rfl, rfl, rfl⟩ | hp
    · exact ⟨q, addNode_of_some hno hq⟩
    · obtain ⟨q', hq'⟩ := h.parent hl' hp
      exact ⟨q', addNode_of_some hno hq'⟩
  · have hm' := Nat.mod_lt v' (show 512 > 0 by decide)
    rcases of_addNode hq' with ⟨hl', hv', rfl⟩ | hold
    · -- the new page has no children
      have hne : q' ≠ q := fun he => hnew _ _ (he ▸ hq)
      rw [load_store_entry hqa hc (Nat.mod_lt v (by decide)) hm' fun he => absurd he hne, hz _ hm', child_zero,
        addNode, if_neg (by omega)]
      cases hn : node (l' + 1) v' with
      | none => rfl
      | some p =>
        obtain ⟨q'', hq''⟩ := h.parent (by omega) hn
        rw [hv', show l' + 1 + 1 = l + 1 by omega, hno] at hq''
        cases hq''
    · by_cases hself : l' = l ∧ v' = v
      · obtain ⟨rfl, rfl⟩ := hself
        cases hq.symm.trans hold
        have hw : PA2PTE c ||| PTE_V < 256 ^ 8 := mkPte_lt (f := PTE_V) (by decide) hlt
        rw [Bytes.load_store_of_lt hw, child_mkPte hc, addNode_self]
      · rw [load_store_entry hqa (h.aligned hold) (Nat.mod_lt v (by decide)) hm' ?_, addNode, if_neg (by omega)]
        · exact h.entry hold
        · rintro rfl
          have := h.inj hq hold
          omega
  · rcases of_addNode h₁ with ⟨rfl, rfl, rfl⟩ | hold1 <;> rcases of_addNode h2 with ⟨rfl, rfl, hp⟩ | hold2
    · exact ⟨rfl, rfl⟩
    · exact absurd hold2 (hnew _ _)
    · exact absurd (hp ▸ hold1) (hnew _ _)
    · exact h.inj hold1 hold2

theorem leafOf_link (hq : node (l + 2) (v / 512) = some q) (hno : node (l + 1) v = none) (hc : c % PGSIZE = 0)
    (hnew : ∀ l x, node l x ≠ some c) (hz : ∀ j < 512, m.load (c + 8 * j) 8 = 0) {w : Nat} (v' : Nat) :
    leafOf (m.store (q + 8 * (v % 512)) 8 w) (addNode node (l + 1) v c) v' = leafOf m node v' := by
  have hm' := Nat.mod_lt v' (show 512 > 0 by decide)
  have hload : ∀ {p}, p % PGSIZE = 0 → p ≠ q → (m.store (q + 8 * (v % 512)) 8 w).load (p + 8 * (v' % 512)) 8 =
      m.load (p + 8 * (v' % 512)) 8 := fun hp hne =>
    load_store_entry (h.aligned hq) hp (Nat.mod_lt v (by decide)) hm' fun he => absurd he hne
  by_cases hx : 1 = l + 1 ∧ v' / 512 = v
  · have hne : c ≠ q := fun he => hnew _ _ (he ▸ hq)
    rw [leafOf_of_some (q := c) (by rw [addNode, if_pos hx]), hload hc hne, hz _ hm', leafOf_of_none]
    rw [hx.1, hx.2, hno]
  · cases hn : node 1 (v' / 512) with
    | none => rw [leafOf_of_none hn, leafOf_of_none (by rw [addNode, if_neg hx, hn])]
    | some p =>
      have hne : p ≠ q := by
        rintro rfl
        have := h.inj hq hn
        omega
      rw [leafOf_of_some hn, leafOf_of_some (q := p) (by rw [addNode, if_neg hx, hn]), hload (h.aligned hn) hne]

theorem setLeaf (hq : node 1 (v / 512) = some q) {w : Nat} : PageTree (m.store (q + 8 * (v % 512)) 8 w) r node := by
  refine h.of_same fun l x q' hq' => outside_entry.samePage (h.aligned hq) (h.aligned hq') ?_
  rintro rfl
  have := h.inj hq hq'
  omega

theorem leafOf_setLeaf (hq : node 1 (v / 512) = some q) {w v' : Nat} (hw : w < 256 ^ 8) :
    leafOf (m.store (q + 8 * (v % 512)) 8 w) node v' = if v' = v then w else leafOf m node v' := by
  by_cases hv : v' = v
  · rw [if_pos hv, hv, leafOf_of_some hq, Bytes.load_store_of_lt hw]
  · rw [if_neg hv]
    cases hn : node 1 (v' / 512) with
    | none => rw [leafOf_of_none hn, leafOf_of_none hn]
    | some p =>
      rw [leafOf_of_some hn, leafOf_of_some hn,
        load_store_entry (h.aligned hq) (h.aligned hn) (Nat.mod_lt v (by decide)) (Nat.mod_lt v' (by decide))]
      rintro rfl
      have := h.inj hq hn
      omega

end PageTree

/-! ### The free list beside the table -/

/-- The table with pages `node`, and the free list `L`. -/
structure Pool (r : Nat) (node : Nat → Nat → Option Nat) (L : List Nat) (s : Kmem) : Prop where
  tree : PageTree s.mem r node
  chain : Chain s.mem s.freelist L
  nodup : L.Nodup
  aligned : ∀ {p}, p ∈ L → p % PGSIZE = 0
  lt : ∀ {p}, p ∈ L → p < 2 ^ 56
  apart : ∀ {p}, p ∈ L → ∀ l x, node l x ≠ some p

/-- What making page-table pages does: some free pages have gone into the table, and memory has changed in
these and in the pages of the table only. -/
structure Grown (node : Nat → Nat → Option Nat) (L : List Nat) (s : Kmem) (node' : Nat → Nat → Option Nat)
    (L' : List Nat) (s' : Kmem) : Prop where
  keep : ∀ {l x p}, node l x = some p → node' l x = some p
  fresh : ∀ {l x p}, node' l x = some p → node l x = some p ∨ p ∈ L ∧ p ∉ L'
  sub : ∀ {p}, p ∈ L' → p ∈ L
  gone : ∀ {p}, p ∈ L → p ∈ L' ∨ ∃ l x, node' l x = some p
  same : ∀ {q}, q % PGSIZE = 0 → (∀ l x, node l x ≠ some q) → (q ∈ L → q ∈ L') → SamePage s.mem s'.mem q

namespace Grown

theorem refl : Grown node L s node L s :=
  ⟨id, .inl, id, .inl, fun _ _ _ _ _ _ => rfl⟩

theorem trans {node'' : Nat → Nat → Option Nat} {L'' : List Nat} {s'' : Kmem} (h : Grown node L s node' L' s')
    (h' : Grown node' L' s' node'' L'' s'') : Grown node L s node'' L'' s'' := by
  refine ⟨fun hp => h'.keep (h.keep hp), fun {l x p} hp => ?_, fun hp => h.sub (h'.sub hp), fun {p} hp => ?_,
    fun {q} hq hn hL => ?_⟩
  · rcases h'.fresh hp with hp | ⟨hp, hp'⟩
    · exact (h.fresh hp).imp_right fun hx => ⟨hx.1, fun hL => hx.2 (h'.sub hL)⟩
    · exact .inr ⟨h.sub hp, hp'⟩
  · rcases h.gone hp with hp | ⟨l, x, hp⟩
    · exact h'.gone hp
    · exact .inr ⟨l, x, h'.keep hp⟩
  · refine (h.same hq hn fun hq => h'.sub (hL hq)).trans (h'.same hq (fun l x hx => ?_) fun hq => hL (h.sub hq))
    rcases h.fresh hx with hx | ⟨hx, hx'⟩
    · exact hn l x hx
    · exact hx' (h'.sub (hL hx))

end Grown

namespace Pool

variable (h : Pool r node L s)
include h

theorem freelist_lt : s.freelist < 256 ^ 8 := by
  cases L with
  | nil => rw [show s.freelist = 0 from h.chain]; decide
  | cons p L =>
    rw [h.chain.1]
    exact lt_trans (h.lt List.mem_cons_self) (by decide)

theorem of_same (ht : PageTree m' r node) (hL : ∀ p ∈ L, SamePage s.mem m' p) :
    Pool r node L { s with mem := m' } :=
  ⟨ht, h.chain.congr hL, h.nodup, h.aligned, h.lt, h.apart⟩

theorem write (hm : Outside s.mem m' c) (hc : c % PGSIZE = 0) (hn : ∀ l x, node l x ≠ some c) (hL : c ∉ L) :
    Pool r node L { s with mem := m' } := by
  refine h.of_same (h.tree.of_same fun l x q hq => hm.samePage hc (h.tree.aligned hq) ?_) fun p hp =>
    hm.samePage hc (h.aligned hp) ?_
  · rintro rfl
    exact hn _ _ hq
  · rintro rfl
    exact hL hp

omit h in
theorem alloc (h : Pool r node (p :: L) s) (hm : Outside s.mem m' p) : Pool r node L ⟨m', s.mem.load p 8⟩ := by
  have hp : p % PGSIZE = 0 := h.aligned List.mem_cons_self
  have hL : ∀ q ∈ L, SamePage s.mem m' q := fun q hq =>
    hm.samePage hp (h.aligned (.tail _ hq)) fun he => (List.nodup_cons.mp h.nodup).1 (he ▸ hq)
  refine ⟨h.tree.of_same fun l x q hq => hm.samePage hp (h.tree.aligned hq) fun he => ?_,
    h.chain.2.2.congr hL, (List.nodup_cons.mp h.nodup).2, fun hq => h.aligned (.tail _ hq),
    fun hq => h.lt (.tail _ hq), fun hq => h.apart (.tail _ hq)⟩
  exact h.apart List.mem_cons_self _ _ (he ▸ hq)

theorem free (hp : p % PGSIZE = 0) (h0 : p ≠ 0) (hlt : p < 2 ^ 56) (hn : ∀ l x, node l x ≠ some p)
    (hL : p ∉ L) : Pool r node (p :: L) (s.freed p) := by
  have h' := h.write Kmem.outside_freed hp hn hL
  have hnext : (s.freed p).mem.load p 8 = s.freelist := Bytes.load_store_of_lt h.freelist_lt
  refine ⟨h'.tree, ⟨rfl, h0, hnext ▸ h'.chain⟩, List.nodup_cons.mpr ⟨hL, h.nodup⟩, ?_, ?_, ?_⟩
  all_goals
    intro q hq
    rcases List.mem_cons.mp hq with rfl | hq
  · exact hp
  · exact h.aligned hq
  · exact hlt
  · exact h.lt hq
  · exact hn
  · exact h.apart hq

end Pool

theorem wp_kalloc_pool (h : Pool r node L s) (h0 : L = [] → Q 0 s)
    (h1 : ∀ p L', L = p :: L' → Q p ⟨s.mem.fill p PGSIZE 5, s.mem.load p 8⟩) : wp kalloc Q s := by
  simp only [kalloc, wp_bind, wp_get]
  cases L with
  | nil =>
    have hf : s.freelist = 0 := h.chain
    rw [if_neg (not_not.mpr hf), wp_pure, hf]
    exact h0 rfl
  | cons p L =>
    obtain ⟨hf, hp, -⟩ := h.chain
    rw [hf, if_pos hp]
    simp only [wp_bind, load64, wp_get, wp_pure, wp_modify, memset]
    exact h1 p L rfl

/-! ### `walk` -/

theorem wp_walkLoop_find : wp (walkLoop va false l q) Q s ↔ Q ((findPte s.mem va l q).getD 0) s := by
  induction l generalizing q with
  | zero => rw [walkLoop, wp_pure]; rfl
  | succ l ih =>
    simp only [walkLoop, load64, wp_bind, wp_get, wp_pure, findPte]
    split
    · exact ih
    · simp only [Bool.not_false, if_true, wp_pure, Option.getD_none]

theorem wp_walkLoop_found {alloc : Bool} {a : Nat} (hf : findPte s.mem va l q = some a) :
    wp (walkLoop va alloc l q) Q s ↔ Q a s := by
  induction l generalizing q with
  | zero =>
    cases hf
    rw [walkLoop, wp_pure]
  | succ l ih =>
    simp only [findPte] at hf
    simp only [walkLoop, load64, wp_bind, wp_get, wp_pure]
    split at hf
    · rename_i hv
      rw [if_pos hv]
      exact ih hf
    · cases hf

theorem wp_walk_find (hva : va < MAXVA) : wp (walk r va false) Q s ↔ Q ((findPte s.mem va 2 r).getD 0) s := by
  simp only [walk, if_neg (not_le.mpr hva)]
  exact wp_walkLoop_find

theorem PageTree.findPte_addr (h : PageTree m r node) (hva : va < MAXVA) :
    findPte m va 2 r = (node 1 (va / PGSIZE / 512)).map (· + 8 * (va / PGSIZE % 512)) := by
  rw [h.findPte_root hva, vpx_succ, PX_eq_vpx]
  rfl

theorem PageTree.load_findPte (h : PageTree m r node) (hva : va < MAXVA) :
    (if (findPte m va 2 r).getD 0 = 0 then 0 else m.load ((findPte m va 2 r).getD 0) 8) =
      pteOf m r (va / PGSIZE) := by
  have hv : va / PGSIZE < 2 ^ 26 := Nat.div_lt_of_lt_mul hva
  rw [h.pteOf_eq hv, h.findPte_addr hva]
  cases hq : node 1 (va / PGSIZE / 512) with
  | none => rw [leafOf_of_none hq]; rfl
  | some q =>
    rw [leafOf_of_some hq, Option.map_some, Option.getD_some, if_neg]
    have := h.ne_zero hq
    omega

def walkaddrOf (m : Bytes) (r va : Nat) : Nat :=
  if va ≥ MAXVA then 0 else
  let pte := (findPte m va 2 r).getD 0
  if pte = 0 then 0 else
  if m.load pte 8 &&& PTE_V = 0 then 0 else
  if m.load pte 8 &&& PTE_U = 0 then 0 else PTE2PA (m.load pte 8)

theorem wp_walkaddr_find : wp (walkaddr r va) Q s ↔ Q (walkaddrOf s.mem r va) s := by
  by_cases hva : va ≥ MAXVA
  · simp only [walkaddr, walkaddrOf, if_pos hva, wp_pure]
  · simp only [walkaddr, walkaddrOf, if_neg hva, wp_bind, wp_walk_find (not_le.mp hva)]
    split
    · rw [wp_pure]
    · simp only [load64, wp_bind, wp_get, wp_pure]
      split
      · rw [wp_pure]
      · split <;> rw [wp_pure]

theorem PageTree.walkaddrOf_eq (h : PageTree m r node) : walkaddrOf m r va =
    if va < MAXVA ∧ pteOf m r (va / PGSIZE) &&& PTE_V ≠ 0 ∧ pteOf m r (va / PGSIZE) &&& PTE_U ≠ 0 then
      PTE2PA (pteOf m r (va / PGSIZE)) else 0 := by
  by_cases hva : va ≥ MAXVA
  · rw [walkaddrOf, if_pos hva, if_neg (by omega)]
  · have hfind := h.load_findPte (not_le.mp hva)
    simp only [walkaddrOf, if_neg hva, ← hfind]
    by_cases hpte : (findPte m va 2 r).getD 0 = 0
    · rw [if_pos hpte, if_pos hpte, if_neg (by simp)]
    · simp only [if_neg hpte]
      by_cases hv : m.load ((findPte m va 2 r).getD 0) 8 &&& PTE_V = 0
      · rw [if_pos hv, if_neg (by simp [hv])]
      · by_cases hu : m.load ((findPte m va 2 r).getD 0) 8 &&& PTE_U = 0
        · rw [if_neg hv, if_pos hu, if_neg (by simp [hu])]
        · rw [if_neg hv, if_neg hu, if_pos ⟨not_le.mp hva, hv, hu⟩]

theorem Pool.link (h : Pool r node (c :: L) s) (hq : node (l + 2) (v / 512) = some q) (hno : node (l + 1) v = none) :
    ∃ node', Pool r node' L ⟨((s.mem.fill c PGSIZE 5).fill c PGSIZE 0).store (q + 8 * (v % 512)) 8 (PA2PTE c ||| PTE_V),
        s.mem.load c 8⟩ ∧
      Grown node (c :: L) s node' L ⟨((s.mem.fill c PGSIZE 5).fill c PGSIZE 0).store (q + 8 * (v % 512)) 8
        (PA2PTE c ||| PTE_V), s.mem.load c 8⟩ ∧
      (∀ v', leafOf (((s.mem.fill c PGSIZE 5).fill c PGSIZE 0).store (q + 8 * (v % 512)) 8 (PA2PTE c ||| PTE_V))
        node' v' = leafOf s.mem node v') ∧ node' (l + 1) v = some c := by
  have hc : c % PGSIZE = 0 := h.aligned List.mem_cons_self
  have hnew : ∀ l x, node l x ≠ some c := h.apart List.mem_cons_self
  have hcL : c ∉ L := (List.nodup_cons.mp h.nodup).1
  have hfill : Outside s.mem ((s.mem.fill c PGSIZE 5).fill c PGSIZE 0) c := outside_fill.trans outside_fill
  have hz : ∀ j < 512, ((s.mem.fill c PGSIZE 5).fill c PGSIZE 0).load (c + 8 * j) 8 = 0 := fun j hj =>
    load_fill_zero hj
  have halloc := h.alloc hfill
  have hsame : ∀ {p}, p % PGSIZE = 0 → p ≠ c → SamePage s.mem ((s.mem.fill c PGSIZE 5).fill c PGSIZE 0) p :=
    fun hp hne => hfill.samePage hc hp hne
  have hleaf : ∀ v', leafOf ((s.mem.fill c PGSIZE 5).fill c PGSIZE 0) node v' = leafOf s.mem node v' := fun v' =>
    leafOf_of_same fun x q hq => hsame (h.tree.aligned hq) fun he => hnew _ _ (he ▸ hq)
  generalize (s.mem.fill c PGSIZE 5).fill c PGSIZE 0 = m at *
  have hqa := h.tree.aligned hq
  have hentry : ∀ {p}, p % PGSIZE = 0 → p ≠ q →
      SamePage m (m.store (q + 8 * (v % 512)) 8 (PA2PTE c ||| PTE_V)) p := fun hp hne =>
    outside_entry.samePage hqa hp hne
  refine ⟨addNode node (l + 1) v c, ?_, ⟨addNode_of_some hno, ?_, .tail _, ?_, ?_⟩, ?_, addNode_self⟩
  · have ht := halloc.tree.link hq hno hc h.chain.2.1 (h.lt List.mem_cons_self) hnew hz
    refine ⟨ht, halloc.chain.congr fun p hp => hentry (halloc.aligned hp) ?_, halloc.nodup, halloc.aligned,
      halloc.lt, fun {p} hp l' x' hx => ?_⟩
    · rintro rfl
      exact halloc.apart hp _ _ hq
    · rcases of_addNode hx with ⟨-, -, rfl⟩ | hx
      · exact hcL hp
      · exact halloc.apart hp _ _ hx
  · intro l' x' p hp
    rcases of_addNode hp with ⟨-, -, rfl⟩ | hp
    · exact .inr ⟨List.mem_cons_self, hcL⟩
    · exact .inl hp
  · intro p hp
    rcases List.mem_cons.mp hp with rfl | hp
    · exact .inr ⟨_, _, addNode_self⟩
    · exact .inl hp
  · intro p hp hn hL
    have hpc : p ≠ c := by
      rintro rfl
      exact hcL (hL List.mem_cons_self)
    have hpq : p ≠ q := by
      rintro rfl
      exact hn _ _ hq
    exact (hsame hp hpc).trans (hentry hp hpq)
  · intro v'
    rw [halloc.tree.leafOf_link hq hno hc hnew hz, hleaf]

/-- What `walk` with allocation may do, with `n` new page-table pages at most. -/
def Walked (n r va : Nat) (node : Nat → Nat → Option Nat) (L : List Nat) (s : Kmem) (pte : Nat) (s' : Kmem) : Prop :=
  ∃ node' L', Pool r node' L' s' ∧ Grown node L s node' L' s' ∧ L.length ≤ L'.length + n ∧
    (∀ v, leafOf s'.mem node' v = leafOf s.mem node v) ∧
    ((pte = 0 ∧ L' = [] ∧ L.length < n) ∨ ∃ q, node' 1 (vpx 1 va) = some q ∧ pte = q + 8 * PX 0 va)

theorem wp_walkLoop_grow (h : Pool r node L s) (hl : l ≤ 2)
    (hq : node (l + 1) (vpx (l + 1) va) = some q) (hQ : ∀ pte s', Walked l r va node L s pte s' → Q pte s') :
    wp (walkLoop va true l q) Q s := by
  induction l generalizing q node L s with
  | zero =>
    rw [walkLoop, wp_pure]
    exact hQ _ _ ⟨node, L, h, .refl, Nat.le_add_right .., fun _ => rfl, .inr ⟨q, hq, rfl⟩⟩
  | succ l ih =>
    have hent := h.tree.entry_at hq
    simp only [walkLoop, load64, wp_bind, wp_get, wp_pure]
    by_cases hv : s.mem.load (q + 8 * PX (l + 1) va) 8 &&& PTE_V ≠ 0
    · rw [child, if_pos hv] at hent
      rw [if_pos hv]
      refine ih h (by omega) hent fun pte s' hw => hQ pte s' ?_
      obtain ⟨node', L', hpool, hgrown, hle, hleaf, hres⟩ := hw
      exact ⟨node', L', hpool, hgrown, by omega, hleaf, hres.imp_left fun h => ⟨h.1, h.2.1, by omega⟩⟩
    · rw [child, if_neg hv] at hent
      rw [if_neg hv]
      simp only [Bool.not_true, Bool.false_eq_true, if_false, wp_bind]
      refine wp_kalloc_pool h (fun hL => ?_) fun c L' hL => ?_
      · rw [if_pos rfl, wp_pure]
        exact hQ _ _ ⟨node, L, h, .refl, Nat.le_add_right .., fun _ => rfl, .inl ⟨rfl, hL, hL ▸ Nat.succ_pos l⟩⟩
      · subst hL
        rw [if_neg h.chain.2.1]
        simp only [memset, store64, wp_bind, wp_modify, PX_eq_vpx]
        rw [vpx_succ] at hq
        obtain ⟨node', hpool, hgrown, hleaf, hc⟩ := h.link hq hent
        refine ih hpool (by omega) hc fun pte s' hw => hQ pte s' ?_
        obtain ⟨node'', L'', hpool', hgrown', hle, hleaf', hres⟩ := hw
        exact ⟨node'', L'', hpool', hgrown.trans hgrown', Nat.succ_le_succ hle, fun v => (hleaf' v).trans (hleaf v),
          hres.imp_left fun h => ⟨h.1, h.2.1, Nat.succ_lt_succ h.2.2⟩⟩

theorem wp_walk_grow (h : Pool r node L s) (hva : va < MAXVA)
    (hQ : ∀ pte s', Walked 2 r va node L s pte s' → Q pte s') : wp (walk r va true) Q s := by
  simp only [walk, if_neg (not_le.mpr hva)]
  exact wp_walkLoop_grow h (le_rfl) (by rw [vpx_three hva]; exact h.tree.root) hQ

theorem Pool.setLeaf {w : Nat} (h : Pool r node L s) (hq : node 1 (v / 512) = some q) (hw : w < 256 ^ 8) :
    Pool r node L { s with mem := s.mem.store (q + 8 * (v % 512)) 8 w } ∧
      Grown node L s node L { s with mem := s.mem.store (q + 8 * (v % 512)) 8 w } ∧
      ∀ v', leafOf (s.mem.store (q + 8 * (v % 512)) 8 w) node v' = if v' = v then w else leafOf s.mem node v' := by
  have hqa := h.tree.aligned hq
  refine ⟨h.of_same (h.tree.setLeaf hq) fun p hp => outside_entry.samePage hqa (h.aligned hp) ?_,
    ⟨id, .inl, id, .inl, fun {p} hp hn _ => outside_entry.samePage hqa hp ?_⟩,
    fun v' => h.tree.leafOf_setLeaf hq hw⟩
  · rintro rfl
    exact h.apart hp _ _ hq
  · rintro rfl
    exact hn _ _ hq

end Xv6
