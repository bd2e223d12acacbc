import Xv6.Vm

/-!
# Who owns a page

Every page of the allocator has one owner (`Ghost.own`): the free list, a page table, or somebody who
holds it. `PInv` says that memory agrees with that: the free list runs through the free pages, and an entry
of a page-table page is zero or points to the page that belongs there. The lemmas below are the updates that
the functions of `kalloc.c` and `vm.c` are made of.
-/

namespace Xv6

/-- Who a page belongs to. In the page table with root `r` the page-table pages have level 3 (the root), 2
and 1, and the user pages level 0. Page `x` of level `l` stands for the addresses `va` with
`va / 2 ^ (12 + 9 * l) = x`. -/
inductive Owner (τ : Type)
  | free
  | node (r l x : Nat)
  | held (t : τ)
deriving DecidableEq

/-- `ext r l v` are pages that are mapped and belong to somebody else. `pin` are pages that somebody holds
with a content that is to stay. `usr r v` says that the user page `v`, if there is one, is to be
accessible to the user. -/
structure Ghost (τ : Type) where
  own : Nat → Option (Owner τ)
  ext : Nat → Nat → Nat → Option Nat
  pin : Nat → Option Bytes
  usr : Nat → Nat → Prop

/-- The flag bits of an entry that points to a page of level `l`. -/
def EntryFlags : Nat → Nat → Prop
  | 0, f => LeafFlags f
  | _ + 1, f => f = PTE_V

variable {τ : Type} {g g' : Ghost τ} {m m' : Bytes} {p q c r l x v e f i j : Nat} {o : Owner τ} {t : τ}

/-- What an entry for page `v` of level `l` may be. -/
inductive Entry (g : Ghost τ) (r l v : Nat) : Nat → Prop
  | zero (no : ∀ p, g.own p ≠ some (.node r l v)) (ext : g.ext r l v = none) : Entry g r l v 0
  | page {c f : Nat} (flags : EntryFlags l f) (own : ∀ p, g.own p = some (.node r l v) ↔ p = c)
      (ext : g.ext r l v = none) (user : l = 0 → g.usr r v → f &&& PTE_U ≠ 0) : Entry g r l v (mkPte c f)
  | ext {c f : Nat} (flags : LeafFlags f) (user : f &&& PTE_U = 0) (ext : g.ext r l v = some c)
      (no : ∀ p, g.own p ≠ some (.node r l v)) : Entry g r l v (mkPte c f)

/-- The page tables are trees, and memory agrees with them. -/
structure Tables (m : Bytes) (g : Ghost τ) : Prop where
  entry : ∀ {q r l x}, g.own q = some (.node r (l + 1) x) → ∀ i < 512,
    Entry g r l (x * 512 + i) (m.load (q + 8 * i) 8)
  parent : ∀ {p r l v}, g.own p = some (.node r l v) →
    p = r ∨ ∃ q, g.own q = some (.node r (l + 1) (v / 512))
  root : ∀ {q r l x}, g.own q = some (.node r l x) →
    ∃ L X, g.own r = some (.node r L X) ∧ l ≤ L ∧ (l = L → q = r)
  ext : ∀ {r l v}, g.ext r l v ≠ none → l = 0 ∧ ∃ q, g.own q = some (.node r 1 (v / 512))
  aligned : ∀ {p}, g.own p ≠ none → p % PGSIZE = 0

def SamePage (m m' : Bytes) (q : Nat) : Prop := ∀ a, q ≤ a → a < q + PGSIZE → m' a = m a

theorem SamePage.load (h : SamePage m m' q) (hi : i < 512) : m'.load (q + 8 * i) 8 = m.load (q + 8 * i) 8 :=
  Bytes.load_congr fun a h1 h2 => h a (by omega) (by simp only [PGSIZE]; omega)

theorem SamePage.trans {m'' : Bytes} (h : SamePage m m' q) (h' : SamePage m' m'' q) : SamePage m m'' q :=
  fun a h1 h2 => (h' a h1 h2).trans (h a h1 h2)

def Outside (m m' : Bytes) (c : Nat) : Prop := ∀ a, ¬ (c ≤ a ∧ a < c + PGSIZE) → m' a = m a

theorem Outside.samePage (h : Outside m m' c) (hc : c % PGSIZE = 0) (hq : q % PGSIZE = 0) (hne : q ≠ c) :
    SamePage m m' q := fun a h1 h2 => h a (by simp only [PGSIZE] at *; omega)

theorem Outside.trans {m'' : Bytes} (h : Outside m m' c) (h' : Outside m' m'' c) : Outside m m'' c :=
  fun a ha => (h' a ha).trans (h a ha)

theorem outside_fill {k : UInt8} : Outside m (m.fill c PGSIZE k) c := fun _ => Bytes.fill_of_not_mem

theorem outside_store {a n w : Nat} (ha : c ≤ a) (hn : a + n ≤ c + PGSIZE) : Outside m (m.store a n w) c :=
  fun _ h => Bytes.store_of_not_mem (by omega)

theorem outside_copy {src : Bytes} {a b n : Nat} (ha : c ≤ a) (hn : a + n ≤ c + PGSIZE) :
    Outside m (m.copy a src b n) c := fun _ h => Bytes.copy_of_not_mem (by omega)

theorem EntryFlags.lt (h : EntryFlags l f) : f < 1024 := by
  cases l with
  | zero => exact h.lt
  | succ l => rw [h]; decide

theorem EntryFlags.valid (h : EntryFlags l f) : f &&& PTE_V ≠ 0 := by
  cases l with
  | zero => exact h.valid
  | succ l => rw [h]; decide

theorem mkPte_valid (hf : f < 1024) : mkPte c f &&& PTE_V = f &&& PTE_V := mkPte_and hf (by decide)

theorem mkPte_ne_zero (hf : f < 1024) (hv : f &&& PTE_V ≠ 0) : mkPte c f ≠ 0 := fun h =>
  hv (by rw [← mkPte_valid (c := c) hf, h]; rfl)

namespace Ghost

theorem eq_of (hown : g'.own = g.own) (hext : g'.ext = g.ext) (hpin : g'.pin = g.pin) (husr : g'.usr = g.usr) :
    g' = g := by
  cases g; cases g'
  simp only at hown hext hpin husr
  rw [hown, hext, hpin, husr]

def set (g : Ghost τ) (c : Nat) (o : Owner τ) : Ghost τ := { g with own := Function.update g.own c (some o) }

def setExt (g : Ghost τ) (r v : Nat) (w : Option Nat) : Ghost τ :=
  { g with ext := fun r' l' v' => if r' = r ∧ l' = 0 ∧ v' = v then w else g.ext r' l' v' }

@[simp] theorem set_own_self : (g.set c o).own c = some o := Function.update_self ..

theorem set_own_of_ne (h : p ≠ c) : (g.set c o).own p = g.own p := Function.update_of_ne h ..

theorem set_own_iff {o' : Owner τ} (h : g.own c ≠ some o') (ho : o ≠ o') :
    (g.set c o).own p = some o' ↔ g.own p = some o' := by
  by_cases hp : p = c
  · subst hp
    rw [set_own_self]
    exact ⟨fun e => absurd (Option.some.inj e) ho, fun e => absurd e h⟩
  · rw [set_own_of_ne hp]

end Ghost

open Ghost

namespace Entry

theorem congr (h : Entry g r l v e) (ho : ∀ p, g'.own p = some (.node r l v) ↔ g.own p = some (.node r l v))
    (he : g'.ext r l v = g.ext r l v) (hu : g'.usr r v → g.usr r v) : Entry g' r l v e := by
  cases h with
  | zero no ext => exact .zero (fun p hp => no p ((ho p).mp hp)) (he.trans ext)
  | page flags own ext user =>
    exact .page flags (fun p => (ho p).trans (own p)) (he.trans ext) fun hl h => user hl (hu h)
  | ext flags user ext no => exact .ext flags user (he.trans ext) fun p hp => no p ((ho p).mp hp)

theorem of_zero (h : Entry g r l v 0) : (∀ p, g.own p ≠ some (.node r l v)) ∧ g.ext r l v = none := by
  generalize he : 0 = e at h
  cases h with
  | zero no ext => exact ⟨no, ext⟩
  | page flags | ext flags => exact absurd he.symm (mkPte_ne_zero flags.lt flags.valid)

theorem of_own (h : Entry g r l v e) (hc : g.own c = some (.node r l v)) :
    ∃ f, EntryFlags l f ∧ e = mkPte c f ∧ g.ext r l v = none := by
  cases h with
  | zero no => exact absurd hc (no c)
  | page flags own ext =>
    obtain rfl := (own c).mp hc
    exact ⟨_, flags, rfl, ext⟩
  | ext _ _ _ no => exact absurd hc (no c)

end Entry

namespace Tables

section
variable (h : Tables m g)
include h

theorem entry_of_parent (hq : g.own q = some (.node r (l + 1) (v / 512))) :
    Entry g r l v (m.load (q + 8 * (v % 512)) 8) := by
  have := h.entry hq (v % 512) (Nat.mod_lt _ (by decide))
  rwa [show v / 512 * 512 + v % 512 = v by omega] at this

theorem unique (hp : g.own p = some (.node r l v)) (hq : g.own q = some (.node r l v)) : p = q := by
  obtain ⟨L, X, hr, -, hpr⟩ := h.root hp
  obtain ⟨L', X', hr', -, hqr⟩ := h.root hq
  cases hr.symm.trans hr'
  by_cases hl : l = L
  · rw [hpr hl, hqr hl]
  · rcases h.parent hp with rfl | ⟨q', hq'⟩
    · cases hp.symm.trans hr; exact absurd rfl hl
    · generalize he : m.load (q' + 8 * (v % 512)) 8 = e
      have hent := h.entry_of_parent hq'
      rw [he] at hent
      cases hent with
      | zero no => exact absurd hp (no p)
      | page _ own => rw [(own p).mp hp, (own q).mp hq]
      | ext _ _ _ no => exact absurd hp (no p)

theorem of_same (hm : ∀ q r l x, g.own q = some (.node r (l + 1) x) → SamePage m m' q) : Tables m' g := by
  refine ⟨fun {q r l x} hq i hi => ?_, h.parent, h.root, h.ext, h.aligned⟩
  rw [(hm q r l x hq).load hi]
  exact h.entry hq i hi

theorem congr (ho : ∀ p r l x, g'.own p = some (.node r l x) ↔ g.own p = some (.node r l x))
    (he : g'.ext = g.ext) (hu : g'.usr = g.usr) (ha : ∀ p, g'.own p ≠ none → g.own p ≠ none) : Tables m g' := by
  refine ⟨fun {q r l x} hq i hi => ?_, fun {p r l v} hp => ?_, fun {q r l x} hq => ?_, fun {r l v} hv => ?_,
    fun {p} hp => h.aligned (ha p hp)⟩
  · exact (h.entry ((ho ..).mp hq) i hi).congr (fun p => ho ..) (by rw [he]) (by rw [hu]; exact id)
  · exact (h.parent ((ho ..).mp hp)).imp id fun ⟨q, hq⟩ => ⟨q, (ho ..).mpr hq⟩
  · obtain ⟨L, X, hr, h1, h2⟩ := h.root ((ho ..).mp hq)
    exact ⟨L, X, (ho ..).mpr hr, h1, h2⟩
  · rw [he] at hv
    obtain ⟨hl, q, hq⟩ := h.ext hv
    exact ⟨hl, q, (ho ..).mpr hq⟩

theorem aligned_set (hc : g.own c ≠ none) (hp : (g.set c o).own p ≠ none) : p % PGSIZE = 0 := by
  by_cases hpc : p = c
  · rw [hpc]
    exact h.aligned hc
  · rw [set_own_of_ne hpc] at hp
    exact h.aligned hp

theorem attach {R L X : Nat} (hc : g.own c = some (.held t))
    (hent : ∀ {q r l x}, (g.set c (.node R L X)).own q = some (.node r (l + 1) x) →
      ∀ i < 512, Entry (g.set c (.node R L X)) r l (x * 512 + i) (m'.load (q + 8 * i) 8))
    (hparent : c = R ∨ ∃ q, g.own q = some (.node R (L + 1) (X / 512)))
    (hroot : ∃ L' X', (g.set c (.node R L X)).own R = some (.node R L' X') ∧ L ≤ L' ∧ (L = L' → c = R)) :
    Tables m' (g.set c (.node R L X)) := by
  have hkeep : ∀ {p r l x}, g.own p = some (.node r l x) → (g.set c (.node R L X)).own p = some (.node r l x) :=
    fun {p r l x} hp => by
      have hpc : p ≠ c := by rintro rfl; cases hc.symm.trans hp
      rw [set_own_of_ne hpc, hp]
  refine ⟨hent, fun {p r l v} hp => ?_, fun {p r l x} hp => ?_, fun {r l v} hv => ?_,
    h.aligned_set (by rw [hc]; nofun)⟩
  · by_cases hpc : p = c
    · subst hpc
      rw [set_own_self] at hp
      cases hp
      exact hparent.imp id fun ⟨q, hq⟩ => ⟨q, hkeep hq⟩
    · rw [set_own_of_ne hpc] at hp
      exact (h.parent hp).imp id fun ⟨q, hq⟩ => ⟨q, hkeep hq⟩
  · by_cases hpc : p = c
    · subst hpc
      rw [set_own_self] at hp
      cases hp
      exact hroot
    · rw [set_own_of_ne hpc] at hp
      obtain ⟨L', X', hr, h1, h2⟩ := h.root hp
      exact ⟨L', X', hkeep hr, h1, h2⟩
  · obtain ⟨hl, q, hq⟩ := h.ext hv
    exact ⟨hl, q, hkeep hq⟩

theorem load_store_ne {w : Nat} (hq : g.own q ≠ none) (hp : g.own p ≠ none) (hi : i < 512) (hj : j < 512)
    (hne : p = q → j ≠ i) : (m.store (q + 8 * i) 8 w).load (p + 8 * j) 8 = m.load (p + 8 * j) 8 := by
  have h1 := h.aligned hq
  have h2 := h.aligned hp
  simp only [PGSIZE] at h1 h2
  refine Bytes.load_store_of_disjoint ?_
  by_cases hpq : p = q
  · have := hne hpq; omega
  · omega

theorem entry_unique (hq : g.own q = some (.node r (l + 1) x)) (hi : i < 512) (hj : j < 512)
    (hp : g.own p = some (.node r (l + 1) v)) (he : v * 512 + j = x * 512 + i) : p = q ∧ j = i := by
  obtain ⟨rfl, rfl⟩ : v = x ∧ j = i := by omega
  exact ⟨h.unique hp hq, rfl⟩

theorem no_child (hno : ∀ p, g.own p ≠ some (.node r (l + 1) v)) (hr : ∀ X, g.own r ≠ some (.node r l X))
    (hj : j < 512) : (∀ p, g.own p ≠ some (.node r l (v * 512 + j))) ∧ g.ext r l (v * 512 + j) = none := by
  have hdiv : (v * 512 + j) / 512 = v := by omega
  constructor
  · intro p hp
    rcases h.parent hp with rfl | ⟨q, hq⟩
    · exact hr _ hp
    · rw [hdiv] at hq; exact hno q hq
  · by_contra hne
    obtain ⟨rfl, q, hq⟩ := h.ext hne
    rw [hdiv] at hq; exact hno q hq

section

variable (hq : g.own q = some (.node r (l + 1) x))
include hq

theorem entry_store (hi : i < 512) {w : Nat} (hw : w < 256 ^ 8) (hself : Entry g' r l (x * 512 + i) w)
    (hother : ∀ {r' l' v' e'}, (r', l', v') ≠ (r, l, x * 512 + i) → Entry g r' l' v' e' → Entry g' r' l' v' e')
    {q' r' l' x' : Nat} (hq' : g.own q' = some (.node r' (l' + 1) x')) (hj : j < 512) :
    Entry g' r' l' (x' * 512 + j) ((m.store (q + 8 * i) 8 w).load (q' + 8 * j) 8) := by
  by_cases hqq : q' = q ∧ j = i
  · obtain ⟨rfl, rfl⟩ := hqq
    cases hq.symm.trans hq'
    rw [Bytes.load_store_of_lt hw]
    exact hself
  · rw [h.load_store_ne (by rw [hq]; nofun) (by rw [hq']; nofun) hi hj fun e1 e2 => hqq ⟨e1, e2⟩]
    refine hother (fun e => ?_) (h.entry hq' j hj)
    simp only [Prod.mk.injEq] at e
    obtain ⟨rfl, rfl, e⟩ := e
    exact hqq (h.entry_unique hq hi hj hq' e)

theorem link (hi : i < 512) (he : m.load (q + 8 * i) 8 = 0)
    (hc : g.own c = some (.held t)) (hz : 0 < l → ∀ j < 512, m.load (c + 8 * j) 8 = 0)
    (hf : EntryFlags l f) (hu : l = 0 → g.usr r (x * 512 + i) → f &&& PTE_U ≠ 0) (hlt : c < 2 ^ 56) :
    Tables (m.store (q + 8 * i) 8 (mkPte c f)) (g.set c (.node r l (x * 512 + i))) := by
  have hent := h.entry hq i hi
  rw [he] at hent
  obtain ⟨hno, hext⟩ := hent.of_zero
  have hcn : ∀ r' l' x', g.own c ≠ some (.node r' l' x') := by rw [hc]; nofun
  obtain ⟨L, X, hr, hL, -⟩ := h.root hq
  have hold : ∀ {p o'}, (g.set c (.node r l (x * 512 + i))).own p = some o' → p ≠ c → g.own p = some o' :=
    fun {p o'} hp hpc => by rwa [set_own_of_ne hpc] at hp
  refine h.attach hc (fun {q' r' l' x'} hq' j hj => ?_) (.inr ⟨q, by rw [show (x * 512 + i) / 512 = x by omega, hq]⟩)
    ⟨L, X, ?_, by omega, fun e => by omega⟩
  · by_cases hqc : q' = c
    · -- the new page is empty, and there was nothing in its place
      subst hqc
      rw [set_own_self] at hq'
      cases hq'
      have hqq : q' ≠ q := by rintro rfl; exact hcn _ _ _ hq
      rw [h.load_store_ne (by rw [hq]; nofun) (by rw [hc]; nofun) hi hj fun e => absurd e hqq,
        hz (Nat.succ_pos _) j hj]
      obtain ⟨h1, h2⟩ := h.no_child (j := j) hno (fun X' hX => by cases hr.symm.trans hX; omega) hj
      refine .zero (fun p hp => ?_) h2
      by_cases hpq : p = q'
      · subst hpq; rw [set_own_self] at hp; cases hp
      · exact h1 p (hold hp hpq)
    · refine h.entry_store hq hi (mkPte_lt hf.lt hlt) ?_ (fun hne he => ?_) (hold hq' hqc) hj
      · refine .page hf (fun p => ⟨fun hp => ?_, ?_⟩) hext hu
        · by_contra hpc; exact hno p (hold hp hpc)
        · rintro rfl; exact set_own_self
      · exact he.congr (fun p => set_own_iff (hcn _ _ _) fun e => hne (by cases e; rfl)) rfl id
  · have hrc : r ≠ c := by rintro rfl; exact hcn _ _ _ hr
    rw [set_own_of_ne hrc, hr]

theorem unlink (hi : i < 512) (hc : g.own c = some (.node r l (x * 512 + i)))
    (hz : 0 < l → ∀ j < 512, m.load (c + 8 * j) 8 = 0) : Tables (m.store (q + 8 * i) 8 0) (g.set c (.held t)) := by
  obtain ⟨-, -, -, hext⟩ := (h.entry hq i hi).of_own hc
  obtain ⟨L, X, hr, hL, -⟩ := h.root hq
  have hold : ∀ {p r' l' x'}, (g.set c (.held t)).own p = some (.node r' l' x') →
      p ≠ c ∧ g.own p = some (.node r' l' x') := fun {p r' l' x'} hp => by
    have hpc : p ≠ c := by rintro rfl; rw [set_own_self] at hp; cases hp
    exact ⟨hpc, by rwa [set_own_of_ne hpc] at hp⟩
  have hkeep : ∀ {p o'}, g.own p = some o' → p ≠ c → (g.set c (.held t)).own p = some o' :=
    fun hp hpc => by rw [set_own_of_ne hpc, hp]
  -- nothing has its place under `c`
  have hchild : ∀ {r' l' v'}, g.own c = some (.node r' (l' + 1) (v' / 512)) →
      (∀ p, g.own p ≠ some (.node r' l' v')) ∧ g.ext r' l' v' = none := fun {r' l' v'} hc' => by
    have hent := h.entry_of_parent (v := v') hc'
    have hl := Option.some.inj (hc.symm.trans hc')
    rw [hz (by injection hl; omega) _ (Nat.mod_lt _ (by decide))] at hent
    exact hent.of_zero
  refine ⟨fun {q' r' l' x'} hq' j hj => ?_, fun {p r' l' v'} hp => ?_, fun {p r' l' x'} hp => ?_,
    fun {r' l' v'} hv => ?_, h.aligned_set (by rw [hc]; nofun)⟩
  · refine h.entry_store hq hi (by decide) ?_ (fun hne he => ?_) (hold hq').2 hj
    · refine .zero (fun p hp => ?_) hext
      obtain ⟨hpc, hp⟩ := hold hp
      exact hpc (h.unique hp hc)
    · refine he.congr (fun p => set_own_iff (fun e => hne ?_) nofun) rfl id
      cases hc.symm.trans e; rfl
  · obtain ⟨-, hp'⟩ := hold hp
    refine (h.parent hp').imp id fun ⟨q', hq'⟩ => ⟨q', hkeep hq' ?_⟩
    rintro rfl
    exact (hchild hq').1 p hp'
  · obtain ⟨-, hp⟩ := hold hp
    obtain ⟨L', X', hr', h1, h2⟩ := h.root hp
    refine ⟨L', X', hkeep hr' ?_, h1, h2⟩
    rintro rfl
    cases hc.symm.trans hr'
    cases hr.symm.trans hr'
    omega
  · obtain ⟨rfl, q', hq'⟩ := h.ext hv
    refine ⟨rfl, q', hkeep hq' ?_⟩
    rintro rfl
    exact hv (hchild hq').2

end

theorem setExt {w : Option Nat} (hq : g.own q = some (.node r 1 x)) (hi : i < 512)
    (hself : Entry (g.setExt r (x * 512 + i) w) r 0 (x * 512 + i) e) (he : e < 256 ^ 8) :
    Tables (m.store (q + 8 * i) 8 e) (g.setExt r (x * 512 + i) w) := by
  refine ⟨fun {q' r' l' x'} hq' j hj => ?_, h.parent, h.root, fun {r' l' v'} hv => ?_, h.aligned⟩
  · refine h.entry_store hq hi he hself (fun hne hent => hent.congr (fun p => Iff.rfl) (if_neg ?_) id) hq' hj
    rintro ⟨rfl, rfl, rfl⟩
    exact hne rfl
  · by_cases hv' : r' = r ∧ l' = 0 ∧ v' = x * 512 + i
    · obtain ⟨rfl, rfl, rfl⟩ := hv'
      exact ⟨rfl, q, by rw [show (x * 512 + i) / 512 = x by omega]; exact hq⟩
    · exact h.ext ((if_neg hv').symm.trans_ne hv)

theorem setFlags (hq : g.own q = some (.node r (l + 1) x)) (hi : i < 512)
    (hc : g.own c = some (.node r l (x * 512 + i))) (hf : EntryFlags l f)
    (hu : l = 0 → g.usr r (x * 512 + i) → f &&& PTE_U ≠ 0) (hlt : c < 2 ^ 56) :
    Tables (m.store (q + 8 * i) 8 (mkPte c f)) g := by
  obtain ⟨-, -, -, hext⟩ := (h.entry hq i hi).of_own hc
  refine ⟨fun {q' r' l' x'} hq' j hj => ?_, h.parent, h.root, h.ext, h.aligned⟩
  refine h.entry_store hq hi (mkPte_lt hf.lt hlt) (.page hf (fun p => ⟨fun hp => ?_, ?_⟩) hext hu) (fun _ => id) hq' hj
  · exact h.unique hp hc
  · rintro rfl; exact hc

theorem setUsr {u : Nat → Nat → Prop} (hu : ∀ r v, u r v → g.usr r v ∨ ∀ p, g.own p ≠ some (.node r 0 v)) :
    Tables m { g with usr := u } := by
  refine ⟨fun {q r l x} hq i hi => ?_, h.parent, h.root, h.ext, h.aligned⟩
  have hent := h.entry hq i hi
  generalize m.load (q + 8 * i) 8 = e at hent
  cases hent with
  | zero no ext => exact .zero no ext
  | @page c f flags own ext user =>
    refine .page flags own ext fun hl hur => ?_
    subst hl
    exact user rfl ((hu r _ hur).resolve_right fun hno => hno c ((own c).mpr rfl))
  | ext flags user ext no => exact .ext flags user ext no

theorem mkRoot (hc : g.own c = some (.held t)) (hz : ∀ j < 512, m.load (c + 8 * j) 8 = 0) (L X : Nat) :
    Tables m (g.set c (.node c L X)) := by
  have hcn : ∀ r' l' x', g.own c ≠ some (.node r' l' x') := by rw [hc]; nofun
  have hno : ∀ p l x, g.own p ≠ some (.node c l x) := fun p l x hp => by
    obtain ⟨L, X, hr, -⟩ := h.root hp
    exact hcn _ _ _ hr
  have hext : ∀ l v, g.ext c l v = none := fun l v => by
    by_contra hne
    obtain ⟨-, q, hq⟩ := h.ext hne
    exact hno _ _ _ hq
  have hold : ∀ {p o'}, (g.set c (.node c L X)).own p = some o' → p ≠ c → g.own p = some o' :=
    fun {p o'} hp hpc => by rwa [set_own_of_ne hpc] at hp
  refine h.attach hc (fun {q' r' l' x'} hq' j hj => ?_) (.inl rfl) ⟨_, _, set_own_self, le_rfl, fun _ => rfl⟩
  by_cases hqc : q' = c
  · subst hqc
    rw [set_own_self] at hq'
    cases hq'
    rw [hz j hj]
    refine .zero (fun p hp => ?_) (hext ..)
    by_cases hpq : p = q'
    · subst hpq; rw [set_own_self] at hp; cases hp
    · exact hno _ _ _ (hold hp hpq)
  · have hr : r' ≠ c := by rintro rfl; exact hno _ _ _ (hold hq' hqc)
    refine (h.entry (hold hq' hqc) j hj).congr (fun p => set_own_iff (hcn _ _ _) ?_) rfl id
    rintro ⟨⟩; exact hr rfl

theorem eq_root {L X : Nat} (hr : g.own r = some (.node r (L + 1) X))
    (hz : ∀ j < 512, m.load (r + 8 * j) 8 = 0) (hp : g.own p = some (.node r l v)) : p = r := by
  -- by induction on the distance from the root: a page has a parent, and the root has no entries
  obtain ⟨L', X', hr', hl, heq⟩ := h.root hp
  cases hr.symm.trans hr'
  obtain ⟨k, hk⟩ : ∃ k, L = l + k ∨ l = L + 1 := ⟨L - l, by omega⟩
  induction k generalizing p l v with
  | zero =>
    rcases hk with rfl | rfl
    · rcases h.parent hp with rfl | ⟨q, hq⟩
      · rfl
      · obtain ⟨_, _, hr'', _, hqr⟩ := h.root hq
        cases hr.symm.trans hr''
        obtain rfl := hqr rfl
        have hent := h.entry_of_parent hq
        rw [hz _ (Nat.mod_lt _ (by decide))] at hent
        exact absurd hp (hent.of_zero.1 p)
    · exact heq rfl
  | succ k ih =>
    rcases hk with rfl | rfl
    · rcases h.parent hp with rfl | ⟨q, hq⟩
      · rfl
      · obtain ⟨_, _, hr'', hl', hqr⟩ := h.root hq
        cases hr.symm.trans hr''
        obtain rfl := ih hq hl' hqr (.inl (by omega))
        cases hr.symm.trans hq
    · exact heq rfl

theorem unRoot {L X : Nat} (hr : g.own r = some (.node r (L + 1) X))
    (hz : ∀ j < 512, m.load (r + 8 * j) 8 = 0) : Tables m (g.set r (.held t)) := by
  have hold : ∀ {p r' l' x'}, (g.set r (.held t)).own p = some (.node r' l' x') →
      p ≠ r ∧ r' ≠ r ∧ g.own p = some (.node r' l' x') := fun {p r' l' x'} hp => by
    have hpr : p ≠ r := by rintro rfl; rw [set_own_self] at hp; cases hp
    rw [set_own_of_ne hpr] at hp
    exact ⟨hpr, by rintro rfl; exact hpr (h.eq_root hr hz hp), hp⟩
  have hkeep : ∀ {p r' l' x'}, g.own p = some (.node r' l' x') → r' ≠ r →
      (g.set r (.held t)).own p = some (.node r' l' x') := fun {p r' l' x'} hp hne => by
    have hpr : p ≠ r := by rintro rfl; cases hr.symm.trans hp; exact hne rfl
    rw [set_own_of_ne hpr, hp]
  refine ⟨fun {q' r' l' x'} hq' j hj => ?_, fun {p r' l' v'} hp => ?_, fun {p r' l' x'} hp => ?_,
    fun {r' l' v'} hv => ?_, h.aligned_set (by rw [hr]; nofun)⟩
  · obtain ⟨-, hne, hq'⟩ := hold hq'
    refine (h.entry hq' j hj).congr (fun p => set_own_iff ?_ nofun) rfl id
    rw [hr]
    rintro ⟨⟩; exact hne rfl
  · obtain ⟨-, hne, hp⟩ := hold hp
    exact (h.parent hp).imp id fun ⟨q', hq'⟩ => ⟨q', hkeep hq' hne⟩
  · obtain ⟨-, hne, hp⟩ := hold hp
    obtain ⟨L', X', hr', h1, h2⟩ := h.root hp
    exact ⟨L', X', hkeep hr' hne, h1, h2⟩
  · obtain ⟨rfl, q', hq'⟩ := h.ext hv
    refine ⟨rfl, q', hkeep hq' ?_⟩
    rintro rfl
    obtain rfl := h.eq_root hr hz hq'
    have hent := h.entry_of_parent (v := v') hq'
    rw [hz _ (Nat.mod_lt _ (by decide))] at hent
    exact hv hent.of_zero.2

end

end Tables

/-! ### The allocator -/

/-- A page that the allocator hands out. -/
structure IsPage (K : Layout) (p : Nat) : Prop where
  aligned : p % PGSIZE = 0
  ge : K.kend ≤ p
  lt : p < PHYSTOP

/-- A machine with fourteen pages for the allocator: enough for two processes. -/
def smallLayout : Layout where
  kend := PHYSTOP - 14 * PGSIZE
  trampoline := KERNBASE
  trampoline_aligned := by decide
  base_le := by decide
  trampoline_lt := by decide
  kend_le := by decide

/-- The list of free pages that starts at `a`. -/
def Chain (m : Bytes) : Nat → List Nat → Prop
  | a, [] => a = 0
  | a, p :: L => a = p ∧ p ≠ 0 ∧ Chain m (m.load p 8) L

theorem Chain.congr {a : Nat} {L : List Nat} (h : Chain m a L) (hm : ∀ p ∈ L, SamePage m m' p) : Chain m' a L := by
  induction L generalizing a with
  | nil => exact h
  | cons p L ih =>
    obtain ⟨rfl, h0, h⟩ := h
    refine ⟨rfl, h0, ?_⟩
    have hload := (hm a List.mem_cons_self).load (i := 0) (by decide)
    rw [show m'.load a 8 = m.load a 8 from hload]
    exact ih h fun q hq => hm q (List.mem_cons_of_mem _ hq)

variable {K : Layout} {s s' : Kmem}

/-- Every page has an owner, and memory agrees. -/
structure PInv (K : Layout) (s : Kmem) (g : Ghost τ) : Prop where
  page : ∀ p, g.own p ≠ none ↔ IsPage K p
  free : ∃ L, Chain s.mem s.freelist L ∧ L.Nodup ∧ ∀ p, g.own p = some .free ↔ p ∈ L
  tables : Tables s.mem g
  pinned : ∀ {p b}, g.pin p = some b → (∃ t, g.own p = some (.held t)) ∧ SamePage b s.mem p

/-- A page whose content is nobody's business: it is held, or a user page. -/
def Scratch (g : Ghost τ) (c : Nat) : Prop :=
  (∃ t, g.own c = some (.held t)) ∧ g.pin c = none ∨ ∃ r v, g.own c = some (.node r 0 v)

namespace PInv

section
variable (h : PInv K s g)
include h

theorem isPage (hp : g.own p = some o) : IsPage K p := (h.page p).mp (by rw [hp]; nofun)

theorem base_le (hp : g.own p = some o) : KERNBASE ≤ p :=
  K.base_le.trans ((Nat.le_add_right ..).trans (K.trampoline_lt.trans (h.isPage hp).ge))

theorem ne_zero (hp : g.own p = some o) : p ≠ 0 := by
  have := h.base_le hp
  rintro rfl
  exact absurd this (by decide)

theorem lt (hp : g.own p = some o) : p < 2 ^ 56 := lt_trans (h.isPage hp).lt (by decide)

theorem samePage (hm : Outside s.mem m' c) (hc : g.own c ≠ none) (hq : g.own q = some o) (hne : q ≠ c) :
    SamePage s.mem m' q :=
  hm.samePage ((h.page c).mp hc).aligned (h.isPage hq).aligned hne

theorem pin_eq_none (hp : g.own p = some o) (ho : ∀ t, o ≠ .held t) : g.pin p = none := by
  by_contra hne
  obtain ⟨b, hb⟩ := Option.ne_none_iff_exists'.mp hne
  obtain ⟨t, ht⟩ := (h.pinned hb).1
  exact ho t (Option.some.inj (hp.symm.trans ht))

theorem write (hm : Outside s.mem m' c) (hc : Scratch g c) : PInv K { s with mem := m' } g := by
  have hown : g.own c ≠ none := by rcases hc with ⟨⟨t, hc⟩, -⟩ | ⟨r, v, hc⟩ <;> rw [hc] <;> nofun
  have hsame : ∀ {q o}, g.own q = some o → q ≠ c → SamePage s.mem m' q := h.samePage hm hown
  obtain ⟨L, hL, hnd, hmem⟩ := h.free
  refine ⟨h.page, ⟨L, hL.congr fun p hp => hsame ((hmem p).mpr hp) ?_, hnd, hmem⟩,
    h.tables.of_same fun q r l x hq => hsame hq ?_, fun {p b} hp => ⟨(h.pinned hp).1, ?_⟩⟩
  · rintro rfl
    have := (hmem p).mpr hp
    rcases hc with ⟨⟨t, hc⟩, -⟩ | ⟨r, v, hc⟩ <;> cases hc.symm.trans this
  · rintro rfl
    rcases hc with ⟨⟨t, hc⟩, -⟩ | ⟨r, v, hc⟩ <;> cases hc.symm.trans hq
  · obtain ⟨⟨t, ht⟩, hb⟩ := h.pinned hp
    refine hb.trans (hsame ht ?_)
    rintro rfl
    rcases hc with ⟨-, hc⟩ | ⟨r, v, hc⟩
    · cases hc.symm.trans hp
    · cases hc.symm.trans ht

theorem alloc (h0 : s.freelist ≠ 0) (t : τ) : g.own s.freelist = some .free ∧ ∀ m', Outside s.mem m' s.freelist →
      PInv K ⟨m', s.mem.load s.freelist 8⟩ (g.set s.freelist (.held t)) := by
  obtain ⟨L, hL, hnd, hmem⟩ := h.free
  cases L with
  | nil => exact absurd hL h0
  | cons p L =>
    obtain ⟨rfl, -, hL⟩ := hL
    have hp : g.own s.freelist = some .free := (hmem _).mpr List.mem_cons_self
    refine ⟨hp, fun m' hm => ?_⟩
    have hsame : ∀ {q o}, g.own q = some o → q ≠ s.freelist → SamePage s.mem m' q :=
      h.samePage hm (by rw [hp]; nofun)
    have hnot := (List.nodup_cons.mp hnd).1
    have hne : ∀ {q : Nat}, q ∈ L → q ≠ s.freelist := fun hq e => hnot (e ▸ hq)
    refine ⟨fun q => ?_, ⟨L, hL.congr fun q hq => hsame ((hmem q).mpr (List.mem_cons_of_mem _ hq)) (hne hq),
      (List.nodup_cons.mp hnd).2, fun q => ?_⟩, ?_, fun {q b} hq => ?_⟩
    · by_cases hqp : q = s.freelist
      · rw [hqp, set_own_self]; exact ⟨fun _ => h.isPage hp, fun _ => nofun⟩
      · rw [set_own_of_ne hqp]; exact h.page q
    · by_cases hqp : q = s.freelist
      · rw [hqp, set_own_self]; exact ⟨nofun, fun hq => absurd hq hnot⟩
      · rw [set_own_of_ne hqp, hmem, List.mem_cons]; exact or_iff_right hqp
    · have ht : Tables s.mem (g.set s.freelist (.held t)) :=
        h.tables.congr (fun _ _ _ _ => set_own_iff (by rw [hp]; nofun) nofun) rfl rfl fun q hq => by
          by_cases hqp : q = s.freelist
          · rw [hqp, hp]; nofun
          · rwa [set_own_of_ne hqp] at hq
      refine ht.of_same fun q r l x hq => ?_
      have hqp : q ≠ s.freelist := by rintro rfl; rw [set_own_self] at hq; cases hq
      rw [set_own_of_ne hqp] at hq
      exact hsame hq hqp
    · obtain ⟨⟨t', ht'⟩, hb⟩ := h.pinned hq
      have hqp : q ≠ s.freelist := by rintro rfl; cases hp.symm.trans ht'
      exact ⟨⟨t', by rw [set_own_of_ne hqp, ht']⟩, hb.trans (hsame ht' hqp)⟩

theorem release (hc : g.own c = some (.held t)) (hpin : g.pin c = none) (hm : Outside s.mem m' c)
    (hnext : m'.load c 8 = s.freelist) : PInv K ⟨m', c⟩ (g.set c .free) := by
  obtain ⟨L, hL, hnd, hmem⟩ := h.free
  have hsame : ∀ {q o}, g.own q = some o → q ≠ c → SamePage s.mem m' q :=
    h.samePage hm (by rw [hc]; nofun)
  have hnot : c ∉ L := fun hcL => by cases hc.symm.trans ((hmem c).mpr hcL)
  have hne : ∀ {q : Nat}, q ∈ L → q ≠ c := fun hq e => hnot (e ▸ hq)
  refine ⟨fun q => ?_, ⟨c :: L, ⟨rfl, h.ne_zero hc, ?_⟩, List.nodup_cons.mpr ⟨hnot, hnd⟩, fun q => ?_⟩, ?_,
    fun {q b} hq => ?_⟩
  · by_cases hqc : q = c
    · rw [hqc, set_own_self]; exact ⟨fun _ => h.isPage hc, fun _ => nofun⟩
    · rw [set_own_of_ne hqc]; exact h.page q
  · rw [show m'.load c 8 = s.freelist from hnext]
    exact hL.congr fun q hq => hsame ((hmem q).mpr hq) (hne hq)
  · by_cases hqc : q = c
    · rw [hqc, set_own_self]; exact ⟨fun _ => List.mem_cons_self, fun _ => rfl⟩
    · rw [set_own_of_ne hqc, hmem, List.mem_cons]; exact (or_iff_right hqc).symm
  · have ht : Tables s.mem (g.set c .free) :=
      h.tables.congr (fun _ _ _ _ => set_own_iff (by rw [hc]; nofun) nofun) rfl rfl fun q hq => by
        by_cases hqc : q = c
        · rw [hqc, hc]; nofun
        · rwa [set_own_of_ne hqc] at hq
    refine ht.of_same fun q r l x hq => ?_
    have hqc : q ≠ c := by rintro rfl; rw [set_own_self] at hq; cases hq
    rw [set_own_of_ne hqc] at hq
    exact hsame hq hqc
  · obtain ⟨⟨t', ht'⟩, hb⟩ := h.pinned hq
    have hqc : q ≠ c := by rintro rfl; cases hpin.symm.trans hq
    exact ⟨⟨t', by rw [set_own_of_ne hqc, ht']⟩, hb.trans (hsame ht' hqc)⟩

theorem same_of_outside (hq : g.own q = some (.node r (l + 1) x)) (hm : Outside s.mem m' q) :
    ∀ {p o}, g.own p = some o → (∀ r l x, o ≠ .node r (l + 1) x) → SamePage s.mem m' p := fun hp ho =>
  h.samePage hm (by rw [hq]; nofun) hp (by rintro rfl; exact ho _ _ _ (Option.some.inj (hp.symm.trans hq)))

theorem of_tables (hm : ∀ {p o}, g.own p = some o → (∀ r l x, o ≠ .node r (l + 1) x) → SamePage s.mem m' p)
    (ht : Tables m' g')
    (hown : ∀ p, (g'.own p = none ↔ g.own p = none) ∧ (g'.own p = some .free ↔ g.own p = some .free))
    (hpin : ∀ p b, g'.pin p = some b → g.pin p = some b ∧ g'.own p = g.own p) : PInv K { s with mem := m' } g' := by
  obtain ⟨L, hL, hnd, hmem⟩ := h.free
  refine ⟨fun p => (not_congr (hown p).1).trans (h.page p), ⟨L, hL.congr fun p hp => ?_, hnd, fun p => ?_⟩, ht,
    fun {p b} hp => ?_⟩
  · exact hm ((hmem p).mpr hp) nofun
  · exact (hown p).2.trans (hmem p)
  · obtain ⟨hp', he⟩ := hpin p b hp
    obtain ⟨⟨t, ht⟩, hb⟩ := h.pinned hp'
    exact ⟨⟨t, he.trans ht⟩, hb.trans (hm ht nofun)⟩

theorem setUsr {u : Nat → Nat → Prop} (hu : ∀ r v, u r v → g.usr r v ∨ ∀ p, g.own p ≠ some (.node r 0 v)) :
    PInv K s { g with usr := u } :=
  ⟨h.page, h.free, h.tables.setUsr hu, h.pinned⟩

theorem of_tables_set (hm : ∀ {p o}, g.own p = some o → (∀ r l x, o ≠ .node r (l + 1) x) → SamePage s.mem m' p)
    {o' : Owner τ} (hc : g.own c = some o') (ho' : o' ≠ .free) (ho : o ≠ .free) (hpin : g.pin c = none)
    (ht : Tables m' (g.set c o)) : PInv K { s with mem := m' } (g.set c o) := by
  refine h.of_tables hm ht (fun p => ?_) fun p b hp => ⟨hp, ?_⟩
  · by_cases hpc : p = c
    · subst hpc
      rw [set_own_self, hc]
      exact ⟨⟨nofun, nofun⟩, ⟨fun e => absurd (Option.some.inj e) ho, fun e => absurd (Option.some.inj e) ho'⟩⟩
    · rw [set_own_of_ne hpc]; exact ⟨Iff.rfl, Iff.rfl⟩
  · have hpc : p ≠ c := by rintro rfl; cases hpin.symm.trans hp
    exact set_own_of_ne hpc

end

end PInv

end Xv6
