import Xv6.Proofs.UmallocRing

/-!
# The heap of a program

The free list is the circle of `base` and the blocks `fs` above it (`FreeList`); the blocks on it and the live ones `ls`,
with their headers, are packed into the heap (`Heap`), and stay so when `free` moves a block from one to the other.
-/

namespace Xv6

open Prog

namespace Umalloc

variable {s : Uheap} {m : Bytes} {a p v bp : Nat} {e f : Extent} {xs ys fs ls : List Extent}

/-- The nodes of the free list in their order, with `base` at the front. -/
def nodes (base : Nat) (fs : List Extent) : List Nat := base :: fs.map Extent.start

theorem far_nodes {base lo hi : Nat} {es : List Extent} {b : Nat} (hp : Packed lo hi es)
    (hlen : ∀ e ∈ es, headerSize ≤ e.len) (hbase : base + headerSize ≤ lo) (ha : a ∈ nodes base es)
    (hb : b ∈ nodes base es) (hne : a ≠ b) : Far a b := by
  have hlo : ∀ c ∈ es.map Extent.start, base + headerSize ≤ c := by
    intro c hc
    obtain ⟨e, he, rfl⟩ := List.mem_map.mp hc
    exact le_trans hbase (hp.lo_le e he)
  rw [nodes, List.mem_cons] at ha hb
  rcases ha with rfl | ha <;> rcases hb with rfl | hb
  · exact absurd rfl hne
  · exact .inl (hlo b hb)
  · exact .inr (hlo a ha)
  · obtain ⟨d, hd, rfl⟩ := List.mem_map.mp ha
    obtain ⟨e, he, rfl⟩ := List.mem_map.mp hb
    have hap := hp.apart_of_ne hd he fun heq => hne (congrArg Extent.start heq)
    have h1 := hlen d hd
    have h2 := hlen e he
    unfold Extent.Apart Extent.stop at hap
    unfold Far
    omega

structure FreeList (base : Nat) (m : Bytes) (fs : List Extent) : Prop where
  links : Linked m (nodes base fs ++ [base])
  sorted : (nodes base fs).Pairwise (· < ·)
  baseSize : sizeAt m base = 0

/-- The free blocks `fs` and the live blocks `ls`, each with its header. -/
structure Heap (L : UmallocSys.Image) (s : Uheap) (fs ls : List Extent) : Prop where
  list : FreeList L.base s.mem fs
  packed : Packed L.sz0 s.sz (fs ++ ls)
  size : ∀ e ∈ fs ++ ls, headerSize * sizeAt s.mem e.start = e.len
  sz : L.sz0 ≤ s.sz
  mem : PGROUNDUP s.sz ≤ memBytes
  freep : s.freep ∈ nodes L.base fs

namespace Heap

variable {L : UmallocSys.Image}

section

variable (h : Heap L s fs ls)
include h

theorem perm {ls' : List Extent} (hp : ls.Perm ls') : Heap L s fs ls' where
  list := h.list
  packed := h.packed.perm (hp.append_left fs)
  size e he := h.size e ((hp.append_left fs).mem_iff.mpr he)
  sz := h.sz
  mem := h.mem
  freep := h.freep

theorem sz_lt : s.sz ≤ memBytes :=
  le_trans (by unfold PGROUNDUP PGSIZE; omega) h.mem

theorem len_ge (he : e ∈ fs ++ ls) : headerSize ≤ e.len := by
  have h1 := h.size e he
  have h2 := h.packed.pos e he
  unfold headerSize at *
  omega

theorem mapped_base : Mapped s L.base := le_trans L.base_le h.sz

theorem mapped_block (he : e ∈ fs ++ ls) : Mapped s e.start := by
  have h1 := h.len_ge he
  have h2 := h.packed.le_hi e he
  unfold Mapped Extent.stop at *
  omega

theorem mapped_all (ha : a ∈ nodes L.base (fs ++ ls)) : Mapped s a := by
  rcases List.mem_cons.mp ha with rfl | ha
  · exact h.mapped_base
  · obtain ⟨e, he, rfl⟩ := List.mem_map.mp ha
    exact h.mapped_block he

theorem mapped (ha : a ∈ nodes L.base fs) : Mapped s a :=
  h.mapped_all (List.cons_subset_cons _ (List.map_subset _ (List.subset_append_left fs ls)) ha)

theorem far {b : Nat} (ha : a ∈ nodes L.base (fs ++ ls)) (hb : b ∈ nodes L.base (fs ++ ls))
    (hne : a ≠ b) : Far a b := far_nodes h.packed (fun _ he => h.len_ge he) L.base_le ha hb hne

theorem base_lt (he : e ∈ fs ++ ls) : L.base < e.start := by
  have h1 := h.packed.lo_le e he
  have h2 := L.base_le
  unfold headerSize at h2
  omega

end

end Heap

def place (base : Nat) (xs : List Extent) : Nat := (nodes base xs).getLast (by simp [nodes])

theorem nodes_getLast? (base : Nat) (xs : List Extent) : (nodes base xs).getLast? = some (place base xs) := List.getLast?_eq_some_getLast _

theorem nodes_dropLast {base : Nat} : (nodes base xs).dropLast ++ [place base xs] = nodes base xs :=
  List.dropLast_append_getLast _

theorem place_mem (base : Nat) (xs : List Extent) : place base xs ∈ nodes base xs := List.getLast_mem _

theorem nodes_append {base : Nat} : nodes base (xs ++ ys) = nodes base xs ++ ys.map Extent.start := by
  simp [nodes]


namespace Heap

variable {L : UmallocSys.Image}

theorem ring (h : Heap L s fs ls) : Ring s (⟨L.base, 0⟩ :: fs) where
  links := circle_cons.mpr h.list.links
  spaced := by
    refine List.pairwise_cons.mpr ⟨fun f hf => ?_, ?_⟩
    · rw [Nat.max_eq_left (Nat.zero_le _)]
      exact le_trans L.base_le (h.packed.lo_le f (List.mem_append_left ls hf))
    · have hsorted := List.pairwise_map.mp (List.pairwise_cons.mp h.list.sorted).2
      refine ((List.pairwise_append.mp h.packed.apart).1.and hsorted).imp_of_mem fun {d f} hd hf hdf => ?_
      have h1 := h.len_ge (List.mem_append_left ls hd)
      have h2 := h.len_ge (List.mem_append_left ls hf)
      unfold Extent.Apart Extent.stop at hdf
      omega
  size := List.forall_mem_cons.mpr ⟨by rw [h.list.baseSize]; rfl, fun f hf => h.size f (List.mem_append_left ls hf)⟩
  inside := by
    refine List.forall_mem_cons.mpr ⟨h.mapped_base, fun f hf => ?_⟩
    rw [Nat.max_eq_right (h.len_ge (List.mem_append_left ls hf))]
    exact h.packed.le_hi f (List.mem_append_left ls hf)
  mem := h.mem
  freep := h.freep

theorem length_lt (h : Heap L s fs ls) : (nodes L.base fs).length ≤ memBytes := by
  simpa [nodes] using h.ring.length_le

theorem packed_front (h : Heap L s fs (e :: ls)) : Packed L.sz0 s.sz (e :: (fs ++ ls)) :=
  h.packed.perm List.perm_middle

theorem block (h : Heap L s fs (e :: ls)) : Block s (⟨L.base, 0⟩ :: fs) e := by
  have hlen := h.len_ge (e := e) (by simp)
  refine ⟨h.size e (by simp), ?_, List.forall_mem_cons.mpr ⟨.inr ?_, fun f hf => ?_⟩⟩
  · rw [Nat.max_eq_right hlen]
    exact h.packed.le_hi e (by simp)
  · rw [Nat.max_eq_left (Nat.zero_le _)]
    exact le_trans L.base_le (h.packed.lo_le e (by simp))
  · have hap := (Packed.cons_iff.mp h.packed_front).1 f (List.mem_append_left ls hf)
    have hf' := h.len_ge (List.mem_append_left (e :: ls) hf)
    unfold Extent.Apart Extent.stop at hap
    omega

end Heap

/-- What `free` leaves behind. -/
def Freed (L : UmallocSys.Image) (s : Uheap) (ls : List Extent) (e : Extent) (s' : Uheap) : Prop :=
  s'.sz = s.sz ∧ ∃ fs, Heap L s' fs ls ∧ ∃ f ∈ fs, e.len ≤ f.len

theorem Heap.inserts {L : UmallocSys.Image} {es : List Extent} (h : Heap L s fs (e :: ls)) (hins : Inserts e (⟨L.base, 0⟩ :: fs) es) :
    ∃ fs', es = ⟨L.base, 0⟩ :: fs' ∧ Packed L.sz0 s.sz (fs' ++ ls) ∧ ∃ f ∈ fs', e.len ≤ f.len := by
  have hlt := h.base_lt (e := e) (by simp)
  generalize hes : (⟨L.base, 0⟩ : Extent) :: fs = bs at hins
  cases hins with
  | above =>
    rename_i xs ys x
    cases xs with
    | nil =>
      cases hes
      refine ⟨coalesce e fs, ?_, h.packed_front.coalesce, le_coalesce (List.mem_cons_self ..)⟩
      obtain ⟨n, t, heq, -⟩ := exists_coalesce e fs
      rw [List.nil_append, heq, coalesce]
      exact if_neg (ne_of_lt hlt)
    | cons b xs =>
      rw [List.cons_append, List.cons.injEq] at hes
      obtain ⟨rfl, rfl⟩ := hes
      refine ⟨xs ++ coalesce x (coalesce e ys), rfl, ?_, ?_⟩
      · have h1 : Packed L.sz0 s.sz (e :: (ys ++ (x :: (xs ++ ls)))) := by
          refine h.packed_front.perm (.cons e (List.perm_iff_count.mpr fun a => ?_))
          simp only [List.count_append, List.count_cons]
          omega
        have h2 : Packed L.sz0 s.sz (x :: (coalesce e ys ++ (xs ++ ls))) := h1.coalesce.perm List.perm_middle
        refine h2.coalesce.perm (List.perm_iff_count.mpr fun a => ?_)
        simp only [List.count_append]
        omega
      · obtain ⟨f, hf, hle⟩ := le_coalesce (d := e) (l := ys) (List.mem_cons_self ..)
        obtain ⟨g, hg, hle'⟩ := le_coalesce (d := x) (List.mem_cons_of_mem x hf)
        exact ⟨g, List.mem_append_right xs hg, le_trans hle hle'⟩
  | below lt =>
    have := lt ⟨L.base, 0⟩ (hes ▸ List.mem_cons_self ..)
    exact absurd this (Nat.lt_asymm hlt)

theorem wp_free {L : UmallocSys.Image} {Q : Unit → Uheap → Prop} (h : Heap L s fs (e :: ls))
    (hq : ∀ s', Freed L s ls e s' → Q () s') : wp (free (e.start + headerSize)) Q s := by
  refine h.ring.wp_free h.block (fun f hf => ?_) fun s' es hr hins hsz hframe => hq s' ⟨hsz, ?_⟩
  · rw [List.cons.injEq] at hf
    rw [← hf.1]
  · obtain ⟨fs', rfl, hpacked, hbig⟩ := h.inserts hins
    refine ⟨fs', ⟨⟨?_, hr.sorted, ?_⟩, hsz ▸ hpacked, fun f hf => ?_, hsz ▸ h.sz, hr.mem, hr.freep⟩, hbig⟩
    · exact circle_cons.mp hr.links
    · have := hr.size ⟨L.base, 0⟩ (by simp)
      unfold headerSize at this
      simp only at this
      omega
    · rcases List.mem_append.mp hf with hf | hf
      · exact hr.size f (List.mem_cons_of_mem _ hf)
      · have hfar : ∀ g ∈ e :: ⟨L.base, 0⟩ :: fs, Far f.start g.start := by
          -- live blocks are apart from `e`, from `base` and from the free blocks
          have hapart : ∀ g ∈ fs ++ e :: ls, g.Apart f → Far f.start g.start := fun g hg hap => by
            have h1 := h.len_ge hg
            have h2 := h.len_ge (e := f) (by simp [hf])
            unfold Extent.Apart Extent.stop at hap
            unfold Far
            omega
          refine List.forall_mem_cons.mpr ⟨?_, List.forall_mem_cons.mpr ⟨.inr ?_, fun g hg => ?_⟩⟩
          · exact hapart e (by simp) ((Packed.cons_iff.mp h.packed_front).1 f (by simp [hf]))
          · exact le_trans L.base_le (h.packed.lo_le f (by simp [hf]))
          · exact hapart g (by simp [hg]) ((List.pairwise_append.mp h.packed.apart).2.2 g hg f (by simp [hf]))
        rw [hframe f.start (hfar e (by simp)) fun g hg => hfar g (List.mem_cons_of_mem e hg)]
        exact h.size f (by simp [hf])

end Umalloc

end Xv6
