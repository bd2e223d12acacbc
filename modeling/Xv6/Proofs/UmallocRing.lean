import Xv6.Lib.Extents
import Xv6.Umalloc

/-!
# `free` of `umalloc.c`

The free list is a circle of blocks in the order of their addresses (`Ring`). `free` finds the place of a block in the
order (`Ring.wp_find`) and joins it with the block behind it, and the block before it with the result. Both joins are the
same piece of code, which does `coalesce` to the list behind a block (`Joins`).
-/

namespace Xv6

open Prog

namespace Umalloc

variable {s : Uheap} {m : Bytes} {a p v bp : Nat} {e f : Extent} {xs ys : List Extent}

/-! ### Headers -/

def ptrAt (m : Bytes) (p : Nat) : Nat := m.load p 8

def sizeAt (m : Bytes) (p : Nat) : Nat := m.load (p + 8) 4

def Far (a p : Nat) : Prop := a + headerSize ≤ p ∨ p + headerSize ≤ a

theorem ptrAt_lt : ptrAt m p < 2 ^ 64 := Bytes.load_lt m p 8

theorem ptrAt_setPtr (hv : v < 2 ^ 64) : ptrAt (m.store p 8 v) p = v := Bytes.load_store_of_lt hv

theorem ptrAt_setPtr_far (h : Far a p) : ptrAt (m.store p 8 v) a = ptrAt m a := by
  unfold Far headerSize at h
  exact Bytes.load_store_of_disjoint (by omega)

theorem sizeAt_setPtr_self : sizeAt (m.store p 8 v) p = sizeAt m p :=
  Bytes.load_store_of_disjoint (by omega)

theorem sizeAt_setPtr_far (h : Far a p) : sizeAt (m.store p 8 v) a = sizeAt m a := by
  unfold Far headerSize at h
  exact Bytes.load_store_of_disjoint (by omega)

theorem sizeAt_setSize (hv : v < 2 ^ 32) : sizeAt (m.store (p + 8) 4 v) p = v := Bytes.load_store_of_lt hv

theorem sizeAt_setSize_far (h : Far a p) : sizeAt (m.store (p + 8) 4 v) a = sizeAt m a := by
  unfold Far headerSize at h
  exact Bytes.load_store_of_disjoint (by omega)

theorem ptrAt_setSize_self : ptrAt (m.store (p + 8) 4 v) p = ptrAt m p :=
  Bytes.load_store_of_disjoint (by omega)

theorem ptrAt_setSize_far (h : Far a p) : ptrAt (m.store (p + 8) 4 v) a = ptrAt m a := by
  unfold Far headerSize at h
  exact Bytes.load_store_of_disjoint (by omega)

def Mapped (s : Uheap) (p : Nat) : Prop := p + headerSize ≤ s.sz

section
variable {Q : Unit → Uheap → Prop} {R : Nat → Uheap → Prop} {n : Nat}

theorem wp_access (h : a + n ≤ s.sz) (hq : Q () s) : wp (access a n) Q s := by
  have hround : s.sz ≤ PGROUNDUP s.sz := by unfold PGROUNDUP PGSIZE; omega
  unfold access
  rw [wp_bind, wp_get, if_neg (by omega)]
  exact wp_pure.mpr hq

theorem wp_load (h : a + n ≤ s.sz) (hr : R (s.mem.load a n) s) : wp (load a n) R s := by
  unfold load
  rw [wp_bind]
  refine wp_access h ?_
  rw [wp_bind, wp_get]
  exact wp_pure.mpr hr

theorem wp_store (h : a + n ≤ s.sz) (hq : Q () { s with mem := s.mem.store a n v }) : wp (store a n v) Q s := by
  unfold store
  rw [wp_bind]
  refine wp_access h ?_
  exact wp_modify.mpr hq

theorem wp_ptr (h : Mapped s p) (hr : R (ptrAt s.mem p) s) : wp (ptr p) R s :=
  wp_load (by unfold Mapped headerSize at h; omega) hr

theorem wp_size (h : Mapped s p) (hr : R (sizeAt s.mem p) s) : wp (size p) R s :=
  wp_load (by unfold Mapped headerSize at h; omega) hr

theorem wp_setPtr (h : Mapped s p) (hq : Q () { s with mem := s.mem.store p 8 v }) : wp (setPtr p v) Q s :=
  wp_store (by unfold Mapped headerSize at h; omega) hq

theorem wp_setSize (h : Mapped s p) (hq : Q () { s with mem := s.mem.store (p + 8) 4 v }) : wp (setSize p v) Q s :=
  wp_store (by unfold Mapped headerSize at h; omega) hq

theorem wp_setFreep (hq : Q () { s with freep := p }) : wp (setFreep p) Q s := wp_modify.mpr hq

end

/-! ### Circles -/

def Linked (m : Bytes) (l : List Nat) : Prop := l.IsChain fun a b => ptrAt m a = b

def Keeps (m m' : Bytes) (p : Nat) : Prop := ∀ a, Far a p → ptrAt m' a = ptrAt m a ∧ sizeAt m' a = sizeAt m a

theorem keeps_setPtr : Keeps m (m.store p 8 v) p := fun _ h => ⟨ptrAt_setPtr_far h, sizeAt_setPtr_far h⟩

theorem keeps_setSize : Keeps m (m.store (p + 8) 4 v) p := fun _ h => ⟨ptrAt_setSize_far h, sizeAt_setSize_far h⟩

theorem Keeps.trans {m' m'' : Bytes} (h : Keeps m m' p) (h' : Keeps m' m'' p) : Keeps m m'' p :=
  fun a ha => ⟨(h' a ha).1.trans (h a ha).1, (h' a ha).2.trans (h a ha).2⟩

namespace Linked

variable {m' : Bytes} {l : List Nat}

theorem congr (h : Linked m l) (hm : ∀ a ∈ l.dropLast, ptrAt m' a = ptrAt m a) : Linked m' l := by
  induction l with
  | nil => exact .nil
  | cons a l ih =>
    cases l with
    | nil => exact .singleton a
    | cons b l =>
      obtain ⟨hab, hl⟩ := List.isChain_cons_cons.mp h
      refine List.isChain_cons_cons.mpr ⟨?_, ih hl fun c hc => hm c (by simp [hc])⟩
      rw [hm a (by simp)]
      exact hab

theorem cons (h : Linked m l) (hp : l.head? = some (ptrAt m a)) : Linked m (a :: l) := by
  cases l with
  | nil => cases hp
  | cons b l => exact List.isChain_cons_cons.mpr ⟨(Option.some.inj hp).symm, h⟩

theorem head? (h : Linked m (a :: l)) (hl : l ≠ []) : l.head? = some (ptrAt m a) := by
  cases l with
  | nil => exact absurd rfl hl
  | cons b l => exact congrArg some (List.isChain_cons_cons.mp h).1.symm

theorem keeps (h : Linked m l) (hk : Keeps m m' p) (hf : ∀ a ∈ l.dropLast, Far a p) : Linked m' l :=
  h.congr fun a ha => (hk a (hf a ha)).1

end Linked

def Circle (m : Bytes) (l : List Nat) : Prop := Linked m l ∧ ∀ a ∈ l.getLast?, ∀ b ∈ l.head?, ptrAt m a = b

theorem Circle.rotate {l r : List Nat} (h : Circle m (l ++ r)) : Circle m (r ++ l) := by
  obtain ⟨hlr, hwrap⟩ := h
  obtain ⟨hl, hr, hjoin⟩ := List.isChain_append.mp hlr
  cases l with
  | nil =>
    rw [List.append_nil]
    exact ⟨hlr, hwrap⟩
  | cons a l =>
    cases r with
    | nil =>
      rw [List.append_nil] at hlr hwrap
      exact ⟨hlr, hwrap⟩
    | cons b r =>
      refine ⟨List.isChain_append.mpr ⟨hr, hl, fun c hc d hd => hwrap c ?_ d hd⟩, fun c hc d hd => hjoin c ?_ d hd⟩
      · rw [List.getLast?_append, hc]
        rfl
      · rw [List.getLast?_append] at hc
        simpa using hc

theorem circle_cons {l : List Nat} : Circle m (a :: l) ↔ Linked m (a :: l ++ [a]) := by
  refine ⟨fun h => List.isChain_append.mpr ⟨h.1, .singleton a, h.2⟩, fun h => ?_⟩
  obtain ⟨hl, -, hwrap⟩ := List.isChain_append.mp h
  exact ⟨hl, hwrap⟩

theorem Linked.map_dropLast {l : List Nat} (h : Linked m (a :: l)) : (a :: l).dropLast.map (ptrAt m) = l := by
  induction l generalizing a with
  | nil => rfl
  | cons b l ih =>
    obtain ⟨hab, hl⟩ := List.isChain_cons_cons.mp h
    rw [List.dropLast_cons_cons, List.map_cons, hab, ih hl]

theorem Circle.perm {l : List Nat} (h : Circle m l) : (l.map (ptrAt m)).Perm l := by
  cases l with
  | nil => exact .nil
  | cons a l =>
    have hmap : (a :: l ++ [a]).dropLast.map (ptrAt m) = l ++ [a] := Linked.map_dropLast (circle_cons.mp h)
    rw [List.dropLast_concat] at hmap
    rw [hmap]
    exact List.perm_append_singleton a l

theorem Circle.next_mem {l : List Nat} (h : Circle m l) (ha : a ∈ l) : ptrAt m a ∈ l :=
  h.perm.mem_iff.mp (List.mem_map_of_mem ha)

/-! ### Rings of blocks -/

/-- The blocks of a free list in the order of their addresses. A block takes its header, even if it has no units. -/
structure Ring (s : Uheap) (es : List Extent) : Prop where
  links : Circle s.mem (es.map Extent.start)
  spaced : Spaced headerSize es
  size : ∀ e ∈ es, headerSize * sizeAt s.mem e.start = e.len
  inside : ∀ e ∈ es, e.start + max headerSize e.len ≤ s.sz
  mem : PGROUNDUP s.sz ≤ memBytes
  freep : s.freep ∈ es.map Extent.start

/-- A block that has no byte in common with those of the list. -/
structure Block (s : Uheap) (es : List Extent) (e : Extent) : Prop where
  size : headerSize * sizeAt s.mem e.start = e.len
  inside : e.start + max headerSize e.len ≤ s.sz
  apart : ∀ f ∈ es, e.start + max headerSize e.len ≤ f.start ∨ f.start + max headerSize f.len ≤ e.start

def Stops (bp p next : Nat) : Prop := (bp > p ∧ bp < next) ∨ (p ≥ next ∧ (bp > p ∨ bp < next))

theorem wp_freeLoop {R : Nat → Uheap → Prop} {turns z : Nat} {l : List Nat}
    (hl : Linked s.mem (a :: l)) (hno : (a :: l).Pairwise fun a b => ¬ Stops bp a b) (hm : ∀ b ∈ a :: l, Mapped s b)
    (hz : (a :: l).getLast? = some z) (hstop : Stops bp z (ptrAt s.mem z)) (ht : l.length < turns)
    (hr : R z s) : wp (freeLoop bp turns a) R s := by
  induction l generalizing a turns with
  | nil =>
    obtain ⟨t, rfl⟩ := Nat.exists_eq_add_of_lt ht
    obtain rfl : a = z := by simpa using hz
    rw [freeLoop, wp_bind]
    refine wp_ptr (hm a (by simp)) ?_
    rcases hstop with h1 | h2
    · rw [if_pos h1]
      exact wp_pure.mpr hr
    · rw [if_pos h2, ite_self]
      exact wp_pure.mpr hr
  | cons b l ih =>
    obtain ⟨t, rfl⟩ := Nat.exists_eq_add_of_lt ht
    obtain ⟨hab, hl⟩ := List.isChain_cons_cons.mp hl
    obtain ⟨hna, hno⟩ := List.pairwise_cons.mp hno
    have hgo := hna b (by simp)
    rw [freeLoop, wp_bind]
    refine wp_ptr (hm a (by simp)) ?_
    rw [hab, if_neg fun h => hgo (.inl h), if_neg fun h => hgo (.inr h)]
    refine ih hl hno (fun c hc => hm c (by simp [hc])) ?_ (by simp; omega)
    rwa [List.getLast?_cons_cons] at hz

/-- An increasing list is cut at a value that is not in it. -/
theorem exists_cut {l : List Extent} (hs : (l.map Extent.start).Pairwise (· < ·)) (hb : ∀ e ∈ l, e.start ≠ bp) :
    ∃ xs ys, l = xs ++ ys ∧ (∀ x ∈ xs, x.start < bp) ∧ ∀ y ∈ ys, bp < y.start := by
  induction l with
  | nil => exact ⟨[], [], rfl, by simp, by simp⟩
  | cons e l ih =>
    rw [List.map_cons, List.pairwise_cons] at hs
    rcases Nat.lt_or_gt_of_ne (hb e (by simp)) with hlt | hgt
    · obtain ⟨xs, ys, rfl, hx, hy⟩ := ih hs.2 fun e he => hb e (by simp [he])
      exact ⟨e :: xs, ys, rfl, by simpa using ⟨hlt, hx⟩, hy⟩
    · refine ⟨[], e :: l, rfl, by simp, ?_⟩
      intro y hy
      rcases List.mem_cons.mp hy with rfl | hy
      · exact hgt
      · exact lt_trans hgt (hs.1 _ (List.mem_map_of_mem hy))

namespace Ring

variable {es : List Extent}

theorem sz_le (h : Ring s es) : s.sz ≤ memBytes := le_trans (by unfold PGROUNDUP PGSIZE; omega) h.mem

theorem sorted (h : Ring s es) : (es.map Extent.start).Pairwise (· < ·) := by
  refine List.pairwise_map.mpr (h.spaced.imp fun hde => ?_)
  unfold headerSize at hde
  omega

theorem mapped (h : Ring s es) (ha : a ∈ es.map Extent.start) : Mapped s a := by
  obtain ⟨e, he, rfl⟩ := List.mem_map.mp ha
  have := h.inside e he
  unfold Mapped
  omega

theorem length_le (h : Ring s es) : es.length ≤ memBytes := by
  have hnodup : (es.map Extent.start).Nodup := h.sorted.imp ne_of_lt
  have hsub : es.map Extent.start ⊆ List.range memBytes := by
    intro a ha
    have h1 := h.mapped ha
    have h2 := h.sz_le
    unfold Mapped headerSize at h1
    rw [List.mem_range]
    omega
  simpa using (List.subperm_of_subset hnodup hsub).length_le

/-- From any node of the list, the loop gets to the node `z` before the place of `bp`. -/
theorem wp_find {R : Nat → Uheap → Prop} {z : Nat} (h : Ring s (xs ++ ys)) (hx : ∀ x ∈ xs, x.start < bp)
    (hy : ∀ y ∈ ys, bp < y.start) (hz : ((ys ++ xs).map Extent.start).getLast? = some z) (hr : R z s) :
    wp (freeLoop bp memBytes s.freep) R s := by
  have hlinks := h.links
  have hsorted := h.sorted
  have hlen := h.length_le
  have hfreep := h.freep
  have hmap := fun {a} => h.mapped (a := a)
  rw [List.map_append] at hlinks hsorted hfreep hz
  rw [List.map_append] at hmap
  rw [← List.length_map Extent.start, List.map_append] at hlen
  have hX : ∀ a ∈ xs.map Extent.start, a < bp := by simpa using hx
  have hY : ∀ a ∈ ys.map Extent.start, bp < a := by simpa using hy
  generalize xs.map Extent.start = X at *
  generalize ys.map Extent.start = Y at *
  obtain ⟨hsX, hsY, -⟩ := List.pairwise_append.mp hsorted
  obtain ⟨hchain, hwrap⟩ := hlinks.rotate
  -- the loop goes on at every node but the last
  have hno : (Y ++ X).Pairwise fun a b => ¬ Stops bp a b := by
    unfold Stops
    refine List.pairwise_append.mpr ⟨hsY.imp_of_mem fun {a b} ha hb hab => ?_, hsX.imp_of_mem fun {a b} ha hb hab => ?_,
      fun a ha b hb => ?_⟩
    · have := hY a ha
      omega
    · have := hX b hb
      omega
    · have h1 := hY a ha
      have h2 := hX b hb
      omega
  have hstop : Stops bp z (ptrAt s.mem z) := by
    obtain ⟨b, hb⟩ : ∃ b, (Y ++ X).head? = some b := Option.ne_none_iff_exists'.mp fun e => by
      rw [List.head?_eq_none_iff.mp e] at hz
      cases hz
    rw [hwrap z hz b hb]
    -- the first node of an increasing list is the lowest
    have hle : ∀ {l : List Nat}, l.Pairwise (· < ·) → l.head? = some b → z ∈ l → b ≤ z := by
      intro l hl hb hz
      cases l with
      | nil => cases hb
      | cons c l =>
        obtain rfl : c = b := Option.some.inj hb
        rcases List.mem_cons.mp hz with rfl | hz
        · exact le_rfl
        · exact le_of_lt ((List.pairwise_cons.mp hl).1 z hz)
    cases X with
    | nil =>
      rw [List.append_nil] at hz hb
      exact .inr ⟨hle hsY hb (List.mem_of_getLast? hz), .inr (hY b (List.mem_of_head? hb))⟩
    | cons x X =>
      have hzX : (x :: X).getLast? = some z := by simpa [List.getLast?_append] using hz
      have hlt := hX z (List.mem_of_getLast? hzX)
      cases Y with
      | nil => exact .inr ⟨hle hsX hb (List.mem_of_getLast? hzX), .inl hlt⟩
      | cons y Y => exact .inl ⟨hlt, hY b (Option.some.inj hb ▸ by simp)⟩
  obtain ⟨u, v, huv⟩ := List.append_of_mem (List.mem_append.mpr (List.mem_append.mp hfreep).symm)
  rw [huv] at hchain hno hz
  refine wp_freeLoop hchain.right_of_append (List.pairwise_append.mp hno).2.1 (fun b hb => hmap ?_) ?_ hstop ?_ hr
  · have hb' : b ∈ Y ++ X := huv ▸ List.mem_append_right u hb
    exact List.mem_append.mpr (List.mem_append.mp hb').symm
  · rw [List.getLast?_append] at hz
    simpa using hz
  · have hlen' := congrArg List.length huv
    simp only [List.length_append, List.length_cons] at hlen hlen'
    omega

end Ring

/-! ### Joining -/

theorem joinPrev_eq : joinPrev = joinNext := rfl

/-- The header at `a` now has the block behind it, at `b`, in it, or points to it. -/
structure Joins (m m' : Bytes) (a b : Nat) : Prop where
  keeps : Keeps m m' a
  joined : a + headerSize * sizeAt m a = b → ptrAt m' a = ptrAt m b ∧ sizeAt m' a = sizeAt m a + sizeAt m b
  linked : a + headerSize * sizeAt m a ≠ b → ptrAt m' a = b ∧ sizeAt m' a = sizeAt m a

theorem wp_joinNext {Q : Unit → Uheap → Prop} {b : Nat} (ha : Mapped s a) (hb : Mapped s b) (hfar : Far b a)
    (hlt : b < 2 ^ 64) (hsum : a + headerSize * sizeAt s.mem a = b → sizeAt s.mem a + sizeAt s.mem b < 2 ^ 32)
    (hq : ∀ m', Joins s.mem m' a b → Q () { s with mem := m' }) : wp (joinNext a b) Q s := by
  unfold joinNext
  rw [wp_bind]
  refine wp_size ha ?_
  split
  · rename_i hadj
    rw [wp_bind]
    refine wp_size ha ?_
    rw [wp_bind]
    refine wp_size hb ?_
    rw [wp_bind]
    refine wp_setSize ha ?_
    rw [wp_bind]
    refine wp_ptr hb (wp_setPtr ha (hq _ ⟨keeps_setSize.trans keeps_setPtr, fun _ => ⟨?_, ?_⟩, fun hne => absurd hadj hne⟩))
    · rw [ptrAt_setPtr ptrAt_lt, ptrAt_setSize_far hfar]
    · rw [sizeAt_setPtr_self, sizeAt_setSize (hsum hadj)]
  · rename_i hne
    refine wp_setPtr ha (hq _ ⟨keeps_setPtr, fun hadj => absurd hadj hne, fun _ => ⟨ptrAt_setPtr hlt, sizeAt_setPtr_self⟩⟩)

namespace Joins

variable {m' : Bytes} {d f : Extent} {t : List Extent} {z : Nat}

theorem links (hj : Joins m m' d.start f.start) (hd : headerSize * sizeAt m d.start = d.len)
    (hl : Linked m ((f :: t).map Extent.start ++ [z])) (hfar : ∀ g ∈ f :: t, Far g.start d.start) :
    Linked m' ((coalesce d (f :: t)).map Extent.start ++ [z]) := by
  have hl' : Linked m' ((f :: t).map Extent.start ++ [z]) := by
    refine hl.keeps hj.keeps fun a ha => ?_
    rw [List.dropLast_concat] at ha
    obtain ⟨g, hg, rfl⟩ := List.mem_map.mp ha
    exact hfar g hg
  rw [coalesce]
  split
  · rename_i hadj
    rw [Extent.stop, ← hd] at hadj
    refine Linked.cons (List.isChain_of_isChain_cons hl') ?_
    rw [(hj.joined hadj).1]
    exact Linked.head? hl (by simp)
  · rename_i hne
    rw [Extent.stop, ← hd] at hne
    exact Linked.cons hl' (congrArg some (hj.linked hne).1.symm)

theorem size (hj : Joins m m' d.start f.start) (hs : ∀ g ∈ d :: f :: t, headerSize * sizeAt m g.start = g.len)
    (hfar : ∀ g ∈ f :: t, Far g.start d.start) : ∀ g ∈ coalesce d (f :: t), headerSize * sizeAt m' g.start = g.len := by
  have hd := hs d (by simp)
  have hsame : ∀ g ∈ f :: t, headerSize * sizeAt m' g.start = g.len := fun g hg => by
    rw [(hj.keeps _ (hfar g hg)).2]
    exact hs g (List.mem_cons_of_mem d hg)
  rw [coalesce]
  split
  · rename_i hadj
    rw [Extent.stop, ← hd] at hadj
    refine List.forall_mem_cons.mpr ⟨?_, fun g hg => hsame g (List.mem_cons_of_mem f hg)⟩
    rw [(hj.joined hadj).2, Nat.mul_add, hd, hs f (by simp)]
  · rename_i hne
    rw [Extent.stop, ← hd] at hne
    refine List.forall_mem_cons.mpr ⟨?_, hsame⟩
    rw [(hj.linked hne).2, hd]

end Joins

/-! ### `free` -/

theorem far_of_spaced {es fs : List Extent} (h : Spaced headerSize es) (hp : es.Perm fs) :
    fs.Pairwise fun d f => Far f.start d.start :=
  hp.pairwise (h.imp fun hdf => .inr (le_trans (Nat.add_le_add_left (Nat.le_max_left ..) _) hdf)) Or.symm

/-- `e` has its place between `xs` and `ys`. -/
structure Placed (s : Uheap) (xs ys : List Extent) (e : Extent) : Prop where
  ring : Ring s (xs ++ ys)
  spaced : Spaced headerSize (xs ++ e :: ys)
  size : ∀ f ∈ xs ++ e :: ys, headerSize * sizeAt s.mem f.start = f.len
  inside : ∀ f ∈ xs ++ e :: ys, f.start + max headerSize f.len ≤ s.sz

theorem Ring.placed {es : List Extent} (h : Ring s es) (he : Block s es e) : ∃ xs ys, es = xs ++ ys ∧ Placed s xs ys e := by
  have hne : ∀ f ∈ es, f.start ≠ e.start := fun f hf heq => by
    have := he.apart f hf
    unfold headerSize at this
    omega
  obtain ⟨xs, ys, rfl, hx, hy⟩ := exists_cut h.sorted hne
  obtain ⟨h1, h2, h3⟩ := List.pairwise_append.mp h.spaced
  have hperm : (xs ++ e :: ys).Perm (e :: (xs ++ ys)) := List.perm_middle
  refine ⟨xs, ys, rfl, h, List.pairwise_append.mpr ⟨h1, List.pairwise_cons.mpr ⟨fun y hy' => ?_, h2⟩, fun x hx' y hy' => ?_⟩,
    fun f hf => ?_, fun f hf => ?_⟩
  · have h4 := hy y hy'
    have h5 := he.apart y (by simp [hy'])
    omega
  · rcases List.mem_cons.mp hy' with rfl | hy'
    · have h4 := hx x hx'
      have h5 := he.apart x (by simp [hx'])
      omega
    · exact h3 x hx' y hy'
  · rcases List.mem_cons.mp (hperm.mem_iff.mp hf) with rfl | hf
    · exact he.size
    · exact h.size f hf
  · rcases List.mem_cons.mp (hperm.mem_iff.mp hf) with rfl | hf
    · exact he.inside
    · exact h.inside f hf

theorem Placed.lt (h : Placed s xs ys e) : (∀ x ∈ xs, x.start < e.start) ∧ ∀ y ∈ ys, e.start < y.start := by
  obtain ⟨-, h2, h3⟩ := List.pairwise_append.mp h.spaced
  refine ⟨fun x hx => ?_, fun y hy => ?_⟩
  · have := h3 x hx e (by simp)
    unfold headerSize at this
    omega
  · have := (List.pairwise_cons.mp h2).1 y hy
    unfold headerSize at this
    omega

/-- The blocks `r` behind the place of `e`, around to `z` before it. -/
structure Around (s : Uheap) (e z : Extent) (r : List Extent) : Prop where
  links : Linked s.mem (r.map Extent.start ++ [z.start])
  next : ((r ++ [z]).map Extent.start).head? = some (ptrAt s.mem z.start)
  far : (z :: e :: r).Pairwise fun d f => Far f.start d.start
  size : ∀ f ∈ z :: e :: r, headerSize * sizeAt s.mem f.start = f.len
  inside : ∀ f ∈ z :: e :: r, f.start + max headerSize f.len ≤ s.sz
  sz : s.sz ≤ memBytes

namespace Around

variable {z : Extent} {r : List Extent} {Q : Unit → Uheap → Prop}

section

variable (h : Around s e z r)
include h

theorem mapped (hf : f ∈ z :: e :: r) : Mapped s f.start := by
  have := h.inside f hf
  unfold Mapped
  omega

theorem far_last : ∀ f ∈ e :: r, Far f.start z.start := (List.pairwise_cons.mp h.far).1

theorem far_block : ∀ f ∈ z :: r, Far f.start e.start :=
  List.forall_mem_cons.mpr ⟨(h.far_last e (by simp)).symm, (List.pairwise_cons.mp (List.pairwise_cons.mp h.far).2).1⟩

/-- `e` is joined with what is behind it. If that is `z`, the only block, `z` stays behind `e`. -/
theorem wp_joinNext (hlone : r = [] → z.len = 0)
    (hq : ∀ m', Keeps s.mem m' e.start → Linked m' ((coalesce e r).map Extent.start ++ [z.start]) →
      (∀ f ∈ coalesce e r, headerSize * sizeAt m' f.start = f.len) → Q () { s with mem := m' }) :
    wp (joinNext e.start (ptrAt s.mem z.start)) Q s := by
  have hnext : ∃ g ∈ z :: r, ptrAt s.mem z.start = g.start := by
    obtain ⟨g, hg, heq⟩ := List.mem_map.mp (List.mem_of_head? h.next)
    exact ⟨g, by simpa [or_comm] using hg, heq.symm⟩
  obtain ⟨g, hg, hptr⟩ := hnext
  have hge : g ∈ z :: e :: r := List.cons_subset_cons z (List.subset_cons_self e r) hg
  have hes := h.size e (by simp)
  have hgs := h.size g hge
  have hgi := h.inside g hge
  have hsz := h.sz
  rw [hptr]
  refine Umalloc.wp_joinNext (h.mapped (by simp)) (h.mapped hge) (h.far_block g hg) ?_ (fun hadj => ?_) fun m' hj => ?_
  · unfold memBytes PHYSTOP KERNBASE headerSize at *
    omega
  · unfold memBytes PHYSTOP KERNBASE headerSize at *
    omega
  · cases r with
    | nil =>
      obtain rfl : g = z := by simpa using hg
      -- `z` has no units, and points to itself
      have hz : sizeAt s.mem g.start = 0 := by
        have := hlone rfl
        unfold headerSize at hgs
        omega
      have hboth : ptrAt m' e.start = g.start ∧ sizeAt m' e.start = sizeAt s.mem e.start := by
        by_cases hadj : e.start + headerSize * sizeAt s.mem e.start = g.start
        · rw [(hj.joined hadj).1, (hj.joined hadj).2, hz]
          exact ⟨hptr, rfl⟩
        · exact hj.linked hadj
      refine hq m' hj.keeps (List.isChain_pair.mpr hboth.1) ?_
      rw [coalesce, List.forall_mem_singleton, hboth.2, hes]
    | cons f t =>
      have hfg : f.start = g.start := by
        have := h.next
        simp only [List.cons_append, List.map_cons, List.head?_cons, Option.some.injEq] at this
        rw [this, hptr]
      rw [← hfg] at hj
      have hfar : ∀ f' ∈ f :: t, Far f'.start e.start := fun f' hf' => h.far_block f' (List.mem_cons_of_mem z hf')
      exact hq m' hj.keeps (hj.links hes h.links hfar)
        (hj.size (fun f' hf' => h.size f' (List.mem_cons_of_mem z hf')) hfar)

theorem wp_joins (hlone : r = [] → z.len = 0)
    (hq : ∀ m', (∀ a, Far a e.start → Far a z.start → sizeAt m' a = sizeAt s.mem a) →
      Circle m' ((coalesce z (coalesce e r)).map Extent.start) →
      (∀ f ∈ coalesce z (coalesce e r), headerSize * sizeAt m' f.start = f.len) → Q () ⟨m', s.sz, z.start⟩) :
    wp (do joinNext e.start (ptrAt s.mem z.start); joinPrev z.start e.start; setFreep z.start) Q s := by
  rw [wp_bind]
  refine h.wp_joinNext hlone fun m₁ hk hl hs => ?_
  obtain ⟨n, t, heq, -⟩ := exists_coalesce e r
  have hin := stop_of_mem_coalesce (d := e) (l := r) fun f hf => h.inside f (List.mem_cons_of_mem z hf)
  have hstart : ∀ f ∈ coalesce e r, Far f.start z.start := fun f hf => by
    obtain ⟨g, hg, hfg⟩ := start_of_mem_coalesce hf
    rw [hfg]
    exact h.far_last g hg
  have hzs : headerSize * sizeAt m₁ z.start = z.len := by
    rw [(hk _ (h.far_block z (by simp))).2]
    exact h.size z (by simp)
  have hsz := h.sz
  rw [heq] at hl hs hin hstart
  have hes : headerSize * sizeAt m₁ e.start = n := hs ⟨e.start, n⟩ (by simp)
  have hei : e.start + max headerSize n ≤ s.sz := hin ⟨e.start, n⟩ (by simp)
  have hzi := h.inside z (by simp)
  rw [wp_bind, joinPrev_eq]
  refine Umalloc.wp_joinNext (b := e.start) (h.mapped (f := z) (by simp)) (h.mapped (f := e) (by simp)) (h.far_last e (by simp)) ?_
    (fun hadj => ?_) fun m₂ hj => wp_setFreep ?_
  · unfold memBytes PHYSTOP KERNBASE headerSize at *
    omega
  · change z.start + headerSize * sizeAt m₁ z.start = e.start at hadj
    change sizeAt m₁ z.start + sizeAt m₁ e.start < 2 ^ 32
    unfold memBytes PHYSTOP KERNBASE headerSize at *
    omega
  · have hl2 := Joins.links (d := z) (f := ⟨e.start, n⟩) hj hzs hl hstart
    have hs2 := Joins.size (d := z) (f := ⟨e.start, n⟩) hj (List.forall_mem_cons.mpr ⟨hzs, hs⟩) hstart
    rw [← heq] at hl2 hs2
    refine hq m₂ (fun a hae haz => ((hj.keeps a haz).2).trans (hk a hae).2) ?_ hs2
    obtain ⟨n', t', heq', -⟩ := exists_coalesce z (coalesce e r)
    rw [heq'] at hl2 ⊢
    exact circle_cons.mpr hl2

end

end Around

/-- What `free` makes of the list: `e` is put in its place, between `xs` and `ys`. Below all others it does not become
one with the last block, be it the only one. -/
inductive Inserts (e : Extent) : List Extent → List Extent → Prop
  | above {xs ys x} : Inserts e (xs ++ x :: ys) (xs ++ coalesce x (coalesce e ys))
  | below {ys z} (lt : ∀ f ∈ ys ++ [z], e.start < f.start) : Inserts e (ys ++ [z]) (coalesce e ys ++ [z])

namespace Placed

variable {z : Extent} {r : List Extent}

theorem around (h : Placed s xs ys e) (hr : ys ++ xs = r ++ [z]) : Around s e z r := by
  have hcirc : Circle s.mem ((r ++ [z]).map Extent.start) := by
    rw [← hr, List.map_append]
    refine Circle.rotate ?_
    rw [← List.map_append]
    exact h.ring.links
  have hperm : (xs ++ e :: ys).Perm (z :: e :: r) := List.perm_iff_count.mpr fun f => by
    have hcount := congrArg (List.count f) hr
    simp only [List.count_append, List.count_cons, List.count_nil] at hcount ⊢
    omega
  rw [List.map_append] at hcirc
  refine ⟨hcirc.1, ?_, far_of_spaced h.spaced hperm, fun f hf => h.size f (hperm.mem_iff.mpr hf),
    fun f hf => h.inside f (hperm.mem_iff.mpr hf), h.ring.sz_le⟩
  obtain ⟨b, hb⟩ : ∃ b, (r.map Extent.start ++ [z].map Extent.start).head? = some b :=
    Option.ne_none_iff_exists'.mp (by simp)
  rw [List.map_append, hb, hcirc.2 z.start (by simp) b hb]

theorem exists_inserts (h : Placed s xs ys e) (hr : ys ++ xs = r ++ [z]) :
    ∃ us vs, coalesce z (coalesce e r) = us ++ vs ∧ Spaced headerSize (vs ++ us) ∧ Inserts e (xs ++ ys) (vs ++ us) := by
  obtain ⟨hx, hy⟩ := h.lt
  rcases List.eq_nil_or_concat xs with rfl | ⟨xs, x, rfl⟩
  · -- below all others
    rw [List.append_nil] at hr
    subst hr
    have hz : coalesce z (coalesce e r) = [z] ++ coalesce e r := by
      obtain ⟨n, t, heq, -⟩ := exists_coalesce e r
      have hne : z.stop ≠ e.start := by
        have := hy z (by simp)
        unfold Extent.stop
        omega
      rw [heq, coalesce, if_neg hne]
      rfl
    refine ⟨[z], coalesce e r, hz, ?_, .below hy⟩
    by_cases hnil : r = []
    · subst hnil
      exact h.spaced
    · rw [← coalesce_append fun h => absurd h hnil]
      exact Spaced.coalesce (r := []) h.spaced
  · rw [List.concat_eq_append] at *
    rw [← List.append_assoc] at hr
    obtain ⟨rfl, hxz⟩ := List.append_inj' hr rfl
    obtain rfl : x = z := by simpa using hxz
    have hcut : coalesce e (ys ++ xs) = coalesce e ys ++ xs := by
      refine coalesce_append fun _ u hu => ?_
      have := hx u (by simp [List.mem_of_head? hu])
      unfold Extent.stop
      omega
    have hcut' : coalesce x (coalesce e ys ++ xs) = coalesce x (coalesce e ys) ++ xs := by
      refine coalesce_append fun hnil => ?_
      obtain ⟨n, t, heq, -⟩ := exists_coalesce e ys
      rw [heq] at hnil
      cases hnil
    refine ⟨coalesce x (coalesce e ys), xs, by rw [hcut, hcut'], ?_, ?_⟩
    · have hs := h.spaced.coalesce
      rw [List.append_assoc] at hs
      exact Spaced.coalesce hs
    · rw [List.append_assoc]
      exact .above

end Placed

theorem Ring.wp_free {es : List Extent} {Q : Unit → Uheap → Prop} (h : Ring s es) (he : Block s es e)
    (hlone : ∀ f, es = [f] → f.len = 0) (hq : ∀ s' es', Ring s' es' → Inserts e es es' → s'.sz = s.sz →
      (∀ a, Far a e.start → (∀ f ∈ es, Far a f.start) → sizeAt s'.mem a = sizeAt s.mem a) → Q () s') :
    wp (free (e.start + headerSize)) Q s := by
  obtain ⟨xs, ys, rfl, hp⟩ := h.placed he
  have hne : ys ++ xs ≠ [] := fun hnil => by
    have := h.freep
    simp_all
  obtain ⟨r, z, hr⟩ : ∃ r z, ys ++ xs = r ++ [z] := ⟨_, _, (List.dropLast_append_getLast hne).symm⟩
  have ha := hp.around hr
  unfold free
  rw [Nat.add_sub_cancel, wp_bind, wp_get, wp_bind]
  refine h.wp_find hp.lt.1 hp.lt.2 (z := z.start) (by rw [hr]; simp) ?_
  rw [wp_bind]
  refine wp_ptr (ha.mapped (by simp)) ?_
  have hzmem : z ∈ xs ++ ys := List.perm_append_comm.mem_iff.mp (hr ▸ List.mem_append_right r (List.mem_singleton_self z))
  refine ha.wp_joins (fun hnil => ?_) fun m' hframe hcirc hsize => ?_
  · rw [hnil] at hr
    refine hlone z (List.perm_singleton.mp ?_)
    have hperm : (xs ++ ys).Perm (ys ++ xs) := List.perm_append_comm
    rwa [hr] at hperm
  · obtain ⟨us, vs, heq, hspaced, hins⟩ := hp.exists_inserts hr
    have hmem : ∀ {f}, f ∈ vs ++ us → f ∈ coalesce z (coalesce e r) := fun hf =>
      heq ▸ List.mem_append.mpr (List.mem_append.mp hf).symm
    refine hq _ (vs ++ us) ⟨?_, hspaced, fun f hf => ?_, fun f hf => ?_, h.mem, ?_⟩ hins rfl fun a hae haf => hframe a hae (haf z hzmem)
    · rw [heq, List.map_append] at hcirc
      rw [List.map_append]
      exact hcirc.rotate
    · exact hsize f (hmem hf)
    · refine stop_of_mem_coalesce (List.forall_mem_cons.mpr ⟨ha.inside z (by simp), stop_of_mem_coalesce fun g hg => ?_⟩) f (hmem hf)
      exact ha.inside g (List.mem_cons_of_mem z hg)
    · obtain ⟨n, t, hz, -⟩ := exists_coalesce z (coalesce e r)
      have hmap : z.start ∈ (us ++ vs).map Extent.start := by
        rw [← heq, hz]
        simp
      rw [List.map_append, List.mem_append] at hmap ⊢
      exact hmap.symm

/-! ### Any circular list -/

theorem Linked.subset {l l' : List Nat} (h : Linked m (a :: l)) (hc : Circle m l') (ha : a ∈ l') : a :: l ⊆ l' := by
  induction l generalizing a with
  | nil => simpa using ha
  | cons b l ih =>
    obtain ⟨rfl, hl⟩ := List.isChain_cons_cons.mp h
    exact List.cons_subset.mpr ⟨ha, ih hl (hc.next_mem ha)⟩

theorem Ring.unique {es es' : List Extent} (h : Ring s es) (h' : Ring s es') : es = es' := by
  have hsub : ∀ {fs fs' : List Extent}, Ring s fs → Ring s fs' → fs.map Extent.start ⊆ fs'.map Extent.start := by
    intro fs fs' hf hf'
    obtain ⟨u, v, huv⟩ := List.append_of_mem hf.freep
    have hc := hf.links
    rw [huv] at hc ⊢
    have hrot : Linked s.mem (s.freep :: (v ++ u)) := hc.rotate.1
    have hall := hrot.subset hf'.links hf'.freep
    exact fun b hb => hall (List.perm_append_comm.mem_iff.mp hb)
  have hstart : es.map Extent.start = es'.map Extent.start := by
    have hperm : (es.map Extent.start).Perm (es'.map Extent.start) :=
      (List.perm_ext_iff_of_nodup (h.sorted.imp ne_of_lt) (h'.sorted.imp ne_of_lt)).mpr fun b =>
        ⟨fun hb => hsub h h' hb, fun hb => hsub h' h hb⟩
    exact hperm.eq_of_pairwise (fun _ _ _ _ hab hba => absurd hab (Nat.lt_asymm hba)) h.sorted h'.sorted
  have heq : ∀ {fs : List Extent}, Ring s fs → fs = (fs.map Extent.start).map fun b => ⟨b, headerSize * sizeAt s.mem b⟩ := by
    intro fs hf
    rw [List.map_map]
    refine ((List.map_congr_left fun f hf' => ?_).trans (List.map_id fs)).symm
    exact congrArg (Extent.mk f.start) (hf.size f hf')
  rw [heq h, heq h', hstart]

theorem Inserts.covered {es es' : List Extent} (h : Inserts e es es') : covered es' = covered es ∪ covered [e] := by
  have hcons : ∀ d l, Xv6.covered (d :: l) = Xv6.covered [d] ∪ Xv6.covered l := fun d l => covered_append (r := [d])
  cases h with
  | above =>
    rename_i xs ys x
    rw [covered_append, covered_coalesce, hcons x, covered_coalesce, hcons e, covered_append, hcons x ys]
    ac_rfl
  | below =>
    rw [covered_append, covered_coalesce, hcons e, covered_append]
    ac_rfl

theorem Inserts.gapped {es es' : List Extent} (h : Inserts e es es') (hl : Gapped es) (hlone : ∀ f, es = [f] → e.stop ≠ f.start) :
    Gapped es' := by
  cases h with
  | above =>
    rename_i xs ys x
    obtain ⟨hx, hy⟩ := List.isChain_split.mp hl
    exact Gapped.coalesce hx (Gapped.coalesce (r := []) (.singleton e) (List.isChain_of_isChain_cons hy))
  | below lt =>
    rename_i ys z
    by_cases hnil : ys = []
    · subst hnil
      exact List.isChain_pair.mpr (hlone z rfl)
    · rw [← coalesce_append fun h => absurd h hnil]
      exact Gapped.coalesce (r := []) (.singleton e) hl

/-- For any circular list of blocks in ascending order, `base` among them, and any block that is not in it, `free` ends
with such a list of the old units and those of the block. Blocks that are adjacent become one; only a block that ends at
`base`, which has no units, stays apart from it if `base` is alone on the list. -/
theorem free_ring {es : List Extent} {base : Nat} (h : Ring s es) (hbase : ⟨base, 0⟩ ∈ es) (he : Block s es e) :
    wp (free (e.start + headerSize)) (fun _ s' => ∃ es', Ring s' es' ∧ covered es' = covered es ∪ covered [e] ∧
      (Gapped es → (es = [⟨base, 0⟩] → e.stop ≠ base) → Gapped es')) s := by
  have hlone : ∀ {f}, es = [f] → f = ⟨base, 0⟩ := by
    rintro f rfl
    exact (List.mem_singleton.mp hbase).symm
  refine h.wp_free he (fun f hf => by rw [hlone hf]) fun s' es' h' hins _ _ => ⟨es', h', hins.covered, fun hl hne => ?_⟩
  refine hins.gapped hl fun f hf => ?_
  obtain rfl := hlone hf
  exact hne hf

/-- `base` at 16, a free block of one unit at 64, and a block of one unit at 48. -/
def twoHeap : Uheap := ⟨(((Bytes.store (fun _ => 0) 16 8 64).store 64 8 16).store 72 4 1).store 56 4 1, PGSIZE, 16⟩

/-- The block at 48 joins the one behind it. -/
theorem free_ring_two : Ring twoHeap [⟨16, 0⟩, ⟨64, headerSize⟩] ∧ wp (free 64) (fun _ s' => ∃ es', Ring s' es' ∧
    covered es' = covered [⟨16, 0⟩, ⟨64, headerSize⟩] ∪ covered [⟨48, headerSize⟩] ∧ Gapped es') twoHeap := by
  have hring : Ring twoHeap [⟨16, 0⟩, ⟨64, headerSize⟩] := ⟨⟨List.isChain_pair.mpr (by decide), by decide⟩,
    List.pairwise_pair.mpr (by decide), by decide, by decide, by decide, by decide⟩
  refine ⟨hring, (free_ring (e := ⟨48, headerSize⟩) hring List.mem_cons_self ⟨by decide, by decide, by decide⟩).mono ?_⟩
  rintro _ s' ⟨es', h, hc, hl⟩
  exact ⟨es', h, hc, hl (List.isChain_pair.mpr (by decide)) fun he => by simp at he⟩

/-- `base` at 32, alone on the list, and a block of one unit at 16. -/
def loneHeap : Uheap := ⟨(Bytes.store (fun _ => 0) 32 8 32).store 24 4 1, PGSIZE, 32⟩

/-- The block at 16 ends at `base`, and nothing joins the two. -/
theorem free_ring_adjacent : ¬ wp (free 32) (fun _ s' => ∃ es', Ring s' es' ∧
    covered es' = covered [⟨32, 0⟩] ∪ covered [⟨16, headerSize⟩] ∧ (Gapped [⟨32, 0⟩] → Gapped es')) loneHeap := by
  have hring : Ring loneHeap [⟨32, 0⟩] :=
    ⟨⟨.singleton _, by decide⟩, List.pairwise_singleton .., by decide, by decide, by decide, by decide⟩
  have hblock : Block loneHeap [⟨32, 0⟩] ⟨16, headerSize⟩ := ⟨by decide, by decide, by decide⟩
  intro hwp
  have hboth := hring.wp_free (Q := fun _ s' => ∃ es', Ring s' es' ∧ Inserts ⟨16, headerSize⟩ [⟨32, 0⟩] es') hblock (by simp)
    fun s' es' h' hins _ _ => ⟨es', h', hins⟩
  obtain ⟨_, s', hrun, es₁, h₁, hins⟩ := hboth
  obtain ⟨es₂, h₂, -, hl⟩ := hwp.of_eq hrun
  obtain rfl := h₂.unique h₁
  have hl' := hl (.singleton _)
  generalize hes : [(⟨32, 0⟩ : Extent)] = es at hins
  cases hins with
  | above =>
    obtain ⟨rfl, hxy⟩ | ⟨-, hxy⟩ := List.append_eq_singleton_iff.mp hes.symm
    · cases hxy
      exact absurd h₂.sorted (by decide)
    · cases hxy
  | below =>
    obtain ⟨rfl, hz⟩ | ⟨-, hz⟩ := List.append_eq_singleton_iff.mp hes.symm
    · cases hz
      exact absurd rfl (List.isChain_pair.mp hl')
    · cases hz

end Umalloc

end Xv6
