import Xv6.Namex
import Xv6.Proofs.Dir

/-!
# Path lookup follows the path

`walk` is the walk along the components of a path over the directories on the disk. `Near s₀ s held lk` says how the inode table
differs from that at the start: by one reference for each entry in `held`, and by the lock on `lk`. Every step of the loop in
`namex` moves the reference from a directory to what is found in it.
-/

namespace Xv6

open Prog Fs

/-! ### Components -/

/-- A path split at `'/'`, without the empty components, each cut to `DIRSIZ` bytes. -/
def components (path : List UInt8) : List (List UInt8) := ((path.splitOn slash).filter (· ≠ [])).map (·.take DIRSIZ)

variable {path rest elem : List UInt8} {name name' : Bytes}

theorem components_slash (path : List UInt8) : components (slash :: path) = components path := by
  have := List.splitOn_append_cons_self_of_not_mem (a := slash) List.not_mem_nil path
  rw [List.nil_append] at this
  rw [components, components, this, List.filter_cons_of_neg (by simp)]

theorem components_skipSlashes (path : List UInt8) : components (skipSlashes path) = components path := by
  induction path with
  | nil => rfl
  | cons c path ih =>
    rw [skipSlashes, List.dropWhile_cons]
    split
    · rename_i hc
      obtain rfl : c = slash := by simpa using hc
      rw [components_slash]
      exact ih
    · rfl

theorem components_elem {s : List UInt8} (hne : s ≠ []) (hhead : s.head? ≠ some slash) :
    components s = (s.takeWhile (· ≠ slash)).take DIRSIZ :: components (s.dropWhile (· ≠ slash)) := by
  generalize he : s.takeWhile (· ≠ slash) = elem
  generalize hr : s.dropWhile (· ≠ slash) = rest
  obtain rfl : elem ++ rest = s := by rw [← he, ← hr]; exact List.takeWhile_append_dropWhile
  have hslash : slash ∉ elem := fun hm => by
    rw [← he] at hm
    simpa using List.mem_takeWhile_imp hm
  have helem : elem ≠ [] := by
    rintro rfl
    cases rest with
    | nil => exact hne rfl
    | cons c rest =>
      have hc : c ≠ slash := fun e => hhead (by rw [e]; rfl)
      rw [List.nil_append, List.takeWhile_cons_of_pos (by simpa using hc)] at he
      cases he
  have hfilter : ∀ l : List (List UInt8), (elem :: l).filter (· ≠ []) = elem :: l.filter (· ≠ []) := fun l =>
    List.filter_cons_of_pos (by simpa using helem)
  cases rest with
  | nil =>
    rw [List.append_nil, components, List.splitOn_eq_singleton hslash, hfilter]
    rfl
  | cons c rest =>
    have hc : ¬ (c ≠ slash) := fun hc => by
      have := List.head?_dropWhile_not (· ≠ slash) (elem ++ c :: rest)
      rw [hr, List.head?_cons] at this
      simp [hc] at this
    obtain rfl : c = slash := not_not.mp hc
    rw [components_slash, components, List.splitOn_append_cons_self_of_not_mem hslash, hfilter, List.map_cons, components]

theorem skipSlashes_head (path : List UInt8) : (skipSlashes path).head? ≠ some slash := fun e => by
  have := List.head?_dropWhile_not (· = slash) path
  rw [← skipSlashes, e] at this
  simp at this

theorem skipSlashes_eq_nil_iff (path : List UInt8) : skipSlashes path = [] ↔ components (skipSlashes path) = [] := by
  refine ⟨fun h => by rw [h]; rfl, fun h => ?_⟩
  by_contra hne
  rw [components_elem hne (skipSlashes_head path)] at h
  cases h

theorem cutName_eq_take {l : List UInt8} {p : Bytes} {n i : Nat} (h0 : 0 ∉ l) (hl : ∀ k < l.length, k < n → p (i + k) = l.getD k 0)
    (hend : l.length < n → p (i + l.length) = 0) : cutName p n i = l.take n := by
  induction n generalizing l i with
  | zero => rw [cutName, List.take_zero]
  | succ n ih =>
    rw [cutName]
    cases l with
    | nil =>
      have hp : p i = 0 := hend (Nat.succ_pos n)
      rw [if_pos hp, List.take_nil]
    | cons c l =>
      have hc : p i = c := hl 0 (Nat.succ_pos _) (Nat.succ_pos _)
      have hc0 : c ≠ 0 := fun e => h0 (by rw [e]; exact List.mem_cons_self)
      rw [hc, if_neg hc0, List.take_succ_cons, ih (l := l) (fun hm => h0 (List.mem_cons_of_mem _ hm))]
      · intro k hk hkn
        have := hl (k + 1) (Nat.succ_lt_succ hk) (Nat.succ_lt_succ hkn)
        rwa [← add_assoc, Nat.add_right_comm, List.getD_cons_succ] at this
      · intro hlt
        have := hend (Nat.succ_lt_succ hlt)
        rwa [List.length_cons, ← add_assoc, Nat.add_right_comm] at this

theorem nameKey_copyElem (h0 : 0 ∉ elem) : nameKey (copyElem name elem) = elem.take DIRSIZ := by
  refine cutName_eq_take h0 (fun k hk hkn => ?_) fun hlt => ?_
  · rw [zero_add, copyElem]
    split
    · exact if_pos hkn
    · exact if_pos hk
  · rw [zero_add, copyElem, if_neg (by omega), if_neg (lt_irrefl _), if_pos rfl]

theorem skipelem_none (h : skipelem path name = none) : components path = [] := by
  simp only [skipelem] at h
  split at h
  · rename_i hs
    rw [← components_skipSlashes, hs]
    rfl
  · cases h

theorem skipelem_some (h : skipelem path name = some (rest, name')) (h0 : 0 ∉ path) :
    components path = nameKey name' :: components rest ∧ 0 ∉ rest ∧ rest.length < path.length ∧ (rest = [] ↔ components rest = []) := by
  simp only [skipelem] at h
  split at h
  · cases h
  · rename_i hs
    obtain ⟨rfl, rfl⟩ := Prod.mk.inj (Option.some.inj h)
    have hsub : (skipSlashes path).Sublist path := List.dropWhile_sublist _
    have hrest : (skipSlashes ((skipSlashes path).dropWhile (· ≠ slash))).Sublist ((skipSlashes path).dropWhile (· ≠ slash)) :=
      List.dropWhile_sublist _
    have hdrop : ((skipSlashes path).dropWhile (· ≠ slash)).Sublist (skipSlashes path) := List.dropWhile_sublist _
    refine ⟨?_, fun hm => h0 (hsub.subset (hdrop.subset (hrest.subset hm))), ?_, skipSlashes_eq_nil_iff _⟩
    · rw [nameKey_copyElem fun hm => h0 (hsub.subset (List.takeWhile_subset _ hm)), components_skipSlashes,
        ← components_skipSlashes path, components_elem hs (skipSlashes_head path)]
    · refine lt_of_le_of_lt hrest.length_le (lt_of_lt_of_le ?_ hsub.length_le)
      generalize hl : skipSlashes path = l at hs
      cases l with
      | nil => exact absurd rfl hs
      | cons c l =>
        have hc : c ≠ slash := fun e => skipSlashes_head path (by rw [hl, e]; rfl)
        rw [List.dropWhile_cons_of_pos (by simpa using hc)]
        exact Nat.lt_succ_of_le (List.dropWhile_sublist _).length_le

/-! ### The inode table -/

namespace Itable

variable {sb : Super} {s₀ s s' : Itable} {held held' : List (Fin NINODE)} {lk lk' : Option (Fin NINODE)} {i j : Fin NINODE} {inum : Nat}
  {Q : Unit → Itable → Prop}

structure Near (sb : Super) (s₀ s : Itable) (held : List (Fin NINODE)) (lk : Option (Fin NINODE)) : Prop where
  fs : s.fs = s₀.fs
  ref : ∀ i, (s.inode i).ref = (s₀.inode i).ref + held.count i
  inum : ∀ i, 0 < (s₀.inode i).ref → (s.inode i).inum = (s₀.inode i).inum
  coherent : ∀ i, 0 < (s.inode i).ref → (s.inode i).valid = true → (s.inode i).ip = dinode sb s₀.fs.data (s.inode i).inum
  inj : ∀ i j, 0 < (s.inode i).ref → 0 < (s.inode j).ref → (s.inode i).inum = (s.inode j).inum → i = j
  locked : ∀ i, (s.inode i).locked = true ↔ lk = some i

theorem set_self (s : Itable) (i : Fin NINODE) (x : Incore) : (s.set i x).inode i = x := Function.update_self ..

theorem set_of_ne (s : Itable) (x : Incore) (h : j ≠ i) : (s.set i x).inode j = s.inode j := Function.update_of_ne h ..

namespace Near

variable (h : Near sb s₀ s held lk)
include h

theorem perm (hp : held.Perm held') : Near sb s₀ s held' lk :=
  ⟨h.fs, fun i => by rw [h.ref, hp.count_eq], h.inum, h.coherent, h.inj, h.locked⟩

theorem ref_pos (hi : i ∈ held) : 0 < (s.inode i).ref := by
  rw [h.ref]
  exact Nat.add_pos_right _ (List.count_pos_iff.mpr hi)

theorem update {x : Incore} (href : x.ref = (s₀.inode i).ref + held'.count i)
    (hheld : ∀ j, j ≠ i → held'.count j = held.count j) (hinum : 0 < (s₀.inode i).ref → x.inum = (s₀.inode i).inum)
    (hcoh : 0 < x.ref → x.valid = true → x.ip = dinode sb s₀.fs.data x.inum)
    (hinj : ∀ j, j ≠ i → 0 < x.ref → 0 < (s.inode j).ref → x.inum ≠ (s.inode j).inum)
    (hlock : x.locked = true ↔ lk' = some i) (hlk : ∀ j, j ≠ i → (lk = some j ↔ lk' = some j)) :
    Near sb s₀ (s.set i x) held' lk' := by
  refine ⟨h.fs, fun j => ?_, fun j => ?_, fun j => ?_, fun j k => ?_, fun j => ?_⟩
  all_goals by_cases hj : j = i
  any_goals subst hj; rw [set_self]
  any_goals rw [set_of_ne _ _ hj]
  · exact href
  · rw [h.ref, hheld j hj]
  · exact hinum
  · exact h.inum j
  · exact hcoh
  · exact h.coherent j
  · by_cases hk : k = j
    · exact fun _ _ _ => hk.symm
    · rw [set_of_ne _ _ hk]
      exact fun h1 h2 he => absurd he (hinj k hk h1 h2)
  · by_cases hk : k = i
    · rw [hk, set_self]
      exact fun h1 h2 he => absurd he.symm (hinj j hj h2 h1)
    · rw [set_of_ne _ _ hk]
      exact h.inj j k
  · exact hlock
  · rw [h.locked, hlk j hj]

theorem update_of_pos (hpos : 0 < (s.inode i).ref) {x : Incore} (hx : x.inum = (s.inode i).inum)
    (href : x.ref = (s₀.inode i).ref + held'.count i) (hheld : ∀ j, j ≠ i → held'.count j = held.count j)
    (hcoh : 0 < x.ref → x.valid = true → x.ip = dinode sb s₀.fs.data x.inum) (hlock : x.locked = true ↔ lk' = some i)
    (hlk : ∀ j, j ≠ i → (lk = some j ↔ lk' = some j)) :
    Near sb s₀ (s.set i x) held' lk' ∧ ∀ j, ((s.set i x).inode j).inum = (s.inode j).inum := by
  refine ⟨h.update href hheld (fun h₀ => hx.trans (h.inum i h₀)) hcoh (fun j hj _ hj' he => hj ?_) hlock hlk, fun j => ?_⟩
  · exact (h.inj i j hpos hj' (hx.symm.trans he)).symm
  · by_cases hj : j = i
    · rw [hj, set_self, hx]
    · rw [set_of_ne _ _ hj]

theorem incr (hpos : 0 < (s.inode i).ref) :
    Near sb s₀ (s.set i { s.inode i with ref := (s.inode i).ref + 1 }) (i :: held) lk ∧
    ∀ j, ((s.set i { s.inode i with ref := (s.inode i).ref + 1 }).inode j).inum = (s.inode j).inum := by
  refine h.update_of_pos hpos rfl ?_ (fun j hj => List.count_cons_of_ne hj.symm) (fun _ hv => h.coherent i hpos hv) (h.locked i)
    fun _ _ => Iff.rfl
  rw [List.count_cons_self, ← add_assoc, ← h.ref]

theorem fresh (h0 : (s.inode i).ref = 0) (hnew : ∀ j, 0 < (s.inode j).ref → (s.inode j).inum ≠ inum) :
    Near sb s₀ (s.set i { s.inode i with inum := inum, ref := 1, valid := false }) (i :: held) lk := by
  have href := h.ref i
  refine h.update ?_ (fun j hj => List.count_cons_of_ne hj.symm) (fun hpos => by omega) (fun _ hv => absurd hv Bool.false_ne_true)
    (fun j _ _ hj => (hnew j hj).symm) (h.locked i) fun _ _ => Iff.rfl
  rw [List.count_cons_self]
  dsimp only
  omega

end Near

theorem igetLoop_spec (inode : Fin NINODE → Incore) (inum : Nat) (is : List (Fin NINODE)) (empty : Option (Fin NINODE))
    (he : ∀ i, empty = some i → (inode i).ref = 0) :
    (∀ i, (igetLoop inode inum is empty).1 = some i → 0 < (inode i).ref ∧ (inode i).inum = inum) ∧
    ((igetLoop inode inum is empty).1 = none → ∀ i ∈ is, 0 < (inode i).ref → (inode i).inum ≠ inum) ∧
    (∀ i, (igetLoop inode inum is empty).2 = some i → (inode i).ref = 0) ∧
    ((igetLoop inode inum is empty).1 = none → (igetLoop inode inum is empty).2 = none → empty = none ∧ ∀ i ∈ is, (inode i).ref ≠ 0) := by
  induction is generalizing empty with
  | nil => exact ⟨fun i h => (by cases h), fun _ i hi => (by cases hi), he, fun _ h => ⟨h, fun i hi => (by cases hi)⟩⟩
  | cons k is ih =>
    rw [igetLoop]
    split
    · rename_i hk
      refine ⟨fun i h => ?_, fun h => ?_, he, fun h => ?_⟩
      · obtain rfl := Option.some.inj h
        exact hk
      · cases h
      · cases h
    · rename_i hk
      have he' : ∀ i, (if empty.isNone ∧ (inode k).ref = 0 then some k else empty) = some i → (inode i).ref = 0 := fun i hi => by
        split at hi
        · rename_i hc
          obtain rfl := Option.some.inj hi
          exact hc.2
        · exact he i hi
      obtain ⟨h1, h2, h3, h4⟩ := ih _ he'
      refine ⟨h1, fun h i hi hpos heq => ?_, h3, fun h h' => ?_⟩
      · rcases List.mem_cons.mp hi with rfl | hi
        · exact hk ⟨hpos, heq⟩
        · exact h2 h i hi hpos heq
      · obtain ⟨hnone, hall⟩ := h4 h h'
        split at hnone
        · cases hnone
        · rename_i hc
          refine ⟨hnone, fun i hi => ?_⟩
          rcases List.mem_cons.mp hi with rfl | hi
          · exact fun h0 => hc ⟨by rw [hnone]; rfl, h0⟩
          · exact hall i hi

theorem wp_iget {Q : Fin NINODE → Itable → Prop} (h : Near sb s₀ s held lk) (hfree : ∃ i, (s.inode i).ref = 0)
    (hQ : ∀ j s', Near sb s₀ s' (j :: held) lk → (s'.inode j).inum = inum →
      (∀ i, 0 < (s.inode i).ref → (s'.inode i).inum = (s.inode i).inum) → Q j s') : wp (iget inum) Q s := by
  obtain ⟨h1, h2, h3, h4⟩ := igetLoop_spec s.inode inum (List.finRange NINODE) none fun i hi => (by cases hi)
  rw [iget]
  simp only [wp_bind, wp_get]
  generalize igetLoop s.inode inum (List.finRange NINODE) none = r at h1 h2 h3 h4
  obtain ⟨found, empty⟩ := r
  cases found with
  | some i =>
    obtain ⟨hpos, hinum⟩ := h1 i rfl
    rw [wp_bind, wp_modify, wp_pure]
    obtain ⟨hnear, hsame⟩ := h.incr hpos
    exact hQ i _ hnear ((hsame i).trans hinum) fun j _ => hsame j
  | none =>
    cases empty with
    | some i =>
      have h0 := h3 i rfl
      rw [wp_bind, wp_modify, wp_pure]
      refine hQ i _ (h.fresh h0 fun j => h2 rfl j (List.mem_finRange j)) (by rw [set_self]) fun j hj => ?_
      rw [set_of_ne _ _ fun e => by rw [e, h0] at hj; exact lt_irrefl 0 hj]
    | none =>
      obtain ⟨i, hi⟩ := hfree
      exact absurd hi ((h4 rfl rfl).2 i (List.mem_finRange i))

theorem wp_ilock (h : Near sb s₀ s held none) (hi : i ∈ held) (htype : (dinode sb s₀.fs.data (s.inode i).inum).type ≠ 0)
    (hQ : ∀ s', Near sb s₀ s' held (some i) → (∀ j, (s'.inode j).inum = (s.inode j).inum) →
      (s'.inode i).ip = dinode sb s₀.fs.data (s.inode i).inum → Q () s') : wp (ilock sb i) Q s := by
  have hpos := h.ref_pos hi
  have hunlocked : ¬ (s.inode i).locked = true := fun hl => by cases (h.locked i).mp hl
  have hlk : ∀ j, j ≠ i → ((none : Option (Fin NINODE)) = some j ↔ some i = some j) := fun j hj =>
    iff_of_false (fun e => by cases e) fun e => hj (Option.some.inj e).symm
  rw [ilock, wp_bind, wp_get, if_neg (by omega), if_neg hunlocked]
  split
  · rename_i hv
    rw [wp_modify]
    obtain ⟨hnear, hsame⟩ := h.update_of_pos (x := { s.inode i with locked := true }) hpos rfl (h.ref i) (fun _ _ => rfl)
      (fun _ hv => h.coherent i hpos hv) (iff_of_true rfl rfl) hlk
    exact hQ _ hnear hsame (by rw [set_self]; exact h.coherent i hpos hv)
  · simp only [wp_bind, wp_get, wp_modify]
    have hip : Inode.get (s.fs.data (sb.IBLOCK (s.inode i).inum)) ((s.inode i).inum % IPB * dinodeSize) =
        dinode sb s₀.fs.data (s.inode i).inum := by rw [h.fs, dinode]
    rw [hip, if_neg htype, wp_pure]
    obtain ⟨hnear, hsame⟩ := h.update_of_pos
      (x := { s.inode i with locked := true, ip := dinode sb s₀.fs.data (s.inode i).inum, valid := true }) hpos rfl (h.ref i)
      (fun _ _ => rfl) (fun _ _ => rfl) (iff_of_true rfl rfl) hlk
    exact hQ _ hnear hsame (by rw [set_self])

theorem wp_iunlock (h : Near sb s₀ s held (some i)) (hi : i ∈ held)
    (hQ : ∀ s', Near sb s₀ s' held none → (∀ j, (s'.inode j).inum = (s.inode j).inum) → Q () s') : wp (iunlock i) Q s := by
  have hpos := h.ref_pos hi
  have hlocked : (s.inode i).locked = true := (h.locked i).mpr rfl
  rw [iunlock, wp_bind, wp_get, if_neg (by rw [hlocked]; simp; omega), wp_modify]
  obtain ⟨hnear, hsame⟩ := h.update_of_pos (x := { s.inode i with locked := false }) hpos rfl (h.ref i) (fun _ _ => rfl)
    (fun _ hv => h.coherent i hpos hv) (iff_of_false Bool.false_ne_true (Option.some_ne_none i).symm) fun j hj =>
      iff_of_false (fun e => hj (Option.some.inj e).symm) (Option.some_ne_none j).symm
  exact hQ _ hnear hsame

/-- A reference is dropped that is not the last one of an inode without links. -/
theorem wp_iput (h : Near sb s₀ s (i :: held) none)
    (hlive : (s₀.inode i).ref = 0 → (dinode sb s₀.fs.data (s.inode i).inum).nlink ≠ 0)
    (hQ : ∀ s', Near sb s₀ s' held none → (∀ j, (s'.inode j).inum = (s.inode j).inum) → Q () s') : wp (iput sb i) Q s := by
  have hpos := h.ref_pos List.mem_cons_self
  have href := h.ref i
  rw [List.count_cons_self] at href
  have hkeep : ¬ ((s.inode i).ref = 1 ∧ (s.inode i).valid = true ∧ (s.inode i).ip.nlink = 0) := fun hc => by
    refine hlive (by omega) ?_
    rw [← h.coherent i hpos hc.2.1]
    exact hc.2.2
  rw [iput, wp_bind, wp_get, if_neg hkeep]
  simp only [wp_modify]
  obtain ⟨hnear, hsame⟩ := h.update_of_pos (x := { s.inode i with ref := (s.inode i).ref - 1 }) hpos rfl
    (by dsimp only; omega) (fun j hj => (List.count_cons_of_ne hj.symm).symm) (fun _ hv => h.coherent i hpos hv) (h.locked i) fun _ _ => Iff.rfl
  exact hQ _ hnear hsame

theorem wp_iunlockput (h : Near sb s₀ s (i :: held) (some i))
    (hlive : (s₀.inode i).ref = 0 → (dinode sb s₀.fs.data (s.inode i).inum).nlink ≠ 0)
    (hQ : ∀ s', Near sb s₀ s' held none → (∀ j, (s'.inode j).inum = (s.inode j).inum) → Q () s') : wp (iunlockput sb i) Q s := by
  rw [iunlockput, wp_bind]
  refine wp_iunlock h List.mem_cons_self fun s' hs' hsame => wp_iput hs' (by rw [hsame]; exact hlive) fun s'' hs'' hsame' => ?_
  exact hQ s'' hs'' fun j => (hsame' j).trans (hsame j)

/-! ### The walk -/

def child (sb : Super) (data : Nat → Bytes) (i : Nat) (key : List UInt8) : Option Nat :=
  Slots.find (dirSlot data (dinode sb data i)) ((dinode sb data i).size / direntSize) key

def follow (sb : Super) (data : Nat → Bytes) : Nat → List (List UInt8) → Option Nat
  | i, [] => some i
  | i, c :: cs => if (dinode sb data i).type = T_DIR then (child sb data i c).bind fun j => follow sb data j cs else none

def followParent (sb : Super) (data : Nat → Bytes) (i : Nat) (cs : List (List UInt8)) : Option Nat :=
  if cs = [] then none else (follow sb data i cs.dropLast).filter fun j => (dinode sb data j).type = T_DIR

/-- What `namex` is to find. -/
def walk (sb : Super) (data : Nat → Bytes) (nameiparent : Bool) (i : Nat) (cs : List (List UInt8)) : Option Nat :=
  if nameiparent then followParent sb data i cs else follow sb data i cs

/-- A disk whose directories have whole entries and no holes; the root, and what entries name, is `Ok`. -/
structure Tree (sb : Super) (data : Nat → Bytes) (Ok : Nat → Prop) : Prop where
  dir : ∀ i < sb.ninodes, (dinode sb data i).type = T_DIR → ∃ n, IsDir data (dinode sb data i) n
  root : ROOTINO < sb.ninodes ∧ Ok ROOTINO
  named : ∀ i < sb.ninodes, (dinode sb data i).type = T_DIR → ∀ key j, child sb data i key = some j →
    j < sb.ninodes ∧ Ok j

/-- Inode `j` is allocated. -/
abbrev Typed (sb : Super) (data : Nat → Bytes) (j : Nat) : Prop := (dinode sb data j).type ≠ 0

/-- It is allocated, and has links or is referred to from memory. -/
def Live (sb : Super) (s : Itable) (j : Nat) : Prop :=
  Typed sb s.fs.data j ∧ ((dinode sb s.fs.data j).nlink ≠ 0 ∨ ∃ i, 0 < (s.inode i).ref ∧ (s.inode i).inum = j)

/-- Nothing is locked; the inodes in use are there once, as they are on the disk; two entries of the table are free. -/
structure Quiet (sb : Super) (s : Itable) : Prop where
  unlocked : ∀ i, (s.inode i).locked = false
  coherent : ∀ i, 0 < (s.inode i).ref → (s.inode i).valid = true → (s.inode i).ip = dinode sb s.fs.data (s.inode i).inum
  inj : ∀ i j, 0 < (s.inode i).ref → 0 < (s.inode j).ref → (s.inode i).inum = (s.inode j).inum → i = j
  free : ∃ i j, i ≠ j ∧ (s.inode i).ref = 0 ∧ (s.inode j).ref = 0

variable {data : Nat → Bytes} {np : Bool} {c : List UInt8} {cs : List (List UInt8)} {n : Nat}

theorem walk_nil : walk sb data np n [] = if np then none else some n := by
  cases np <;> rfl

theorem walk_cons : walk sb data np n (c :: cs) = if (dinode sb data n).type = T_DIR then
    if np = true ∧ cs = [] then some n else (child sb data n c).bind fun j => walk sb data np j cs else none := by
  cases np with
  | false => rw [walk, if_neg Bool.false_ne_true, follow]; simp [walk]
  | true =>
    cases cs with
    | nil =>
      simp only [walk, followParent, if_true, List.dropLast_singleton, follow, reduceCtorEq, if_false, and_self, Option.filter_some,
        decide_eq_true_eq]
    | cons c' cs =>
      simp only [walk, followParent, if_true, List.dropLast_cons_cons, follow, reduceCtorEq, if_false, and_false]
      split
      · cases child sb data n c <;> rfl
      · rfl

theorem Quiet.near (h : Quiet sb s) : Near sb s s [] none :=
  ⟨rfl, fun i => by rw [List.count_nil, add_zero], fun _ _ => rfl, h.coherent, h.inj, fun i => by
    rw [h.unlocked]
    exact iff_of_false Bool.false_ne_true (Option.some_ne_none i).symm⟩

theorem Quiet.free_of_near (hq : Quiet sb s₀) (h : Near sb s₀ s [i] lk) : ∃ j, (s.inode j).ref = 0 := by
  obtain ⟨a, b, hab, ha, hb⟩ := hq.free
  by_cases hai : i = a
  · exact ⟨b, by rw [h.ref, hb, List.count_singleton, hai, if_neg (by simpa using hab)]⟩
  · exact ⟨a, by rw [h.ref, ha, List.count_singleton, if_neg (by simpa using hai)]⟩

theorem Near.live (h : Near sb s₀ s held lk) (hi : i ∈ held) (hl : Live sb s₀ (s.inode i).inum) (href : (s₀.inode i).ref = 0) :
    (dinode sb s₀.fs.data (s.inode i).inum).nlink ≠ 0 := by
  refine hl.2.resolve_right fun ⟨j, hpos, hinum⟩ => ?_
  have hpos' : 0 < (s.inode j).ref := by rw [h.ref]; omega
  obtain rfl : j = i := h.inj j i hpos' (h.ref_pos hi) ((h.inum j hpos).trans hinum)
  omega

/-- What `namex` returns, and leaves. -/
structure Outcome (sb : Super) (s₀ : Itable) (np : Bool) (cs : List (List UInt8)) (found : Option Nat)
    (r : Option (Fin NINODE) × Bytes) (s' : Itable) : Prop where
  inum : r.1.map (fun i => (s'.inode i).inum) = found
  near : Near sb s₀ s' r.1.toList none
  name : np = true → r.1.isSome → cs.getLast? = some (nameKey r.2)

theorem Outcome.none_of {name : Bytes} (h : Near sb s₀ s [] none) : Outcome sb s₀ np cs none (none, name) s :=
  ⟨rfl, h, fun _ hs => absurd hs Bool.false_ne_true⟩

theorem wp_dirlookup_near {Q : Option (Nat × Nat) × Inode → Itable → Prop} (h : Near sb s₀ s held lk)
    (hdir : IsDir s₀.fs.data (dinode sb s₀.fs.data inum) n) (hip : (s.inode i).ip = dinode sb s₀.fs.data inum)
    (hQ : ∀ r, r.map Prod.fst = child sb s₀.fs.data inum (nameKey name) → Q (r, (s.inode i).ip) s) :
    wp (onFs (dirlookup sb (s.inode i).ip name)) Q s := by
  have hn : (dinode sb s₀.fs.data inum).size / direntSize = n := by
    rw [hdir.size]
    exact Nat.mul_div_cancel_left n (by decide)
  rw [onFs, wp_zoom, wp_mapError, hip]
  refine (wp_dirlookup (s := s.fs) (by rw [h.fs]; exact hdir)).mono fun r t hr => ?_
  obtain ⟨r, dp⟩ := r
  obtain ⟨hfound, rfl, rfl⟩ := hr
  rw [h.fs] at hfound
  rw [← hip]
  refine hQ r ?_
  rw [child, hn]
  exact hfound.find_eq.symm

theorem wp_namexLoop (ht : Tree sb s₀.fs.data (Live sb s₀)) (hq : Quiet sb s₀) {turns : Nat} (h : Near sb s₀ s [i] none)
    (hlt : (s.inode i).inum < sb.ninodes) (htype : (dinode sb s₀.fs.data (s.inode i).inum).type ≠ 0)
    (hlive : (s₀.inode i).ref = 0 → (dinode sb s₀.fs.data (s.inode i).inum).nlink ≠ 0) (h0 : 0 ∉ path) (hturns : path.length < turns) :
    wp (namexLoop sb np turns i path name)
      (fun r s' => Outcome sb s₀ np (components path) (walk sb s₀.fs.data np (s.inode i).inum (components path)) r s') s := by
  induction turns generalizing s i path name with
  | zero => exact absurd hturns (Nat.not_lt_zero _)
  | succ turns ih =>
    rw [namexLoop]
    cases hskip : skipelem path name with
    | none =>
      rw [skipelem_none hskip, walk_nil]
      dsimp only
      split
      · rw [wp_bind]
        refine wp_iput h hlive fun s' hs' _ => ?_
        rw [wp_pure]
        exact .none_of hs'
      · rename_i hnp
        rw [wp_pure]
        exact ⟨rfl, h, fun hnp' => absurd hnp' hnp⟩
    | some r =>
      obtain ⟨rest, name'⟩ := r
      obtain ⟨hcomp, h0', hlen, hnil⟩ := skipelem_some hskip h0
      rw [hcomp, walk_cons]
      rw [wp_bind]
      refine wp_ilock h List.mem_cons_self htype fun s₁ h1 hsame1 hip => ?_
      rw [wp_bind, wp_get, hip]
      by_cases hdir : (dinode sb s₀.fs.data (s.inode i).inum).type = T_DIR
      · rw [if_pos hdir, if_neg (not_not.mpr hdir)]
        by_cases hlast : np = true ∧ components rest = []
        · -- one level early
          rw [if_pos hlast, if_pos (by rw [Bool.and_eq_true, List.isEmpty_iff, hnil]; exact hlast), wp_bind]
          refine wp_iunlock h1 List.mem_cons_self fun s' hs' hsame => ?_
          rw [wp_pure]
          refine ⟨congrArg some ((hsame i).trans (hsame1 i)), hs', fun _ _ => ?_⟩
          rw [hlast.2]
          rfl
        · rw [if_neg hlast, if_neg (by rw [Bool.and_eq_true, List.isEmpty_iff, hnil]; exact hlast)]
          obtain ⟨n, hn⟩ := ht.dir _ hlt hdir
          rw [wp_bind, wp_get, wp_bind]
          refine wp_dirlookup_near h1 hn hip fun found hfound => ?_
          have hset : s₁.set i { s₁.inode i with ip := (s₁.inode i).ip } = s₁ := by
            rw [set, Function.update_eq_self]
          rw [wp_bind, wp_modify, hset, ← hfound]
          have hlive1 := (hsame1 i).symm ▸ hlive
          cases found with
          | none =>
            dsimp only
            rw [wp_bind]
            refine wp_iunlockput h1 hlive1 fun s' hs' _ => ?_
            rw [wp_pure]
            exact .none_of hs'
          | some r =>
            obtain ⟨inum, off⟩ := r
            obtain ⟨hjlt, hjlive⟩ := ht.named _ hlt hdir _ _ hfound.symm
            dsimp only
            rw [wp_bind]
            -- the reference moves from the directory to what is in it
            refine wp_iget h1 (hq.free_of_near h1) fun j s₂ h2 hinum hsame2 => ?_
            rw [wp_bind]
            refine wp_iunlockput (h2.perm (.swap ..)) (by rw [hsame2 i (h1.ref_pos List.mem_cons_self)]; exact hlive1)
              fun s₃ h3 hsame3 => ?_
            have hj : (s₃.inode j).inum = inum := (hsame3 j).trans hinum
            refine (ih h3 (hj ▸ hjlt) (hj ▸ hjlive.1) (h3.live List.mem_cons_self (hj ▸ hjlive)) h0' (by omega)).mono fun r s' hr => ?_
            refine ⟨by rw [hr.inum, hj]; rfl, hr.near, fun hnp hs => ?_⟩
            rw [List.getLast?_cons, hr.name hnp hs]
            rfl
      · -- not a directory
        rw [if_neg hdir, if_pos hdir, wp_bind]
        refine wp_iunlockput h1 (by rw [hsame1]; exact hlive) fun s' hs' _ => ?_
        rw [wp_pure]
        exact .none_of hs'

theorem wp_namex (ht : Tree sb s.fs.data (Live sb s)) (hq : Quiet sb s) {cwd : Fin NINODE} (hcwd : 0 < (s.inode cwd).ref)
    (hlt : (s.inode cwd).inum < sb.ninodes) (htype : (dinode sb s.fs.data (s.inode cwd).inum).type ≠ 0) (h0 : 0 ∉ path) :
    wp (namex sb cwd path np name) (fun r s' => Outcome sb s np (components path) (walk sb s.fs.data np
      (if path.head? = some slash then ROOTINO else (s.inode cwd).inum) (components path)) r s') s := by
  have hfree : ∃ i, (s.inode i).ref = 0 := by
    obtain ⟨i, -, -, hi, -⟩ := hq.free
    exact ⟨i, hi⟩
  rw [namex]
  split
  · rw [wp_bind]
    refine wp_iget hq.near hfree fun i s' h hinum _ => ?_
    rw [← hinum]
    exact wp_namexLoop ht hq h (hinum ▸ ht.root.1) (hinum ▸ ht.root.2.1) (h.live List.mem_cons_self (hinum ▸ ht.root.2)) h0 (Nat.lt_succ_self _)
  · rw [wp_bind, idup, wp_bind, wp_modify, wp_pure]
    obtain ⟨h, hsame⟩ := hq.near.incr hcwd
    have hinum := hsame cwd
    rw [← hinum]
    exact wp_namexLoop ht hq h (hinum ▸ hlt) (hinum ▸ htype) (fun hr => absurd hcwd (by omega)) h0 (Nat.lt_succ_self _)

/-- The references that are there after a lookup are those before, and one to what is returned; no inode is locked, and nothing
is written. -/
structure Unchanged (s : Itable) (r : Option (Fin NINODE)) (s' : Itable) : Prop where
  fs : s'.fs = s.fs
  ref : ∀ i, (s'.inode i).ref = (s.inode i).ref + if r = some i then 1 else 0
  inum : ∀ i, 0 < (s.inode i).ref → (s'.inode i).inum = (s.inode i).inum
  unlocked : ∀ i, (s'.inode i).locked = false

theorem Near.unchanged {r : Option (Fin NINODE)} (h : Near sb s s' r.toList none) : Unchanged s r s' := by
  refine ⟨h.fs, fun i => ?_, h.inum, fun i => ?_⟩
  · rw [h.ref]
    cases r with
    | none => rfl
    | some j => simp [List.count_singleton]
  · rw [Bool.eq_false_iff]
    exact fun hl => absurd ((h.locked i).mp hl) (Option.some_ne_none i).symm

/-- `namei` finds what is at the end of the path, and `nameiparent` the directory in front of the last component, with that
component; for any path, over any tree whose entries name inodes that are allocated, and have links or are referred to. -/
theorem path_lookup {sb : Super} {s : Itable} (cwd : Fin NINODE) (ht : Tree sb s.fs.data (Live sb s)) (hq : Quiet sb s)
    (hcwd : 0 < (s.inode cwd).ref) (hlt : (s.inode cwd).inum < sb.ninodes)
    (htype : Typed sb s.fs.data (s.inode cwd).inum) (path : List UInt8) (h0 : 0 ∉ path) (name : Bytes) :
    wp (namei sb cwd path name) (fun r s' => r.map (fun i => (s'.inode i).inum) = follow sb s.fs.data
      (if path.head? = some slash then ROOTINO else (s.inode cwd).inum) (components path) ∧ Unchanged s r s') s ∧
    wp (nameiparent sb cwd path name) (fun r s' => r.1.map (fun i => (s'.inode i).inum) = followParent sb s.fs.data
      (if path.head? = some slash then ROOTINO else (s.inode cwd).inum) (components path) ∧
      (r.1.isSome → (components path).getLast? = some (nameKey r.2)) ∧ Unchanged s r.1 s') s := by
  refine ⟨?_, ?_⟩
  · rw [namei, wp_bind]
    refine (wp_namex ht hq hcwd hlt htype h0).mono fun r s' hr => ?_
    rw [wp_pure]
    exact ⟨hr.inum, hr.near.unchanged⟩
  · exact (wp_namex ht hq hcwd hlt htype h0).mono fun r s' hr => ⟨hr.inum, hr.name rfl, hr.near.unchanged⟩

/-- A root with a directory `a`, which has `n` links, and in which `..` is the root. -/
def loopDisk (n : UInt8) (b x : Nat) : UInt8 :=
  match b, x with
  | 2, 64 | 2, 70 => 1
  | 2, 72 => 16
  | 2, 76 => 5
  | 2, 128 => 1
  | 2, 134 => n
  | 2, 136 => 16
  | 2, 140 => 6
  | 4, 0 => 0x7f
  | 5, 0 => 2
  | 5, 2 => 97
  | 6, 0 => 1
  | 6, 2 | 6, 3 => 46
  | _, _ => 0

def loopTable (n : UInt8) : Itable where
  fs := ⟨loopDisk n, []⟩
  inode i := ⟨1, if i.val = 0 then 1 else 0, false, false, emptyFile⟩

/-- `/a/../a/..` -/
def loopPath : List UInt8 := [47, 97, 47, 46, 46, 47, 97, 47, 46, 46]

theorem type_loopDisk (n : UInt8) : ∀ i < 16, (dinode tinySuper (loopDisk n) i).type = if i = 1 ∨ i = 2 then T_DIR else 0 := by
  intro i hi
  interval_cases i <;> rfl

theorem size_loopDisk {n : UInt8} {i : Nat} (hi : i = 1 ∨ i = 2) : (dinode tinySuper (loopDisk n) i).size = direntSize * 1 := by
  rcases hi with rfl | rfl <;> rfl

theorem child_loopDisk {n : UInt8} {i j : Nat} {key : List UInt8} (hi : i = 1 ∨ i = 2)
    (h : child tinySuper (loopDisk n) i key = some j) : j = 1 ∨ j = 2 := by
  rw [child, size_loopDisk hi] at h
  obtain ⟨k, hk, hj⟩ := Option.bind_eq_some_iff.mp h
  obtain rfl : k = 0 := Nat.lt_one_iff.mp (List.mem_range.mp (List.mem_of_find?_eq_some hk))
  rcases hi with rfl | rfl
  · exact .inr (Option.some.inj hj).symm
  · exact .inl (Option.some.inj hj).symm

theorem tree_loopDisk {n : UInt8} {Ok : Nat → Prop} (h1 : Ok 1) (h2 : Ok 2) : Tree tinySuper (loopDisk n) Ok := by
  have hor : ∀ i < 16, (dinode tinySuper (loopDisk n) i).type = T_DIR → i = 1 ∨ i = 2 := by
    intro i hi ht
    rw [type_loopDisk n i hi] at ht
    by_contra hne
    rw [if_neg hne] at ht
    exact absurd ht (by decide)
  refine ⟨fun i hi ht => ⟨1, ht, size_loopDisk (hor i hi ht), ?_⟩, ⟨by decide, h1⟩, fun i hi ht key j hj => ?_⟩
  · intro pos hpos
    rw [size_loopDisk (hor i hi ht)] at hpos
    rw [Nat.div_eq_of_lt (lt_of_lt_of_le hpos (by decide))]
    have hblock : blockOf (loopDisk n) (dinode tinySuper (loopDisk n) i) 0 = 4 + i := by
      rcases hor i hi ht with rfl | rfl <;> rfl
    omega
  · rcases child_loopDisk (hor i hi ht) hj with rfl | rfl
    · exact ⟨by decide, h1⟩
    · exact ⟨by decide, h2⟩

theorem quiet_loopTable (n : UInt8) : Quiet tinySuper (loopTable n) := by
  have hpos : ∀ i, 0 < ((loopTable n).inode i).ref → i.val = 0 := by
    intro i hi
    by_contra hne
    exact absurd hi (by simp [loopTable, hne])
  refine ⟨fun _ => rfl, fun _ _ hv => absurd hv Bool.false_ne_true, fun i j hi hj _ => ?_, ⟨1, by decide⟩, ⟨2, by decide⟩, by decide, rfl, rfl⟩
  exact Fin.ext ((hpos i hi).trans (hpos j hj).symm)

theorem namei_panics : Tree tinySuper (loopTable 0).fs.data (Typed tinySuper (loopTable 0).fs.data) ∧ Quiet tinySuper (loopTable 0) ∧
    follow tinySuper (loopTable 0).fs.data ROOTINO (components loopPath) = some ROOTINO ∧
    wpe (namei tinySuper ⟨0, by decide⟩ loopPath fun _ => 0) (fun _ _ => False) (· = .ilockNoType) (loopTable 0) :=
  ⟨tree_loopDisk (by decide) (by decide), quiet_loopTable 0, by decide +kernel, by decide +kernel⟩

theorem path_lookup_loop : wp (namei tinySuper ⟨0, by decide⟩ loopPath fun _ => 0)
    (fun r s' => r.map (fun i => (s'.inode i).inum) = some ROOTINO ∧ Unchanged (loopTable 1) r s') (loopTable 1) := by
  have hlive : ∀ j, (dinode tinySuper (loopDisk 1) j).type ≠ 0 → (dinode tinySuper (loopDisk 1) j).nlink ≠ 0 →
    Live tinySuper (loopTable 1) j := fun j ht hn => ⟨ht, .inl hn⟩
  have h := (path_lookup ⟨0, by decide⟩ (tree_loopDisk (hlive 1 (by decide) (by decide)) (hlive 2 (by decide) (by decide)))
    (quiet_loopTable 1) (by decide) (by decide) (by decide) loopPath (by decide) fun _ => 0).1
  refine h.mono fun r s' hr => ⟨hr.1.trans ?_, hr.2⟩
  decide +kernel

end Itable

end Xv6
