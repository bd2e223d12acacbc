import Xv6.Dir
import Xv6.Lib.Slots
import Xv6.Lib.Trans
import Xv6.Proofs.FsFile

/-!
# A directory is a finite map

Entry `k` of a directory is a slot (`dirSlot`): empty, or a name up to its NUL and an inode number. `strncmp` compares names as
`cutName` cuts them, and `strncpy` writes them so. An entry lies in one block, so that `writei` writes all of it or nothing.
-/

namespace Xv6

open Function (update)

open Prog Fs

/-! ### Names -/

/-- The bytes of a name from `i` on up to a NUL, `n` at most. -/
def cutName (t : Bytes) : (n i : Nat) → List UInt8
  | 0, _ => []
  | n + 1, i => if t i = 0 then [] else t i :: cutName t n (i + 1)

variable {p q t : Bytes} {n i j : Nat}

theorem cutName_congr (h : ∀ k < n, p (i + k) = q (j + k)) : cutName p n i = cutName q n j := by
  induction n generalizing i j with
  | zero => rfl
  | succ n ih =>
    have h0 : p i = q j := h 0 (Nat.succ_pos n)
    rw [cutName, cutName, h0, ih fun k hk => ?_]
    rw [add_assoc, add_assoc, add_comm 1]
    exact h (k + 1) (Nat.succ_lt_succ hk)

theorem strncmp_eq_zero_iff : strncmp p q n i = 0 ↔ cutName p n i = cutName q n i := by
  induction n generalizing i with
  | zero => exact ⟨fun _ => rfl, fun _ => rfl⟩
  | succ n ih =>
    rw [strncmp, cutName, cutName]
    split
    · rename_i h
      rw [ih, if_neg h.1, if_neg (h.2 ▸ h.1), h.2, List.cons.injEq, and_iff_right rfl]
    · rename_i h
      have hsub : ((p i).toNat : Int) - (q i).toNat = 0 ↔ p i = q i := by
        rw [Int.sub_eq_zero, Int.natCast_inj, UInt8.toNat_inj]
      rw [hsub]
      by_cases h0 : p i = 0
      · rw [if_pos h0, h0]
        by_cases hq : q i = 0
        · rw [if_pos hq, hq]
          exact ⟨fun _ => rfl, fun _ => rfl⟩
        · rw [if_neg hq]
          exact ⟨fun e => absurd e.symm hq, fun e => by cases e⟩
      · rw [if_neg h0]
        refine ⟨fun e => absurd ⟨h0, e⟩ h, fun e => ?_⟩
        by_cases hq : q i = 0
        · rw [if_pos hq] at e
          cases e
        · rw [if_neg hq] at e
          exact (List.cons.inj e).1

theorem cutName_strncpy : cutName (fun k => (strncpy t n i).getD k 0) n 0 = cutName t n i := by
  induction n generalizing i with
  | zero => rfl
  | succ n ih =>
    rw [cutName, cutName, strncpy]
    by_cases h0 : t i = 0
    · rw [if_pos h0, if_pos h0]
      rfl
    · rw [if_neg h0, if_neg h0, ← ih, List.getD_cons_zero, if_neg h0]
      congr 1
      refine cutName_congr fun k _ => ?_
      rw [zero_add, add_comm 1, zero_add, List.getD_cons_succ]

def nameKey (name : Bytes) : List UInt8 := cutName name DIRSIZ 0

theorem namecmp_eq_zero_iff : namecmp p q = 0 ↔ nameKey p = nameKey q := strncmp_eq_zero_iff

/-! ### Entries -/

def Dirent.slot (de : Dirent) : Option (List UInt8 × Nat) := if de.inum = 0 then none else some (nameKey de.name, de.inum)

theorem Dirent.slot_congr (h : ∀ k < direntSize, p k = q k) : (Dirent.get p).slot = (Dirent.get q).slot := by
  have hinum : (Dirent.get p).inum = (Dirent.get q).inum :=
    Bytes.load_congr fun x _ hx => h x (lt_of_lt_of_le hx (by decide))
  have hname : nameKey (Dirent.get p).name = nameKey (Dirent.get q).name :=
    cutName_congr fun k hk => h _ (by simp only [direntSize]; omega)
  rw [slot, slot, hinum, hname]

theorem Dirent.slot_put {inum : Nat} {name : Bytes} (h₀ : 0 < inum) (h : inum < 2 ^ 16) :
    (Dirent.get (Dirent.put inum (strncpy name DIRSIZ 0))).slot = some (nameKey name, inum) := by
  have hinum : (Dirent.get (Dirent.put inum (strncpy name DIRSIZ 0))).inum = inum := by
    have : (Dirent.get (Dirent.put inum (strncpy name DIRSIZ 0))).inum = (Bytes.store (fun _ => 0) 0 2 inum).load 0 2 :=
      Bytes.load_congr fun x _ hx => if_pos (by omega)
    rw [this, Bytes.load_store_of_lt (by omega)]
  have hname : nameKey (Dirent.get (Dirent.put inum (strncpy name DIRSIZ 0))).name = nameKey name := by
    rw [nameKey, nameKey, ← cutName_strncpy (t := name)]
    refine cutName_congr fun k _ => ?_
    show Dirent.put inum _ (2 + (0 + k)) = _
    rw [Dirent.put, if_neg (by omega), Nat.add_sub_cancel_left]
  rw [slot, hinum, hname, if_neg (by omega)]

namespace Fs

variable {sb : Super} {s s' : Fs} {dp dp' : Inode} {dnum k : Nat} {name : Bytes}

def dirSlot (data : Nat → Bytes) (dp : Inode) (k : Nat) : Option (List UInt8 × Nat) :=
  (Dirent.get fun x => byteAt data dp (direntSize * k + x)).slot

/-- A directory whose size is a multiple of that of an entry. -/
structure IsDir (data : Nat → Bytes) (dp : Inode) (n : Nat) : Prop where
  type : dp.type = T_DIR
  size : dp.size = direntSize * n
  noHole : NoHole data dp

theorem wp_readDirent {panic : DirPanic} {Q : Dirent × Inode → Fs → Prop} (h : IsDir s.data dp n) (hk : k < n)
    (hQ : ∀ de, de.slot = dirSlot s.data dp k → Q (de, dp) s) : wp (readDirent sb panic dp (direntSize * k)) Q s := by
  have hsize := h.noHole.size_le
  have hle : direntSize * k + direntSize ≤ dp.size := by
    rw [h.size, ← Nat.mul_succ]
    exact Nat.mul_le_mul_left _ hk
  have hmin : min direntSize (dp.size - direntSize * k) = direntSize := by omega
  rw [readDirent, wp_bind, wp_mapError]
  refine wp_readi h.noHole (by omega) ?_ trivial ?_
  · simp only [MAXFILE, NDIRECT, NINDIRECT, BSIZE] at hsize
    omega
  · dsimp only
    rw [hmin, if_neg (not_not_intro rfl), wp_pure]
    refine hQ _ (Dirent.slot_congr fun x hx => ?_)
    rw [List.getD_eq_getElem?_getD, bytes, List.getElem?_map, List.getElem?_range hx, Option.map_some, Option.getD_some]

def FoundFrom (t : Nat → Option (List UInt8 × Nat)) (n : Nat) (key : List UInt8) (k : Nat) : Option (Nat × Nat) → Prop
  | none => ∀ j, k ≤ j → j < n → ∀ v, t j ≠ some (key, v)
  | some (inum, off) => ∃ j, k ≤ j ∧ j < n ∧ off = direntSize * j ∧ t j = some (key, inum) ∧
    ∀ i, k ≤ i → i < j → ∀ v, t i ≠ some (key, v)

theorem FoundFrom.next {t : Nat → Option (List UInt8 × Nat)} {key : List UInt8} {r : Option (Nat × Nat)}
    (h : FoundFrom t n key (k + 1) r) (hk : ∀ v, t k ≠ some (key, v)) : FoundFrom t n key k r := by
  cases r with
  | none =>
    intro j hj hjn
    rcases Nat.eq_or_lt_of_le hj with rfl | hlt
    · exact hk
    · exact h j hlt hjn
  | some r =>
    obtain ⟨j, hj, hjn, hoff, hslot, hfirst⟩ := h
    refine ⟨j, Nat.le_of_succ_le hj, hjn, hoff, hslot, fun i hi hij => ?_⟩
    rcases Nat.eq_or_lt_of_le hi with rfl | hlt
    · exact hk
    · exact hfirst i hlt hij

theorem FoundFrom.find_eq {t : Nat → Option (List UInt8 × Nat)} {key : List UInt8} {r : Option (Nat × Nat)}
    (h : FoundFrom t n key 0 r) : Slots.find t n key = r.map Prod.fst := by
  cases r with
  | none => exact Slots.find_eq_none fun i hi => h i (Nat.zero_le i) hi
  | some r =>
    obtain ⟨j, -, hj, -, hslot, hfirst⟩ := h
    exact Slots.find_eq_some hj hslot fun i hi => hfirst i (Nat.zero_le i) hi

theorem wp_dirlookupLoop {turns : Nat} (h : IsDir s.data dp n) (hturns : n ≤ k + turns) :
    wp (dirlookupLoop sb name turns dp (direntSize * k))
      (fun r s' => FoundFrom (dirSlot s.data dp) n (nameKey name) k r.1 ∧ r.2 = dp ∧ s' = s) s := by
  induction turns generalizing k with
  | zero =>
    rw [dirlookupLoop, wp_pure]
    exact ⟨fun j hj hjn => by omega, rfl, rfl⟩
  | succ turns ih =>
    rw [dirlookupLoop]
    split
    · rename_i hlt
      have hk : k < n := Nat.lt_of_mul_lt_mul_left (h.size ▸ hlt)
      have ih := ih (k := k + 1) (by omega)
      rw [wp_bind]
      refine wp_readDirent h hk fun de hde => ?_
      rw [Dirent.slot] at hde
      dsimp only
      split
      · rename_i h0
        rw [if_pos h0] at hde
        exact ih.mono fun r s' hr => ⟨hr.1.next fun v => by rw [← hde]; exact (Option.some_ne_none _).symm, hr.2⟩
      · rename_i h0
        rw [if_neg h0] at hde
        split
        · rename_i hc
          rw [wp_pure]
          refine ⟨⟨k, Nat.le_refl k, hk, rfl, ?_, fun i h1 h2 => by omega⟩, rfl, rfl⟩
          rw [← hde, namecmp_eq_zero_iff.mp hc]
        · rename_i hc
          refine ih.mono fun r s' hr => ⟨hr.1.next fun v => ?_, hr.2⟩
          rw [← hde]
          exact fun e => hc (namecmp_eq_zero_iff.mpr (congrArg Prod.fst (Option.some.inj e)).symm)
    · rename_i hge
      rw [wp_pure]
      have hn : n ≤ k := by
        by_contra hlt
        exact hge (h.size ▸ Nat.mul_lt_mul_of_pos_left (not_le.mp hlt) (by decide))
      exact ⟨fun j hj hjn => by omega, rfl, rfl⟩

theorem wp_dirlookup (h : IsDir s.data dp n) : wp (dirlookup sb dp name)
    (fun r s' => FoundFrom (dirSlot s.data dp) n (nameKey name) 0 r.1 ∧ r.2 = dp ∧ s' = s) s := by
  rw [dirlookup, if_neg (not_not_intro h.type)]
  refine wp_dirlookupLoop (k := 0) h ?_
  rw [h.size, zero_add]
  exact Nat.le_mul_of_pos_left n (by decide)

theorem wp_dirlinkLoop {turns : Nat} {Q : Nat × Inode → Fs → Prop} (h : IsDir s.data dp n) (hturns : n ≤ k + turns) (hk : k ≤ n)
    (hQ : ∀ j, k ≤ j → j ≤ n → (j < n → dirSlot s.data dp j = none) → (∀ i, k ≤ i → i < j → dirSlot s.data dp i ≠ none) →
      Q (direntSize * j, dp) s) : wp (dirlinkLoop sb turns dp (direntSize * k)) Q s := by
  have hend : k = n → Q (direntSize * k, dp) s := fun e => hQ k (Nat.le_refl k) hk (by omega) fun i h1 h2 => by omega
  induction turns generalizing k with
  | zero =>
    rw [dirlinkLoop, wp_pure]
    exact hend (by omega)
  | succ turns ih =>
    rw [dirlinkLoop]
    split
    · rename_i hlt
      have hkn : k < n := Nat.lt_of_mul_lt_mul_left (h.size ▸ hlt)
      rw [wp_bind]
      refine wp_readDirent h hkn fun de hde => ?_
      rw [Dirent.slot] at hde
      dsimp only
      split
      · rename_i h0
        rw [if_pos h0] at hde
        rw [wp_pure]
        exact hQ k (Nat.le_refl k) hk (fun _ => hde.symm) fun i h1 h2 => by omega
      · rename_i h0
        rw [if_neg h0] at hde
        have hQ' : ∀ j, k + 1 ≤ j → j ≤ n → (j < n → dirSlot s.data dp j = none) →
            (∀ i, k + 1 ≤ i → i < j → dirSlot s.data dp i ≠ none) → Q (direntSize * j, dp) s := by
          refine fun j hj hjn hfree hlive => hQ j (by omega) hjn hfree fun i hi hij => ?_
          rcases Nat.eq_or_lt_of_le hi with rfl | hlt
          · rw [← hde]
            exact Option.some_ne_none _
          · exact hlive i hlt hij
        refine ih (by omega) hkn hQ' fun e => hQ' (k + 1) (le_rfl) hkn (by omega) fun i h1 h2 => by omega
    · rename_i hge
      rw [wp_pure]
      refine hend ?_
      by_contra hne
      exact hge (h.size ▸ Nat.mul_lt_mul_of_pos_left (by omega : k < n) (by decide))

/-! ### Writing an entry -/

def NoRoom (sb : Super) (off : Nat) (s : Fs) (ip : Inode) : Prop :=
  off + direntSize > MAXFILE * BSIZE ∨ blockOf s.data ip (off / BSIZE) = 0 ∧ ∀ b < sb.size, Bit sb s.data b

variable {m : Bytes}

theorem Patched.refl (hv : Valid sb s.data (nodes sb s.data dnum dp)) (hi : Alloc sb (nodes sb s.data dnum dp) dnum) {src : Src}
    {off : Nat} (hoff : off ≤ dp.size) : Patched sb dnum src off 0 s dp s dp :=
  ⟨fun _ hj => absurd hj (Nat.not_lt_zero _), rfl, (Nat.max_eq_left hoff).symm, fun pos _ => by rw [if_neg (by omega)], hv, hi⟩

theorem wp_writei_dirent (hv : Valid sb s.data (nodes sb s.data dnum dp)) (hi : Alloc sb (nodes sb s.data dnum dp) dnum)
    (h : IsDir s.data dp n) (hk : k ≤ n) : wp (writei sb dnum dp (.kernel m 0) (direntSize * k) direntSize) (fun r s' =>
      r.1 = direntSize ∧ Patched sb dnum (.kernel m 0) (direntSize * k) direntSize s dp s' r.2 ∨
      r.1 ≠ direntSize ∧ k = n ∧ Patched sb dnum (.kernel m 0) (direntSize * k) 0 s dp s' r.2 ∧ NoRoom sb dp.size s' r.2) s := by
  have hsize := h.noHole.size_le
  have hdp := h.size
  have hoff : direntSize * k ≤ dp.size := h.size ▸ Nat.mul_le_mul_left _ hk
  have hmax : MAXFILE * BSIZE = direntSize * 17152 := by decide
  -- below the last entry there is room
  have hlast : k < n → direntSize * k + direntSize ≤ dp.size := fun hlt => by
    rw [h.size, ← Nat.mul_succ]
    exact Nat.mul_le_mul_left _ hlt
  simp only [direntSize, DIRSIZ] at hdp hoff hmax hlast ⊢
  by_cases hrej : 16 * k + 16 > MAXFILE * BSIZE
  · refine wp_writei_reject (by omega) (by decide) (.inr (.inr hrej)) (.inr ⟨by dsimp only; omega, by omega, .refl hv hi hoff, .inl ?_⟩)
    simp only [direntSize, DIRSIZ]
    omega
  · refine wp_writei hv.owned hi (nodes_self ..) hoff (by omega) fun tot ip' s₁ hw => ?_
    cases hw with
    | all hw => exact .inl ⟨rfl, hw.patched hv hi hoff⟩
    | full hw hlt hblock hfull =>
      obtain rfl : tot = 0 := by
        have := hw.aligned
        simp only [BSIZE] at this
        omega
      have hp := hw.patched hv hi hoff
      have hkn : k = n := by
        by_contra hne
        have hhole := hw.noHole hv hi
        rw [nodes_self] at hhole
        have hpos : 16 * k < (grown ip' (16 * k + 0)).size := by
          rw [hp.size]
          omega
        exact hhole hoff _ hpos (by rw [blockOf_grown]; exact hblock)
      refine .inr ⟨by dsimp only; omega, hkn, hp, .inr ⟨?_, fun b hb => (bit_updated hi.1).mpr (hfull b hb)⟩⟩
      rw [(hw.sameFile hi).block, blockOf_grown, hdp, ← hkn]
      exact hblock
    | fault hw _ _ _ hstop => cases hstop

theorem IsDir.patched {src : Src} {off : Nat} (h : IsDir s.data dp n) (hp : Patched sb dnum src off k s dp s' dp') {n' : Nat}
    (hsize : max dp.size (off + k) = direntSize * n') : IsDir s'.data dp' n' := by
  have := hp.valid.noHole dnum hp.alloc
  rw [nodes_self] at this
  exact ⟨hp.type.trans h.type, hp.size.trans hsize, this⟩

theorem IsDir.written (h : IsDir s.data dp n) (hp : Patched sb dnum (.kernel m 0) (direntSize * k) direntSize s dp s' dp') :
    IsDir s'.data dp' (max n (k + 1)) ∧
    ∀ j < max n (k + 1), dirSlot s'.data dp' j = if j = k then (Dirent.get m).slot else dirSlot s.data dp j := by
  have hmax : max dp.size (direntSize * k + direntSize) = direntSize * max n (k + 1) := by
    rw [h.size, ← Nat.mul_succ, Nat.mul_max_mul_left]
  refine ⟨h.patched hp hmax, fun j hj => ?_⟩
  have hlt : ∀ x < direntSize, direntSize * j + x < dp'.size := fun x hx => by
    rw [hp.size, hmax]
    simp only [direntSize, DIRSIZ] at hx ⊢
    omega
  split
  · rename_i hjk
    subst hjk
    refine Dirent.slot_congr fun x hx => ?_
    rw [hp.byte _ (hlt x hx), if_pos (by omega), Nat.add_sub_cancel_left]
    show m (0 + x) = m x
    rw [zero_add]
  · rename_i hjk
    refine Dirent.slot_congr fun x hx => ?_
    rw [hp.byte _ (hlt x hx), if_neg]
    simp only [direntSize, DIRSIZ] at hx ⊢
    omega

theorem IsDir.kept {src : Src} {off : Nat} (h : IsDir s.data dp n) (hoff : off ≤ dp.size) (hp : Patched sb dnum src off 0 s dp s' dp') :
    IsDir s'.data dp' n ∧ ∀ j < n, dirSlot s'.data dp' j = dirSlot s.data dp j := by
  have hmax : max dp.size (off + 0) = direntSize * n := by
    rw [← h.size]
    omega
  refine ⟨h.patched hp hmax, fun j hj => Dirent.slot_congr fun x hx => ?_⟩
  rw [hp.byte _ ?_, if_neg (by omega)]
  rw [hp.size, hmax]
  simp only [direntSize, DIRSIZ] at hx ⊢
  omega

/-! ### The map -/

/-- A directory in a valid file system, of which `M` is the map. -/
structure DirMap (sb : Super) (dnum : Nat) (s : Fs) (dp : Inode) (M : List UInt8 → Option Nat) : Prop where
  valid : Valid sb s.data (nodes sb s.data dnum dp)
  alloc : Alloc sb (nodes sb s.data dnum dp) dnum
  isDir : IsDir s.data dp (dp.size / direntSize)
  maps : Slots.Maps (dirSlot s.data dp) (dp.size / direntSize) M

theorem DirMap.mk' {M : List UInt8 → Option Nat} (hv : Valid sb s.data (nodes sb s.data dnum dp))
    (hi : Alloc sb (nodes sb s.data dnum dp) dnum) (h : IsDir s.data dp n) (hm : Slots.Maps (dirSlot s.data dp) n M) :
    DirMap sb dnum s dp M := by
  have hn : dp.size / direntSize = n := by
    rw [h.size]
    exact Nat.mul_div_cancel_left n (by decide)
  exact ⟨hv, hi, hn ▸ h, hn ▸ hm⟩

namespace DirMap

variable {M : List UInt8 → Option Nat} {key : List UInt8} {r : Option (Nat × Nat)}

theorem map_eq (h : DirMap sb dnum s dp M) (hr : FoundFrom (dirSlot s.data dp) (dp.size / direntSize) key 0 r) :
    M key = r.map Prod.fst := by
  cases r with
  | none => exact h.maps.eq_none fun i hi v => hr i (Nat.zero_le i) hi v
  | some r =>
    obtain ⟨j, -, hj, -, hslot, -⟩ := hr
    exact h.maps.eq_some hj hslot

/-- No entry is empty, and there is no room for another one. -/
def Full (sb : Super) (s : Fs) (dp : Inode) (s' : Fs) (dp' : Inode) : Prop :=
  (∀ j < dp.size / direntSize, dirSlot s.data dp j ≠ none) ∧ NoRoom sb dp.size s' dp'

/-- What `dirlink` has done when it returns `r`. -/
structure Linked (sb : Super) (dnum : Nat) (s : Fs) (dp : Inode) (M : List UInt8 → Option Nat) (key : List UInt8) (inum : Nat)
    (r : Int × Inode) (s' : Fs) : Prop where
  val : r.1 = -1 ∨ r.1 = 0
  fails : r.1 = -1 ↔ (M key).isSome ∨ Full sb s dp s' r.2
  map : DirMap sb dnum s' r.2 (if r.1 = 0 then update M key (some inum) else M)

theorem not_full_of_written (h : IsDir s.data dp n) (hv : Valid sb s'.data (nodes sb s'.data dnum dp'))
    (hi : Alloc sb (nodes sb s'.data dnum dp') dnum) (hk : k ≤ n) (hfree : k < n → dirSlot s.data dp k = none)
    (hsize : dp'.size = direntSize * max n (k + 1)) : ¬ Full sb s dp s' dp' := by
  rintro ⟨hlive, hroom⟩
  have hn : dp.size / direntSize = n := by
    rw [h.size]
    exact Nat.mul_div_cancel_left n (by decide)
  obtain rfl : k = n := by
    by_contra hne
    exact hlive k (by omega) (hfree (by omega))
  have hhole := hv.noHole dnum hi
  rw [nodes_self] at hhole
  have hdp := h.size
  have hle := hhole.size_le
  simp only [direntSize, DIRSIZ] at hdp hsize
  rcases hroom with hroom | ⟨hblock, -⟩
  · simp only [direntSize, DIRSIZ] at hroom
    omega
  · exact hhole dp.size (by omega) hblock

theorem wp_dirlink (h : DirMap sb dnum s dp M) {inum : Nat} (h₀ : 0 < inum) (hlt : inum < 2 ^ 16) :
    wp (dirlink sb dnum dp name inum) (fun r s' => Linked sb dnum s dp M (nameKey name) inum r s') s := by
  rw [dirlink, wp_bind]
  refine (wp_dirlookup h.isDir).mono fun r s' hr => ?_
  obtain ⟨hfound, hdp, rfl⟩ := hr
  obtain ⟨found, dp⟩ := r
  subst hdp
  have hM := h.map_eq hfound
  dsimp only
  split
  · rename_i hsome
    rw [wp_pure]
    refine ⟨.inl rfl, iff_of_true rfl (.inl ?_), h⟩
    rw [hM, Option.isSome_map]
    exact hsome
  · rename_i hnone
    have hM : M (nameKey name) = none := by
      rw [hM, Option.not_isSome_iff_eq_none.mp hnone, Option.map_none]
    rw [wp_bind]
    refine wp_dirlinkLoop (k := 0) h.isDir ?_ (Nat.zero_le _) fun k _ hk hfree hlive => ?_
    · rw [zero_add]
      exact Nat.div_le_self _ _
    dsimp only
    rw [wp_bind, wp_mapError]
    refine (wp_writei_dirent h.valid h.alloc h.isDir hk).mono fun r s'' hr => ?_
    obtain ⟨r, dp'⟩ := r
    dsimp only at hr ⊢
    rcases hr with ⟨hr, hp⟩ | ⟨hr, rfl, hp, hroom⟩
    · obtain ⟨hdir, hslots⟩ := h.isDir.written hp
      rw [Dirent.slot_put h₀ hlt] at hslots
      rw [if_neg (not_not_intro hr), wp_pure]
      have hnot := not_full_of_written h.isDir hp.valid hp.alloc hk hfree hdir.size
      refine ⟨.inr rfl, iff_of_false (by dsimp only; omega) ?_, .mk' hp.valid hp.alloc hdir ?_⟩
      · rw [hM]
        exact fun hor => hor.elim (fun hs => Bool.false_ne_true hs) hnot
      · exact h.maps.put hk hfree hM hslots
    · have hoff : direntSize * (dp.size / direntSize) ≤ dp.size := Nat.mul_div_le _ _
      obtain ⟨hdir, hslots⟩ := h.isDir.kept hoff hp
      rw [if_pos hr, wp_pure]
      exact ⟨.inl rfl, iff_of_true rfl (.inr ⟨fun j hj => hlive j (Nat.zero_le j) hj, hroom⟩),
        .mk' hp.valid hp.alloc hdir (h.maps.congr hslots)⟩

theorem wp_removeEntry (h : DirMap sb dnum s dp M) : wp (removeEntry sb dnum dp name) (fun r s' =>
    r.1 = (M (nameKey name)).isSome ∧ DirMap sb dnum s' r.2 (if r.1 then update M (nameKey name) none else M)) s := by
  rw [removeEntry, wp_bind]
  refine (wp_dirlookup h.isDir).mono fun r s' hr => ?_
  obtain ⟨hfound, hdp, rfl⟩ := hr
  obtain ⟨found, dp⟩ := r
  subst hdp
  have hM := h.map_eq hfound
  cases found with
  | none =>
    dsimp only
    rw [wp_pure, hM]
    exact ⟨rfl, h⟩
  | some r =>
    obtain ⟨inum, off⟩ := r
    obtain ⟨k, -, hk, rfl, hslot, -⟩ := hfound
    dsimp only
    rw [wp_bind, wp_mapError]
    refine (wp_writei_dirent h.valid h.alloc h.isDir (le_of_lt hk)).mono fun r s'' hr => ?_
    obtain ⟨r, dp'⟩ := r
    dsimp only at hr ⊢
    rcases hr with ⟨hr, hp⟩ | ⟨-, he, -⟩
    · obtain ⟨hdir, hslots⟩ := h.isDir.written hp
      rw [Nat.max_eq_left hk] at hdir hslots
      rw [if_neg (not_not_intro hr), wp_pure, hM]
      exact ⟨rfl, .mk' hp.valid hp.alloc hdir (h.maps.clear hk hslot hslots)⟩
    · exact absurd he (ne_of_lt hk)

end DirMap

/-! ### Runs -/

/-- A directory in the file system; `map` is history: what has been linked last and not been removed. -/
structure DirSys where
  fs : Fs
  dp : Inode
  map : List UInt8 → Option Nat

namespace DirSys

inductive Step (sb : Super) (dnum : Nat) (s : DirSys) : DirSys → Prop
  | link {t dp r} (name : Bytes) (inum : Nat) (pos : 0 < inum) (lt : inum < 2 ^ 16)
      (run : dirlink sb dnum s.dp name inum s.fs = .ok ((r, dp), t)) :
      Step sb dnum s ⟨t, dp, if r = 0 then update s.map (nameKey name) (some inum) else s.map⟩
  | remove {t dp found} (name : Bytes) (run : removeEntry sb dnum s.dp name s.fs = .ok ((found, dp), t)) :
      Step sb dnum s ⟨t, dp, if found then update s.map (nameKey name) none else s.map⟩
  /-- Other files change, and may take blocks. -/
  | other {t : Fs} (valid : Valid sb t.data (nodes sb t.data dnum s.dp))
      (same : ∀ pos < s.dp.size, byteAt t.data s.dp pos = byteAt s.fs.data s.dp pos) : Step sb dnum s { s with fs := t }

/-- A new directory. -/
structure Init (sb : Super) (dnum : Nat) (s : DirSys) : Prop where
  valid : Valid sb s.fs.data (nodes sb s.fs.data dnum s.dp)
  alloc : Alloc sb (nodes sb s.fs.data dnum s.dp) dnum
  type : s.dp.type = T_DIR
  size : s.dp.size = 0
  map : s.map = fun _ => none

def Reachable (sb : Super) (dnum : Nat) : DirSys → Prop := Trans.Reach (Init sb dnum) (Step sb dnum)

variable {d d' : DirSys}

theorem step_dirMap (h : DirMap sb dnum d.fs d.dp d.map) (hs : Step sb dnum d d') : DirMap sb dnum d'.fs d'.dp d'.map := by
  cases hs with
  | link name inum pos lt run => exact ((h.wp_dirlink pos lt).of_eq run).map
  | remove name run => exact (h.wp_removeEntry.of_eq run).2
  | @other t valid same =>
    have hi : Alloc sb (nodes sb t.data dnum d.dp) dnum := alloc_nodes h.alloc rfl
    have hhole := valid.noHole dnum hi
    rw [nodes_self] at hhole
    refine ⟨valid, hi, ⟨h.isDir.type, h.isDir.size, hhole⟩, h.maps.congr fun j hj => Dirent.slot_congr fun x hx => same _ ?_⟩
    have := h.isDir.size
    simp only [direntSize, DIRSIZ] at this hj hx ⊢
    omega

theorem dirMap_of_reachable (h : Reachable sb dnum d) : DirMap sb dnum d.fs d.dp d.map := by
  refine Trans.Reach.inv (P := fun d => DirMap sb dnum d.fs d.dp d.map) (fun d hd => ?_) (fun _ _ => step_dirMap) h
  have hhole := hd.valid.noHole dnum hd.alloc
  rw [nodes_self] at hhole
  rw [hd.map]
  exact .mk' hd.valid hd.alloc ⟨hd.type, hd.size, hhole⟩ (.empty _)

/-- In every directory made by `dirlink` and removals, in whatever way blocks run out: `dirlookup` returns what has been linked
last and not been removed since, `dirlink` fails if the name is there or no room can be had, and leaves the map as it is
then; no two entries have one name, and the size is a multiple of that of an entry. -/
theorem directory_map {sb : Super} {dnum : Nat} {d : DirSys} (h : Reachable sb dnum d) :
    direntSize ∣ d.dp.size ∧
    (∀ i < d.dp.size / direntSize, ∀ j < d.dp.size / direntSize, ∀ key v w,
      dirSlot d.fs.data d.dp i = some (key, v) → dirSlot d.fs.data d.dp j = some (key, w) → i = j) ∧
    (∀ name, wp (dirlookup sb d.dp name) (fun r s' => r.1.map Prod.fst = d.map (nameKey name) ∧ r.2 = d.dp ∧ s' = d.fs) d.fs) ∧
    (∀ name inum, 0 < inum → inum < 2 ^ 16 → wp (dirlink sb dnum d.dp name inum) (fun r s' =>
      (r.1 = -1 ∨ r.1 = 0) ∧ (r.1 = -1 ↔ (d.map (nameKey name)).isSome ∨ DirMap.Full sb d.fs d.dp s' r.2) ∧
      DirMap sb dnum s' r.2 (if r.1 = 0 then update d.map (nameKey name) (some inum) else d.map)) d.fs) ∧
    ∀ name, wp (removeEntry sb dnum d.dp name) (fun r s' => r.1 = (d.map (nameKey name)).isSome ∧
      DirMap sb dnum s' r.2 (if r.1 then update d.map (nameKey name) none else d.map)) d.fs := by
  have hd := dirMap_of_reachable h
  refine ⟨⟨_, hd.isDir.size⟩, hd.maps.inj, fun name => ?_, fun name inum h₀ hlt => ?_, fun name => hd.wp_removeEntry⟩
  · exact (wp_dirlookup hd.isDir).mono fun r s' hr => ⟨(hd.map_eq hr.1).symm, hr.2⟩
  · exact (hd.wp_dirlink h₀ hlt).mono fun r s' hr => ⟨hr.val, hr.fails, hr.map⟩

/-- A new directory on a small disk. -/
def emptyDir : DirSys := ⟨tinyFs, { emptyFile with type := T_DIR }, fun _ => none⟩

def nameA : Bytes := fun k => if k = 0 then 97 else 0

/-- The name is linked, and found. -/
theorem directory_map_one : ∃ d, Reachable tinySuper 1 d ∧ d.map (nameKey nameA) = some 5 ∧
    wp (dirlookup tinySuper d.dp nameA) (fun r _ => r.1.map Prod.fst = some 5) d.fs := by
  have h : Reachable tinySuper 1 emptyDir := .of_init ⟨valid_tiny T_DIR, ⟨by decide, by decide⟩, rfl, rfl, rfl⟩
  have h := h.tail (.link nameA 5 (by decide) (by decide) rfl)
  refine ⟨_, h, rfl, ?_⟩
  exact ((directory_map h).2.2.1 nameA).mono fun r s' hr => hr.1

end DirSys

end Fs

end Xv6
