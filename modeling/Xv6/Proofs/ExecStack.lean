import Xv6.Proofs.UserCopySpec

/-!
# The stack that `exec` builds

All of it lies in one page of the user, between `stackbase` and `sz`: the argument strings from the top down, and the
array of pointers to them below. Within the page, user memory is a piece of physical memory, so every `copyout` is one
block copy, and the loop over the arguments keeps what is above the stack pointer.
-/

namespace Xv6

open Prog Kern

/-! ### A page of the user -/

/-- The user's page at `base` is the page `c`, and writing to it does not change that. There is a page below it. -/
structure StackPage (m : Bytes) (r base c : Nat) : Prop where
  aligned : base % PGSIZE = 0
  guard : PGSIZE ≤ base
  ne_zero : c ≠ 0
  walk : ∀ m', Outside m m' c → walkaddrOf m' r base = c

variable {m m' : Bytes} {r base c va sp a n : Nat} {s s' : Kmem} {src str : List UInt8} {strs : List (List UInt8)}
  {ptrs ustack : List Nat}

theorem StackPage.walk_self (h : StackPage m r base c) : walkaddrOf m r base = c := h.walk m fun _ _ => rfl

theorem StackPage.lt (h : StackPage m r base c) : base < MAXVA := by
  by_contra hge
  have := h.walk_self
  rw [walkaddrOf, if_pos (by omega)] at this
  exact h.ne_zero this.symm

theorem PGROUNDDOWN_of_page (hal : base % PGSIZE = 0) (h1 : base ≤ va) (h2 : va < base + PGSIZE) :
    PGROUNDDOWN va = base := by
  simp only [PGROUNDDOWN, PGSIZE] at *
  omega

theorem StackPage.ubyte_eq (h : StackPage m r base c) (h1 : base ≤ va) (h2 : va < base + PGSIZE) :
    ubyte m r va = m (c + (va - base)) := by
  have hal := h.aligned
  rw [ubyte, uaddr, PGROUNDDOWN_of_page hal h1 h2, h.walk_self]
  congr 2
  simp only [PGSIZE] at *
  omega

theorem StackPage.wp_copyout {Q : Bool → Kmem → Prop} (h : StackPage s.mem r base c) (h1 : base ≤ va)
    (h2 : va + src.length ≤ base + PGSIZE)
    (hQ : Q true { s with mem := s.mem.copy (c + (va - base)) (fun i => src.getD i 0) 0 src.length }) :
    wp (copyout r va src) Q s := by
  by_cases h0 : src.length = 0
  · rw [h0, Bytes.copy_zero] at hQ
    rw [copyout, dif_pos h0, wp_pure]
    exact hQ
  · have hdown : PGROUNDDOWN va = base := PGROUNDDOWN_of_page h.aligned h1 (by omega)
    have hmin : min (PGSIZE - (va - base)) src.length = src.length := Nat.min_eq_right (by omega)
    rw [copyout, dif_neg h0, hdown]
    simp only [wp_bind, wp_walkaddr_find, h.walk_self, if_neg h.ne_zero, wp_modify, hmin, List.drop_length]
    rw [copyout, dif_pos List.length_nil, wp_pure]
    exact hQ

/-- There is the string `str` at `a`, shorter than a page and outside of page `c`. -/
structure ArgString (m : Bytes) (c a : Nat) (str : List UInt8) : Prop where
  lt : str.length < PGSIZE
  byte : ∀ i ≤ str.length, m (a + i) = (str ++ [0]).getD i 0
  ne_zero : ∀ i < str.length, str.getD i 0 ≠ 0
  apart : a + str.length < c ∨ c + PGSIZE ≤ a

theorem getD_snoc_of_lt {i : Nat} (hi : i < str.length) : (str ++ [0]).getD i 0 = str.getD i 0 := by
  simp [List.getD, List.getElem?_append_left hi]

theorem getD_snoc_length : (str ++ [0]).getD str.length 0 = 0 := by simp [List.getD]

theorem ArgString.strlen (h : ArgString s.mem c a str) {Q : Nat → Kmem → Prop} (hQ : Q str.length s) :
    wp (Kern.strlen a) Q s := by
  have hfind : (List.range PGSIZE).find? (fun i => s.mem (a + i) = 0) = some str.length := by
    rw [List.find?_range_eq_some]
    refine ⟨?_, List.mem_range.mpr h.lt, fun i hi => ?_⟩
    · rw [h.byte _ (le_rfl), getD_snoc_length]
      rfl
    · rw [h.byte i (le_of_lt hi), getD_snoc_of_lt hi]
      simpa using h.ne_zero i hi
  simp only [Kern.strlen, wp_bind, wp_get, wp_pure, hfind, Option.getD_some]
  exact hQ

theorem ArgString.bytes (h : ArgString m c a str) :
    (List.range (str.length + 1)).map (fun i => m (a + i)) = str ++ [0] := by
  refine List.ext_getElem (by simp) fun i h1 h2 => ?_
  simp only [List.length_map, List.length_range] at h1
  rw [List.getElem_map, List.getElem_range, h.byte i (by omega), List.getD_eq_getElem _ _ h2]

/-- The strings `strs` lie at `ptrs`, from `hi` down to `lo`. -/
structure Strings (b : Bytes) (lo hi : Nat) (strs : List (List UInt8)) (ptrs : List Nat) : Prop where
  string : List.Forall₂ (fun a str => a % 16 = 0 ∧ lo ≤ a ∧ a + str.length < hi ∧
    ∀ i ≤ str.length, b (a + i) = (str ++ [0]).getD i 0) ptrs strs
  apart : (ptrs.zip strs).Pairwise fun x y => y.1 + y.2.length < x.1

theorem Strings.nil {b : Bytes} : Strings b sp sp [] [] := ⟨.nil, .nil⟩

theorem Strings.cons {b : Bytes} {lo hi : Nat} (h : Strings b lo a strs ptrs) (hlo : lo ≤ a) (hal : a % 16 = 0)
    (hhi : a + str.length < hi) (hb : ∀ i ≤ str.length, b (a + i) = (str ++ [0]).getD i 0) :
    Strings b lo hi (str :: strs) (a :: ptrs) := by
  refine ⟨.cons ⟨hal, hlo, hhi, hb⟩ (h.string.imp fun x y hx => ⟨hx.1, hx.2.1, by omega, hx.2.2.2⟩),
    List.pairwise_cons.mpr ⟨fun x hx => ?_, h.apart⟩⟩
  have := List.forall₂_iff_zip.mp h.string
  exact (this.2 hx).2.2.1

theorem Strings.congr {b b' : Bytes} {lo hi : Nat} (h : Strings b lo hi strs ptrs)
    (hb : ∀ x, lo ≤ x → x < hi → b' x = b x) : Strings b' lo hi strs ptrs :=
  ⟨h.string.imp fun x y hx => ⟨hx.1, hx.2.1, hx.2.2.1, fun i hi => (hb _ (by omega) (by omega)).trans (hx.2.2.2 i hi)⟩,
    h.apart⟩

end Xv6
