import Xv6.Proofs.Mappages

/-!
# Copies between kernel and user memory

`uaddr m r va` is where `walkaddr` puts the address `va`, and `Readable m r va` says that it finds a page. `copyout`,
`copyin` and `copyinstr` go from page to page; here they are shown to go from byte to byte along `uaddr`, up to
the first byte that is not readable. The table must not change on the way: `Stable` and `KernelRange` say that
what the functions write is no part of it.
-/

namespace Xv6

open Prog

def Readable (m : Bytes) (r va : Nat) : Prop := walkaddrOf m r (PGROUNDDOWN va) ≠ 0

instance (m : Bytes) (r va : Nat) : Decidable (Readable m r va) := inferInstanceAs (Decidable (_ ≠ _))

def uaddr (m : Bytes) (r va : Nat) : Nat := walkaddrOf m r (PGROUNDDOWN va) + va % PGSIZE

variable {m m' : Bytes} {r p q a va len max n k c dst : Nat} {node : Nat → Nat → Option Nat} {s s' : Kmem}
  {src : List UInt8} {Q : Bool → Kmem → Prop}

theorem PGROUNDDOWN_add (hk : k < PGSIZE - va % PGSIZE) : PGROUNDDOWN (va + k) = PGROUNDDOWN va := by
  simp only [PGROUNDDOWN, PGSIZE] at hk ⊢
  omega

theorem readable_add (hk : k < PGSIZE - va % PGSIZE) : Readable m r (va + k) ↔ Readable m r va := by
  rw [Readable, Readable, PGROUNDDOWN_add hk]

theorem uaddr_add (hk : k < PGSIZE - va % PGSIZE) : uaddr m r (va + k) = uaddr m r va + k := by
  rw [uaddr, uaddr, PGROUNDDOWN_add hk, add_assoc]
  simp only [PGSIZE] at hk ⊢
  omega

theorem sub_PGROUNDDOWN : va - PGROUNDDOWN va = va % PGSIZE := by
  simp only [PGROUNDDOWN, PGSIZE]
  omega

theorem next_page (hn : n = PGSIZE - va % PGSIZE) : PGROUNDDOWN va + PGSIZE = va + n := by
  simp only [PGROUNDDOWN, PGSIZE] at hn ⊢
  omega

def SameTable (r : Nat) (m m' : Bytes) : Prop := ∀ va, walkaddrOf m' r va = walkaddrOf m r va

theorem SameTable.readable (h : SameTable r m m') : Readable m' r va ↔ Readable m r va := by
  rw [Readable, Readable, h]

theorem SameTable.uaddr (h : SameTable r m m') : uaddr m' r va = Xv6.uaddr m r va := by
  rw [Xv6.uaddr, Xv6.uaddr, h]

/-- The first `c` bytes of `[va, va + len)` are readable, and no more of them. -/
structure Upto (m : Bytes) (r va len c : Nat) : Prop where
  le : c ≤ len
  user : ∀ k < c, Readable m r (va + k)
  stop : c < len → ¬ Readable m r (va + c)

namespace Upto

theorem zero (hu : len = 0 ∨ ¬ Readable m r va) : Upto m r va len 0 :=
  ⟨Nat.zero_le _, fun _ hk => absurd hk (Nat.not_lt_zero _), fun hlt => hu.resolve_left (by omega)⟩

theorem add (hn : n ≤ PGSIZE - va % PGSIZE) (hu : Readable m r va) (h : Upto m r (va + n) len c) :
    Upto m r va (n + len) (n + c) := by
  refine ⟨Nat.add_le_add_left h.le n, fun k hk => ?_, fun hlt => ?_⟩
  · by_cases hkn : k < n
    · exact (readable_add (by omega)).mpr hu
    · have := h.user (k - n) (by omega)
      rwa [show va + n + (k - n) = va + k by omega] at this
  · rw [← add_assoc]
    exact h.stop (by omega)

theorem congr (hm : SameTable r m m') (h : Upto m' r va len c) : Upto m r va len c :=
  ⟨h.le, fun k hk => hm.readable.mp (h.user k hk), fun hlt hu => h.stop hlt (hm.readable.mpr hu)⟩

theorem unique {c' : Nat} (h : Upto m r va len c) (h' : Upto m r va len c') : c = c' := by
  rcases Nat.lt_trichotomy c c' with hlt | he | hlt
  · exact absurd (h'.user c hlt) (h.stop (lt_of_lt_of_le hlt h'.le))
  · exact he
  · exact absurd (h.user c' hlt) (h'.stop (lt_of_lt_of_le hlt h.le))

theorem all_iff (h : Upto m r va len c) : c = len ↔ ∀ k < len, Readable m r (va + k) := by
  refine ⟨fun he => he ▸ h.user, fun hall => ?_⟩
  by_contra hne
  have hlt := lt_of_le_of_ne h.le hne
  exact h.stop hlt (hall c hlt)

end Upto

/-! ### `copyout` -/

/-- No byte of the table is within the user's reach. -/
def Stable (m : Bytes) (r : Nat) : Prop :=
  ∀ m', (∀ a, (∀ va, Readable m r va → uaddr m r va ≠ a) → m' a = m a) → SameTable r m m'

theorem Stable.scatter {bs : List UInt8} (h : Stable m r) (hu : ∀ k < bs.length, Readable m r (va + k)) :
    SameTable r m (Bytes.scatter (uaddr m r) m va bs) :=
  h _ fun _ ha => Bytes.scatter_of_not_mem fun i hi => ha _ (hu i hi)

theorem Stable.congr {bs : List UInt8} (h : Stable m r) (hu : ∀ k < bs.length, Readable m r (va + k)) :
    Stable (Bytes.scatter (uaddr m r) m va bs) r := by
  have hs := h.scatter hu
  intro m' hm' va'
  have h' : SameTable r m m' := h m' fun a ha => by
    rw [hm' a fun va hva => by rw [hs.uaddr]; exact ha va (hs.readable.mp hva)]
    exact Bytes.scatter_of_not_mem fun i hi => ha _ (hu i hi)
  rw [h' va', hs va']

/-- The bytes go where the translation says, up to the first byte that the user may not reach. -/
theorem wp_copyout_bytes (h : Stable s.mem r) (hQ : ∀ c, Upto s.mem r va src.length c →
      Q (decide (c = src.length)) { s with mem := Bytes.scatter (uaddr s.mem r) s.mem va (src.take c) }) :
    wp (copyout r va src) Q s := by
  induction hlen : src.length using Nat.strong_induction_on generalizing va src s Q with
  | _ len ih =>
    rw [copyout]
    by_cases h0 : src.length = 0
    · rw [dif_pos h0, wp_pure]
      have := hQ 0 (.zero (.inl h0))
      rwa [decide_eq_true (by omega), List.take_zero, Bytes.scatter] at this
    · rw [dif_neg h0]
      simp only [wp_bind, wp_walkaddr_find]
      by_cases hu : walkaddrOf s.mem r (PGROUNDDOWN va) = 0
      · rw [if_pos hu, wp_pure]
        have := hQ 0 (.zero (.inr (not_not.mpr hu)))
        rwa [decide_eq_false (by omega), List.take_zero, Bytes.scatter] at this
      · rw [if_neg hu, sub_PGROUNDDOWN, ← uaddr]
        simp only [wp_bind, wp_modify]
        generalize hn : min (PGSIZE - va % PGSIZE) src.length = n
        have hpos : 0 < n := by
          have := Nat.mod_lt va (show PGSIZE > 0 by decide)
          omega
        have htake : (src.take n).length = n := by rw [List.length_take]; omega
        have hread : ∀ k < (src.take n).length, Readable s.mem r (va + k) := fun k hk =>
          (readable_add (by omega)).mpr hu
        -- the part in this page
        have hcopy : s.mem.copy (uaddr s.mem r va) (fun i => src.getD i 0) 0 n =
            Bytes.scatter (uaddr s.mem r) s.mem va (src.take n) := by
          rw [← Bytes.copy_eq_scatter (b := uaddr s.mem r va) fun i hi => uaddr_add (by omega), htake]
          refine Bytes.copy_congr fun k hk => ?_
          simp only [add_zero, List.getD_eq_getElem?_getD, List.getElem?_take, if_pos hk]
        rw [hcopy]
        have hsame := h.scatter hread
        have hdrop : (src.drop n).length = src.length - n := List.length_drop
        by_cases hfull : src.length ≤ PGSIZE - va % PGSIZE
        · rw [List.drop_eq_nil_of_le (by omega), copyout, dif_pos List.length_nil, wp_pure]
          have hupto : Upto s.mem r va (n + 0) (n + 0) := Upto.add (by omega) hu (.zero (.inl rfl))
          have := hQ n (by rwa [show src.length = n by omega])
          rwa [decide_eq_true (by omega)] at this
        · rw [next_page (n := n) (by omega)]
          refine ih _ (by omega) (h.congr hread) (fun c hc => ?_) rfl
          have := hQ (n + c) (by
            rw [show src.length = n + (src.drop n).length by omega]
            exact Upto.add (by omega) hu (hc.congr hsame))
          have hall : decide (n + c = src.length) = decide (c = (src.drop n).length) :=
            decide_eq_decide.mpr (by omega)
          rw [List.take_add, Bytes.scatter_append, htake, hall] at this
          rw [Bytes.scatter_congr fun i hi => hsame.uaddr]
          exact this

/-! ### `copyin` -/

/-- `[dst, dst + len)` is kernel memory: no byte of the table, and out of the user's reach. -/
structure KernelRange (m : Bytes) (r dst len : Nat) : Prop where
  table : ∀ m', (∀ a, ¬ (dst ≤ a ∧ a < dst + len) → m' a = m a) → SameTable r m m'
  user : ∀ va, Readable m r va → ¬ (dst ≤ uaddr m r va ∧ uaddr m r va < dst + len)

namespace KernelRange

variable (h : KernelRange m r dst len)
include h

theorem sameTable {f : Bytes} (hn : n ≤ len) : SameTable r m (m.copy dst f k n) :=
  h.table _ fun _ ha => Bytes.copy_of_not_mem (by omega)

theorem rest {f : Bytes} (hn : n ≤ len) : KernelRange (m.copy dst f k n) r (dst + n) (len - n) := by
  have hs := h.sameTable (f := f) (k := k) hn
  refine ⟨fun m' hm' va => ?_, fun va hva => ?_⟩
  · have h' : SameTable r m m' := h.table m' fun a ha => by
      rw [hm' a (by omega)]
      exact Bytes.copy_of_not_mem (by omega)
    rw [h' va, hs va]
  · rw [hs.uaddr]
    have := h.user va (hs.readable.mp hva)
    omega

theorem load_user {f : Bytes} (hn : n ≤ len) (hu : Readable m r va) :
    m.copy dst f k n (uaddr m r va) = m (uaddr m r va) :=
  Bytes.copy_of_not_mem fun hin => h.user va hu ⟨hin.1, by omega⟩

end KernelRange

def ubyte (m : Bytes) (r va : Nat) : UInt8 := m (uaddr m r va)

theorem copy_ubytes (h : KernelRange m r dst len) (hn : n ≤ len) (hc : ∀ k < c, Readable m r (va + n + k)) :
    (m.copy dst (fun i => ubyte m r (va + i)) 0 n).copy (dst + n)
        (fun i => ubyte (m.copy dst (fun i => ubyte m r (va + i)) 0 n) r (va + n + i)) 0 c =
      m.copy dst (fun i => ubyte m r (va + i)) 0 (n + c) := by
  rw [← Bytes.copy_copy]
  refine Bytes.copy_congr fun k hk => ?_
  rw [ubyte, (h.sameTable hn).uaddr, add_zero, h.load_user hn (hc k hk), ubyte, zero_add, add_comm k,
    add_assoc]

theorem copy_page (hn : n ≤ PGSIZE - va % PGSIZE) :
    m.copy dst m (uaddr m r va) n = m.copy dst (fun i => ubyte m r (va + i)) 0 n :=
  Bytes.copy_congr fun k hk => by rw [ubyte, add_zero, uaddr_add (by omega), add_comm]

theorem wp_copyinTo_bytes (h : KernelRange s.mem r dst len) (hQ : ∀ c, Upto s.mem r va len c →
      Q (decide (c = len)) { s with mem := s.mem.copy dst (fun i => ubyte s.mem r (va + i)) 0 c }) :
    wp (copyinTo r dst va len) Q s := by
  induction len using Nat.strong_induction_on generalizing va dst s Q with
  | _ len ih =>
    rw [copyinTo]
    by_cases h0 : len = 0
    · rw [dif_pos h0, wp_pure]
      have := hQ 0 (.zero (.inl h0))
      rwa [decide_eq_true (by omega), Bytes.copy_zero] at this
    · rw [dif_neg h0]
      simp only [wp_bind, wp_walkaddr_find]
      by_cases hu : walkaddrOf s.mem r (PGROUNDDOWN va) = 0
      · rw [if_pos hu, wp_pure]
        have := hQ 0 (.zero (.inr (not_not.mpr hu)))
        rwa [decide_eq_false (by omega), Bytes.copy_zero] at this
      · rw [if_neg hu, sub_PGROUNDDOWN, ← uaddr]
        simp only [memmove, wp_bind, wp_modify]
        generalize hn : min (PGSIZE - va % PGSIZE) len = n
        have hpos : 0 < n := by
          have := Nat.mod_lt va (show PGSIZE > 0 by decide)
          omega
        rw [copy_page (by omega)]
        by_cases hfull : len ≤ PGSIZE - va % PGSIZE
        · rw [show len - n = 0 by omega, copyinTo, dif_pos rfl, wp_pure]
          have hupto : Upto s.mem r va (n + 0) (n + 0) := Upto.add (by omega) hu (.zero (.inl rfl))
          have := hQ n (by rwa [show len = n by omega])
          rwa [decide_eq_true (by omega)] at this
        · rw [next_page (n := n) (by omega)]
          have hrest : KernelRange (s.mem.copy dst (fun i => ubyte s.mem r (va + i)) 0 n) r (dst + n) (len - n) :=
            h.rest (by omega)
          refine ih _ (by omega) hrest fun c hc => ?_
          have hsame : SameTable r s.mem (s.mem.copy dst (fun i => ubyte s.mem r (va + i)) 0 n) :=
            h.sameTable (by omega)
          have hc' := hc.congr hsame
          have := hQ (n + c) (by
            rw [show len = n + (len - n) by omega]
            exact Upto.add (by omega) hu hc')
          rw [copy_ubytes h (by omega) hc'.user, decide_eq_decide.mpr (show c = len - n ↔ n + c = len by omega)]
          exact this

theorem wp_copyin_bytes {Q : Option (List UInt8) → Kmem → Prop} (hQ : ∀ c, Upto s.mem r va len c →
      Q (if c = len then some ((List.range len).map fun i => ubyte s.mem r (va + i)) else none) s) :
    wp (copyin r va len) Q s := by
  induction len using Nat.strong_induction_on generalizing va Q with
  | _ len ih =>
    rw [copyin]
    by_cases h0 : len = 0
    · rw [dif_pos h0, wp_pure]
      have := hQ 0 (.zero (.inl h0))
      rwa [if_pos h0.symm, h0] at this
    · rw [dif_neg h0]
      simp only [wp_bind, wp_walkaddr_find]
      by_cases hu : walkaddrOf s.mem r (PGROUNDDOWN va) = 0
      · rw [if_pos hu, wp_pure]
        have := hQ 0 (.zero (.inr (not_not.mpr hu)))
        rwa [if_neg (by omega)] at this
      · rw [if_neg hu, sub_PGROUNDDOWN, ← uaddr]
        simp only [wp_bind, wp_get]
        generalize hn : min (PGSIZE - va % PGSIZE) len = n
        have hpos : 0 < n := by
          have := Nat.mod_lt va (show PGSIZE > 0 by decide)
          omega
        have hbytes : (List.range n).map (fun i => s.mem (uaddr s.mem r va + i)) =
            (List.range n).map fun i => ubyte s.mem r (va + i) :=
          List.map_congr_left fun i hi => by
            rw [ubyte, uaddr_add]
            have := List.mem_range.mp hi
            omega
        rw [hbytes]
        by_cases hfull : len ≤ PGSIZE - va % PGSIZE
        · rw [show len - n = 0 by omega, copyin, dif_pos rfl, wp_pure, wp_pure, show n = len by omega]
          have hupto : Upto s.mem r va (n + 0) (n + 0) := Upto.add (by omega) hu (.zero (.inl rfl))
          have := hQ len (by rwa [show len = n by omega])
          rw [if_pos rfl] at this
          rwa [Option.map_some, List.append_nil]
        · rw [next_page (n := n) (by omega)]
          refine ih _ (by omega) fun c hc => ?_
          rw [wp_pure]
          have := hQ (n + c) (by
            rw [show len = n + (len - n) by omega]
            exact Upto.add (by omega) hu hc)
          by_cases hall : c = len - n
          · rw [if_pos (by omega), show len = n + (len - n) by omega, List.range_add, List.map_append,
              List.map_map] at this
            rw [if_pos hall, Option.map_some]
            simpa only [add_assoc, Function.comp_def] using this
          · rw [if_neg (by omega)] at this
            rwa [if_neg hall]

/-! ### `copyinstr` -/

theorem wp_copyinstrPage_bytes (hd : ∀ i < n, ¬ (dst ≤ p + i ∧ p + i < dst + n))
    (hnul : ∀ k < n, (∀ i < k, s.mem (p + i) ≠ 0) → s.mem (p + k) = 0 →
      Q true { s with mem := s.mem.copy dst s.mem p (k + 1) })
    (hno : (∀ i < n, s.mem (p + i) ≠ 0) → Q false { s with mem := s.mem.copy dst s.mem p n }) :
    wp (copyinstrPage n dst p) Q s := by
  induction n generalizing dst p s with
  | zero =>
    rw [copyinstrPage, wp_pure]
    have := hno fun i hi => absurd hi (Nat.not_lt_zero i)
    rwa [Bytes.copy_zero] at this
  | succ n ih =>
    have hfill : s.mem.fill dst 1 (s.mem p) = s.mem.copy dst s.mem p 1 := by
      funext x
      simp only [Bytes.fill, Bytes.copy]
      by_cases hx : dst ≤ x ∧ x < dst + 1
      · rw [if_pos hx, if_pos hx, show x - dst + p = p by omega]
      · rw [if_neg hx, if_neg hx]
    simp only [copyinstrPage, wp_bind, wp_get, wp_modify]
    rw [hfill]
    by_cases h0 : s.mem p = 0
    · rw [if_pos h0, wp_pure]
      exact hnul 0 (Nat.succ_pos n) (fun i hi => absurd hi (Nat.not_lt_zero i)) h0
    · rw [if_neg h0]
      -- the bytes to come are as before
      have hmem : ∀ i < n, s.mem.copy dst s.mem p 1 (p + 1 + i) = s.mem (p + (i + 1)) := fun i hi => by
        rw [show p + (i + 1) = p + 1 + i by omega]
        have := hd (i + 1) (by omega)
        exact Bytes.copy_of_not_mem (by omega)
      have hcopy : ∀ k ≤ n, (s.mem.copy dst s.mem p 1).copy (dst + 1) (s.mem.copy dst s.mem p 1) (p + 1) k =
          s.mem.copy dst s.mem p (k + 1) := fun k hk => by
        rw [add_comm k, ← Bytes.copy_copy]
        refine Bytes.copy_congr fun i hi => ?_
        rw [show i + (p + 1) = p + 1 + i by omega, hmem i (by omega), add_assoc, add_comm 1]
      have hpre : ∀ {k}, (∀ i < k, s.mem.copy dst s.mem p 1 (p + 1 + i) ≠ 0) → k ≤ n →
          ∀ i < k + 1, s.mem (p + i) ≠ 0 := by
        intro k hk hkn i hi
        cases i with
        | zero => exact h0
        | succ i =>
          rw [← hmem i (by omega)]
          exact hk i (by omega)
      refine ih (fun i hi => ?_) (fun k hk hpre' hz => ?_) fun hpre' => ?_
      · have := hd (i + 1) (by omega)
        omega
      · have := hnul (k + 1) (by omega) (hpre hpre' (by omega)) (by rw [← hmem k hk]; exact hz)
        rwa [hcopy (k + 1) (by omega)]
      · have := hno (hpre hpre' (le_rfl))
        rwa [hcopy n (le_rfl)]

/-- The string is copied up to its NUL, if that comes in time; otherwise all bytes there are. -/
theorem wp_copyinstr_bytes (h : KernelRange s.mem r dst max)
    (hnul : ∀ k < max, (∀ i ≤ k, Readable s.mem r (va + i)) → (∀ i < k, ubyte s.mem r (va + i) ≠ 0) →
      ubyte s.mem r (va + k) = 0 →
      Q true { s with mem := s.mem.copy dst (fun i => ubyte s.mem r (va + i)) 0 (k + 1) })
    (hno : ∀ c, Upto s.mem r va max c → (∀ i < c, ubyte s.mem r (va + i) ≠ 0) →
      Q false { s with mem := s.mem.copy dst (fun i => ubyte s.mem r (va + i)) 0 c }) :
    wp (copyinstr r dst va max) Q s := by
  induction max using Nat.strong_induction_on generalizing va dst s Q with
  | _ max ih =>
    rw [copyinstr]
    by_cases h0 : max = 0
    · rw [dif_pos h0, wp_pure]
      have := hno 0 (.zero (.inl h0)) fun i hi => absurd hi (Nat.not_lt_zero i)
      rwa [Bytes.copy_zero] at this
    · rw [dif_neg h0]
      simp only [wp_bind, wp_walkaddr_find]
      by_cases hu : walkaddrOf s.mem r (PGROUNDDOWN va) = 0
      · rw [if_pos hu, wp_pure]
        have := hno 0 (.zero (.inr (not_not.mpr hu))) fun i hi => absurd hi (Nat.not_lt_zero i)
        rwa [Bytes.copy_zero] at this
      · rw [if_neg hu, sub_PGROUNDDOWN, ← uaddr]
        simp only [wp_bind]
        generalize hn : min (PGSIZE - va % PGSIZE) max = n
        have hpos : 0 < n := by
          have := Nat.mod_lt va (show PGSIZE > 0 by decide)
          omega
        have hread : ∀ i < n, Readable s.mem r (va + i) := fun i hi => (readable_add (by omega)).mpr hu
        have hbyte : ∀ i < n, s.mem (uaddr s.mem r va + i) = ubyte s.mem r (va + i) := fun i hi => by
          rw [ubyte, uaddr_add (by omega)]
        refine wp_copyinstrPage_bytes (fun i hi => ?_) (fun k hk hpre hz => ?_) fun hpre => ?_
        · have := h.user (va + i) (hread i hi)
          rw [uaddr_add (by omega)] at this
          omega
        · rw [if_pos rfl, wp_pure, copy_page (by omega)]
          refine hnul k (by omega) (fun i hi => hread i (by omega)) (fun i hi => ?_) ?_
          · rw [← hbyte i (by omega)]
            exact hpre i hi
          · rw [← hbyte k hk, hz]
        · rw [if_neg (by decide), copy_page (by omega)]
          have hpre' : ∀ i < n, ubyte s.mem r (va + i) ≠ 0 := fun i hi => by
            rw [← hbyte i hi]
            exact hpre i hi
          have hle : n ≤ max := by omega
          have hsame : SameTable r s.mem (s.mem.copy dst (fun i => ubyte s.mem r (va + i)) 0 n) := h.sameTable hle
          by_cases hfull : max ≤ PGSIZE - va % PGSIZE
          · rw [show max - n = 0 by omega, copyinstr, dif_pos rfl, wp_pure]
            have hupto : Upto s.mem r va (n + 0) (n + 0) := Upto.add (by omega) hu (.zero (.inl rfl))
            exact hno n (by rwa [show max = n by omega]) hpre'
          · rw [next_page (n := n) (by omega)]
            -- the bytes of the pages to come are as before
            have hbyte' : ∀ {i}, Readable s.mem r (va + n + i) →
                ubyte (s.mem.copy dst (fun i => ubyte s.mem r (va + i)) 0 n) r (va + n + i) =
                  ubyte s.mem r (va + (n + i)) := fun hi => by
              rw [ubyte, hsame.uaddr, h.load_user hle hi, add_assoc]
              rfl
            have hjoin : ∀ {k}, (∀ i < k, Readable s.mem r (va + n + i)) →
                (∀ i < k, ubyte (s.mem.copy dst (fun i => ubyte s.mem r (va + i)) 0 n) r (va + n + i) ≠ 0) →
                ∀ i < n + k, ubyte s.mem r (va + i) ≠ 0 := by
              intro k hr hk i hi
              by_cases hin : i < n
              · exact hpre' i hin
              · have := hk (i - n) (by omega)
                rwa [hbyte' (hr _ (by omega)), show n + (i - n) = i by omega] at this
            have hrest : KernelRange (s.mem.copy dst (fun i => ubyte s.mem r (va + i)) 0 n) r (dst + n) (max - n) :=
              h.rest hle
            refine ih _ (by omega) hrest (fun k hk hr hpre'' hz => ?_) fun c hc hpre'' => ?_
            · have hr' : ∀ i ≤ k, Readable s.mem r (va + n + i) := fun i hi => hsame.readable.mp (hr i hi)
              rw [copy_ubytes h hle fun i hi => hr' i (by omega), ← add_assoc]
              refine hnul (n + k) (by omega) (fun i hi => ?_) (hjoin (fun i hi => hr' i (by omega)) hpre'') ?_
              · by_cases hin : i < n
                · exact hread i hin
                · have := hr' (i - n) (by omega)
                  rwa [show va + n + (i - n) = va + i by omega] at this
              · rw [← hbyte' (hr' k (le_rfl)), hz]
            · have hc' := hc.congr hsame
              rw [copy_ubytes h hle hc'.user]
              refine hno (n + c) ?_ (hjoin hc'.user hpre'')
              rw [show max = n + (max - n) by omega]
              exact Upto.add (by omega) hu hc'

end Xv6
