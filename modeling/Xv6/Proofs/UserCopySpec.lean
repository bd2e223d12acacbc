import Xv6.Exec
import Xv6.Proofs.UserCopy

/-!
# What the copies mean for a well-formed table

For a table whose leaves are neither pages of the table nor at page 0, a byte is readable if its page has `PTE_V`
and `PTE_U`, and it lies where the entry says.
-/

namespace Xv6

open Prog

/-- `va` lies below `MAXVA` in a page with `PTE_V` and `PTE_U`. -/
def UserByte (m : Bytes) (r va : Nat) : Prop :=
  va < MAXVA ∧ pteOf m r (va / PGSIZE) &&& PTE_V ≠ 0 ∧ pteOf m r (va / PGSIZE) &&& PTE_U ≠ 0

/-- Where the entry for its page puts `va`. -/
def phys (m : Bytes) (r va : Nat) : Nat := PTE2PA (pteOf m r (va / PGSIZE)) + va % PGSIZE

/-- A table whose leaves are neither at page 0 nor pages of the table. -/
structure UserTable (m : Bytes) (r : Nat) (node : Nat → Nat → Option Nat) : Prop where
  tree : PageTree m r node
  apart : LeavesApart m node
  ne_zero : ∀ v, leafOf m node v &&& PTE_V ≠ 0 → PTE2PA (leafOf m node v) ≠ 0

/-- `[dst, dst + len)` meets neither the pages of the table nor the user's bytes. -/
structure KernelMemory (m : Bytes) (r : Nat) (node : Nat → Nat → Option Nat) (dst len : Nat) : Prop where
  table : ∀ {l x q}, node l x = some q → dst + len ≤ q ∨ q + PGSIZE ≤ dst
  user : ∀ {va}, UserByte m r va → ¬ (dst ≤ phys m r va ∧ phys m r va < dst + len)

variable {m m' : Bytes} {r p q a va len max n k c dst : Nat} {node : Nat → Nat → Option Nat} {s s' : Kmem}
  {src : List UInt8}

theorem page_lt_of_lt (hva : va < MAXVA) : va / PGSIZE < 2 ^ 26 := by
  have hmax : MAXVA = 2 ^ 26 * 4096 := by decide
  simp only [PGSIZE]
  omega

theorem UserByte.page_lt (h : UserByte m r va) : va / PGSIZE < 2 ^ 26 := page_lt_of_lt h.1

theorem PGROUNDDOWN_lt : PGROUNDDOWN va < MAXVA ↔ va < MAXVA := by
  have hmax : MAXVA = 2 ^ 26 * 4096 := by decide
  simp only [PGROUNDDOWN, PGSIZE]
  omega

theorem PGROUNDDOWN_div : PGROUNDDOWN va / PGSIZE = va / PGSIZE := Nat.mul_div_cancel _ (by decide)

namespace UserTable

variable (h : UserTable m r node)
include h

section

variable (hm : ∀ l x q, node l x = some q → SamePage m m' q)
include hm

theorem of_same : UserTable m' r node := by
  have hleaf : ∀ v, leafOf m' node v = leafOf m node v := fun v => leafOf_of_same fun x q => hm 1 x q
  refine ⟨h.tree.of_same fun l x q => hm _ x q, fun v => ?_, fun v => ?_⟩
  · rw [hleaf]
    exact h.apart v
  · rw [hleaf]
    exact h.ne_zero v

theorem pteOf_of_same {v : Nat} (hv : v < 2 ^ 26) : pteOf m' r v = pteOf m r v := by
  rw [(h.of_same hm).tree.pteOf_eq hv, h.tree.pteOf_eq hv]
  exact leafOf_of_same fun x q => hm 1 x q

theorem sameTable : SameTable r m m' := by
  intro va
  rw [(h.of_same hm).tree.walkaddrOf_eq, h.tree.walkaddrOf_eq]
  by_cases hva : va < MAXVA
  · rw [h.pteOf_of_same hm (page_lt_of_lt hva)]
  · rw [if_neg (by omega), if_neg (by omega)]

end

theorem leaf_of_user (hu : UserByte m r va) : leafOf m node (va / PGSIZE) &&& PTE_V ≠ 0 := by
  rw [← h.tree.pteOf_eq hu.page_lt]
  exact hu.2.1

theorem page_ne_zero (hu : UserByte m r va) : PTE2PA (pteOf m r (va / PGSIZE)) ≠ 0 := by
  rw [h.tree.pteOf_eq hu.page_lt]
  exact h.ne_zero _ (h.leaf_of_user hu)

theorem readable_iff : Readable m r va ↔ UserByte m r va := by
  rw [Readable, h.tree.walkaddrOf_eq, PGROUNDDOWN_div]
  refine ⟨fun hr => ?_, fun hu => ?_⟩
  · by_contra hu
    exact hr (if_neg fun hc => hu ⟨PGROUNDDOWN_lt.mp hc.1, hc.2⟩)
  · rw [if_pos ⟨PGROUNDDOWN_lt.mpr hu.1, hu.2⟩]
    exact h.page_ne_zero hu

theorem uaddr_eq (hu : UserByte m r va) : uaddr m r va = phys m r va := by
  rw [uaddr, h.tree.walkaddrOf_eq, PGROUNDDOWN_div, if_pos ⟨PGROUNDDOWN_lt.mpr hu.1, hu.2⟩, phys]

theorem phys_apart (hva : va < MAXVA) (hv : pteOf m r (va / PGSIZE) &&& PTE_V ≠ 0) {l x : Nat}
    (hq : node l x = some q) : ¬ (q ≤ phys m r va ∧ phys m r va < q + PGSIZE) := by
  have hne : PTE2PA (pteOf m r (va / PGSIZE)) ≠ q := by
    rw [h.tree.pteOf_eq (page_lt_of_lt hva)] at hv ⊢
    rintro rfl
    exact h.apart _ hv l x hq
  have hal : PTE2PA (pteOf m r (va / PGSIZE)) % PGSIZE = 0 := PTE2PA_aligned
  have hqa := h.tree.aligned hq
  have hmod := Nat.mod_lt va (show PGSIZE > 0 by decide)
  rw [phys]
  simp only [PGSIZE] at *
  omega

theorem samePage_of_user (hm : ∀ a, (∀ va, UserByte m r va → phys m r va ≠ a) → m' a = m a) :
    ∀ l x q, node l x = some q → SamePage m m' q := fun l x q hq a h1 h2 =>
  hm a fun va hu he => h.phys_apart hu.1 hu.2.1 hq (by omega)

theorem stable : Stable m r := fun m' hm' =>
  h.sameTable (h.samePage_of_user fun a ha => hm' a fun va hva => by
    have hu := h.readable_iff.mp hva
    rw [h.uaddr_eq hu]
    exact ha va hu)

theorem upto (hu : Upto m r va len c) :
    c ≤ len ∧ (∀ k < c, UserByte m r (va + k)) ∧ (c < len → ¬ UserByte m r (va + c)) :=
  ⟨hu.le, fun k hk => h.readable_iff.mp (hu.user k hk), fun hlt hc => hu.stop hlt (h.readable_iff.mpr hc)⟩

theorem all_iff (hu : Upto m r va len c) : decide (c = len) = true ↔ ∀ k < len, UserByte m r (va + k) := by
  rw [decide_eq_true_iff, hu.all_iff]
  exact forall₂_congr fun k _ => h.readable_iff

theorem ubyte_eq (hu : UserByte m r va) : ubyte m r va = m (phys m r va) := by rw [ubyte, h.uaddr_eq hu]

theorem copy_eq (hu : ∀ k < c, UserByte m r (va + k)) : m.copy dst (fun i => ubyte m r (va + i)) 0 c =
    m.copy dst (fun i => m (phys m r (va + i))) 0 c :=
  Bytes.copy_congr fun k hk => h.ubyte_eq (hu k hk)

theorem scatter_eq {bs : List UInt8} (hu : ∀ k < bs.length, UserByte m r (va + k)) :
    Bytes.scatter (uaddr m r) m va bs = Bytes.scatter (phys m r) m va bs :=
  Bytes.scatter_congr fun i hi => h.uaddr_eq (hu i hi)

theorem kernelRange (hd : KernelMemory m r node dst len) : KernelRange m r dst len := by
  refine ⟨fun m' hm' => h.sameTable fun l x q hq a h1 h2 => hm' a ?_, fun va hva => ?_⟩
  · have := hd.table hq
    omega
  · have hu := h.readable_iff.mp hva
    rw [h.uaddr_eq hu]
    exact hd.user hu

end UserTable

/-- `copyout` and `copyin` copy byte by byte through the translation: they succeed if every byte of the range is the
user's, and what they write or read on the user's side are the user's bytes. -/
theorem user_copies {r : Nat} {node : Nat → Nat → Option Nat} {s : Kmem} (h : UserTable s.mem r node) (va : Nat) :
    (∀ src : List UInt8, wp (copyout r va src) (fun ok s' => ∃ c ≤ src.length,
      (∀ k < c, UserByte s.mem r (va + k)) ∧ (c < src.length → ¬ UserByte s.mem r (va + c)) ∧
      (ok = true ↔ ∀ k < src.length, UserByte s.mem r (va + k)) ∧
      s' = { s with mem := Bytes.scatter (phys s.mem r) s.mem va (src.take c) } ∧
      (∀ k < c, (∀ j, k < j → j < c → phys s.mem r (va + j) ≠ phys s.mem r (va + k)) →
        s'.mem (phys s.mem r (va + k)) = src.getD k 0) ∧
      ∀ a, s'.mem a ≠ s.mem a → ∃ k < c, a = phys s.mem r (va + k)) s) ∧
    (∀ dst len, KernelMemory s.mem r node dst len → wp (copyinTo r dst va len) (fun ok s' => ∃ c ≤ len,
      (∀ k < c, UserByte s.mem r (va + k)) ∧ (c < len → ¬ UserByte s.mem r (va + c)) ∧
      (ok = true ↔ ∀ k < len, UserByte s.mem r (va + k)) ∧
      s' = { s with mem := s.mem.copy dst (fun i => s.mem (phys s.mem r (va + i))) 0 c }) s) ∧
    (∀ len, wp (copyin r va len) (fun bytes s' => s' = s ∧
      ((∀ k < len, UserByte s.mem r (va + k)) → bytes = some ((List.range len).map fun i => s.mem (phys s.mem r (va + i)))) ∧
      ((∃ k < len, ¬ UserByte s.mem r (va + k)) → bytes = none)) s) ∧ ∀ dst len s₂, KernelMemory s.mem r node dst len →
      (∀ l x q, node l x = some q → SamePage s.mem s₂.mem q) →
      (∀ va', UserByte s.mem r va' → s₂.mem (phys s.mem r va') = s.mem (phys s.mem r va')) →
      wp (copyinTo r dst va len) (fun ok s' => wp (copyinTo r dst va len) (fun ok₂ s₂' => ok₂ = ok ∧
        ∀ k < len, (∀ j ≤ k, UserByte s.mem r (va + j)) → s₂'.mem (dst + k) = s'.mem (dst + k)) s₂) s := by
  refine ⟨fun src => ?_, fun dst len hd => ?_, fun len => ?_, fun dst len s₂ hd htab huser => ?_⟩
  · refine wp_copyout_bytes h.stable fun c hc => ?_
    obtain ⟨hle, hin, hout⟩ := h.upto hc
    have hlen : (src.take c).length = c := by rw [List.length_take]; omega
    have heq : Bytes.scatter (uaddr s.mem r) s.mem va (src.take c) = Bytes.scatter (phys s.mem r) s.mem va (src.take c) :=
      h.scatter_eq fun k hk => hin k (by omega)
    refine ⟨c, hle, hin, hout, h.all_iff hc, by rw [heq], fun k hk hlast => ?_, fun a ha => ?_⟩
    · dsimp only
      rw [heq, Bytes.scatter_last (by omega) fun j hj hjc => hlast j hj (by omega)]
      simp only [List.getD_eq_getElem?_getD, List.getElem?_take, if_pos hk]
    · by_contra hno
      refine ha ?_
      dsimp only
      rw [heq]
      exact Bytes.scatter_of_not_mem fun i hi he => hno ⟨i, by omega, he.symm⟩
  · refine wp_copyinTo_bytes (h.kernelRange hd) fun c hc => ?_
    obtain ⟨hle, hin, hout⟩ := h.upto hc
    refine ⟨c, hle, hin, hout, h.all_iff hc, ?_⟩
    rw [h.copy_eq hin]
  · refine wp_copyin_bytes fun c hc => ⟨rfl, fun hall => ?_, fun hsome => ?_⟩
    · rw [if_pos (of_decide_eq_true ((h.all_iff hc).mpr hall))]
      exact congrArg some (List.map_congr_left fun i hi => h.ubyte_eq (hall i (List.mem_range.mp hi)))
    · obtain ⟨k, hk, hno⟩ := hsome
      rw [if_neg fun he => hno ((h.all_iff hc).mp (decide_eq_true he) k hk)]
  · have h₂ := h.of_same htab
    have hsame := h.sameTable htab
    have hphys : ∀ {va'}, UserByte s.mem r va' → phys s₂.mem r va' = phys s.mem r va' := fun hu => by
      rw [phys, phys, h.pteOf_of_same htab hu.page_lt]
    have huser2 : ∀ {va'}, UserByte s₂.mem r va' → UserByte s.mem r va' := fun hu =>
      h.readable_iff.mp (hsame.readable.mp (h₂.readable_iff.mpr hu))
    have hd2 : KernelMemory s₂.mem r node dst len := ⟨hd.table, fun hu => by
      rw [hphys (huser2 hu)]
      exact hd.user (huser2 hu)⟩
    refine wp_copyinTo_bytes (h.kernelRange hd) fun c hc => wp_copyinTo_bytes (h₂.kernelRange hd2) fun c₂ hc2 => ?_
    obtain rfl := hc.unique (hc2.congr hsame)
    obtain ⟨-, hin, hout⟩ := h.upto hc
    obtain ⟨-, hin2, -⟩ := h₂.upto hc2
    refine ⟨rfl, fun k hk hall => ?_⟩
    have hkc : k < c := by
      by_contra hkc
      exact hout (by omega) (hall c (by omega))
    dsimp only
    rw [h.copy_eq hin, h₂.copy_eq hin2, Bytes.copy, Bytes.copy, if_pos (by omega), if_pos (by omega)]
    rw [show dst + k - dst + 0 = k by omega, hphys (hin k hkc), huser _ (hin k hkc)]

/-! ### A text page -/

theorem userTable_leafTable (hv : v < 512) : UserTable (leafTable v) 0x87FFD000 smallNode := by
  refine ⟨(sound_leafTable hv).pool.tree, apart_leafTable hv, fun w hw => ?_⟩
  rw [eq_of_leafTable hv hw]
  decide

theorem pteOf_leafTable (hv : v < 512) : pteOf (leafTable v) 0x87FFD000 v = textPte := by
  rw [(userTable_leafTable hv).tree.pteOf_eq (by omega), leafOf_leafTable hv, if_pos rfl]

theorem userByte_leafTable (hv : a / PGSIZE < 512) : UserByte (leafTable (a / PGSIZE)) 0x87FFD000 a := by
  have hp := pteOf_leafTable hv
  refine ⟨?_, by rw [hp]; decide, by rw [hp]; decide⟩
  simp only [PGSIZE, MAXVA] at *
  omega

theorem phys_leafTable (hv : a / PGSIZE < 512) :
    phys (leafTable (a / PGSIZE)) 0x87FFD000 a = 0x87FFC000 + a % PGSIZE := by
  rw [phys, pteOf_leafTable hv, show PTE2PA textPte = 0x87FFC000 by decide]

/-- The page of text starts with `hi` and a zero byte. -/
theorem text_leafTable : ∀ i < 3, UserByte (leafTable 0) 0x87FFD000 (0 + i) ∧
    leafTable 0 (phys (leafTable 0) 0x87FFD000 (0 + i)) = ([0x68, 0x69, 0] : List UInt8).getD i 0 := fun i hi => by
  have hv : (0 + i) / PGSIZE = 0 := Nat.div_eq_of_lt (by simp only [PGSIZE]; omega)
  have hu := userByte_leafTable (a := 0 + i) (by omega)
  have hp := phys_leafTable (a := 0 + i) (by omega)
  rw [hv] at hu hp
  refine ⟨hu, ?_⟩
  rw [hp]
  interval_cases i <;> decide

theorem user_copies_text : UserTable (leafTable 0) 0x87FFD000 smallNode ∧
    wp (copyin 0x87FFD000 0 2) (fun bytes s' => s' = ⟨leafTable 0, 0x87FFA000⟩ ∧ bytes = some [0x68, 0x69])
      ⟨leafTable 0, 0x87FFA000⟩ := by
  have h := userTable_leafTable (v := 0) (by decide)
  refine ⟨h, ((user_copies (s := ⟨leafTable 0, 0x87FFA000⟩) h 0).2.2.1 2).mono fun bytes s' hb => ?_⟩
  refine ⟨hb.1, (hb.2.1 fun k hk => (text_leafTable k (by omega)).1).trans ?_⟩
  simp only [show List.range 2 = [0, 1] from rfl, List.map_cons, List.map_nil, (text_leafTable 0 (by decide)).2,
    (text_leafTable 1 (by decide)).2]
  rfl

/-! ### Pages without `PTE_W` -/

/-- `va` lies in a page that is mapped without `PTE_W`. -/
def ReadOnly (m : Bytes) (r va : Nat) : Prop :=
  va < MAXVA ∧ pteOf m r (va / PGSIZE) &&& PTE_V ≠ 0 ∧ pteOf m r (va / PGSIZE) &&& PTE_W = 0

/-- What `copyout` should do about `PTE_W`: succeed only if all of the range may be written, and change no byte of
a page without it. -/
def Honours (m : Bytes) (r va : Nat) (src : List UInt8) (ok : Bool) (m' : Bytes) : Prop :=
  (ok = true → ∀ k < src.length, UserByte m r (va + k) ∧ pteOf m r ((va + k) / PGSIZE) &&& PTE_W ≠ 0) ∧
  ∀ va', ReadOnly m r va' → m' (phys m r va') = m (phys m r va')

/-- If all of the range is the user's, it has `PTE_W`; and a byte that would be the last one written to a page
without `PTE_W` is the byte that is there. -/
def WriteAllowed (m : Bytes) (r va : Nat) (src : List UInt8) : Prop :=
  ((∀ k < src.length, UserByte m r (va + k)) → ∀ k < src.length, pteOf m r ((va + k) / PGSIZE) &&& PTE_W ≠ 0) ∧
  ∀ va', ReadOnly m r va' → ∀ k < src.length, (∀ j ≤ k, UserByte m r (va + j)) → phys m r (va + k) = phys m r va' →
    (∀ i, k < i → i < src.length → (∀ j ≤ i, UserByte m r (va + j)) → phys m r (va + i) ≠ phys m r va') →
    src.getD k 0 = m (phys m r va')

theorem UserTable.honours_iff (h : UserTable m r node) (hc : Upto m r va src.length c) :
    Honours m r va src (decide (c = src.length)) (Bytes.scatter (uaddr m r) m va (src.take c)) ↔
      WriteAllowed m r va src := by
  obtain ⟨hle, hin, hout⟩ := h.upto hc
  have hlen : (src.take c).length = c := by rw [List.length_take]; omega
  -- the bytes that are written are those with everything before them in reach
  have hlt : ∀ k, k < c ↔ k < src.length ∧ ∀ j ≤ k, UserByte m r (va + j) := by
    refine fun k => ⟨fun hk => ⟨by omega, fun j hj => hin j (by omega)⟩, fun hk => ?_⟩
    by_contra hkc
    exact hout (by omega) (hk.2 c (by omega))
  rw [h.scatter_eq fun k hk => hin k (by omega), Honours, WriteAllowed, h.all_iff hc]
  refine and_congr ?_ (forall₂_congr fun va' _ => ?_)
  · exact ⟨fun hw hall k hk => (hw hall k hk).2, fun hw hall k hk => ⟨hall k hk, hw hall k hk⟩⟩
  · rw [Bytes.scatter_eq_iff, hlen]
    have hget : ∀ k < c, (src.take c).getD k 0 = src.getD k 0 := fun k hk => by
      simp only [List.getD_eq_getElem?_getD, List.getElem?_take, if_pos hk]
    constructor
    · intro hw k hk hu he hlast
      have hkc := (hlt k).mpr ⟨hk, hu⟩
      rw [← hget k hkc]
      exact hw k hkc he fun i hi hic => hlast i hi (by omega) ((hlt i).mp hic).2
    · intro hw k hkc he hlast
      rw [hget k hkc]
      exact hw k (by omega) ((hlt k).mp hkc).2 he fun i hi hil hu => hlast i hi ((hlt i).mpr ⟨hil, hu⟩)

/-- A call of `copyout` that meets the condition. -/
def CopyStep (r : Nat) (s s' : Kmem) : Prop :=
  ∃ va src ok, WriteAllowed s.mem r va src ∧ copyout r va src s = .ok (ok, s')

/-- `copyout` minds `PTE_W` exactly if the call happens to meet the condition above; and in every sequence of such
calls the pages without `PTE_W` keep their bytes. -/
theorem copyout_writable_iff {r : Nat} {node : Nat → Nat → Option Nat} {s : Kmem} (h : UserTable s.mem r node) :
    (∀ va src, wp (copyout r va src) (fun ok s' => Honours s.mem r va src ok s'.mem ↔ WriteAllowed s.mem r va src) s) ∧
    ∀ s', Relation.ReflTransGen (CopyStep r) s s' → ∀ va, ReadOnly s.mem r va →
      pteOf s'.mem r (va / PGSIZE) = pteOf s.mem r (va / PGSIZE) ∧
      s'.mem (phys s.mem r va) = s.mem (phys s.mem r va) := by
  refine ⟨fun va src => wp_copyout_bytes h.stable fun c hc => h.honours_iff hc, fun s' hrun => ?_⟩
  -- along the run the table stays as it is
  suffices hinv : (∀ l x q, node l x = some q → SamePage s.mem s'.mem q) ∧
      ∀ va, ReadOnly s.mem r va → s'.mem (phys s.mem r va) = s.mem (phys s.mem r va) from
    fun va hva => ⟨h.pteOf_of_same hinv.1 (page_lt_of_lt hva.1), hinv.2 va hva⟩
  induction hrun with
  | refl => exact ⟨fun _ _ _ _ _ _ _ => rfl, fun _ _ => rfl⟩
  | @tail s₁ s₂ _ hstep ih =>
    obtain ⟨hsame, hbytes⟩ := ih
    obtain ⟨va, src, ok, hallowed, hcall⟩ := hstep
    have h₁ := h.of_same hsame
    have hspec : wp (copyout r va src) (fun ok s' => Honours s₁.mem r va src ok s'.mem ∧
        ∀ l x q, node l x = some q → SamePage s₁.mem s'.mem q) s₁ :=
      wp_copyout_bytes h₁.stable fun c hc => ⟨(h₁.honours_iff hc).mpr hallowed, h₁.samePage_of_user fun a ha => by
        obtain ⟨hle, hin, -⟩ := h₁.upto hc
        have hlen : (src.take c).length ≤ c := by rw [List.length_take]; omega
        rw [h₁.scatter_eq fun k hk => hin k (by omega)]
        exact Bytes.scatter_of_not_mem fun i hi => ha _ (hin i (by omega))⟩
    obtain ⟨hhon, hsame'⟩ := hspec.of_eq hcall
    refine ⟨fun l x q hq => (hsame l x q hq).trans (hsame' l x q hq), fun va' hva' => ?_⟩
    have hpte := h.pteOf_of_same hsame (page_lt_of_lt hva'.1)
    have hphys : phys s₁.mem r va' = phys s.mem r va' := by rw [phys, phys, hpte]
    have hro : ReadOnly s₁.mem r va' := by
      rw [ReadOnly, hpte]
      exact hva'
    have := hhon.2 va' hro
    rw [hphys] at this
    rw [this, hbytes va' hva']

/-- `copyout` writes to a page of text. -/
theorem copyout_text : UserTable (leafTable 0) 0x87FFD000 smallNode ∧ ReadOnly (leafTable 0) 0x87FFD000 0 ∧
    wp (copyout 0x87FFD000 0 [1]) (fun ok s' => ok = true ∧ leafTable 0 (phys (leafTable 0) 0x87FFD000 0) = 0x68 ∧
      s'.mem (phys (leafTable 0) 0x87FFD000 0) = 1) ⟨leafTable 0, 0x87FFA000⟩ := by
  have h := userTable_leafTable (v := 0) (by decide)
  have hp : pteOf (leafTable 0) 0x87FFD000 (0 / PGSIZE) = textPte := pteOf_leafTable (by decide)
  have hro : ReadOnly (leafTable 0) 0x87FFD000 0 := ⟨by decide, by rw [hp]; decide, by rw [hp]; decide⟩
  have htext : ∀ k < ([1] : List UInt8).length, UserByte (leafTable 0) 0x87FFD000 (0 + k) := fun k hk =>
    (text_leafTable k (hk.trans (by decide))).1
  refine ⟨h, hro, wp_copyout_bytes (s := ⟨leafTable 0, 0x87FFA000⟩) h.stable fun c hc => ?_⟩
  obtain rfl : c = 1 := by simpa using (h.all_iff hc).mpr htext
  refine ⟨rfl, (text_leafTable 0 (by decide)).2, ?_⟩
  dsimp only [List.take_succ_cons, List.take_zero]
  rw [h.scatter_eq htext]
  exact Bytes.scatter_last (k := 0) (by decide) fun i hi hlt => absurd hlt (by simp; omega)

theorem copyout_writable_iff_text : UserTable (leafTable 0) 0x87FFD000 smallNode ∧
    wp (copyout 0x87FFD000 0 [1]) (fun ok s' => Honours (leafTable 0) 0x87FFD000 0 [1] ok s'.mem ↔
      WriteAllowed (leafTable 0) 0x87FFD000 0 [1]) ⟨leafTable 0, 0x87FFA000⟩ :=
  have h := userTable_leafTable (v := 0) (by decide)
  ⟨h, (copyout_writable_iff (s := ⟨leafTable 0, 0x87FFA000⟩) h).1 0 [1]⟩

/-! ### Strings -/

/-- The user has a string of length `k` at `va`. -/
structure IsString (m : Bytes) (r va k : Nat) : Prop where
  readable : ∀ i ≤ k, Readable m r (va + i)
  nul : ubyte m r (va + k) = 0
  ne : ∀ i < k, ubyte m r (va + i) ≠ 0

theorem IsString.unique {k' : Nat} (h : IsString m r va k) (h' : IsString m r va k') : k = k' := by
  rcases Nat.lt_trichotomy k k' with hlt | he | hlt
  · exact absurd h.nul (h'.ne k hlt)
  · exact he
  · exact absurd h'.nul (h.ne k' hlt)

theorem strlenWithin_eq (hk : k < n) (hne : ∀ i < k, m (a + i) ≠ 0) (hz : m (a + k) = 0) :
    Kern.strlenWithin m n a = some k := by
  induction n generalizing a k with
  | zero => exact absurd hk (Nat.not_lt_zero k)
  | succ n ih =>
    rw [Kern.strlenWithin]
    cases k with
    | zero => rw [if_pos (show m a = 0 from hz)]
    | succ k =>
      have hrec := ih (a := a + 1) (k := k) (by omega)
        (fun i hi => by rw [add_assoc, add_comm 1]; exact hne (i + 1) (by omega))
        (by rwa [add_assoc, add_comm 1])
      rw [if_neg (show m a ≠ 0 from hne 0 (Nat.succ_pos k)), hrec, Option.map_some]

/-- What `copyinstr` has done: the string is there if the user has one that fits, and nothing after its NUL has
been written. -/
structure StringCopied (m : Bytes) (r va dst max : Nat) (ok : Bool) (m' : Bytes) : Prop where
  ok_iff : ok = true ↔ ∃ k < max, IsString m r va k
  string : ∀ k < max, IsString m r va k → ∀ i ≤ k, m' (dst + i) = ubyte m r (va + i)
  outside : ∀ a, m' a ≠ m a → dst ≤ a ∧ a < dst + max ∧ ∀ k, IsString m r va k → a ≤ dst + k

theorem wp_copyinstr_string (h : KernelRange s.mem r dst max) :
    wp (copyinstr r dst va max) (fun ok s' => StringCopied s.mem r va dst max ok s'.mem) s := by
  refine wp_copyinstr_bytes h (fun k hk hr hne hz => ?_) fun c hc hne => ?_
  · have hstr : IsString s.mem r va k := ⟨hr, hz, hne⟩
    refine ⟨iff_of_true rfl ⟨k, hk, hstr⟩, fun k' _ hk' i hi => ?_, fun a ha => ?_⟩
    · obtain rfl := hstr.unique hk'
      dsimp only
      rw [Bytes.copy, if_pos (by omega), show dst + i - dst + 0 = i by omega]
    · have hin : dst ≤ a ∧ a < dst + (k + 1) := by
        by_contra hno
        dsimp only at ha
        exact ha (Bytes.copy_of_not_mem hno)
      refine ⟨hin.1, by omega, fun k' hk' => ?_⟩
      obtain rfl := hstr.unique hk'
      omega
  · have hno : ∀ k < max, ¬ IsString s.mem r va k := fun k hk hstr => by
      by_cases hkc : k < c
      · exact hne k hkc hstr.nul
      · exact hc.stop (by omega) (hstr.readable c (by omega))
    refine ⟨iff_of_false (by simp) fun hex => ?_, fun k hk hstr => absurd hstr (hno k hk), fun a ha => ?_⟩
    · obtain ⟨k, hk, hstr⟩ := hex
      exact hno k hk hstr
    · have hin : dst ≤ a ∧ a < dst + c := by
        by_contra hout
        dsimp only at ha
        exact ha (Bytes.copy_of_not_mem hout)
      have hle := hc.le
      refine ⟨hin.1, by omega, fun k hk => ?_⟩
      by_contra hka
      exact hno k (by omega) hk

/-- `copyinstr` copies a string with its NUL if the user has one within `max` bytes, and fails otherwise; it looks at
nothing after the NUL, and `fetchstr` returns the length. -/
theorem copyinstr_exact {r dst max : Nat} {s : Kmem} (h : KernelRange s.mem r dst max) (va : Nat) :
    wp (copyinstr r dst va max) (fun ok s' => StringCopied s.mem r va dst max ok s'.mem) s ∧
    (∀ k < max, IsString s.mem r va k → ∀ s₂ : Kmem, KernelRange s₂.mem r dst max →
      (∀ i ≤ k, walkaddrOf s₂.mem r (PGROUNDDOWN (va + i)) = walkaddrOf s.mem r (PGROUNDDOWN (va + i)) ∧
        ubyte s₂.mem r (va + i) = ubyte s.mem r (va + i)) →
      wp (copyinstr r dst va max) (fun ok s₂' => ok = true ∧ ∀ i ≤ k, s₂'.mem (dst + i) = ubyte s.mem r (va + i)) s₂) ∧
    ∀ p : ProcMem, p.pagetable = r → wp (Kern.fetchstr p va dst max) (fun ret _ =>
      (∀ k < max, IsString s.mem r va k → ret = some (k : Int)) ∧
      ((∀ k < max, ¬ IsString s.mem r va k) → ret = some (-1))) s := by
  refine ⟨wp_copyinstr_string h, fun k hk hstr s₂ h₂ hsame => ?_, fun p hp => ?_⟩
  · have hstr2 : IsString s₂.mem r va k := by
      refine ⟨fun i hi => ?_, ?_, fun i hi => ?_⟩
      · rw [Readable, (hsame i hi).1]
        exact hstr.readable i hi
      · rw [(hsame k (le_rfl)).2, hstr.nul]
      · rw [(hsame i (by omega)).2]
        exact hstr.ne i hi
    refine (wp_copyinstr_string h₂).mono fun ok s' hcopied => ⟨hcopied.ok_iff.mpr ⟨k, hk, hstr2⟩, fun i hi => ?_⟩
    rw [hcopied.string k hk hstr2 i hi, (hsame i hi).2]
  · subst hp
    simp only [Kern.fetchstr, wp_bind]
    refine (wp_copyinstr_string h).mono fun ok s' hcopied => ?_
    by_cases hex : ∃ k < max, IsString s.mem p.pagetable va k
    · rw [hcopied.ok_iff.mpr hex]
      simp only [Bool.not_true, Bool.false_eq_true, if_false, wp_bind, wp_get, wp_pure]
      obtain ⟨k, hk, hstr⟩ := hex
      have hbytes := hcopied.string k hk hstr
      have hlen : Kern.strlenWithin s'.mem max dst = some k := by
        refine strlenWithin_eq hk (fun i hi => ?_) ?_
        · rw [hbytes i (by omega)]
          exact hstr.ne i hi
        · rw [hbytes k (le_rfl), hstr.nul]
      refine ⟨fun k' hk' hstr' => ?_, fun hno => absurd hstr (hno k hk)⟩
      rw [hlen, ← hstr.unique hstr']
      rfl
    · rw [Bool.eq_false_iff.mpr fun hok => hex (hcopied.ok_iff.mp hok)]
      simp only [Bool.not_false, if_true, wp_pure]
      exact ⟨fun k hk hstr => absurd ⟨k, hk, hstr⟩ hex, fun _ => trivial⟩

theorem kernelMemory_leafTable : KernelMemory (leafTable 0) 0x87FFD000 smallNode 0x1000 16 := by
  have h := userTable_leafTable (v := 0) (by decide)
  refine ⟨fun hq => ?_, fun {va} hu => ?_⟩
  · rcases of_smallNode hq with rfl | rfl | rfl <;> decide
  · have hpte := h.tree.pteOf_eq hu.page_lt
    rw [eq_of_leafTable (by decide) (h.leaf_of_user hu)] at hpte
    rw [phys, hpte, show PTE2PA textPte = 0x87FFC000 by decide]
    omega

theorem copyinstr_exact_text : KernelRange (leafTable 0) 0x87FFD000 0x1000 16 ∧ IsString (leafTable 0) 0x87FFD000 0 2 ∧
    wp (copyinstr 0x87FFD000 0x1000 0 16)
      (fun ok s' => StringCopied (leafTable 0) 0x87FFD000 0 0x1000 16 ok s'.mem) ⟨leafTable 0, 0x87FFA000⟩ := by
  have h := userTable_leafTable (v := 0) (by decide)
  have hd := h.kernelRange kernelMemory_leafTable
  have hbyte : ∀ i < 3, ubyte (leafTable 0) 0x87FFD000 (0 + i) = ([0x68, 0x69, 0] : List UInt8).getD i 0 := fun i hi =>
    (h.ubyte_eq (text_leafTable i hi).1).trans (text_leafTable i hi).2
  refine ⟨hd, ⟨fun i hi => h.readable_iff.mpr (text_leafTable i (by omega)).1, hbyte 2 (by decide), fun i hi => ?_⟩,
    (copyinstr_exact (s := ⟨leafTable 0, 0x87FFA000⟩) hd 0).1⟩
  rw [hbyte i (by omega)]
  interval_cases i <;> decide

end Xv6
