import Xv6.Proofs.FsWrite
import Xv6.Proofs.StreamRead
import Xv6.Proofs.TableView

/-!
# Processes do not see each other's memory

`userMem` is the memory of a process as its page table makes it. It shares no page with a page table or another process,
so that what the process or `copyout` stores there stays there. `userPages` is the same memory page by page, as the
model of the file system has it.
-/

namespace Xv6

open Ghost Kern Prog

variable {K : Layout} {s : Kern} {k : Kmem} {g : Ghost Tag} {i : Fin NPROC} {r r' n n' t t' v va p : Nat} {o : Owner Tag}
  {tag tag' : Tag} {m : Bytes}

/-- `m'` is `m` but for bytes that the user of the table `r` can access. -/
def UserStores (r : Nat) (m m' : Bytes) : Prop := ∀ a, (∀ va, UserByte m r va → phys m r va ≠ a) → m' a = m a

namespace PInv

variable (h : PInv K k g) (hS : Space K g r n t) (ht : g.own t = some (.held tag))
include h hS ht

theorem own_leaf (hv : leafOf k.mem (nodeOf k.mem r) v &&& PTE_V ≠ 0) : PTE2PA (leafOf k.mem (nodeOf k.mem r) v) ≠ 0 ∧
    (leafOf k.mem (nodeOf k.mem r) v &&& PTE_U ≠ 0 →
      g.own (PTE2PA (leafOf k.mem (nodeOf k.mem r) v)) = some (.node r 0 v)) := by
  have he := entry_leafOf (v := v) h hS.table.root
  generalize leafOf k.mem (nodeOf k.mem r) v = e at he hv
  cases he with
  | zero => exact absurd rfl hv
  | @page c f flags own =>
    have hc := (own c).mpr rfl
    rw [PTE2PA_mkPte flags.lt (h.isPage hc).aligned]
    exact ⟨h.ne_zero hc, fun _ => hc⟩
  | @ext c f flags user hx =>
    refine ⟨?_, fun hu => absurd user (by rwa [mkPte_and flags.lt (by decide)] at hu)⟩
    rw [hS.ext] at hx
    split at hx
    · cases hx
      rw [PTE2PA_mkPte flags.lt K.trampoline_aligned]
      exact Nat.ne_of_gt (lt_of_lt_of_le (by decide) K.base_le)
    · split at hx <;> cases hx
      rw [PTE2PA_mkPte flags.lt (h.isPage ht).aligned]
      exact h.ne_zero ht

theorem userTable : UserTable k.mem r (nodeOf k.mem r) := by
  obtain ⟨L, hL⟩ := h.userSpace hS ht
  exact ⟨hL.sound.pool.tree, fun v hv => (hL.sound.leaves v hv).1, fun v hv => (h.own_leaf hS ht hv).1⟩

theorem own_phys (hu : UserByte k.mem r va) : g.own (PGROUNDDOWN (phys k.mem r va)) = some (.node r 0 (va / PGSIZE)) ∧
    phys k.mem r va % PGSIZE = va % PGSIZE := by
  have hpte := (h.userTable hS ht).tree.pteOf_eq hu.page_lt
  have hv := hu.2
  rw [hpte] at hv
  have hp := (h.own_leaf hS ht hv.1).2 hv.2
  have hal := (h.isPage hp).aligned
  rw [phys, hpte]
  refine ⟨Eq.trans (congrArg g.own ?_) hp, ?_⟩ <;> simp only [PGROUNDDOWN, PGSIZE] at hal ⊢ <;> omega

theorem user_apart : UserTable.Apart k.mem r := by
  intro x y hx hy he
  obtain ⟨hpx, hmx⟩ := h.own_phys hS ht hx
  obtain ⟨hpy, hmy⟩ := h.own_phys hS ht hy
  rw [he] at hpx hmx
  have hdiv := (Owner.node.inj (Option.some.inj (hpx.symm.trans hpy))).2.2
  simp only [PGSIZE] at hdiv hmx hmy
  omega

theorem samePage_of_stores (hm : UserStores r k.mem m) (hp : g.own p = some o) (ho : ∀ v, o ≠ .node r 0 v) :
    SamePage k.mem m p := by
  refine fun a h1 h2 => hm a fun va hu he => ?_
  have hal := (h.isPage hp).aligned
  have hq := (h.own_phys hS ht hu).1
  have hpq : PGROUNDDOWN a = p := by simp only [PGROUNDDOWN, PGSIZE] at *; omega
  rw [he, hpq, hp] at hq
  exact ho _ (Option.some.inj hq)

theorem userMem_other (hS' : Space K g r' n' t') (ht' : g.own t' = some (.held tag')) (hne : r' ≠ r)
    (hm : UserStores r k.mem m) : userMem m r' = userMem k.mem r' := by
  have hother : ∀ {p l x}, g.own p = some (.node r' l x) → SamePage k.mem m p :=
    fun hp => h.samePage_of_stores hS ht hm hp fun v he => hne (Owner.node.inj he).1
  funext va
  classical
  rw [userMem, userMem]
  by_cases hva : va < MAXVA
  · have hpte := (h.userTable hS' ht').pteOf_of_same
      (fun l x q hq => hother ((nodeOf_iff h hS'.table.root).mp hq).2) (page_lt_of_lt hva)
    have hu : UserByte m r' va ↔ UserByte k.mem r' va := by rw [UserByte, hpte, ← UserByte]
    rw [phys, hpte, ← phys]
    refine ite_congr (propext hu) (fun hu => congrArg some ?_) fun _ => rfl
    refine hother (h.own_phys hS' ht' hu).1 _ ?_ ?_ <;> simp only [PGROUNDDOWN, PGSIZE] <;> omega
  · rw [if_neg fun hu => hva hu.1, if_neg fun hu => hva hu.1]

end PInv

/-- `copyout` does to the memory of a process what `UserMem.copyout` says. What it or the process stores there changes no
page but its user pages, and the other processes see nothing of it. -/
theorem user_isolated (h : Reachable K s) (hi : (s.proc i).pagetable ≠ 0) :
    (∀ va src, wp (copyout (s.proc i).pagetable va src) (fun ok k => UserStores (s.proc i).pagetable s.kmem.mem k.mem ∧
      (userMem s.kmem.mem (s.proc i).pagetable).copyout va src = (ok, userMem k.mem (s.proc i).pagetable)) s.kmem) ∧
    ∀ m, UserStores (s.proc i).pagetable s.kmem.mem m →
      (∀ p o, Owns s p o → (∀ v, o ≠ .user i v) → SamePage s.kmem.mem m p) ∧
      ∀ j ≠ i, (s.proc j).pagetable ≠ 0 → userMem m (s.proc j).pagetable = userMem s.kmem.mem (s.proc j).pagetable := by
  obtain ⟨g, hs⟩ := (Inv.reach h).sys
  have hi := hs.used_iff_pagetable.mp hi
  obtain ⟨htf, -, hS⟩ := hs.mem hi
  refine ⟨fun va src => ?_, fun m hm => ⟨fun p o ho hne => ?_, fun j hne hj => ?_⟩⟩
  · have hT := hs.pages.userTable hS htf
    obtain ⟨ok, k, hrun, hspec⟩ : wp (copyout _ va src) _ _ := hT.copyout_userMem (hs.pages.user_apart hS htf)
    refine ⟨ok, k, hrun, ?_, hspec⟩
    refine (wp_copyout_bytes (Q := fun _ k => UserStores _ _ k.mem) hT.stable fun c hc a ha => ?_).of_eq hrun
    refine Bytes.scatter_of_not_mem fun j hj => ?_
    have hu := (hT.upto hc).2.1 j (by rw [List.length_take] at hj; omega)
    rw [hT.uaddr_eq hu]
    exact ha _ hu
  · obtain ⟨hprop, hown⟩ := hs.owns_iff.mp ho
    exact hs.pages.samePage_of_stores hS htf hm hown fun v he => hne v (hs.ghost_inj hprop hi he)
  · have hj := hs.used_iff_pagetable.mp hj
    exact hs.pages.userMem_other hS htf (hs.mem hj).space (hs.mem hj).tf (fun he => hne (hs.inj hj hi he)) hm

/-- A process and its child, on a machine with room for the two. -/
theorem user_isolated_two : ∃ s, Reachable smallLayout s ∧ ∃ i j, i ≠ j ∧ (s.proc i).pagetable ≠ 0 ∧ (s.proc j).pagetable ≠ 0 ∧
    ∀ va src, wp (copyout (s.proc i).pagetable va src) (fun ok k =>
      (userMem s.kmem.mem (s.proc i).pagetable).copyout va src = (ok, userMem k.mem (s.proc i).pagetable) ∧
      userMem k.mem (s.proc j).pagetable = userMem s.kmem.mem (s.proc j).pagetable) s.kmem := by
  obtain ⟨s, h, i, j, hne, hi, hj⟩ := exists_reachable
  obtain ⟨g, hs⟩ := (Inv.reach h).sys
  have hp : ∀ {i}, (s.proc i).state = .runnable → (s.proc i).pagetable ≠ 0 := fun hi =>
    hs.used_iff_pagetable.mpr (show (s.proc _).state ≠ .unused by rw [hi]; nofun)
  have hiso := user_isolated h (hp hi)
  exact ⟨s, h, i, j, hne, hp hi, hp hj, fun va src => (hiso.1 va src).mono fun _ k hq =>
    ⟨hq.2, (hiso.2 _ hq.1).2 j hne.symm (hp hj)⟩⟩

/-! ### The pages of a process -/

open Classical in
noncomputable def userPages (m : Bytes) (r v : Nat) : Option Bytes :=
  if UserByte m r (v * PGSIZE) then some fun i => m (phys m r (v * PGSIZE) + i) else none

theorem pageByte_userPages : pageByte (userPages m r) va = userMem m r va := by
  have hu : UserByte m r (va / PGSIZE * PGSIZE) ↔ UserByte m r va := by
    rw [UserByte, UserByte, Nat.mul_div_cancel _ (by decide)]
    refine and_congr_left' ?_
    simp only [PGSIZE, MAXVA]
    omega
  rw [pageByte, userPages, userMem, phys, Nat.mul_div_cancel _ (by decide), Nat.mul_mod_left, add_zero, hu, phys]
  split <;> rfl

/-- `copyinPages` does to a buffer what `copyin` does to the memory where the buffer is. -/
theorem UserTable.copyinPages_eq {dst len : Nat} {node : Nat → Nat → Option Nat} (h : UserTable k.mem r node)
    (hd : KernelMemory k.mem r node dst len) :
    wp (copyinTo r dst va len) (fun ok k' => ∃ m', (∀ a < len, m' a = k'.mem (dst + a)) ∧
      copyinPages (userPages k.mem r) len (fun a => k.mem (dst + a)) 0 va len = (ok, m')) k := by
  refine wp_copyinTo_bytes (h.kernelRange hd) fun c hc => ?_
  obtain ⟨c', hle', hin', hout', heq⟩ := copyinPages_spec (userPages k.mem r) (fun a => k.mem (dst + a)) 0 va len le_rfl
  obtain ⟨hle, hin, hout⟩ := h.upto hc
  have hsome : ∀ {a}, (pageByte (userPages k.mem r) a).isSome ↔ UserByte k.mem r a := fun {a} => by
    rw [pageByte_userPages, userMem]
    split <;> simp [*]
  -- both stop at the first byte that is not the user's
  obtain rfl : c = c' := by
    rcases lt_trichotomy c c' with hlt | he | hlt
    · exact absurd (hsome.mp (hin' c hlt)) (hout (by omega))
    · exact he
    · have := hsome.mpr (hin c' hlt)
      rw [hout' (by omega)] at this
      cases this
  refine ⟨_, fun a ha => ?_, heq⟩
  dsimp only
  rw [h.copy_eq hin, Bytes.copy, Bytes.copy]
  by_cases hac : a < c
  · rw [if_pos (by omega), if_pos (by omega), pageByte_userPages, userMem, if_pos, Option.getD_some]
    · simp [add_comm]
    · simpa [add_comm] using hin a hac
  · rw [if_neg (by omega), if_neg (by omega)]

end Xv6
