import Xv6.Proofs.SysCalls

/-!
# From boot on, `Inv` holds
-/

namespace Xv6

open Ghost Prog Kern Function

variable {K : Layout} {s s' : Kern} {k : Kmem} {g g' : Ghost Tag} {p q r n : Nat}

/-! ### `kinit` -/

/-- While `freerange` is at page `p`, the pages before it are free. -/
def bootOwn (K : Layout) (p q : Nat) : Option (Owner Tag) :=
  if q % PGSIZE = 0 ∧ K.kend ≤ q ∧ q < PHYSTOP then some (if q < p then .free else .held .tmp) else none

theorem bootOwn_of_page (hq : IsPage K q) : bootOwn K p q = some (if q < p then .free else .held .tmp) :=
  if_pos ⟨hq.aligned, hq.ge, hq.lt⟩

theorem bootOwn_ne_none : bootOwn K p q ≠ none ↔ IsPage K q := by
  rw [bootOwn]
  constructor
  · intro h
    by_contra hq
    exact h (if_neg fun e => hq ⟨e.1, e.2.1, e.2.2⟩)
  · rintro ⟨h1, h2, h3⟩
    rw [if_pos ⟨h1, h2, h3⟩]
    nofun

theorem wp_freerangeLoop {Q : Unit → Kmem → Prop} (hp : p % PGSIZE = 0) (hge : K.kend ≤ p)
    (hle : p + n * PGSIZE ≤ PHYSTOP) (h : PInv K k g) (hg : g.own = bootOwn K p) (hpin : ∀ q, g.pin q = none)
    (h1 : ∀ k' g', PInv K k' g' → g'.own = bootOwn K (p + n * PGSIZE) → (∀ q, g'.pin q = none) → g'.usr = g.usr →
      Q () k') : wp (freerangeLoop K n p) Q k := by
  induction n generalizing p k g with
  | zero =>
    rw [freerangeLoop, wp_pure]
    exact h1 k g h (by rwa [zero_mul, add_zero]) hpin rfl
  | succ n ih =>
    rw [Nat.succ_mul] at hle
    have hpos : 0 < PGSIZE := by decide
    have hpage : IsPage K p := ⟨hp, hge, by omega⟩
    have hown : g.own p = some (.held .tmp) := by
      rw [hg, bootOwn_of_page hpage, if_neg (lt_irrefl p)]
    rw [freerangeLoop, wp_bind]
    refine wp_kfree hpage (ih (by rw [Nat.add_mod_right]; exact hp) (by omega) (by omega) (h.freed hown (hpin p))
      (funext fun q => ?_) hpin fun k' g' hk' hg' hpin' hu' => h1 k' g' hk' ?_ hpin' hu')
    · by_cases hqp : q = p
      · subst hqp
        rw [set_own_self, bootOwn_of_page hpage, if_pos (by omega)]
      · rw [set_own_of_ne hqp, hg]
        by_cases hq : IsPage K q
        · have hal := hq.aligned
          have : q < p ↔ q < p + PGSIZE := by simp only [PGSIZE] at *; omega
          rw [bootOwn_of_page hq, bootOwn_of_page hq]
          simp only [this]
        · rw [not_not.mp (mt bootOwn_ne_none.mp hq), not_not.mp (mt bootOwn_ne_none.mp hq)]
    · rw [hg', Nat.succ_mul, add_comm (n * PGSIZE), add_assoc]

theorem le_PGROUNDUP : p ≤ PGROUNDUP p := by simp only [PGROUNDUP, PGSIZE]; omega

theorem pinv_zero (K : Layout) (m : Bytes) :
    PInv K ⟨m, 0⟩ ⟨bootOwn K (PGROUNDUP K.kend), fun _ _ _ => none, fun _ => none, fun _ _ => False⟩ := by
  have hheld : ∀ {q o}, bootOwn K (PGROUNDUP K.kend) q = some o → o = .held .tmp := fun {q o} h => by
    have hq : IsPage K q := bootOwn_ne_none.mp (by rw [h]; simp)
    have hge := hq.ge
    have hal := hq.aligned
    rw [bootOwn_of_page hq, if_neg (by simp only [PGROUNDUP, PGSIZE] at *; omega)] at h
    exact (Option.some.inj h).symm
  refine ⟨fun q => bootOwn_ne_none, ⟨[], rfl, List.nodup_nil, fun q => ⟨fun h => ?_, (by simp)⟩⟩, ?_, (by simp)⟩
  · cases hheld h
  · refine ⟨fun h => ?_, fun h => ?_, fun h => ?_, fun h => absurd rfl h, fun h => (bootOwn_ne_none.mp h).aligned⟩ <;>
      cases hheld h

theorem wp_kinit {Q : Unit → Kmem → Prop} {m : Bytes}
    (h1 : ∀ k (g : Ghost Tag), PInv K k g → (∀ p o, g.own p = some o → o = .free) → (∀ q, g.pin q = none) →
      (∀ r v, ¬ g.usr r v) → Q () k) : wp (kinit K) Q ⟨m, 0⟩ := by
  have hstop : PHYSTOP % PGSIZE = 0 := by decide
  have hup : PGROUNDUP K.kend ≤ PHYSTOP := by
    have := K.kend_le
    simp only [PGROUNDUP, PGSIZE] at *
    omega
  have hal : PGROUNDUP K.kend % PGSIZE = 0 := Nat.mul_mod_left ..
  have hn : PGROUNDUP K.kend + (PHYSTOP - PGROUNDUP K.kend) / PGSIZE * PGSIZE = PHYSTOP := by
    simp only [PGSIZE] at *
    omega
  refine wp_freerangeLoop hal le_PGROUNDUP (le_of_eq hn) (pinv_zero K m) rfl (fun _ => rfl)
    fun k g hk hg hpin hu => h1 k g hk (fun p o hp => ?_) hpin (by rw [hu]; exact fun _ _ => id)
  rw [hg, hn] at hp
  have hpage : IsPage K p := bootOwn_ne_none.mp (by rw [hp]; simp)
  rw [bootOwn_of_page hpage, if_pos hpage.lt] at hp
  exact (Option.some.inj hp).symm

/-! ### Before the first process -/

/-- What holds before `userinit`. -/
structure BootInv (K : Layout) (s : Kern) : Prop where
  sys : ∃ g, Sys K s g (refs (ofiles s)) ∧ ∀ q, g.pin q = none
  unused : ∀ i, (s.proc i).state = .unused
  closed : ∀ i fd, (s.proc i).ofile fd = none

theorem BootInv.of_booting (h : Booting K s) : BootInv K s := by
  induction h with
  | @kinit m k run =>
    refine (wp_kinit (Q := fun _ k => BootInv K { zeroed m with kmem := k }) fun k g hk hfree hpin hu => ?_).of_eq run
    refine ⟨⟨g, ⟨hk, fun hu => absurd rfl hu, fun _ => ⟨rfl, rfl, rfl⟩, fun hu => absurd rfl hu, fun {p o} hp => ?_, ?_,
      nofun, hu⟩, hpin⟩, fun _ => rfl, fun _ _ => rfl⟩
    · rw [hfree p o hp]; trivial
    · have hpipe : ∀ {pi}, g.own pi ≠ some (.held .pipe) := fun h => by cases hfree _ _ h
      refine ⟨fun f => ?_, fun _ => rfl, fun ho => absurd ho.ref (lt_irrefl 0),
        fun ho => absurd ho.ref (lt_irrefl 0), fun h => absurd h hpipe, fun h => absurd h hpipe⟩
      have h0 : refs (ofiles { zeroed m with kmem := k }) f = 0 := refs_eq_zero fun x h => by cases h
      exact h0.symm
  | @kalloc s k p _ run hp ih =>
    obtain ⟨g, hs, hpin⟩ := ih.sys
    refine (wp_kalloc (Q := fun p k => p ≠ 0 → BootInv K { s with kmem := k, boot := p :: s.boot }) hs.pages .boot
      (fun h => absurd rfl h) fun p k hfree hk _ => ?_).of_eq run hp
    have hF : Frame (fun _ => False) (· = Tag.boot) g (g.set p (.held .boot)) := .set hfree trivial rfl
    refine ⟨⟨g.set p (.held .boot), ⟨hk, fun {i} hu => absurd (ih.unused i) hu, fun {i} hu => hs.bare hu,
      fun {i _} hu => absurd (ih.unused i) hu, fun {q o} hq => ?_, hs.files.of_frame hF nofun, fun {q} hq => ?_, hs.usr⟩,
      hpin⟩, ih.unused, ih.closed⟩
    · by_cases hqp : q = p
      · subst hqp
        rw [set_own_self] at hq
        cases hq
        exact List.mem_cons_self
      · rw [set_own_of_ne hqp] at hq
        have hacc := hs.acc hq
        cases o with
        | free => trivial
        | node r l x => exact hacc
        | held t =>
          cases t with
          | boot => exact List.mem_cons_of_mem _ hacc
          | _ => exact hacc
    · by_cases hqp : q = p
      · subst hqp; exact set_own_self
      · rw [set_own_of_ne hqp]
        exact hs.boot ((List.mem_cons.mp hq).resolve_left hqp)
  | @write s p off byte _ hp lt ih =>
    obtain ⟨g, hs, hpin⟩ := ih.sys
    have hw : PInv K { s.kmem with mem := s.kmem.mem.fill (p + off) 1 byte } g :=
      hs.pages.write (fun a ha => Bytes.fill_of_not_mem (by omega)) (.inl ⟨⟨_, hs.boot hp⟩, hpin p⟩)
    exact ⟨⟨g, hs.write hw, hpin⟩, ih.unused, ih.closed⟩

/-! ### `userinit` -/

theorem wpe_uvmfirst {τ : Type} {g : Ghost τ} {Q : Bool → Kmem → Prop} {src : List UInt8} (h : PInv K k g)
    (hT : Table g r 0) (hsrc : src.length < PGSIZE) (tag : τ)
    (h1 : ∀ k' g', PInv K k' g' → Moves r g g' → Table g' r 1 → Q true k') (h0 : ∀ k', Q false k') :
    wpe (uvmfirst r src) Q (· = .kerneltrap) k := by
  rw [uvmfirst, if_neg (not_le.mpr hsrc)]
  refine wpe_bind ((wp_kalloc h tag ?_ fun c k₁ hc hk1 => ?_).wpe)
  · rw [if_pos rfl]; exact wpe_fail rfl
  have hpin := h.pin_free hc
  have hcn : ∀ l x, g.own c ≠ some (.node r l x) := by rw [hc]; simp
  have hz := hk1.memset (k := 0) (.inl ⟨⟨tag, set_own_self⟩, hpin⟩)
  have hT1 : Table (g.set c (.held tag)) r 0 := hT.set_other hcn (by simp)
  rw [if_neg (h.ne_zero hc), show (0 : Nat) = 0 * PGSIZE from rfl]
  refine wp.wpe ?_
  simp only [memset, wp_bind, wp_modify]
  refine wp_mappages hz hT1.root (by decide) (hT1.vacant (le_rfl) (by decide)) set_own_self hpin
    ⟨by decide, by decide, by decide⟩ (fun _ => by decide) (fun g₂ k₂ _ _ => ?_) fun g₂ k₂ hk2 hG => ?_
  · rw [wp_bind, wp_modify, wp_pure]; exact h0 _
  · have hcg : g₂.own c = some (.held tag) := hG.of_ne_free set_own_self (by simp)
    rw [wp_bind, wp_modify, wp_pure]
    refine h1 _ _ (hk2.write (outside_copy (le_rfl) (by omega)) (.inr ⟨r, 0, set_own_self⟩))
      ((Moves.of_grows hG).of_alloc hc (.inr ⟨0, 0, rfl⟩)) ?_
    exact (hT1.of_grows hG).set_leaf (by rw [hcg]; simp)

theorem wpe_userinit {s₀ : Kern} (hb : Booting K s₀) :
    wpe (userinit K) (fun b s => b = true → Inv K s) (· = .kerneltrap) s₀ := by
  have hB := BootInv.of_booting hb
  obtain ⟨g, hs, -⟩ := hB.sys
  refine wpe_bind (wp_allocproc hs (fun s₁ _ _ _ => ?_) fun i s₁ g₁ hs1 hi hst hof hsz hp => ?_).wpe
  · exact wpe_fail (s := s₁) (Q := fun b s => b = true → Inv K s) rfl
  have hi1 : (s₁.proc i).Used := fun e => by cases hst.symm.trans e
  have hm := hs1.mem hi1
  refine wpe_bind (wp.wpe (wp_get.mpr ?_))
  refine wpe_bind (wp.wpe (wp_modify.mpr ?_))
  refine wpe_bind (wpe_zoom ?_)
  refine wpe_uvmfirst hs1.pages (by have := hm.space.table; rwa [hsz] at this) (by decide) .tmp
    (fun k g₂ hk hM hT => ?_) fun k => ?_
  · -- the first process has its page
    rw [show 1 = npg PGSIZE by decide] at hT
    have hm2 : HasMem K g₂ i { s₁.proc i with sz := PGSIZE } :=
      ⟨hM.held.mpr hm.tf, by rw [hM.pin]; exact hm.pin, hm.space.of_moves hM hT⟩
    have hscr : Scratch g₂ (s₁.proc i).trapframe := .inl ⟨⟨_, hm2.tf⟩, hm2.pin⟩
    have hk2 := (hk.store64 tfEpc 0 hscr (by decide)).store64 tfSp PGSIZE hscr (by decide)
    have hs2 := (hs1.resize hi1 hk hM hT).write hk2
    refine wp.wpe ?_
    simp only [wp_bind, wp_modifyProc, wp_vm, store64, wp_modify, wp_pure, update_self, update_idem]
    intro _
    refine ⟨⟨g₂, ?_⟩, fun j => ?_, fun {j} hj => ?_⟩
    · rw [ofiles_congr (s := s₀) fun j => ?_]
      · refine hs2.of_same rfl rfl (fun j => ?_) rfl
        by_cases hj : j = i
        · subst hj; simp only [update_self]; exact ⟨⟨fun _ => hi1, fun _ => by rintro ⟨⟩⟩, rfl, rfl, rfl⟩
        · simp only [update_of_ne hj]; exact .refl _
      · by_cases hj : j = i
        · subst hj; simp only [update_self]; exact hof
        · simp only [update_of_ne hj, hp hj]
    · by_cases hj : j = i
      · subst hj; exact .inr (.inl (by simp only [update_self]))
      · simp only [update_of_ne hj, hp hj]; exact .inl (hB.unused j)
    · by_cases hji : j = i
      · subst hji; simp only [update_self] at hj; exact absurd rfl hj
      · simp only [update_of_ne hji, hp hji]; exact hB.closed j
  · refine wp.wpe ?_
    simp only [wp_bind, wp_modifyProc, wp_vm, store64, wp_modify, wp_pure]
    simp

/-! ### Runs -/

theorem wp_call {i : Fin NPROC} {c : Call} (h : Inv K s) (live : (s.proc i).state = .runnable)
    (hc : ∀ status, c = .exit status → s.initproc ≠ some i) : wp (call K i c) (fun _ s' => Inv K s') s := by
  have hi := Inv.used live
  cases c with
  | fork => exact wp_bind.mpr (wp_fork h hi fun _ _ hs => wp_pure.mpr hs)
  | exec path ip uargv => exact wp_bind.mpr (wp_sysExec h hi fun _ _ hs => wp_pure.mpr hs)
  | sbrk n => exact wp_bind.mpr (wp_growproc h hi fun _ _ hs => wp_pure.mpr hs)
  | exit status => exact wp_exit h hi (hc status rfl) fun _ => id
  | wait addr => exact wp_bind.mpr (wp_wait h hi fun _ _ hs => wp_pure.mpr hs)
  | pipe fdarray => exact wp_bind.mpr (wp_sysPipe h live fun _ _ hs => wp_pure.mpr hs)
  | close fd => exact wp_bind.mpr (wp_sysClose h fun _ _ hs => wp_pure.mpr hs)

theorem call_exit_init {i : Fin NPROC} {status : CInt} (hi : s.initproc = some i) :
    call K i (.exit status) s = .error .initExiting := by
  simp [call, exit, hi, fail, bind, StateT.bind, Except.bind, get, getThe, MonadStateOf.get, StateT.get, pure,
    Except.pure]

theorem Inv.step (h : Inv K s) (hst : Step K s s') : Inv K s' := by
  cases hst with
  | call i c live run =>
    by_cases hc : ∃ status, c = .exit status ∧ s.initproc = some i
    · obtain ⟨status, rfl, hi⟩ := hc
      rw [call_exit_init hi] at run
      cases run
    · exact (wp_call h live fun status he hi => hc ⟨status, he, hi⟩).of_eq run
  | @user k b i va byte live run =>
    obtain ⟨g, hs⟩ := h.sys
    refine (wp_copyout (Q := fun _ k => Inv K { s with kmem := k }) hs.pages
      (hs.mem (Inv.used live)).space.table.root fun b k hk => ?_).of_eq run
    exact h.of_quiet (fun _ => ⟨rfl, rfl⟩) (hs.write hk)
  | trap i off byte live lt =>
    obtain ⟨g, hs⟩ := h.sys
    refine h.of_quiet (fun _ => ⟨rfl, rfl⟩) (hs.write (hs.pages.write (fun a ha => Bytes.fill_of_not_mem ?_)
      (hs.scratch (Inv.used live))))
    simp only [tfSize, PGSIZE] at *
    omega

theorem Inv.of_booted (h : Booted K s) : Inv K s :=
  let ⟨_, hb, hrun⟩ := h; (wpe_userinit hb).of_eq hrun rfl

theorem Inv.reach (h : Reachable K s) : Inv K s :=
  Trans.Reach.inv (P := Inv K) (fun _ => of_booted) (fun _ _ => step) h

end Xv6
