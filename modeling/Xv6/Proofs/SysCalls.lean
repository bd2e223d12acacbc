import Xv6.Proofs.ProcMem

/-!
# The system calls keep `Inv`
-/

namespace Xv6

open Ghost Prog Kern Function

variable {K : Layout} {s s' : Kern} {k : Kmem} {g g' : Ghost Tag} {c : Fin NFILE → Nat} {i j np : Fin NPROC}
  {f : Fin NFILE} {fd : Fin NOFILE} {fds : List (Fin NOFILE)}
  {w : Option (Fin NFILE)} {Q : Unit → Kern → Prop}

theorem Inv.used (h : (s.proc i).state = .runnable) : (s.proc i).Used := fun e => by cases h.symm.trans e

/-! ### Tables of open files -/

def Kern.setFd (s : Kern) (i : Fin NPROC) (fd : Fin NOFILE) (w : Option (Fin NFILE)) : Kern :=
  { s with proc := Function.update s.proc i { s.proc i with ofile := Function.update (s.proc i).ofile fd w } }

theorem ofiles_setFd : ofiles (s.setFd i fd w) = update (ofiles s) (i, fd) w := by
  funext ⟨j, d⟩
  by_cases hj : j = i
  · subst hj
    by_cases hd : d = fd
    · subst hd; simp [ofiles, setFd]
    · simp [ofiles, setFd, hd]
  · simp [ofiles, setFd, hj]

theorem setFd_proc_of_ne (hj : j ≠ i) : (s.setFd i fd w).proc j = s.proc j :=
  update_of_ne hj ..

theorem setFd_proc_self :
    (s.setFd i fd w).proc i = { s.proc i with ofile := update (s.proc i).ofile fd w } :=
  update_self ..

theorem setFd_ofile :
    ((s.setFd i fd w).proc i).ofile = update (s.proc i).ofile fd w := by rw [setFd_proc_self]

theorem setFd_state : ((s.setFd i fd w).proc j).state = (s.proc j).state := by
  by_cases hj : j = i
  · subst hj; rw [setFd_proc_self]
  · rw [setFd_proc_of_ne hj]

theorem Sys.setFd (h : Sys K s g c) : Sys K (s.setFd i fd w) g c := by
  refine h.of_same rfl rfl (fun j => ?_) rfl
  by_cases hj : j = i
  · subst hj; rw [setFd_proc_self]; exact ⟨Iff.rfl, rfl, rfl, rfl⟩
  · rw [setFd_proc_of_ne hj]; exact .refl _

theorem ofile_pos (hfd : (s.proc i).ofile fd = some f) : 0 < refs (ofiles s) f := refs_pos (x := (i, fd)) hfd

theorem wp_setFd :
    wp (modifyProc i fun p => { p with ofile := update p.ofile fd w }) Q s ↔ Q () (s.setFd i fd w) :=
  wp_modifyProc

theorem refs_setFd_some (h : (s.proc i).ofile fd = none) :
    refs (ofiles (s.setFd i fd (some f))) = update (refs (ofiles s)) f (refs (ofiles s) f + 1) := by
  rw [ofiles_setFd]; exact refs_update_some (φ := ofiles s) h

theorem refs_setFd_none (h : (s.proc i).ofile fd = some f) :
    refs (ofiles (s.setFd i fd none)) = update (refs (ofiles s)) f (refs (ofiles s) f - 1) := by
  rw [ofiles_setFd]; exact refs_update_none (φ := ofiles s) h

theorem ofiles_of_proc (h : s'.proc = s.proc) : ofiles s' = ofiles s := ofiles_congr fun j => by rw [h]

theorem Sys.wp_filedup (h : Sys K s g c) (hc : 0 < c f)
    (h1 : ∀ s', Sys K s' g (update c f (c f + 1)) → s'.proc = s.proc → Q () s') : wp (filedup f) Q s :=
  Xv6.wp_filedup h.files hc fun _ hf => h1 _ (h.update_files h.pages hf (.refl ..) h.usr (fun _ => .refl _) rfl) rfl

theorem Sys.wp_fileclose (h : Sys K s g c) (hc : 0 < c f)
    (h1 : ∀ s' g', Sys K s' g' (update c f (c f - 1)) → s'.proc = s.proc → Q () s') : wp (fileclose K f) Q s :=
  Xv6.wp_fileclose h.pages h.files hc fun _ _ _ hk hf hF hu =>
    h1 _ _ (h.update_files hk hf hF (by rw [hu]; exact h.usr) (fun _ => .refl _) rfl) rfl

/-! ### `fork` -/

theorem wp_dupFiles (h1 : ∀ s', Sys K s' g (refs (ofiles s')) → (∀ {j}, j ≠ np → s'.proc j = s.proc j) →
      (s'.proc np).state = (s.proc np).state → Q () s')
    (h : Sys K s' g (refs (ofiles s'))) (hs : ∀ {j}, j ≠ np → s'.proc j = s.proc j)
    (hst : (s'.proc np).state = (s.proc np).state) (hnd : fds.Nodup)
    (hnone : ∀ fd ∈ fds, (s'.proc np).ofile fd = none) : wp (dupFiles i np fds) Q s' := by
  induction fds generalizing s' with
  | nil => rw [dupFiles, wp_pure]; exact h1 s' h hs hst
  | cons fd fds ih =>
    obtain ⟨hfd, hnd⟩ := List.nodup_cons.mp hnd
    rw [dupFiles, wp_bind, wp_get]
    cases hf : (s'.proc i).ofile fd with
    | none => exact ih h hs hst hnd fun d hd => hnone d (List.mem_cons_of_mem _ hd)
    | some f =>
      dsimp only
      rw [wp_bind]
      refine h.wp_filedup (ofile_pos hf) fun s₁ h₁ hp1 => ?_
      rw [wp_bind, wp_setFd]
      have hnone1 : (s₁.proc np).ofile fd = none := by rw [hp1]; exact hnone fd List.mem_cons_self
      refine ih ?_ (fun hj => ?_) ?_ hnd fun d hd => ?_
      · rw [refs_setFd_some hnone1, ofiles_of_proc hp1]; exact h₁.setFd
      · rw [setFd_proc_of_ne hj, hp1]; exact hs hj
      · rw [setFd_proc_self, hp1]; exact hst
      · have hdf : d ≠ fd := by rintro rfl; exact hfd hd
        rw [setFd_proc_self, hp1]
        exact (update_of_ne hdf ..).trans (hnone d (List.mem_cons_of_mem _ hd))

theorem Sys.scratch (h : Sys K s g c) (hi : (s.proc i).Used) : Scratch g (s.proc i).trapframe :=
  .inl ⟨⟨_, (h.mem hi).tf⟩, (h.mem hi).pin⟩

theorem PInv.store64 {q : Nat} (h : PInv K k g) (off v : Nat) (hq : Scratch g q) (hoff : off + 8 ≤ PGSIZE) :
    PInv K { k with mem := k.mem.store (q + off) 8 v } g :=
  h.write (outside_store (Nat.le_add_right ..) (by omega)) hq

theorem wp_fork {Q : Option CInt → Kern → Prop} (h : Inv K s) (hi : (s.proc i).Used)
    (h1 : ∀ o s', Inv K s' → Q o s') : wp (fork K i) Q s := by
  obtain ⟨g, hs⟩ := h.sys
  rw [fork, wp_bind]
  refine wp_allocproc hs (fun s₁ g₁ hs1 hq => wp_pure.mpr (h1 _ _ (h.of_quiet hq hs1)))
    fun np s₁ g₁ hs1 hnp hst hof hsz hp => ?_
  have hne : i ≠ np := by rintro rfl; exact hnp hi
  have hi1 : (s₁.proc i).Used := by rw [hp hne]; exact hi
  have hnp1 : (s₁.proc np).Used := fun e => by cases hst.symm.trans e
  have hnpst : (s.proc np).state = .unused := not_not.mp hnp
  have hT2 : Table g₁ (s₁.proc np).pagetable 0 := by
    have := (hs1.mem hnp1).space.table
    rwa [hsz] at this
  simp only [wp_bind, wp_get, wp_vm]
  refine wp_uvmcopy hs1.pages .tmp (fun e => hne (hs1.inj hi1 hnp1 e)) (hs1.mem hi1).space.table hT2
    (fun v => hs1.usr _ v) (fun k g₂ hk hM hT => ?_) fun k g₂ hk hM hT => ?_
  · have hs2 := hs1.resize hnp1 hk hM hT
    have hscr : Scratch g₂ (s₁.proc np).trapframe := by
      have := hs2.scratch (i := np) (by simp only [update_self]; exact hnp1)
      simpa only [update_self] using this
    have hcopy : PInv K { k with mem := k.mem.copy (s₁.proc np).trapframe k.mem (s₁.proc i).trapframe tfSize } g₂ :=
      hk.write (outside_copy (le_rfl) (Nat.add_le_add_left (by decide) _)) hscr
    have hs3 := hs2.write (hcopy.store64 tfA0 0 hscr (by decide))
    simp only [Bool.not_true, Bool.false_eq_true, if_false, wp_bind, wp_modifyProc, wp_vm, memmove, store64, wp_modify]
    refine wp_dupFiles (s := s₁) (g := g₂) (K := K) (fun s₄ h4 hp4 hst4 => ?_) ?_ (fun hj => update_of_ne hj ..) ?_
      (List.nodup_finRange _) fun fd _ => ?_
    · -- the child is ready to run
      have hnp4 : (s₄.proc np).Used := by rw [ProcMem.Used, hst4]; exact hnp1
      have hp' : ∀ {j}, j ≠ np → s₄.proc j = s.proc j := fun hj => (hp4 hj).trans (hp hj)
      rw [wp_bind, wp_modifyProc, wp_pure]
      refine h1 _ _ ⟨⟨g₂, ?_⟩, fun j => ?_, fun {j} hj => ?_⟩
      · rw [ofiles_congr (s := s₄) fun j => ?_]
        · refine h4.of_same rfl rfl (fun j => ?_) rfl
          by_cases hj : j = np
          · subst hj; simp only [update_self]; exact ⟨⟨fun _ => hnp4, fun _ => by rintro ⟨⟩⟩, rfl, rfl, rfl⟩
          · simp only [update_of_ne hj]; exact .refl _
        · by_cases hj : j = np
          · subst hj; simp only [update_self]
          · simp only [update_of_ne hj]
      · by_cases hj : j = np
        · subst hj; exact .inr (.inl (by simp only [update_self]))
        · simp only [update_of_ne hj, hp' hj]; exact h.settled j
      · by_cases hjn : j = np
        · subst hjn; simp only [update_self] at hj; exact absurd rfl hj
        · simp only [update_of_ne hjn, hp' hjn] at hj ⊢; exact h.closed hj
    · rw [ofiles_congr (s := s) fun j => ?_]
      · exact hs3
      · by_cases hj : j = np
        · subst hj; simp only [update_self]; exact hof
        · simp only [update_of_ne hj, hp hj]
    · simp only [update_self]
    · simp only [update_self]
      rw [hof]
      exact h.closed (by rw [hnpst]; simp) fd
  · -- the copy has failed
    simp only [Bool.not_false, if_true, wp_bind]
    refine wp_freeproc (hs1.moves hnp1 hk hM (by rw [hsz]; exact hT)) hnp1 fun k' g' hs' => wp_pure.mpr ?_
    refine h1 _ _ (h.of_quiet (fun j => ?_) hs')
    by_cases hj : j = np
    · subst hj
      simp only [update_self]
      exact ⟨hnpst.symm, hof⟩
    · simp only [update_of_ne hj, hp hj]; exact ⟨trivial, trivial⟩

/-! ### `exit` and `wait` -/

theorem wp_closeFiles (h1 : ∀ s' g', Sys K s' g' (refs (ofiles s')) → (∀ {j}, j ≠ i → s'.proc j = s.proc j) →
      (s'.proc i).state = (s.proc i).state → (∀ fd, (s'.proc i).ofile fd = none) → Q () s')
    (h : Sys K s' g (refs (ofiles s'))) (hs : ∀ {j}, j ≠ i → s'.proc j = s.proc j)
    (hst : (s'.proc i).state = (s.proc i).state) (hnone : ∀ fd, fd ∉ fds → (s'.proc i).ofile fd = none) :
    wp (closeFiles K i fds) Q s' := by
  induction fds generalizing s' g with
  | nil => rw [closeFiles, wp_pure]; exact h1 s' g h hs hst fun fd => hnone fd List.not_mem_nil
  | cons fd fds ih =>
    rw [closeFiles, wp_bind, wp_get]
    cases hf : (s'.proc i).ofile fd with
    | none =>
      refine ih h hs hst fun d hd => ?_
      by_cases hdf : d = fd
      · subst hdf; exact hf
      · exact hnone d fun hmem => hd ((List.mem_cons.mp hmem).resolve_left hdf)
    | some f =>
      dsimp only
      rw [wp_bind]
      refine h.wp_fileclose (ofile_pos hf) fun s₁ g₁ h₁ hp1 => ?_
      rw [wp_bind, wp_setFd]
      refine ih (g := g₁) ?_ (fun hj => ?_) ?_ fun d hd => ?_
      · rw [refs_setFd_none (by rw [hp1]; exact hf), ofiles_of_proc hp1]; exact h₁.setFd
      · rw [setFd_proc_of_ne hj, hp1]; exact hs hj
      · rw [setFd_proc_self, hp1]; exact hst
      · rw [setFd_proc_self, hp1]
        by_cases hdf : d = fd
        · subst hdf; exact update_self ..
        · exact (update_of_ne hdf ..).trans
            (hnone d fun hmem => hd ((List.mem_cons.mp hmem).resolve_left hdf))

theorem wp_exit {status : CInt} (h : Inv K s) (hi : (s.proc i).Used)
    (hinit : s.initproc ≠ some i) (h1 : ∀ s', Inv K s' → Q () s') : wp (exit K i status) Q s := by
  obtain ⟨g, hs⟩ := h.sys
  rw [exit, wp_bind, wp_get]
  rw [if_neg hinit, wp_bind]
  refine wp_closeFiles (s := s) (fun s₁ g₁ hs1 hp hst hno => ?_) hs (fun _ => rfl) rfl
    fun fd hfd => absurd (List.mem_finRange fd) hfd
  have hi1 : (s₁.proc i).Used := by rw [ProcMem.Used, hst]; exact hi
  rw [wp_bind, reparent, wp_modify, wp_modifyProc]
  -- a slot after `reparent`
  generalize hproc : (fun j => if (s₁.proc j).parent = some i then { s₁.proc j with parent := s₁.initproc }
    else s₁.proc j) = proc
  have hsame : ∀ j, SameMem (proc j) (s₁.proc j) ∧ (proc j).ofile = (s₁.proc j).ofile ∧
      (proc j).state = (s₁.proc j).state := fun j => by
    rw [← hproc]
    dsimp only
    split
    · exact ⟨⟨Iff.rfl, rfl, rfl, rfl⟩, rfl, rfl⟩
    · exact ⟨.refl _, rfl, rfl⟩
  refine h1 _ ⟨⟨g₁, ?_⟩, fun j => ?_, fun {j} hj => ?_⟩
  · rw [ofiles_congr (s := s₁) fun j => ?_]
    · refine hs1.of_same rfl rfl (fun j => ?_) rfl
      obtain ⟨hm, -⟩ := hsame j
      by_cases hj : j = i
      · subst hj
        simp only [update_self]
        exact ⟨⟨fun _ => hi1, fun _ => nofun⟩, hm.trapframe, hm.pagetable, hm.sz⟩
      · simp only [update_of_ne hj]; exact hm
    · by_cases hj : j = i
      · subst hj; simp only [update_self]; exact (hsame j).2.1
      · simp only [update_of_ne hj]; exact (hsame j).2.1
  · by_cases hj : j = i
    · subst hj; exact .inr (.inr (by simp only [update_self]))
    · simp only [update_of_ne hj, (hsame j).2.2, hp hj]; exact h.settled j
  · by_cases hji : j = i
    · subst hji; simp only [update_self, (hsame j).2.1]; exact hno
    · simp only [update_of_ne hji, (hsame j).2.2, (hsame j).2.1, hp hji] at hj ⊢; exact h.closed hj

theorem wp_wait {Q : Option CInt → Kern → Prop} {addr : Nat} (h : Inv K s) (hi : (s.proc i).Used)
    (h1 : ∀ o s', Inv K s' → Q o s') : wp (wait K i addr) Q s := by
  obtain ⟨g, hs⟩ := h.sys
  rw [wait, wp_bind, wp_get]
  cases hfind : (List.finRange NPROC).find? fun j => (s.proc j).parent = some i ∧ (s.proc j).state = .zombie with
  | none => exact wp_pure.mpr (h1 _ s h)
  | some j =>
    have hj : (s.proc j).state = .zombie := by
      have := List.find?_some hfind
      simp only [decide_eq_true_eq] at this
      exact this.2
    have hju : (s.proc j).Used := fun e => by cases hj.symm.trans e
    -- the child is freed
    have hgo : ∀ {k}, PInv K k g → wp (do freeproc K j; return some (s.proc j).pid) Q { s with kmem := k } :=
      fun {k} hk => by
        rw [wp_bind]
        refine wp_freeproc (hs.write hk) hju fun k' g' hs' => wp_pure.mpr (h1 _ _ ⟨⟨g', ?_⟩, fun j' => ?_,
          fun {j'} hj' => ?_⟩)
        · rw [ofiles_congr (s := s) fun j' => ?_]
          · exact hs'
          · by_cases hjj : j' = j
            · subst hjj; simp only [update_self]; rfl
            · simp only [update_of_ne hjj]
        · by_cases hjj : j' = j
          · subst hjj; exact .inl (by simp only [update_self]; rfl)
          · simp only [update_of_ne hjj]; exact h.settled j'
        · by_cases hjj : j' = j
          · subst hjj
            simp only [update_self]
            exact h.closed (by rw [hj]; nofun)
          · simp only [update_of_ne hjj] at hj' ⊢; exact h.closed hj'
    dsimp only
    by_cases haddr : addr ≠ 0
    · rw [if_pos haddr, wp_bind, wp_vm]
      refine wp_copyout hs.pages (hs.mem hi).space.table.root fun b k hk => ?_
      cases b with
      | false =>
        simp only [Bool.not_false, if_true, wp_pure]
        exact h1 _ _ (h.of_quiet (fun _ => ⟨rfl, rfl⟩) (hs.write hk))
      | true => simp only [Bool.not_true, Bool.false_eq_true, if_false]; exact hgo hk
    · rw [if_neg haddr]; exact hgo hs.pages

/-! ### `pipe` and `close` -/

theorem wp_sysClose {Q : Bool → Kern → Prop} (h : Inv K s) (h1 : ∀ b s', Inv K s' → Q b s') :
    wp (sysClose K i fd) Q s := by
  obtain ⟨g, hs⟩ := h.sys
  rw [sysClose, wp_bind, wp_get]
  cases hf : (s.proc i).ofile fd with
  | none => exact wp_pure.mpr (h1 _ s h)
  | some f =>
    dsimp only
    rw [wp_bind, clearFd, wp_setFd, wp_bind]
    refine hs.setFd.wp_fileclose (ofile_pos hf) fun s₁ g₁ hs1 hp => wp_pure.mpr (h1 _ _ ⟨⟨g₁, ?_⟩, fun j => ?_,
      fun {j} hj d => ?_⟩)
    · rw [ofiles_of_proc hp, refs_setFd_none hf]; exact hs1
    · rw [hp]
      by_cases hji : j = i
      · subst hji; rw [setFd_proc_self]; exact h.settled j
      · rw [setFd_proc_of_ne hji]; exact h.settled j
    · rw [hp] at hj ⊢
      by_cases hji : j = i
      · subst hji
        rw [setFd_proc_self] at hj ⊢
        by_cases hd : d = fd
        · subst hd; exact update_self ..
        · exact (update_of_ne hd ..).trans (h.closed hj d)
      · rw [setFd_proc_of_ne hji] at hj ⊢; exact h.closed hj d

theorem wp_fdalloc {Q : Option (Fin NOFILE) → Kern → Prop} (h0 : Q none s)
    (h1 : ∀ fd, (s.proc i).ofile fd = none → Q (some fd) (s.setFd i fd (some f))) : wp (fdalloc i f) Q s := by
  rw [fdalloc, wp_bind, wp_get]
  dsimp only
  cases hfind : (List.finRange NOFILE).find? fun fd => ((s.proc i).ofile fd).isNone with
  | none => exact wp_pure.mpr h0
  | some fd =>
    have hfd : (s.proc i).ofile fd = none := by simpa using List.find?_some hfind
    exact wp_bind.mpr (wp_setFd.mpr (wp_pure.mpr (h1 fd hfd)))

theorem Sys.wp_closeBoth {Q : Bool → Kern → Prop} {f₀ f₁ : Fin NFILE}
    (h : Sys K s g (update (update c f₀ 1) f₁ 1)) (hc0 : c f₀ = 0) (hc1 : c f₁ = 0) (hne : f₀ ≠ f₁)
    (h1 : ∀ s' g', Sys K s' g' c → s'.proc = s.proc → Q false s') :
    wp (do fileclose K f₀; fileclose K f₁; return false) Q s := by
  rw [wp_bind]
  refine h.wp_fileclose (by rw [update_of_ne hne, update_self]; exact Nat.one_pos)
    fun s₁ g₁ h₁ hp1 => ?_
  rw [update_of_ne hne, update_self, update_comm hne.symm, update_update_self hc0] at h₁
  rw [wp_bind]
  refine h₁.wp_fileclose (by rw [update_self]; exact Nat.one_pos) fun s₂ g₂ h2 hp2 => wp_pure.mpr ?_
  rw [update_self, update_update_self hc1] at h2
  exact h1 s₂ g₂ h2 (hp2.trans hp1)

theorem setFd_setFd (hfd : (s.proc i).ofile fd = none) : (s.setFd i fd (some f)).setFd i fd none = s := by
  simp only [setFd, update_self, update_idem]
  rw [← hfd, update_eq_self]
  exact congrArg (fun p => { s with proc := p }) (update_eq_self i s.proc)

theorem setFd_comm {d d' : Fin NOFILE} {w w' : Option (Fin NFILE)} (hne : d ≠ d') :
    (s.setFd i d w).setFd i d' w' = (s.setFd i d' w').setFd i d w := by
  simp only [setFd, update_self, update_idem, update_comm hne]

theorem wp_sysPipe {Q : Bool → Kern → Prop} {fdarray : Nat} (h : Inv K s) (hi : (s.proc i).state = .runnable)
    (h1 : ∀ b s', Inv K s' → Q b s') : wp (sysPipe K i fdarray) Q s := by
  obtain ⟨g, hs⟩ := h.sys
  rw [sysPipe, wp_bind]
  refine wp_pipealloc hs.pages hs.files (fun k file' g' hk hf hF hu => wp_pure.mpr (h1 _ _ ?_))
    fun f₀ f₁ k file' g' hc0 hc1 hne hk hf hF hu => ?_
  · exact h.of_quiet (fun _ => ⟨rfl, rfl⟩) (hs.update_files hk hf hF (by rw [hu]; exact hs.usr) (fun _ => .refl _) rfl)
  obtain ⟨s₁, hs1, hp1, hs1e⟩ : ∃ s₁, Sys K s₁ g' (update (update (refs (ofiles s)) f₀ 1) f₁ 1) ∧
      s₁.proc = s.proc ∧ { s with kmem := k, file := file' } = s₁ :=
    ⟨{ s with kmem := k, file := file' }, hs.update_files hk hf hF (by rw [hu]; exact hs.usr) (fun _ => .refl _) rfl,
      rfl, rfl⟩
  rw [hs1e]
  dsimp only
  have hfail : ∀ s₂, s₂.proc = s.proc → ∀ g₂, Sys K s₂ g₂ (update (update (refs (ofiles s)) f₀ 1) f₁ 1) →
      wp (do fileclose K f₀; fileclose K f₁; return false) Q s₂ := fun s₂ hp2 g₂ hs2 =>
    hs2.wp_closeBoth hc0 hc1 hne fun s₃ g₃ hs3 hp3 => h1 _ _ (h.of_quiet (fun j => by rw [hp3, hp2]; exact ⟨rfl, rfl⟩) hs3)
  rw [wp_bind]
  refine wp_fdalloc (hfail s₁ hp1 g' hs1) fun fd₀ hfd0 => ?_
  dsimp only
  rw [wp_bind]
  refine wp_fdalloc ?_ fun fd₁ hfd1 => ?_
  · dsimp only
    rw [wp_bind, clearFd, wp_setFd, setFd_setFd hfd0]
    exact hfail s₁ hp1 g' hs1
  rw [setFd_ofile] at hfd1
  have hfd : fd₁ ≠ fd₀ := by rintro rfl; rw [update_self] at hfd1; cases hfd1
  have hroot := (hs1.mem (i := i) (by rw [hp1]; exact Inv.used hi)).space.table.root
  -- the two descriptors stay, or are taken back
  have hgo : ∀ b k', PInv K k' g' → wp (do
      if !b then
        clearFd i fd₀
        clearFd i fd₁
        fileclose K f₀
        fileclose K f₁
      return b) Q (({ s₁ with kmem := k' }.setFd i fd₀ (some f₀)).setFd i fd₁ (some f₁)) := fun b k' hk' => by
    cases b with
    | false =>
      simp only [Bool.not_false, if_true, clearFd]
      rw [wp_bind, wp_setFd, wp_bind, wp_setFd, setFd_comm hfd.symm,
        setFd_setFd (by rw [setFd_ofile]; exact hfd1), setFd_setFd (s := { s₁ with kmem := k' }) hfd0]
      exact hfail _ hp1 g' (hs1.write hk')
    | true =>
      simp only [Bool.not_true, Bool.false_eq_true, if_false, wp_pure]
      refine h1 _ _ ⟨⟨g', ?_⟩, fun j => ?_, fun {j} hj => ?_⟩
      · rw [refs_setFd_some (by rw [setFd_ofile]; exact hfd1), refs_setFd_some (s := { s₁ with kmem := k' }) hfd0,
          show ofiles { s₁ with kmem := k' } = ofiles s from ofiles_of_proc hp1, update_of_ne hne.symm, hc0, hc1]
        exact (hs1.write hk').setFd.setFd
      · rw [setFd_state, setFd_state, hp1]; exact h.settled j
      · rw [setFd_state, setFd_state, hp1] at hj
        have hji : j ≠ i := by rintro rfl; exact hj hi
        rw [setFd_proc_of_ne hji, setFd_proc_of_ne hji, hp1]
        exact h.closed hj
  have hpt : (((s₁.setFd i fd₀ (some f₀)).setFd i fd₁ (some f₁)).proc i).pagetable = (s₁.proc i).pagetable := by
    rw [setFd_proc_self, setFd_proc_self]
  dsimp only
  rw [wp_bind, wp_get, hpt, wp_bind, wp_vm, wp_bind]
  refine wp_copyout hs1.pages hroot fun b k₁ hk1 => ?_
  cases b with
  | false =>
    simp only [Bool.not_false, if_true]
    exact wp_pure.mpr (hgo false k₁ hk1)
  | true =>
    simp only [Bool.not_true, Bool.false_eq_true, if_false]
    exact wp_copyout hk1 hroot fun b k₂ hk2 => hgo b k₂ hk2

/-! ### `exec` -/

theorem wp_exec {Q : Option Nat → Kern → Prop} {path : List UInt8} {ip : Option (List UInt8)} {argv : List Nat}
    (hk : PInv K s.kmem g) (hm : HasMem K g i (s.proc i)) (hu : ∀ r v, ¬ g.usr r v)
    (h0 : ∀ k g', PInv K k g' → Frame (fun _ => False) (fun _ => False) g g' → (∀ r v, ¬ g'.usr r v) →
      Q none { s with kmem := k }) (h1 : ∀ r sz n k g', PInv K k g' → g.own r = some .free →
      Frame (fun x => x = r ∨ x = (s.proc i).pagetable) (fun _ => False) g g' →
      HasMem K g' i { s.proc i with pagetable := r, sz := sz } →
      (∀ p l x, g'.own p ≠ some (.node (s.proc i).pagetable l x)) → (∀ r v, ¬ g'.usr r v) →
      Q (some n) { s with kmem := k, proc := update s.proc i { s.proc i with
        name := safestrcpy (lastElement path path) nameSize, pagetable := r, sz := sz } }) : wp (exec K i path ip argv) Q s := by
  cases ip with
  | none => rw [exec, wp_pure]; exact h0 _ g hk (.refl ..) hu
  | some data =>
    rw [exec, wp_bind, wp_get, wp_bind, wp_vm]
    refine wp_buildImage hk (hk.lt hm.tf) .tmp hu (fun k₁ g₁ hk1 hF1 hu1 => wp_pure.mpr (h0 k₁ g₁ hk1 hF1 hu1))
      fun im k₁ g₁ hk1 hr hF1 hS1 hu1 => ?_
    have hne : (s.proc i).pagetable ≠ im.pagetable := fun e => by
      cases hr.symm.trans (e ▸ hm.space.table.root)
    have hm1 := hm.of_frame hF1 hne id
    have hscr : Scratch g₁ (s.proc i).trapframe := .inl ⟨⟨_, hm1.tf⟩, hm1.pin⟩
    have hk2 := ((hk1.store64 tfA1 im.sp hscr (by decide)).store64 tfEpc im.entry hscr (by decide)).store64 tfSp im.sp
      hscr (by decide)
    simp only [wp_bind, wp_vm, wp_modifyProc, store64, wp_modify]
    refine wp_procFreepagetable hk2 hm1.space .tmp fun k₃ g₃ hk3 hF3 hno hu3 => wp_pure.mpr ?_
    have hF : Frame (fun x => x = im.pagetable ∨ x = (s.proc i).pagetable) (fun _ => False) g g₃ :=
      (hF1.mono (fun _ => .inl) fun _ => id).trans (hF3.mono (fun _ => .inr) fun _ => id)
    refine h1 im.pagetable im.sz im.argc k₃ g₃ hk3 hr hF ?_ hno (by rw [hu3]; exact hu1)
    exact ⟨(hF3.held id).mpr hm1.tf, (hF3.pin hm1.tf id).trans hm1.pin, hS1.of_frame hF3 hne.symm⟩

theorem wp_sysExec {Q : Option Nat → Kern → Prop} {path : List UInt8} {ip : Option (List UInt8)} {uargv : Nat} (h : Inv K s)
    (hi : (s.proc i).Used) (h1 : ∀ o s', Inv K s' → Q o s') : wp (sysExec K i path ip uargv) Q s := by
  obtain ⟨g, hs⟩ := h.sys
  have hm := hs.mem hi
  have hnoarg : ∀ p, g.own p ≠ some (.held .arg) := fun p hp => hs.acc hp
  have hL : HeldList g Tag.arg [] := ⟨List.nodup_nil, fun a => ⟨fun ha => absurd ha (hnoarg a), nofun⟩, nofun⟩
  rw [sysExec, wp_bind, wp_get, wp_bind, wp_vm]
  refine wp_fetchArgs (fun ok argv k₁ g₁ hk1 hF1 hL1 hu1 => ?_) hs.pages (.refl ..) rfl hm.space.table.root hL
  have husr : ∀ r v, ¬ g₁.usr r v := by rw [hu1]; exact hs.usr
  -- the pages of the arguments are given back, and the rest is as before
  have hfail : ∀ {k₂ g₂}, PInv K k₂ g₂ → Frame (fun _ => False) (fun _ => False) g₁ g₂ → (∀ r v, ¬ g₂.usr r v) →
      wp (do vm (freeArgs K argv); return none) Q { s with kmem := k₂ } := fun {k₂ g₂} hk2 hF2 hu2 => by
    rw [wp_bind, wp_vm]
    refine wp_freeArgs (fun k₃ g₃ hk3 hF3 hL3 hu3 => wp_pure.mpr ?_) hk2 (.refl ..) rfl (hL1.of_frame hF2 id)
    have hF := ((hF1.trans (hF2.mono nofun nofun)).trans hF3).dropTag hnoarg fun p hp => absurd ((hL3.mem p).mp hp) nofun
    refine h1 _ _ (h.of_quiet (fun _ => ⟨rfl, rfl⟩) (hs.update_files hk3 (hs.files.of_frame hF id)
      (hF.mono nofun nofun) (by rw [hu3]; exact hu2) (fun _ => .refl _) rfl))
  dsimp only
  cases ok with
  | false =>
    rw [if_neg Bool.false_ne_true, wp_bind, wp_pure]
    exact hfail hk1 (.refl ..) husr
  | true =>
    have hm1 := hm.of_frame hF1 id nofun
    rw [if_pos rfl, wp_bind]
    refine wp_exec hk1 hm1 husr (fun k₂ g₂ hk2 hF2 hu2 => hfail hk2 hF2 hu2)
      fun r sz n k₂ g₂ hk2 hr hF2 hm2 hno hu2 => ?_
    rw [wp_bind, wp_vm]
    refine wp_freeArgs (fun k₃ g₃ hk3 hF3 hL3 hu3 => wp_pure.mpr ?_) hk2 (.refl ..) rfl (hL1.of_frame hF2 id)
    have hF := (((hF1.mono nofun fun _ => id).trans (hF2.mono (fun _ => id) nofun)).trans
      (hF3.mono nofun fun _ => id)).dropTag hnoarg fun p hp => absurd ((hL3.mem p).mp hp) nofun
    have hroot : ∀ {j}, (s.proc j).Used → (s.proc j).pagetable ≠ r := by
      rintro j hj rfl
      cases hr.symm.trans ((hF1.node id).mpr (hs.mem hj).space.table.root)
    have hold : ∀ {j}, j ≠ i → (s.proc j).Used → (s.proc j).pagetable ≠ (s.proc i).pagetable :=
      fun hji hj e => hji (hs.inj hj hi e)
    have hm3 := hm2.of_frame hF3 id nofun
    refine h1 _ _ (h.of_quiet (fun j => ?_) (hs.update_proc (update_self ..) hk3 hF
      (fun hji hj => not_or.mpr ⟨hroot hj, hold hji hj⟩) nofun
      (fun _ => ⟨⟨hm3.tf, hm3.pin, hm3.space⟩, fun _ hj => hroot hj⟩) (fun hu => absurd hi hu)
      (fun {p r' l x} hp hr' => ⟨hi, ?_⟩) (fun hp => ⟨hi, hs.trapframe_unique ((hF.held id).mp hp)⟩)
      (by rw [hu3]; exact hu2) (fun hj => update_of_ne hj ..) rfl rfl))
    · by_cases hj : j = i
      · subst hj; simp only [update_self]; exact ⟨trivial, trivial⟩
      · simp only [update_of_ne hj]; exact ⟨trivial, trivial⟩
    · have hne : r' ≠ (s.proc i).pagetable := by
        rintro rfl
        exact hno _ _ _ ((hF3.node id).mp hp)
      exact ((hr'.resolve_right hne).resolve_right hne).symm

end Xv6
