import Xv6.Lib.Refs
import Xv6.Proofs.ExecSpec
import Xv6.Proofs.PipeSpec

/-!
# The memory of all processes

`Sys K s g c` accounts for every page: it is free, in the page table of one process, its trapframe, a
pipe, or taken at boot. It holds inside kernel operations too, where `c`, the references to files, runs ahead
of the tables of open files. `Inv` is what holds between operations.
-/

namespace Xv6

open Ghost Prog Kern Function

variable {K : Layout} {s s' : Kern} {k : Kmem} {g g' : Ghost Tag} {R : Nat → Prop} {T : Tag → Prop}
  {c c' : Fin NFILE → Nat} {i j : Fin NPROC} {p r l x : Nat} {o : Owner Tag} {P : ProcMem}

structure HasMem (K : Layout) (g : Ghost Tag) (i : Fin NPROC) (P : ProcMem) : Prop where
  tf : g.own P.trapframe = some (.held (.tf i))
  pin : g.pin P.trapframe = none
  space : Space K g P.pagetable (npg P.sz) P.trapframe

theorem HasMem.of_frame (h : HasMem K g i P) (hF : Frame R T g g') (hR : ¬ R P.pagetable) (hT : ¬ T (.tf i)) :
    HasMem K g' i P :=
  ⟨(hF.held hT).mpr h.tf, (hF.pin h.tf hT).trans h.pin, h.space.of_frame hF hR⟩

structure ProcMem.Bare (P : ProcMem) : Prop where
  trapframe : P.trapframe = 0
  pagetable : P.pagetable = 0
  sz : P.sz = 0

def ProcMem.Used (P : ProcMem) : Prop := P.state ≠ .unused

/-- Page `p` is rightly owned by `o`. -/
def Accounted (s : Kern) (p : Nat) : Owner Tag → Prop
  | .free => True
  | .node r _ _ => ∃ i, (s.proc i).Used ∧ (s.proc i).pagetable = r
  | .held (.tf i) => (s.proc i).Used ∧ (s.proc i).trapframe = p
  | .held .pipe => True
  | .held .boot => p ∈ s.boot
  | .held .arg => False
  | .held .tmp => False

structure Sys (K : Layout) (s : Kern) (g : Ghost Tag) (c : Fin NFILE → Nat) : Prop where
  pages : PInv K s.kmem g
  mem : ∀ {i}, (s.proc i).Used → HasMem K g i (s.proc i)
  bare : ∀ {i}, ¬ (s.proc i).Used → (s.proc i).Bare
  inj : ∀ {i j}, (s.proc i).Used → (s.proc j).Used → (s.proc i).pagetable = (s.proc j).pagetable → i = j
  acc : ∀ {p o}, g.own p = some o → Accounted s p o
  files : Files s.file g c
  boot : ∀ {p}, p ∈ s.boot → g.own p = some (.held .boot)
  usr : ∀ r v, ¬ g.usr r v

/-- `P` has the same memory as `P'`. -/
structure SameMem (P P' : ProcMem) : Prop where
  used : P.Used ↔ P'.Used
  trapframe : P.trapframe = P'.trapframe
  pagetable : P.pagetable = P'.pagetable
  sz : P.sz = P'.sz

theorem SameMem.refl (P : ProcMem) : SameMem P P := ⟨Iff.rfl, rfl, rfl, rfl⟩

theorem HasMem.of_same {P' : ProcMem} (h : HasMem K g i P) (hs : SameMem P' P) : HasMem K g i P' :=
  ⟨by rw [hs.trapframe]; exact h.tf, by rw [hs.trapframe]; exact h.pin,
    by rw [hs.pagetable, hs.trapframe, hs.sz]; exact h.space⟩

namespace Sys

section
variable (h : Sys K s g c)
include h

/-- Files are opened and closed; the memory of the processes stays as it is. -/
theorem update_files (hk : PInv K s'.kmem g') (hf : Files s'.file g' c') (hF : Frame (fun _ => False) (· = .pipe) g g')
    (hu : ∀ r v, ¬ g'.usr r v) (hp : ∀ j, SameMem (s'.proc j) (s.proc j)) (hb : s'.boot = s.boot) : Sys K s' g' c' := by
  refine ⟨hk, fun {i} hi => ?_, fun {i} hi => ?_, fun {i j} hi hj e => ?_, fun {p o} hp' => ?_, hf, fun {p} hp' => ?_, hu⟩
  · exact ((h.mem ((hp i).used.mp hi)).of_frame hF id nofun).of_same (hp i)
  · have hbare := h.bare fun hi' => hi ((hp i).used.mpr hi')
    exact ⟨(hp i).trapframe.trans hbare.trapframe, (hp i).pagetable.trans hbare.pagetable, (hp i).sz.trans hbare.sz⟩
  · rw [(hp i).pagetable, (hp j).pagetable] at e
    exact h.inj ((hp i).used.mp hi) ((hp j).used.mp hj) e
  · cases o with
    | free => trivial
    | node r l x =>
      obtain ⟨i, hi, hr⟩ := h.acc ((hF.node id).mp hp')
      exact ⟨i, (hp i).used.mpr hi, (hp i).pagetable.trans hr⟩
    | held t =>
      cases t with
      | tf i =>
        obtain ⟨hi, hr⟩ := h.acc ((hF.held (by nofun)).mp hp')
        exact ⟨(hp i).used.mpr hi, (hp i).trapframe.trans hr⟩
      | pipe => trivial
      | boot => exact (congrArg (p ∈ ·) hb).mpr (h.acc ((hF.held (by nofun)).mp hp'))
      | arg => exact h.acc ((hF.held (by nofun)).mp hp')
      | tmp => exact h.acc ((hF.held (by nofun)).mp hp')
  · exact (hF.held (by nofun)).mpr (h.boot (hb ▸ hp'))

theorem of_same (hk : s'.kmem = s.kmem) (hf : s'.file = s.file) (hp : ∀ j, SameMem (s'.proc j) (s.proc j))
    (hb : s'.boot = s.boot) : Sys K s' g c :=
  h.update_files (by rw [hk]; exact h.pages) (by rw [hf]; exact h.files) (.refl ..) h.usr hp hb

theorem update_proc (hP : s'.proc i = P) (hk : PInv K s'.kmem g') (hF : Frame R T g g')
    (hR : ∀ {j}, j ≠ i → (s.proc j).Used → ¬ R (s.proc j).pagetable) (hT : ∀ t, T t → t = .tf i)
    (hmem : P.Used → HasMem K g' i P ∧ ∀ {j}, j ≠ i → (s.proc j).Used → (s.proc j).pagetable ≠ P.pagetable)
    (hbare : ¬ P.Used → P.Bare)
    (hnode : ∀ {p r l x}, g'.own p = some (.node r l x) → R r ∨ r = (s.proc i).pagetable → P.Used ∧ P.pagetable = r)
    (htf : ∀ {p}, g'.own p = some (.held (.tf i)) → P.Used ∧ P.trapframe = p)
    (hu : ∀ r v, ¬ g'.usr r v) (hp : ∀ {j}, j ≠ i → s'.proc j = s.proc j) (hf : s'.file = s.file)
    (hb : s'.boot = s.boot) : Sys K s' g' c := by
  subst hP
  have hTne : ∀ {t}, t ≠ .tf i → ¬ T t := fun hne ht => hne (hT _ ht)
  refine ⟨hk, fun {j} hj => ?_, fun {j} hj => ?_, fun {j j'} hj hj' e => ?_, fun {p o} hp' => ?_, ?_,
    fun {p} hp' => ?_, hu⟩
  · by_cases hji : j = i
    · subst hji; exact (hmem hj).1
    · rw [hp hji] at hj ⊢
      exact (h.mem hj).of_frame hF (hR hji hj) (hTne fun e => hji (by injection e))
  · by_cases hji : j = i
    · subst hji; exact hbare hj
    · rw [hp hji] at hj ⊢; exact h.bare hj
  · by_cases hji : j = i <;> by_cases hji' : j' = i
    · rw [hji, hji']
    · subst hji
      rw [hp hji'] at hj' e
      exact absurd e.symm ((hmem hj).2 hji' hj')
    · subst hji'
      rw [hp hji] at hj e
      exact absurd e ((hmem hj').2 hji hj)
    · rw [hp hji] at hj e
      rw [hp hji'] at hj' e
      exact h.inj hj hj' e
  · cases o with
    | free => trivial
    | node r l x =>
      by_cases hr : R r ∨ r = (s.proc i).pagetable
      · exact ⟨i, hnode hp' hr⟩
      · obtain ⟨j, hj, e⟩ := h.acc ((hF.node fun hr' => hr (.inl hr')).mp hp')
        have hji : j ≠ i := by rintro rfl; exact hr (.inr e.symm)
        exact ⟨j, by rw [hp hji]; exact hj, by rw [hp hji]; exact e⟩
    | held t =>
      by_cases ht : t = .tf i
      · subst ht; exact htf hp'
      · have hacc := h.acc ((hF.held (hTne ht)).mp hp')
        cases t with
        | tf j =>
          have hji : j ≠ i := fun e => ht (by rw [e])
          exact ⟨by rw [hp hji]; exact hacc.1, by rw [hp hji]; exact hacc.2⟩
        | pipe => trivial
        | boot => exact (congrArg (p ∈ ·) hb).mpr hacc
        | arg => exact hacc
        | tmp => exact hacc
  · rw [hf]; exact h.files.of_frame hF (hTne nofun)
  · exact (hF.held (hTne (by nofun))).mpr (h.boot (hb ▸ hp'))

end

end Sys

/-! ### `freeproc` and `allocproc` -/

def ProcMem.freed (P : ProcMem) : ProcMem :=
  { P with trapframe := 0, pagetable := 0, sz := 0, pid := 0, parent := none, name := [], xstate := 0, state := .unused }

theorem ProcMem.not_used_freed : ¬ P.freed.Used := fun h => h rfl

theorem Sys.trapframe_unique (h : Sys K s g c) (hp : g.own p = some (.held (.tf i))) : (s.proc i).trapframe = p :=
  (h.acc hp).2

theorem wp_freeproc {Q : Unit → Kern → Prop} (h : Sys K s g c) (hi : (s.proc i).Used)
    (h1 : ∀ k g', Sys K { s with kmem := k, proc := update s.proc i (s.proc i).freed } g' c →
      Q () { s with kmem := k, proc := update s.proc i (s.proc i).freed }) : wp (freeproc K i) Q s := by
  have hm := h.mem hi
  have ht : Frame (fun _ => False) (· = Tag.tf i) g (g.set (s.proc i).trapframe .free) := .set hm.tf rfl trivial
  rw [freeproc, wp_bind, wp_get]
  rw [if_pos (h.pages.ne_zero hm.tf), wp_bind, wp_vm]
  refine wp_kfree (h.pages.isPage hm.tf) ?_
  rw [if_pos (h.pages.ne_zero hm.space.table.root), wp_bind, wp_vm]
  refine wp_procFreepagetable (h.pages.freed hm.tf hm.pin) (hm.space.of_frame ht id) .tmp fun k g' hk hF hno hu => ?_
  rw [wp_modifyProc]
  refine h1 k g' (h.update_proc (R := (· = (s.proc i).pagetable)) (T := (· = Tag.tf i)) (update_self ..) hk
    ((ht.mono nofun fun _ => id).trans (hF.mono (fun _ => id) nofun)) (fun hj hu e => hj (h.inj hu hi e)) (fun _ => id)
    (fun hu => absurd hu ProcMem.not_used_freed) (fun _ => ⟨rfl, rfl, rfl⟩) (fun hp hr => ?_) (fun {p} hp => ?_)
    (by rw [hu]; exact h.usr) (fun hj => update_of_ne hj ..) rfl rfl)
  · rw [or_self] at hr; subst hr; exact absurd hp (hno _ _ _)
  · have hp' := (hF.held id).mp hp
    by_cases hpt : p = (s.proc i).trapframe
    · subst hpt; rw [set_own_self] at hp'; cases hp'
    · rw [set_own_of_ne hpt] at hp'
      exact absurd (h.trapframe_unique hp').symm hpt

def Quiet (s s' : Kern) : Prop := ∀ j, (s'.proc j).state = (s.proc j).state ∧ (s'.proc j).ofile = (s.proc j).ofile

theorem wp_allocproc {Q : Option (Fin NPROC) → Kern → Prop} (h : Sys K s g c)
    (h0 : ∀ s' g', Sys K s' g' c → Quiet s s' → Q none s')
    (h1 : ∀ i s' g', Sys K s' g' c → ¬ (s.proc i).Used → (s'.proc i).state = .used →
      (s'.proc i).ofile = (s.proc i).ofile → (s'.proc i).sz = 0 → (∀ {j}, j ≠ i → s'.proc j = s.proc j) →
      Q (some i) s') : wp (allocproc K) Q s := by
  rw [allocproc, wp_bind, wp_get]
  cases hfind : (List.finRange NPROC).find? fun i => (s.proc i).state = .unused with
  | none => exact wp_pure.mpr (h0 s g h fun j => ⟨rfl, rfl⟩)
  | some i =>
    have hi : (s.proc i).state = .unused := by simpa using List.find?_some hfind
    have hfree : ¬ (s.proc i).Used := fun hu => hu hi
    have hbare := h.bare hfree
    -- the slot is free again
    have hquiet : ∀ {k : Kmem} {g' : Ghost Tag} {n : CInt}, PInv K k g' →
        Frame (fun _ => False) (· = Tag.tf i) g g' → (∀ p, g'.own p ≠ some (.held (.tf i))) → g'.usr = g.usr →
        Q none { s with kmem := k, nextpid := n, proc := update s.proc i (s.proc i).freed } := by
      intro k g' n hk hF hno hu
      refine h0 _ g' (h.update_proc (update_self ..) hk hF (fun _ _ => id) (fun _ => id)
        (fun hu => absurd hu ProcMem.not_used_freed) (fun _ => ⟨rfl, rfl, rfl⟩) (fun {p r l x} hp hr => ?_)
        (fun hp => absurd hp (hno _)) (by rw [hu]; exact h.usr) (fun hj => update_of_ne hj ..) rfl rfl)
        fun j => ?_
      · rcases hr with hr | hr
        · exact hr.elim
        · obtain ⟨j, hj, e⟩ := h.acc ((hF.node id).mp hp)
          have := h.pages.ne_zero (h.mem hj).space.table.root
          exact absurd (e.trans (hr.trans hbare.pagetable)) this
      · by_cases hj : j = i
        · subst hj
          simp only [update_self]
          exact ⟨hi.symm, rfl⟩
        · simp [update_of_ne hj]
    have hnotf : ∀ p, g.own p ≠ some (.held (.tf i)) := fun p hp => hfree (h.acc hp).1
    dsimp only
    simp only [wp_bind, wp_modify, wp_modifyProc, wp_vm, update_self, update_idem]
    refine wp_kalloc h.pages (.tf i) ?_ fun t k ht hk => ?_
    · rw [if_pos rfl, wp_bind, freeproc]
      simp only [wp_bind, wp_get, update_self, hbare.pagetable, ne_eq, not_true, if_false]
      refine wp_modifyProc.mpr (wp_pure.mpr ?_)
      simp only [update_self, update_idem]
      exact hquiet h.pages (.refl ..) hnotf rfl
    have hset : Frame (fun _ => False) (· = Tag.tf i) g (g.set t (.held (.tf i))) := .set ht trivial rfl
    rw [if_neg (h.pages.ne_zero ht)]
    simp only [wp_bind, wp_vm]
    refine wp_procPagetable hk (h.pages.lt ht) .tmp (fun k₁ g₁ hk1 hF1 hu1 => ?_)
      fun r k₁ g₁ hk1 hr hF1 hS1 hu1 => ?_
    · -- no page table: the trapframe page is given back
      have ht1 : g₁.own t = some (.held (.tf i)) := (hF1.held id).mpr set_own_self
      have hpin : g₁.pin t = none := (hF1.pin set_own_self id).trans (h.pages.pin_free ht)
      have hF2 : Frame (fun _ => False) (· = Tag.tf i) g₁ (g₁.set t .free) := .set ht1 rfl trivial
      rw [wp_modifyProc, if_pos rfl, wp_bind, freeproc]
      simp only [wp_bind, wp_get, update_self, update_idem, ne_eq, h.pages.ne_zero ht, not_false_iff,
        not_true, if_true, if_false, wp_vm]
      refine wp_kfree (hk1.isPage ht1) (wp_modifyProc.mpr (wp_pure.mpr ?_))
      simp only [update_self, update_idem]
      refine hquiet (hk1.freed ht1 hpin) ((hset.trans (hF1.mono (by simp) (by simp))).trans hF2) (fun p hp => ?_) hu1
      by_cases hpt : p = t
      · subst hpt; rw [set_own_self] at hp; cases hp
      · rw [set_own_of_ne hpt] at hp
        have := (hF1.held id).mp hp
        rw [set_own_of_ne hpt] at this
        exact hnotf p this
    · have hroot : ∀ {j}, (s.proc j).Used → (s.proc j).pagetable ≠ r := by
        rintro j hj rfl
        cases hr.symm.trans ((hset.node id).mpr (h.mem hj).space.table.root)
      rw [wp_modifyProc, if_neg (hk.ne_zero hr), wp_pure]
      simp only [update_self, update_idem]
      refine h1 i _ g₁ (h.update_proc (R := (· = r)) (T := (· = Tag.tf i)) (update_self ..) hk1
        ((hset.mono (by simp) fun _ => id).trans (hF1.mono (fun _ => id) (by simp))) (fun {j} hji hj e => ?_) (fun _ => id)
        (fun _ => ⟨⟨(hF1.held id).mpr set_own_self, (hF1.pin set_own_self id).trans (h.pages.pin_free ht), ?_⟩,
          fun {j} hji hj e => ?_⟩)
        (fun hu => absurd (by rintro ⟨⟩) hu) (fun {p r' l x} hp hr' => ⟨(by rintro ⟨⟩), ?_⟩) (fun {p} hp => ⟨(by rintro ⟨⟩), ?_⟩)
        (by rw [hu1]; exact h.usr) (fun hj => update_of_ne hj ..) rfl rfl) hfree ?_ ?_ ?_
        fun hj => update_of_ne hj ..
      · exact hroot hj e
      · rw [hbare.sz]; exact hS1
      · exact hroot hj e
      · rcases hr' with e | e
        · exact e.symm
        · obtain ⟨_, _, hr1, -⟩ := hk1.tables.root hp
          exact absurd (e.trans hbare.pagetable) (hk1.ne_zero hr1)
      · by_contra hpt
        have := (hF1.held id).mp hp
        rw [set_own_of_ne (Ne.symm hpt)] at this
        exact hnotf p this
      · simp only [update_self]
      · simp only [update_self]
      · simp only [update_self]; exact hbare.sz

/-! ### Between operations -/

def ofiles (s : Kern) (x : Fin NPROC × Fin NOFILE) : Option (Fin NFILE) := (s.proc x.1).ofile x.2

structure Inv (K : Layout) (s : Kern) : Prop where
  sys : ∃ g, Sys K s g (refs (ofiles s))
  settled : ∀ i, (s.proc i).state = .unused ∨ (s.proc i).state = .runnable ∨ (s.proc i).state = .zombie
  closed : ∀ {i}, (s.proc i).state ≠ .runnable → ∀ fd, (s.proc i).ofile fd = none

theorem ofiles_congr (h : ∀ j, (s'.proc j).ofile = (s.proc j).ofile) : ofiles s' = ofiles s :=
  funext fun x => congrFun (h x.1) x.2

theorem Inv.of_quiet (h : Inv K s) (hq : Quiet s s') (hs : Sys K s' g (refs (ofiles s))) : Inv K s' := by
  refine ⟨⟨g, ?_⟩, fun i => ?_, fun {i} hi => ?_⟩
  · rw [ofiles_congr fun j => (hq j).2]; exact hs
  · rw [(hq i).1]; exact h.settled i
  · rw [(hq i).2]; rw [(hq i).1] at hi; exact h.closed hi

theorem Sys.write (h : Sys K s g c) (hk : PInv K k g) : Sys K { s with kmem := k } g c :=
  h.update_files hk h.files (.refl ..) h.usr (fun _ => .refl _) rfl

theorem Sys.resize (h : Sys K s g c) (hi : (s.proc i).Used) (hk : PInv K k g')
    (hM : Moves (s.proc i).pagetable g g') {sz : Nat} (hT : Table g' (s.proc i).pagetable (npg sz)) :
    Sys K { s with kmem := k, proc := update s.proc i { s.proc i with sz := sz } } g' c := by
  have hm := h.mem hi
  refine h.update_proc (R := (· = (s.proc i).pagetable)) (T := fun _ => False) (update_self ..) hk
    (.of_moves hM rfl) (fun hj hu e => hj (h.inj hu hi e)) nofun
    (fun _ => ⟨⟨hM.held.mpr hm.tf, by rw [hM.pin]; exact hm.pin, hm.space.of_moves hM hT⟩,
      fun hj hu e => hj (h.inj hu hi e)⟩)
    (fun hu => absurd hi hu) (fun hp hr => ⟨hi, ?_⟩) (fun hp => ⟨hi, h.trapframe_unique (hM.held.mp hp)⟩)
    (by rw [hM.usr]; exact h.usr) (fun hj => update_of_ne hj ..) rfl rfl
  rw [or_self] at hr
  exact hr.symm

/-- Pages move between the free list and the page table of process `i`. -/
theorem Sys.moves (h : Sys K s g c) (hi : (s.proc i).Used) (hk : PInv K k g') (hM : Moves (s.proc i).pagetable g g')
    (hT : Table g' (s.proc i).pagetable (npg (s.proc i).sz)) : Sys K { s with kmem := k } g' c := by
  have := h.resize hi hk hM hT
  rwa [update_eq_self] at this

theorem Quiet.resize {sz : Nat} :
    Quiet s { s with kmem := k, proc := update s.proc i { s.proc i with sz := sz } } := fun j => by
  by_cases hj : j = i
  · subst hj; simp
  · simp [update_of_ne hj]

/-! ### `growproc` -/

theorem wp_growproc {Q : Bool → Kern → Prop} {n : CInt} (h : Inv K s) (hi : (s.proc i).Used)
    (h1 : ∀ b s', Inv K s' → Q b s') : wp (growproc K i n) Q s := by
  obtain ⟨g, hs⟩ := h.sys
  have hT := (hs.mem hi).space.table
  -- the size and the page table are in step again
  have hgo : ∀ {b k g' sz}, PInv K k g' → Moves (s.proc i).pagetable g g' →
      Table g' (s.proc i).pagetable (npg sz) →
      Q b { s with kmem := k, proc := update s.proc i { s.proc i with sz := sz } } :=
    fun hk hM hT' => h1 _ _ (h.of_quiet .resize (hs.resize hi hk hM hT'))
  have hsame : ∀ {b k g'}, PInv K k g' → Moves (s.proc i).pagetable g g' →
      Table g' (s.proc i).pagetable (npg (s.proc i).sz) → Q b { s with kmem := k } :=
    fun hk hM hT' => h1 _ _ (h.of_quiet (fun _ => ⟨rfl, rfl⟩) (hs.moves hi hk hM hT'))
  rw [growproc, wp_bind, wp_get]
  by_cases hpos : n.toInt > 0
  · rw [if_pos hpos, wp_bind, wp_vm]
    -- what follows when `uvmalloc` returns `sz`
    have hret : ∀ {k g' sz}, PInv K k g' → Moves (s.proc i).pagetable g g' → Table g' (s.proc i).pagetable (npg sz) →
        (s.proc i).sz ≤ sz → wp (do
          if sz = 0 then return false
          modifyProc i fun p => { p with sz := sz }
          return true) Q { s with kmem := k } := fun {k g' sz} hk hM hT' hle => by
      by_cases h0 : sz = 0
      · rw [if_pos h0, wp_pure]
        have : (s.proc i).sz = sz := by omega
        exact hsame hk hM (this ▸ hT')
      · rw [if_neg h0, wp_bind, wp_modifyProc, wp_pure]
        exact hgo hk hM hT'
    refine wp_uvmalloc hs.pages hT .tmp ⟨by decide, by decide, by decide⟩ (by decide)
      (fun _ => hret hs.pages (.refl ..) hT (le_rfl)) (fun hle k g' hk hM hT' => hret hk hM hT' hle)
      fun k g' hk hM hT' => ?_
    rw [if_pos rfl, wp_pure]
    exact hsame hk hM hT'
  · rw [if_neg hpos]
    by_cases hneg : n.toInt < 0
    · rw [if_pos hneg, wp_bind, wp_vm]
      refine wp_uvmdealloc hs.pages hT .tmp (fun _ => ?_) fun _ k g' hk hM hT' => ?_
      · rw [wp_bind, wp_modifyProc, wp_pure]; exact hgo hs.pages (.refl ..) hT
      · rw [wp_bind, wp_modifyProc, wp_pure]; exact hgo hk hM hT'
    · rw [if_neg hneg, wp_pure]
      exact h1 true s h

end Xv6
