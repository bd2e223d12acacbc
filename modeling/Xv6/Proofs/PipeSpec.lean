import Xv6.Proofs.AddrSpace

/-!
# Files and pipes

`Files file g c` says that file `f` is referenced `c f` times, and that the page of a pipe is there as long as
one of its two ends is open: the flags `readopen` and `writeopen` in the page say which.
-/

namespace Xv6

open Ghost Prog Kern Function

inductive Tag
  | tf (i : Fin NPROC)
  | pipe
  | boot
  | arg
  | tmp
deriving DecidableEq

def firstProc : Fin NPROC := ⟨0, by decide⟩

variable {K : Layout} {s s' : Kmem} {g g' : Ghost Tag} {R : Nat → Prop} {T : Tag → Prop} {m : Bytes}
  {file file' : Fin NFILE → File} {c : Fin NFILE → Nat} {f f' : Fin NFILE} {pi q : Nat} {w : Bool} {tag : Tag}
  {Q : Unit → Kern → Prop}

/-- An open file that is an end of the pipe in page `pi`. -/
structure File.IsEnd (ff : File) (pi : Nat) (w : Bool) : Prop where
  ref : 0 < ff.ref
  type : ff.type = .fdPipe
  pipe : ff.pipe = pi
  writable : ff.writable = w

def openFlag : Bool → Nat
  | false => pipeReadopen
  | true => pipeWriteopen

structure Files (file : Fin NFILE → File) (g : Ghost Tag) (c : Fin NFILE → Nat) : Prop where
  ref : ∀ f, (file f).ref = c f
  closed : ∀ {f}, (file f).ref = 0 → (file f).type = .fdNone
  page : ∀ {f pi w}, (file f).IsEnd pi w → g.own pi = some (.held .pipe)
  unique : ∀ {f f' pi w}, (file f).IsEnd pi w → (file f').IsEnd pi w → f = f'
  flag : ∀ {pi}, g.own pi = some (.held .pipe) → ∃ b : Bytes, g.pin pi = some b ∧
    ∀ w, b.load (pi + openFlag w) 4 ≠ 0 ↔ ∃ f, (file f).IsEnd pi w
  ends : ∀ {pi}, g.own pi = some (.held .pipe) → ∃ f w, (file f).IsEnd pi w

theorem Files.of_frame (h : Files file g c) (hF : Frame R T g g') (ht : ¬ T .pipe) : Files file g' c := by
  refine ⟨h.ref, h.closed, fun ho => (hF.held ht).mpr (h.page ho), h.unique, fun {pi} hp => ?_,
    fun hp => h.ends ((hF.held ht).mp hp)⟩
  have hp' := (hF.held ht).mp hp
  obtain ⟨b, hb, hw⟩ := h.flag hp'
  exact ⟨b, (hF.pin hp' ht).trans hb, hw⟩

/-! ### Pages whose content is to stay -/

/-- The content of page `q` is to stay as it is in `w`, or does not matter. -/
def Ghost.setPin {τ : Type} (g : Ghost τ) (q : Nat) (w : Option Bytes) : Ghost τ :=
  { g with pin := Function.update g.pin q w }

theorem Ghost.setPin_self {τ : Type} {g : Ghost τ} {w : Option Bytes} : (g.setPin q w).pin q = w :=
  update_self ..

theorem Ghost.setPin_of_ne {τ : Type} {g : Ghost τ} {w : Option Bytes} {p : Nat} (h : p ≠ q) :
    (g.setPin q w).pin p = g.pin p := update_of_ne h ..

theorem PInv.setPin (h : PInv K s g) {w : Option Bytes}
    (hw : ∀ b, w = some b → (∃ t, g.own q = some (.held t)) ∧ SamePage b s.mem q) : PInv K s (g.setPin q w) := by
  refine ⟨h.page, h.free, h.tables.congr (fun _ _ _ _ => Iff.rfl) rfl rfl fun _ => id, fun {p b} hp => ?_⟩
  by_cases hpq : p = q
  · subst hpq
    exact hw b (setPin_self.symm.trans hp)
  · exact h.pinned ((setPin_of_ne hpq).symm.trans hp)

theorem Frame.setPin {w : Option Bytes} (hq : g.own q = some (.held tag)) (ht : T tag) :
    Frame R T g (g.setPin q w) := by
  refine ⟨fun _ => Iff.rfl, fun _ => rfl, fun {p t} hp hnt => setPin_of_ne ?_⟩
  rintro rfl
  cases hq.symm.trans hp
  exact hnt ht

/-- A write to a page that somebody holds, after which the content is to stay. -/
theorem PInv.writePin {m' : Bytes} (h : PInv K s g) (hq : g.own q = some (.held tag)) (hm : Outside s.mem m' q) :
    PInv K { s with mem := m' } (g.setPin q (some m')) := by
  have h' := (h.setPin (w := none) nofun).write (c := q) hm (.inl ⟨⟨tag, hq⟩, setPin_self⟩)
  have hp := h'.setPin (q := q) (w := some m') fun b hb => by cases hb; exact ⟨⟨tag, hq⟩, fun _ _ _ => rfl⟩
  rwa [show (g.setPin q none).setPin q (some m') = g.setPin q (some m') from
    congrArg (fun w => Ghost.mk g.own g.ext w g.usr) (update_idem ..)] at hp

/-! ### `pipeclose` -/

theorem load_openFlag_store (w w' : Bool) : (m.store (pi + openFlag w) 4 0).load (pi + openFlag w') 4 =
      if w' = w then 0 else m.load (pi + openFlag w') 4 := by
  by_cases hw : w' = w
  · rw [if_pos hw, hw, Bytes.load_store_self, Nat.zero_mod]
  · rw [if_neg hw]
    refine Bytes.load_store_of_disjoint ?_
    cases w <;> cases w' <;> simp only [openFlag, pipeReadopen, pipeWriteopen, not_true] at * <;> omega

theorem outside_openFlag {v : Nat} : Outside m (m.store (pi + openFlag w) 4 v) pi :=
  outside_store (Nat.le_add_right ..) (by cases w <;> simp only [openFlag, pipeReadopen, pipeWriteopen, PGSIZE] <;> omega)

theorem wp_pipeclose {Q : Unit → Kmem → Prop} (h : PInv K s g) (hp : g.own pi = some (.held tag))
    (h0 : s.mem.load (pi + openFlag (!w)) 4 = 0 → ∀ s', PInv K s' ((g.setPin pi none).set pi .free) → Q () s')
    (h1 : s.mem.load (pi + openFlag (!w)) 4 ≠ 0 → ∀ s', PInv K s' (g.setPin pi (some s'.mem)) →
      (∀ w', s'.mem.load (pi + openFlag w') 4 = if w' = w then 0 else s.mem.load (pi + openFlag w') 4) → Q () s') :
    wp (pipeclose K pi w) Q s := by
  have hm : Outside s.mem (s.mem.store (pi + openFlag w) 4 0) pi := outside_openFlag
  have hgo : wp (do
      if (← load32 (pi + pipeReadopen)) = 0 ∧ (← load32 (pi + pipeWriteopen)) = 0 then
        kfree K pi) Q { s with mem := s.mem.store (pi + openFlag w) 4 0 } := by
    have hflag : ((s.mem.store (pi + openFlag w) 4 0).load (pi + pipeReadopen) 4 = 0 ∧
        (s.mem.store (pi + openFlag w) 4 0).load (pi + pipeWriteopen) 4 = 0) ↔
        s.mem.load (pi + openFlag (!w)) 4 = 0 := by
      rw [show pipeReadopen = openFlag false from rfl, show pipeWriteopen = openFlag true from rfl,
        load_openFlag_store, load_openFlag_store]
      cases w <;> simp
    simp only [load32, wp_bind, wp_get, wp_pure]
    by_cases hz : s.mem.load (pi + openFlag (!w)) 4 = 0
    · rw [if_pos (hflag.mpr hz)]
      refine wp_kfree (h.isPage hp) (h0 hz _ ?_)
      have h' := (h.setPin (q := pi) (w := none) (by simp)).write (c := pi) hm (.inl ⟨⟨tag, hp⟩, setPin_self⟩)
      exact h'.freed hp setPin_self
    · rw [if_neg fun e => hz (hflag.mp e), wp_pure]
      exact h1 hz _ (h.writePin hp hm) fun w' => load_openFlag_store w w'
  rw [pipeclose]
  cases w with
  | false => rw [if_neg Bool.false_ne_true, store32, wp_bind, wp_modify]; exact hgo
  | true => rw [if_pos rfl, store32, wp_bind, wp_modify]; exact hgo

/-! ### `filealloc`, `filedup` and `fileclose` -/

/-- References have come or gone, but the ends of pipes are as before. -/
theorem Files.congr (h : Files file g c) {c' : Fin NFILE → Nat} (href : ∀ f, (file' f).ref = c' f)
    (hclosed : ∀ {f}, (file' f).ref = 0 → (file' f).type = .fdNone)
    (hend : ∀ {f pi w}, (file' f).IsEnd pi w ↔ (file f).IsEnd pi w) : Files file' g c' := by
  refine ⟨href, hclosed, fun ho => h.page (hend.mp ho), fun ho ho' => h.unique (hend.mp ho) (hend.mp ho'),
    fun {pi} hp => ?_, fun hp => ?_⟩
  · obtain ⟨b, hb, hw⟩ := h.flag hp
    exact ⟨b, hb, fun w => (hw w).trans (exists_congr fun f => hend.symm)⟩
  · obtain ⟨f, w, ho⟩ := h.ends hp
    exact ⟨f, w, hend.mpr ho⟩

theorem Files.setRef (h : Files file g c) {n : Nat} (hn : 0 < n) :
    Files (update file f { file f with ref := n }) g (update c f n) := by
  refine h.congr (fun f' => ?_) (fun {f'} hz => ?_) fun {f' pi w} => ?_ <;> by_cases hff : f' = f
  · subst hff; rw [update_self, update_self]
  · rw [update_of_ne hff, update_of_ne hff]; exact h.ref f'
  · subst hff; rw [update_self] at hz; exact absurd hz (Nat.ne_of_gt hn)
  · rw [update_of_ne hff] at hz ⊢; exact h.closed hz
  · subst hff
    rw [update_self]
    refine ⟨fun ho => ⟨?_, ho.type, ho.pipe, ho.writable⟩, fun ho => ⟨hn, ho.type, ho.pipe, ho.writable⟩⟩
    by_contra hz
    cases (h.closed (Nat.eq_zero_of_not_pos hz)).symm.trans ho.type
  · rw [update_of_ne hff]

def File.shut (ff : File) : File := { ff with ref := 0, type := .fdNone }

theorem isEnd_shut : (update file f (file f).shut f').IsEnd pi w ↔ f' ≠ f ∧ (file f').IsEnd pi w := by
  by_cases hff : f' = f
  · subst hff
    rw [update_self]
    exact ⟨fun ho => absurd ho.type nofun, fun ho => absurd rfl ho.1⟩
  · rw [update_of_ne hff]; exact (and_iff_right hff).symm

section

variable (h : Files file g c)
include h

theorem Files.shut_ref (f' : Fin NFILE) : (update file f (file f).shut f').ref = update c f 0 f' := by
  by_cases hff : f' = f
  · subst hff; rw [update_self, update_self]; rfl
  · rw [update_of_ne hff, update_of_ne hff]; exact h.ref f'

theorem Files.shut_closed (hz : (update file f (file f).shut f').ref = 0) :
    (update file f (file f).shut f').type = .fdNone := by
  by_cases hff : f' = f
  · subst hff; rw [update_self]; rfl
  · rw [update_of_ne hff] at hz ⊢; exact h.closed hz

theorem Files.close (hf : (file f).type ≠ .fdPipe) :
    Files (update file f (file f).shut) g (update c f 0) := by
  refine h.congr h.shut_ref h.shut_closed fun {f' pi w} => isEnd_shut.trans (and_iff_right_of_imp fun ho => ?_)
  rintro rfl
  exact hf ho.type

theorem Files.closeEnd (hf : (file f).IsEnd pi w) {b b' : Bytes} (hb : g.pin pi = some b)
    (hother : b.load (pi + openFlag (!w)) 4 ≠ 0)
    (hb' : ∀ w', b'.load (pi + openFlag w') 4 = if w' = w then 0 else b.load (pi + openFlag w') 4) :
    Files (update file f (file f).shut) (g.setPin pi (some b')) (update c f 0) := by
  have hflag : ∀ w', b.load (pi + openFlag w') 4 ≠ 0 ↔ ∃ f, (file f).IsEnd pi w' := by
    obtain ⟨b₁, hb1, hw⟩ := h.flag (h.page hf)
    cases hb.symm.trans hb1
    exact hw
  refine ⟨h.shut_ref, h.shut_closed, fun ho => h.page (isEnd_shut.mp ho).2,
    fun ho ho' => h.unique (isEnd_shut.mp ho).2 (isEnd_shut.mp ho').2, fun {pi'} hp => ?_, fun {pi'} hp => ?_⟩
  · by_cases hpi : pi' = pi
    · subst hpi
      refine ⟨b', setPin_self, fun w' => ?_⟩
      rw [hb']
      by_cases hw : w' = w
      · subst hw
        rw [if_pos rfl]
        refine ⟨fun h0 => absurd rfl h0, fun ⟨f', ho⟩ => ?_⟩
        obtain ⟨hne, ho⟩ := isEnd_shut.mp ho
        exact absurd (h.unique ho hf) hne
      · rw [if_neg hw, hflag]
        refine exists_congr fun f' => (isEnd_shut.trans (and_iff_right_of_imp fun ho => ?_)).symm
        rintro rfl
        exact hw (ho.writable.symm.trans hf.writable)
    · obtain ⟨b₁, hb1, hw⟩ := h.flag hp
      refine ⟨b₁, (setPin_of_ne hpi).trans hb1, fun w' => (hw w').trans (exists_congr fun f' => ?_)⟩
      refine (isEnd_shut.trans (and_iff_right_of_imp fun ho => ?_)).symm
      rintro rfl
      exact hpi (ho.pipe.symm.trans hf.pipe)
  · by_cases hpi : pi' = pi
    · subst hpi
      obtain ⟨f', ho⟩ := (hflag _).mp hother
      refine ⟨f', _, isEnd_shut.mpr ⟨?_, ho⟩⟩
      rintro rfl
      have := ho.writable.symm.trans hf.writable
      cases w <;> cases this
    · obtain ⟨f', w', ho⟩ := h.ends hp
      refine ⟨f', w', isEnd_shut.mpr ⟨?_, ho⟩⟩
      rintro rfl
      exact hpi (ho.pipe.symm.trans hf.pipe)

theorem Files.closeLast (hf : (file f).IsEnd pi w) {b : Bytes} (hb : g.pin pi = some b)
    (hother : b.load (pi + openFlag (!w)) 4 = 0) :
    Files (update file f (file f).shut) ((g.setPin pi none).set pi .free) (update c f 0) := by
  -- no other file is an end of this pipe
  have hlast : ∀ {f' w'}, (file f').IsEnd pi w' → f' = f := fun {f' w'} ho => by
    by_cases hw : w' = w
    · subst hw; exact h.unique ho hf
    · obtain ⟨b₁, hb1, hw1⟩ := h.flag (h.page hf)
      cases hb.symm.trans hb1
      obtain rfl : w' = !w := by cases w <;> cases w' <;> first | rfl | exact absurd rfl hw
      exact absurd hother ((hw1 _).mpr ⟨f', ho⟩)
  have hpage : ∀ {pi'}, ((g.setPin pi none).set pi .free).own pi' = some (.held .pipe) ↔
      pi' ≠ pi ∧ g.own pi' = some (.held .pipe) := fun {pi'} => by
    by_cases hpi : pi' = pi
    · subst hpi; rw [set_own_self]; exact ⟨nofun, fun h => absurd rfl h.1⟩
    · rw [set_own_of_ne hpi]; exact (and_iff_right hpi).symm
  have hend : ∀ {f' pi' w'}, pi' ≠ pi →
      ((update file f (file f).shut f').IsEnd pi' w' ↔ (file f').IsEnd pi' w') := fun {f' pi' w'} hpi => by
    refine isEnd_shut.trans (and_iff_right_of_imp fun ho => ?_)
    rintro rfl
    exact hpi (ho.pipe.symm.trans hf.pipe)
  refine ⟨h.shut_ref, h.shut_closed, fun {f' pi' w'} ho => hpage.mpr ⟨?_, h.page (isEnd_shut.mp ho).2⟩,
    fun ho ho' => h.unique (isEnd_shut.mp ho).2 (isEnd_shut.mp ho').2, fun {pi'} hp => ?_, fun {pi'} hp => ?_⟩
  · rintro rfl
    exact (isEnd_shut.mp ho).1 (hlast (isEnd_shut.mp ho).2)
  · obtain ⟨hpi, hp⟩ := hpage.mp hp
    obtain ⟨b₁, hb1, hw⟩ := h.flag hp
    exact ⟨b₁, (setPin_of_ne hpi).trans hb1, fun w' => (hw w').trans (exists_congr fun f' => (hend hpi).symm)⟩
  · obtain ⟨hpi, hp⟩ := hpage.mp hp
    obtain ⟨f', w', ho⟩ := h.ends hp
    exact ⟨f', w', (hend hpi).mpr ho⟩

end

def File.mkEnd (ff : File) (pi : Nat) (w : Bool) : File :=
  { ff with type := .fdPipe, readable := !w, writable := w, pipe := pi }

theorem Files.openPipe (h : Files file g c) {f₀ f₁ : Fin NFILE} {b : Bytes} (hc0 : 0 < c f₀) (hc₁ : 0 < c f₁)
    (ht0 : (file f₀).type = .fdNone) (ht1 : (file f₁).type = .fdNone) (hne : f₀ ≠ f₁)
    (hpi : g.own pi = some .free) (hb : ∀ w, b.load (pi + openFlag w) 4 ≠ 0) :
    Files (update (update file f₀ ((file f₀).mkEnd pi false)) f₁ ((file f₁).mkEnd pi true))
      ((g.set pi (.held .pipe)).setPin pi (some b)) c := by
  generalize hfile : update (update file f₀ ((file f₀).mkEnd pi false)) f₁
    ((file f₁).mkEnd pi true) = file'
  have hf0 : file' f₀ = (file f₀).mkEnd pi false := by
    rw [← hfile, update_of_ne hne, update_self]
  have hf1 : file' f₁ = (file f₁).mkEnd pi true := by rw [← hfile, update_self]
  have hf : ∀ {f}, f ≠ f₀ → f ≠ f₁ → file' f = file f := fun h₀ h₁ => by
    rw [← hfile, update_of_ne h₁, update_of_ne h₀]
  have hold : ∀ {f pi' w}, (file f).IsEnd pi' w → f ≠ f₀ ∧ f ≠ f₁ ∧ pi' ≠ pi := fun {f pi' w} ho => by
    refine ⟨?_, ?_, ?_⟩ <;> rintro rfl
    · cases ht0.symm.trans ho.type
    · cases ht1.symm.trans ho.type
    · cases hpi.symm.trans (h.page ho)
  have hend : ∀ {f pi' w}, (file' f).IsEnd pi' w ↔
      (pi' = pi ∧ f = bif w then f₁ else f₀) ∨ (file f).IsEnd pi' w := fun {f pi' w} => by
    by_cases h₀ : f = f₀
    · subst h₀
      rw [hf0]
      refine ⟨fun ho => .inl ⟨ho.pipe.symm, by rw [← ho.writable]; rfl⟩, ?_⟩
      rintro (⟨rfl, hw⟩ | ho)
      · refine ⟨by rw [← h.ref] at hc0; exact hc0, rfl, rfl, ?_⟩
        cases w with
        | false => rfl
        | true => exact absurd hw hne
      · exact absurd rfl (hold ho).1
    · by_cases h₁ : f = f₁
      · subst h₁
        rw [hf1]
        refine ⟨fun ho => .inl ⟨ho.pipe.symm, by rw [← ho.writable]; rfl⟩, ?_⟩
        rintro (⟨rfl, hw⟩ | ho)
        · refine ⟨by rw [← h.ref] at hc₁; exact hc₁, rfl, rfl, ?_⟩
          cases w with
          | false => exact absurd hw.symm hne
          | true => rfl
        · exact absurd rfl (hold ho).2.1
      · rw [hf h₀ h₁]
        refine ⟨.inr, ?_⟩
        rintro (⟨-, hw⟩ | ho)
        · cases w
          · exact absurd hw h₀
          · exact absurd hw h₁
        · exact ho
  have hpage : ∀ {pi'}, ((g.set pi (.held .pipe)).setPin pi (some b)).own pi' = some (.held .pipe) ↔
      pi' = pi ∨ g.own pi' = some (.held .pipe) := fun {pi'} => by
    by_cases hpp : pi' = pi
    · subst hpp; exact ⟨fun _ => .inl rfl, fun _ => set_own_self⟩
    · show (g.set pi (.held .pipe)).own pi' = _ ↔ _
      rw [set_own_of_ne hpp]; exact (or_iff_right hpp).symm
  refine ⟨fun f => ?_, fun {f} hz => ?_, fun {f pi' w} ho => hpage.mpr ((hend.mp ho).imp And.left h.page),
    fun {f f' pi' w} ho ho' => ?_, fun {pi'} hp => ?_, fun {pi'} hp => ?_⟩
  · by_cases h₀ : f = f₀
    · subst h₀; rw [hf0]; exact h.ref f
    · by_cases h₁ : f = f₁
      · subst h₁; rw [hf1]; exact h.ref f
      · rw [hf h₀ h₁]; exact h.ref f
  · have hnot : ∀ {f'}, 0 < c f' → (file' f').ref = (file f').ref → f ≠ f' := by
      rintro f' hc' hr rfl
      rw [hr, h.ref] at hz
      omega
    have h₀ := hnot hc0 (by rw [hf0]; rfl)
    have h₁ := hnot hc₁ (by rw [hf1]; rfl)
    rw [hf h₀ h₁] at hz ⊢
    exact h.closed hz
  · rcases hend.mp ho with ⟨hp, e⟩ | ho <;> rcases hend.mp ho' with ⟨hp', e'⟩ | ho'
    · rw [e, e']
    · exact absurd hp (hold ho').2.2
    · exact absurd hp' (hold ho).2.2
    · exact h.unique ho ho'
  · rcases hpage.mp hp with rfl | hp'
    · exact ⟨b, setPin_self, fun w => ⟨fun _ => ⟨_, hend.mpr (.inl ⟨rfl, rfl⟩)⟩, fun _ => hb w⟩⟩
    · have hpp : pi' ≠ pi := by rintro rfl; cases hpi.symm.trans hp'
      obtain ⟨b₁, hb1, hw⟩ := h.flag hp'
      refine ⟨b₁, (setPin_of_ne hpp).trans hb1, fun w => (hw w).trans (exists_congr fun f => ?_)⟩
      exact ⟨fun ho => hend.mpr (.inr ho), fun ho => (hend.mp ho).resolve_left fun e => hpp e.1⟩
  · rcases hpage.mp hp with rfl | hp
    · exact ⟨f₀, false, hend.mpr (.inl ⟨rfl, rfl⟩)⟩
    · obtain ⟨f, w, ho⟩ := h.ends hp
      exact ⟨f, w, hend.mpr (.inr ho)⟩

/-! ### The functions -/

section
variable {st : Kern}

@[simp] theorem wp_vm {α : Type} {y : VM α} {Q : α → Kern → Prop} :
    wp (vm y) Q st ↔ wp y (fun a k => Q a { st with kmem := k }) st.kmem := wp_zoom

@[simp] theorem wp_modifyProc {i : Fin NPROC} {u : ProcMem → ProcMem} :
    wp (modifyProc i u) Q st ↔ Q () { st with proc := update st.proc i (u (st.proc i)) } := wp_modify

@[simp] theorem wp_modifyFile {u : File → File} :
    wp (modifyFile f u) Q st ↔ Q () { st with file := update st.file f (u (st.file f)) } := wp_modify

theorem wp_filedup (hf : Files st.file g c) (hc : 0 < c f)
    (h1 : ∀ file', Files file' g (update c f (c f + 1)) → Q () { st with file := file' }) :
    wp (filedup f) Q st := by
  have href := hf.ref f
  rw [filedup, wp_bind, wp_get]
  rw [if_neg (by omega), wp_modifyFile, href]
  exact h1 _ (hf.setRef (Nat.succ_pos _))

theorem wp_filealloc {Q : Option (Fin NFILE) → Kern → Prop} (hf : Files st.file g c) (h0 : Q none st)
    (h1 : ∀ f file', c f = 0 → Files file' g (update c f 1) → (file' f).type = .fdNone →
      (∀ f', f' ≠ f → file' f' = st.file f') → Q (some f) { st with file := file' }) : wp filealloc Q st := by
  rw [filealloc, wp_bind, wp_get]
  cases hfind : (List.finRange NFILE).find? fun f => (st.file f).ref = 0 with
  | none => exact wp_pure.mpr h0
  | some f =>
    have hz : (st.file f).ref = 0 := by simpa using List.find?_some hfind
    refine wp_bind.mpr (wp_modifyFile.mpr (wp_pure.mpr (h1 f _ ((hf.ref f).symm.trans hz) (hf.setRef Nat.one_pos) ?_
      fun f' hne => update_of_ne hne ..)))
    rw [update_self]
    exact hf.closed hz

theorem wp_fileclose (h : PInv K st.kmem g) (hf : Files st.file g c) (hc : 0 < c f)
    (h1 : ∀ k file' g', PInv K k g' → Files file' g' (update c f (c f - 1)) →
      Frame (fun _ => False) (· = .pipe) g g' → g'.usr = g.usr → Q () { st with kmem := k, file := file' }) :
    wp (fileclose K f) Q st := by
  have href := hf.ref f
  rw [fileclose, wp_bind, wp_get]
  rw [if_neg (by omega)]
  by_cases hone : (st.file f).ref - 1 > 0
  · rw [if_pos hone, wp_modifyFile, href]
    exact h1 st.kmem _ g h (hf.setRef (by omega)) (.refl ..) rfl
  · have hc1 : c f - 1 = 0 := by omega
    rw [if_neg hone, wp_bind, wp_modifyFile]
    rw [hc1] at h1
    by_cases htype : (st.file f).type = .fdPipe
    · have hend : (st.file f).IsEnd (st.file f).pipe (st.file f).writable := ⟨by omega, htype, rfl, rfl⟩
      have hp := hf.page hend
      obtain ⟨b, hb, -⟩ := hf.flag hp
      have hsame : ∀ w, st.kmem.mem.load ((st.file f).pipe + openFlag w) 4 = b.load ((st.file f).pipe + openFlag w) 4 :=
        fun w => Bytes.load_congr fun a ha1 ha2 => (h.pinned hb).2 a (by omega) (by
          cases w <;> simp only [openFlag, pipeReadopen, pipeWriteopen, PGSIZE] at * <;> omega)
      have hpin : ∀ {w}, Frame (fun _ => False) (· = Tag.pipe) g (g.setPin (st.file f).pipe w) := .setPin hp rfl
      rw [if_pos htype, wp_vm]
      refine wp_pipeclose h hp (fun hz k hk => ?_) fun hnz k hk hflags => ?_
      · exact h1 k _ _ hk (hf.closeLast hend hb ((hsame _).symm.trans hz))
          (hpin.trans (.set (R := fun _ => False) (T := (· = Tag.pipe)) hp rfl trivial)) rfl
      · refine h1 k _ _ hk (hf.closeEnd hend hb (by rw [← hsame]; exact hnz) fun w' => ?_) hpin rfl
        rw [hflags, hsame]
    · rw [if_neg htype, wp_pure]
      exact h1 st.kmem _ g h (hf.close htype) (.refl ..) rfl

theorem update_update_self {a : Fin NFILE} {n : Nat} (ha : c a = 0) :
    update (update c a n) a 0 = c := by
  rw [update_idem, ← ha, update_eq_self]

theorem wp_pipealloc {Q : Option (Fin NFILE × Fin NFILE) → Kern → Prop} (h : PInv K st.kmem g) (hf : Files st.file g c)
    (h0 : ∀ k file' g', PInv K k g' → Files file' g' c → Frame (fun _ => False) (· = .pipe) g g' → g'.usr = g.usr →
      Q none { st with kmem := k, file := file' })
    (h1 : ∀ f₀ f₁ k file' g', c f₀ = 0 → c f₁ = 0 → f₀ ≠ f₁ → PInv K k g' →
      Files file' g' (update (update c f₀ 1) f₁ 1) → Frame (fun _ => False) (· = .pipe) g g' →
      g'.usr = g.usr → Q (some (f₀, f₁)) { st with kmem := k, file := file' }) : wp (pipealloc K) Q st := by
  rw [pipealloc, wp_bind]
  refine wp_filealloc hf (wp_pure.mpr (h0 _ _ g h hf (.refl ..) rfl)) fun f₀ file₀ hc0 hf0 ht0 _ => ?_
  dsimp only
  rw [wp_bind]
  refine wp_filealloc hf0 ?_ fun f₁ file₁ hc₁ hf1 ht1 hsame => ?_
  · -- there is no second file
    dsimp only
    rw [wp_bind]
    refine wp_fileclose h hf0 (by rw [update_self]; exact Nat.one_pos) fun k file' g' hk hf' hF hu => ?_
    rw [update_self, update_update_self hc0] at hf'
    exact wp_pure.mpr (h0 k file' g' hk hf' hF hu)
  have hne : f₀ ≠ f₁ := by rintro rfl; rw [update_self] at hc₁; cases hc₁
  rw [update_of_ne hne.symm] at hc₁
  dsimp only
  rw [wp_bind, wp_vm]
  refine wp_kalloc h .pipe ?_ fun pi k hpi hk => ?_
  · -- there is no page for the pipe
    rw [if_pos rfl, wp_bind]
    refine wp_fileclose h hf1 (by rw [update_of_ne hne, update_self]; exact Nat.one_pos)
      fun k file' g' hk hf' hF hu => ?_
    rw [update_of_ne hne, update_self, update_comm hne.symm, update_update_self hc0] at hf'
    rw [wp_bind]
    refine wp_fileclose hk hf' (by rw [update_self]; exact Nat.one_pos) fun k file' g'' hk hf' hF' hu' => ?_
    rw [update_self, update_update_self hc₁] at hf'
    exact wp_pure.mpr (h0 k file' g'' hk hf' (hF.trans hF') (hu'.trans hu))
  rw [if_neg (h.ne_zero hpi)]
  simp only [wp_bind, wp_vm, store32, wp_modify, wp_modifyFile, wp_pure, update_of_ne hne.symm]
  have hout : ∀ (m : Bytes) (off v : Nat), off ≤ pipeWriteopen → Outside m (m.store (pi + off) 4 v) pi :=
    fun _ _ _ hoff => outside_store (Nat.le_add_right ..) (by simp only [pipeWriteopen, PGSIZE] at *; omega)
  have hm := (((hout k.mem pipeReadopen 1 (by decide)).trans (hout _ pipeWriteopen 1 (by decide))).trans
    (hout _ pipeNwrite 0 (by decide))).trans (hout _ pipeNread 0 (by decide))
  have hset : Frame (fun _ => False) (· = Tag.pipe) g (g.set pi (.held .pipe)) := .set hpi trivial rfl
  refine h1 f₀ f₁ _ _ _ hc0 hc₁ hne (hk.writePin set_own_self hm) (hf1.openPipe ?_ ?_ ?_ ht1 hne hpi fun w => ?_)
    (hset.trans (.setPin set_own_self rfl)) rfl
  · rw [update_of_ne hne, update_self]; exact Nat.one_pos
  · rw [update_self]; exact Nat.one_pos
  · rw [hsame f₀ hne]; exact ht0
  · rw [Bytes.load_store_of_disjoint, Bytes.load_store_of_disjoint]
    · cases w with
      | false => rw [Bytes.load_store_of_disjoint, openFlag, Bytes.load_store_self]
                 all_goals simp [openFlag, pipeReadopen, pipeWriteopen]
      | true => rw [openFlag, Bytes.load_store_self]; decide
    all_goals cases w <;> simp [openFlag, pipeReadopen, pipeWriteopen, pipeNwrite, pipeNread]

end

end Xv6
