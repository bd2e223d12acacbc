import Xv6.Proofs.PageOwner

/-!
# What `exec` leaves alone

To see which pages an operation keeps, all pages that it has no business with are taken to be held, with the content
they have (`Ghost.freeze`): whoever they belong to, the operation must keep them. A failed `exec` has to do with no page
that is in use when it starts.
-/

namespace Xv6

open Ghost Prog Kern

variable {τ : Type} {K : Layout} {s s' : Kern} {k k' : Kmem} {g g' : Ghost τ} {t : τ} {R : Nat → Prop} {m : Bytes}
  {i : Fin NPROC} {L : List Nat} {p r l x : Nat} {o : Owner τ} {data : List UInt8} {argv : List Nat}

open Classical in
/-- What becomes of an owner when all but the page tables `R` is frozen. -/
noncomputable def Owner.freeze (t : τ) (R : Nat → Prop) : Owner τ → Owner τ
  | .free => .free
  | .node r l x => if R r then .node r l x else .held t
  | .held _ => .held t

open Classical in
/-- The free pages and the page tables `R` are as in `g`, and the other pages are held as they are in `m`. -/
noncomputable def Ghost.freeze (g : Ghost τ) (t : τ) (R : Nat → Prop) (m : Bytes) : Ghost τ where
  own p := (g.own p).map (Owner.freeze t R)
  ext r l v := if R r then g.ext r l v else none
  pin p := if (g.own p).map (Owner.freeze t R) = some (.held t) then some m else none
  usr := g.usr

theorem Owner.freeze_eq_free : o.freeze t R = .free ↔ o = .free := by
  cases o with
  | free => simp [Owner.freeze]
  | node r l x => simp only [Owner.freeze]; split <;> simp
  | held t' => simp [Owner.freeze]

theorem Owner.freeze_eq_node : o.freeze t R = .node r l x ↔ R r ∧ o = .node r l x := by
  cases o with
  | free => simp [Owner.freeze]
  | node r' l' x' =>
    by_cases hR : R r'
    · rw [Owner.freeze, if_pos hR]
      exact ⟨fun e => by cases e; exact ⟨hR, rfl⟩, fun e => e.2⟩
    · rw [Owner.freeze, if_neg hR]
      exact ⟨fun e => (by cases e), fun e => by cases e.2; exact absurd e.1 hR⟩
  | held t' => simp [Owner.freeze]

theorem freeze_own_free : (g.freeze t R m).own p = some .free ↔ g.own p = some .free := by
  simp [Ghost.freeze, Owner.freeze_eq_free]

theorem freeze_own_node : (g.freeze t R m).own p = some (.node r l x) ↔ R r ∧ g.own p = some (.node r l x) := by
  simp [Ghost.freeze, Owner.freeze_eq_node, and_comm]

theorem freeze_own_none : (g.freeze t R m).own p = none ↔ g.own p = none := by simp [Ghost.freeze]

theorem freeze_own_held (ho : g.own p = some o) (hf : o ≠ .free) (hR : ∀ r l x, o = .node r l x → ¬ R r) :
    (g.freeze t R m).own p = some (.held t) := by
  simp only [Ghost.freeze, ho, Option.map_some, Option.some.injEq]
  cases o with
  | free => exact absurd rfl hf
  | node r l x => exact if_neg (hR r l x rfl)
  | held t' => rfl

theorem freeze_pin (h : (g.freeze t R m).own p = some (.held t)) : (g.freeze t R m).pin p = some m := if_pos h

theorem PInv.freeze (h : PInv K k g) (t : τ) (R : Nat → Prop) : PInv K k (g.freeze t R k.mem) := by
  obtain ⟨L, hchain, hnodup, hfree⟩ := h.free
  refine ⟨fun p => (not_congr freeze_own_none).trans (h.page p), ⟨L, hchain, hnodup, fun p => freeze_own_free.trans (hfree p)⟩,
    ⟨fun hq i hi => ?_, fun hp => ?_, fun hq => ?_, fun {r l v} hx => ?_, fun hp => h.tables.aligned
      (mt freeze_own_none.mpr hp)⟩, fun {p b} hb => ?_⟩
  · obtain ⟨hR, hq⟩ := freeze_own_node.mp hq
    exact (h.tables.entry hq i hi).congr (fun p => freeze_own_node.trans (and_iff_right hR)) (if_pos hR) id
  · obtain ⟨hR, hp⟩ := freeze_own_node.mp hp
    exact (h.tables.parent hp).imp_right fun ⟨q, hq⟩ => ⟨q, freeze_own_node.mpr ⟨hR, hq⟩⟩
  · obtain ⟨hR, hq⟩ := freeze_own_node.mp hq
    obtain ⟨l', x', hr, hl⟩ := h.tables.root hq
    exact ⟨l', x', freeze_own_node.mpr ⟨hR, hr⟩, hl⟩
  · by_cases hR : R r
    · have hext : (g.freeze t R k.mem).ext r l v = g.ext r l v := if_pos hR
      rw [hext] at hx
      exact (h.tables.ext hx).imp_right fun ⟨q, hq⟩ => ⟨q, freeze_own_node.mpr ⟨hR, hq⟩⟩
    · exact absurd (if_neg hR) hx
  · simp only [Ghost.freeze, Option.ite_none_right_eq_some, Option.some.injEq] at hb
    obtain ⟨hheld, rfl⟩ := hb
    exact ⟨⟨t, hheld⟩, fun _ _ _ => rfl⟩

theorem samePage_of_frame (h : PInv K k' g') (hF : Frame R (fun _ => False) (g.freeze t R k.mem) g')
    (ho : g.own p = some o) (hf : o ≠ .free) (hR : ∀ r l x, o = .node r l x → ¬ R r) : SamePage k.mem k'.mem p :=
  have hheld := freeze_own_held ho hf hR
  (h.pinned ((hF.pin hheld id).trans (freeze_pin hheld))).2

/-! ### A failed `exec` -/

/-- The pages that were not free are as they were, and the others are free. -/
structure Restored (K : Layout) (L : List Nat) (k k' : Kmem) : Prop where
  same : ∀ {p}, IsPage K p → p ∉ L → SamePage k.mem k'.mem p
  free : ∃ L', Chain k'.mem k'.freelist L' ∧ L'.Nodup ∧ ∀ p, p ∈ L' ↔ p ∈ L

theorem Restored.of_frame (h : PInv K k g) (hL : ∀ p, g.own p = some .free ↔ p ∈ L) (h' : PInv K k' g')
    (hF : Frame (fun _ => False) (fun _ => False) (g.freeze t (fun _ => False) k.mem) g') : Restored K L k k' := by
  obtain ⟨L', hchain, hnodup, hL'⟩ := h'.free
  have hsome : ∀ {p}, IsPage K p → ∃ o, g.own p = some o := fun hp => Option.ne_none_iff_exists'.mp ((h.page _).mpr hp)
  refine ⟨fun {p} hp hn => ?_, L', hchain, hnodup, fun p => ?_⟩
  · obtain ⟨o, ho⟩ := hsome hp
    refine samePage_of_frame h' hF ho ?_ fun _ _ _ _ => id
    rintro rfl
    exact hn ((hL p).mp ho)
  · rw [← hL' p, ← hL p]
    constructor
    · intro hfree
      obtain ⟨o, ho⟩ := hsome (h'.isPage hfree)
      by_cases hf : o = .free
      · rw [ho, hf]
      · cases hfree.symm.trans ((hF.held id).mpr (freeze_own_held ho hf fun _ _ _ _ => id))
    · intro hfree
      cases ho : g'.own p with
      | none => exact absurd ho ((h'.page p).mpr (h.isPage hfree))
      | some o =>
        cases o with
        | free => rfl
        | node r l x => cases (freeze_own_free.mpr hfree).symm.trans ((hF.node id).mp ho)
        | held t => cases (freeze_own_free.mpr hfree).symm.trans ((hF.held id).mp ho)

theorem wpe_exec_none {path : List UInt8} {ip : Option (List UInt8)} {R : Kmem → Kmem → Prop} (hrefl : ip = none → R s.kmem s.kmem)
    (hbuild : ∀ data, ip = some data →
      wp (buildImage K (s.proc i).trapframe data argv) (fun o k => o = none → R s.kmem k) s.kmem) :
    wpe (exec K i path ip argv) (fun ret s' => ret = none → ∃ k, s' = { s with kmem := k } ∧ R s.kmem k) (fun _ => True) s := by
  cases ip with
  | none => exact fun _ => ⟨s.kmem, rfl, hrefl rfl⟩
  | some data =>
    rw [exec]
    refine wpe_bind (wp.wpe (wp_get.mpr (wpe_bind (wp.wpe (wp_vm.mpr ((hbuild data rfl).mono fun o k hR => ?_))))))
    cases o with
    | none => exact fun _ => ⟨k, rfl, hR rfl⟩
    | some im =>
      iterate 5 refine wpe_bind (wpe_any fun _ _ => ?_)
      exact fun h => absurd h (Option.some_ne_none _)

/-- `exec` does not panic, whatever the file is. If it fails, the process has its page table, its size, its name and its
descriptors as before, the pages in use (its page table, its memory and its trapframe among them) have the bytes they
had, and the free pages are the same. -/
theorem exec_survives {K : Layout} {s : Kern} {i : Fin NPROC} {g : Ghost Tag} {L : List Nat} (hk : PInv K s.kmem g)
    (hm : HasMem K g i (s.proc i)) (hu : ∀ r v, ¬ g.usr r v) (hL : Chain s.kmem.mem s.kmem.freelist L)
    (path : List UInt8) (ip : Option (List UInt8)) (argv : List Nat) :
    wp (exec K i path ip argv) (fun ret s' => ret = none → ∃ k, s' = { s with kmem := k } ∧ Restored K L s.kmem k) s := by
  obtain ⟨L', hchain, hnodup, hfree⟩ := hk.free
  obtain rfl := hL.unique hchain
  have hsafe : wp (exec K i path ip argv) (fun _ _ => True) s :=
    wp_exec hk hm hu (fun _ _ _ _ _ => trivial) fun _ _ _ _ _ _ _ _ _ _ _ => trivial
  obtain ⟨ret, s', hrun, -⟩ := hsafe
  refine ⟨ret, s', hrun, (wpe_exec_none (R := Restored K L) (fun _ => ?_) fun data _ => ?_).of_eq hrun⟩
  · exact ⟨fun _ _ _ _ _ => rfl, L, hchain, hnodup, fun _ => Iff.rfl⟩
  · exact wp_buildImage (hk.freeze .tmp fun _ => False) (hk.lt hm.tf) .tmp hu
      (fun _ _ h' hF _ _ => .of_frame hk hfree h' hF) fun _ _ _ _ _ _ _ _ h => absurd h (Option.some_ne_none _)

/-- A machine with memory for two processes. -/
def execLayout : Layout where
  kend := PHYSTOP - 15 * PGSIZE
  trampoline := KERNBASE
  trampoline_aligned := smallLayout.trampoline_aligned
  base_le := smallLayout.base_le
  trampoline_lt := by decide
  kend_le := Nat.sub_le ..

/-- A file of 120 bytes with one segment of one byte, at offset `off`. -/
def oneSegment (off : Nat) : List UInt8 :=
  bytesOf 4 ELF_MAGIC ++ List.replicate 28 0 ++ bytesOf 8 elfhdrSize ++ List.replicate 16 0 ++ bytesOf 2 1 ++
    List.replicate 6 0 ++ bytesOf 4 ELF_PROG_LOAD ++ bytesOf 4 5 ++ bytesOf 8 off ++ bytesOf 8 0 ++
    List.replicate 8 0 ++ bytesOf 8 1 ++ bytesOf 8 1 ++ List.replicate 8 0

/-- `exec` of this file fails when there is already a page for a segment. -/
def FailsLate (K : Layout) (data : List UInt8) (trapframe : Nat) (k : Kmem) : Prop :=
  wpe (procPagetable K trapframe) (fun r => wpe (loadSegments K r data (field (readi data 0 elfhdrSize) 56 2)
    (field (readi data 0 elfhdrSize) 32 8 % 2 ^ 32) 0) (fun x _ => x.1 = false ∧ 0 < x.2) fun _ => False) (fun _ => False) k

instance {t : Nat} : Decidable (FailsLate K data t k) := by
  unfold FailsLate
  infer_instance

theorem FailsLate.exec (h : FailsLate K data (s.proc i).trapframe s.kmem) (path : List UInt8) :
    wpe (exec K i path (some data) argv) (fun ret _ => ret = none) (fun _ => True) s := by
  rw [Kern.exec]
  refine wpe_bind (wp.wpe (wp_get.mpr (wpe_bind (wpe_zoom ?_))))
  rw [buildImage]
  dsimp only
  split
  · exact rfl
  split
  · exact rfl
  refine wpe_bind (wpe.mono h (fun r k hr => ?_) fun _ _ => trivial)
  split
  · exact rfl
  refine wpe_bind (hr.mono ?_ fun _ _ => trivial)
  rintro ⟨_, sz⟩ k' ⟨rfl, -⟩
  exact wpe_bind (wpe_any fun _ _ => rfl)

/-- After boot, the first process runs a file whose segment is past its end, `/x`. -/
theorem exec_survives_late : ∃ s L, Reachable execLayout s ∧ (s.proc firstProc).state = .runnable ∧
    FailsLate execLayout (oneSegment 120) (s.proc firstProc).trapframe s.kmem ∧
    wp (exec execLayout firstProc [0x2f, 0x78] (some (oneSegment 120)) []) (fun ret s' => ret = none ∧
      ∃ k, s' = { s with kmem := k } ∧ Restored execLayout L s.kmem k) s := by
  obtain ⟨s, h, hs⟩ := exists_booted (K := execLayout)
    (f := fun s => decide ((s.proc firstProc).state = .runnable ∧
      FailsLate execLayout (oneSegment 120) (s.proc firstProc).trapframe s.kmem)) (by decide +kernel)
  obtain ⟨hrun, hlate⟩ := of_decide_eq_true hs
  obtain ⟨g, hg⟩ := (Inv.reach h).sys
  obtain ⟨L, hL, -⟩ := hg.pages.free
  obtain ⟨ret, s', hex, hsame⟩ := exec_survives hg.pages (hg.mem (Inv.used hrun)) hg.usr hL [0x2f, 0x78]
    (some (oneSegment 120)) []
  generalize oneSegment 120 = data at hlate hex ⊢
  have hret := (hlate.exec [0x2f, 0x78]).of_eq hex
  exact ⟨s, L, h, hrun, hlate, ret, s', hex, hret, hsame hret⟩

end Xv6
