import Xv6.Lib.Count
import Xv6.Interprocess
import Xv6.Proofs.Pipes

/-!
# The children print one at a time

The byte is in the pipe or with one child (`Inv.token`). The parent has both ends open until every child has been waited
for, so `read` does not return without the byte and `write` does not fail; a pipe with at most one byte is not full. So a
child that sleeps waits for the child that has the byte, and that one goes on.
-/

namespace Xv6

namespace Interprocess

open Function

variable {n : Nat} {rounds : Fin n → Nat} {msg : Fin n → List UInt8} {s s' : State n} {c : Fin n} {ev : Event n}
  {q q' : List UInt8} {t : Pipes (Option (Fin n)) Unit} {k : ChildPc}

/-- The messages of the children `done`, one after the other. -/
def said (msg : Fin n → List UInt8) (done : List (Fin n)) : List (Fin n × UInt8) :=
  done.flatMap fun c => (msg c).map (Prod.mk c)

def ChildPc.has : ChildPc → PipeEnd → Bool
  | .unborn, _ => false
  | .exitWrite, e => e = .write
  | .zombie, _ => false
  | .reaped, _ => false
  | _, _ => true

def ParentPc.has : ParentPc → PipeEnd → Bool
  | .exitWrite, e => e = .write
  | .zombie, _ => false
  | _, _ => true

def Phase (child : Fin n → ChildPc) : ParentPc → Prop
  | .write => ∀ c, child c = .unborn
  | .fork i => ∀ c, (child c = .unborn ↔ i ≤ c.val) ∧ child c ≠ .reaped
  | .wait i => (∀ c, child c ≠ .unborn) ∧ (Finset.univ.filter fun c => decide (child c = .reaped)).card = i
  | _ => ∀ c, child c = .reaped

/-- What has been printed: whole messages, and a part of the message of the child that prints. -/
def Printed (msg : Fin n → List UInt8) (s : State n) : Prop :=
  ∃ done, ((∀ c j k, s.child c ≠ .print j k) ∧ s.out = said msg done) ∨
    ∃ c j k, s.child c = .print j k ∧ k ≤ (msg c).length ∧ s.out = said msg done ++ ((msg c).take k).map (Prod.mk c)

structure Inv (msg : Fin n → List UInt8) (s : State n) (q : List UInt8) : Prop where
  ok : s.pipes.Ok fun _ => q
  ofileParent (e : PipeEnd) : s.pipes.ofile parentProc () e = s.parent.has e
  ofileChild (c : Fin n) (e : PipeEnd) : s.pipes.ofile (some c) () e = (s.child c).has e
  sleepParent (x : Unit × PipeEnd) (h : s.pipes.chan parentProc = some x) : s.parent = .write ∧ x.2 = .write
  sleepChild (c : Fin n) (x : Unit × PipeEnd) (h : s.pipes.chan (some c) = some x) :
    (∃ j, s.child c = .read j) ∧ x.2 = .read ∨ (∃ j, s.child c = .write j) ∧ x.2 = .write
  phase : Phase s.child s.parent
  start (h : s.parent = .write) : q = []
  token (h : s.parent ≠ .write) : q.length + s.holders.card = 1
  printed : Printed msg s

/-! ### The children that hold the byte -/

theorem mem_holders : c ∈ s.holders ↔ (s.child c).Holds = true := by simp [State.holders]

theorem card_holders_update (child : Fin n → ChildPc) (c : Fin n) (k : ChildPc) :
    (Finset.univ.filter fun x => (update child c k x).Holds).card + (child c).Holds.toNat =
      (Finset.univ.filter fun x => (child x).Holds).card + k.Holds.toNat :=
  Family.card_update ChildPc.Holds child c k

namespace Inv

variable (h : Inv msg s q)
include h

theorem holders_le : s.holders.card ≤ 1 := by
  by_cases hp : s.parent = .write
  · have hphase := h.phase
    rw [hp] at hphase
    have hnone : s.holders = ∅ := by
      refine Finset.filter_eq_empty_iff.mpr fun c _ => ?_
      rw [hphase c]
      decide
    rw [hnone, Finset.card_empty]
    exact Nat.zero_le 1
  · have := h.token hp
    omega

theorem eq_of_holds {c' : Fin n} (hc : (s.child c).Holds = true) (hc' : (s.child c').Holds = true) : c = c' :=
  Finset.card_le_one.mp h.holders_le c (mem_holders.mpr hc) c' (mem_holders.mpr hc')

theorem length_le : q.length ≤ 1 := by
  by_cases hp : s.parent = .write
  · rw [h.start hp]
    decide
  · have := h.token hp
    omega

theorem not_full : q.length ≠ PIPESIZE := by
  have := h.length_le
  have hsize : PIPESIZE = 512 := rfl
  omega

theorem parent_has (hc : s.child c ≠ .reaped) (e : PipeEnd) : s.parent.has e = true := by
  have hphase := h.phase
  cases hp : s.parent with
  | write => rfl
  | fork i => rfl
  | wait i => rfl
  | _ =>
    rw [hp] at hphase
    exact absurd (hphase c) hc

theorem isOpen (hc : s.child c ≠ .reaped) (e : PipeEnd) : s.pipes.Open () e :=
  ⟨parentProc, (h.ofileParent e).trans (h.parent_has hc e)⟩

/-- The byte is in the pipe, or somebody has it: never is it lost. -/
theorem empty_of_holds (hc : (s.child c).Holds = true) : q = [] := by
  have hp : s.parent ≠ .write := by
    intro hp
    have hphase := h.phase
    rw [hp] at hphase
    rw [hphase c] at hc
    cases hc
  have htok := h.token hp
  have hpos : 0 < s.holders.card := Finset.card_pos.mpr ⟨c, mem_holders.mpr hc⟩
  exact List.length_eq_zero_iff.mp (by omega)

end Inv

/-! ### Steps of a child -/

def ChildPc.Runs (k : ChildPc) : Prop := k ≠ .unborn ∧ k ≠ .reaped

theorem Phase.update {child : Fin n → ChildPc} {pp : ParentPc} (h : Phase child pp)
    (h0 : (child c).Runs) (hk : k.Runs) : Phase (update child c k) pp := by
  cases pp with
  | write => exact absurd (h c) h0.1
  | fork i =>
    intro c'
    rcases eq_or_ne c' c with rfl | hne
    · rw [update_self]
      have := (h c').1
      exact ⟨by simp only [hk.1, ← this, h0.1], hk.2⟩
    · rw [update_of_ne hne]
      exact h c'
  | wait i =>
    refine ⟨?_, ?_⟩
    · intro c'
      rcases eq_or_ne c' c with rfl | hne
      · rw [update_self]
        exact hk.1
      · rw [update_of_ne hne]
        exact h.1 c'
    · have hcard := Family.card_update (fun x => decide (x = ChildPc.reaped)) child c k
      rw [decide_eq_false h0.2, decide_eq_false hk.2] at hcard
      exact (Nat.add_right_cancel hcard).trans h.2
  | _ => exact absurd (h c) h0.2

theorem ne_print_update {child : Fin n → ChildPc} (hk : ∀ j i, k ≠ .print j i)
    (h : ∀ c' j i, c' ≠ c → child c' ≠ .print j i) (c' : Fin n) (j i : Nat) :
    update child c k c' ≠ .print j i := by
  rcases eq_or_ne c' c with rfl | hne
  · rw [update_self]
    exact hk j i
  · rw [update_of_ne hne]
    exact h c' j i hne

theorem Inv.change (h : Inv msg s q) (hpar : s.parent ≠ .write) (hpar' : s'.parent ≠ .write)
    (hchild : s'.child = update s.child c k) (hok : s'.pipes.Ok fun _ => q')
    (hof : ∀ e, s'.pipes.ofile parentProc () e = s'.parent.has e)
    (hof' : ∀ c' e, s'.pipes.ofile (some c') () e = if c' = c then k.has e else s.pipes.ofile (some c') () e)
    (hchan : ∀ p x, s'.pipes.chan p = some x → s.pipes.chan p = some x) (hc : s'.pipes.chan (some c) = none)
    (hphase : Phase s'.child s'.parent) (htok : q'.length + k.Holds.toNat = q.length + (s.child c).Holds.toNat)
    (hout : Printed msg s') : Inv msg s' q' := by
  refine ⟨hok, hof, ?_, ?_, ?_, hphase, fun hp => absurd hp hpar', ?_, hout⟩
  · intro c' e
    rw [hof', hchild]
    rcases eq_or_ne c' c with rfl | hcc
    · rw [if_pos rfl, update_self]
    · rw [if_neg hcc, h.ofileChild, update_of_ne hcc]
  · intro x hx
    exact absurd (h.sleepParent x (hchan _ _ hx)).1 hpar
  · intro c' x hx
    rcases eq_or_ne c' c with rfl | hcc
    · rw [hc] at hx
      cases hx
    · rw [hchild, update_of_ne hcc]
      exact h.sleepChild c' x (hchan _ _ hx)
  · intro _
    have htok0 := h.token hpar
    have hcard := card_holders_update s.child c k
    rw [State.holders] at htok0 ⊢
    rw [hchild]
    omega

theorem Inv.move (h : Inv msg s q) (h0 : (s.child c).Runs) (hk : k.Runs)
    (hpar : s'.parent = s.parent) (hchild : s'.child = update s.child c k) (hok : s'.pipes.Ok fun _ => q')
    (hof : ∀ p e, s'.pipes.ofile p () e = if p = some c then k.has e else s.pipes.ofile p () e)
    (hchan : ∀ p x, s'.pipes.chan p = some x → s.pipes.chan p = some x) (hc : s.pipes.chan (some c) = none)
    (htok : q'.length + k.Holds.toNat = q.length + (s.child c).Holds.toNat) (hout : Printed msg s') : Inv msg s' q' := by
  have hne : s.parent ≠ .write := by
    intro hp
    have hphase := h.phase
    rw [hp] at hphase
    exact h0.1 (hphase c)
  refine h.change hne (hpar ▸ hne) hchild hok ?_ ?_ hchan ?_ ?_ htok hout
  · intro e
    rw [hof, if_neg (by simp), h.ofileParent, hpar]
  · intro c' e
    simp only [hof, Option.some.injEq]
  · rw [Option.eq_none_iff_forall_ne_some]
    intro x hx
    have := hchan _ _ hx
    rw [hc] at this
    cases this
  · rw [hpar, hchild]
    exact h.phase.update h0 hk

theorem Printed.update (h : Printed msg s) (hout : s'.out = s.out)
    (hchild : s'.child = update s.child c k) (h0 : ∀ j i, s.child c ≠ .print j i) (hk : ∀ j i, k ≠ .print j i) :
    Printed msg s' := by
  obtain ⟨done, ⟨hnone, heq⟩ | ⟨c', j, i, hc', hi, heq⟩⟩ := h
  · refine ⟨done, .inl ⟨?_, hout.trans heq⟩⟩
    rw [hchild]
    exact ne_print_update hk fun c' j i _ => hnone c' j i
  · refine ⟨done, .inr ⟨c', j, i, ?_, hi, hout.trans heq⟩⟩
    have hne : c' ≠ c := by
      rintro rfl
      exact h0 j i hc'
    rw [hchild, update_of_ne hne]
    exact hc'

namespace Inv

section

variable (h : Inv msg s q)
include h

theorem awake (hr : ∀ j, s.child c ≠ .read j) (hw : ∀ j, s.child c ≠ .write j) : s.pipes.chan (some c) = none := by
  rw [Option.eq_none_iff_forall_ne_some]
  intro x hx
  rcases h.sleepChild c x hx with ⟨⟨j, hj⟩, -⟩ | ⟨⟨j, hj⟩, -⟩
  · exact hr j hj
  · exact hw j hj

theorem move_call {k₀ k : ChildPc} (pc : s.child c = k₀) (hrun : k₀.Runs) (hk : k.Runs)
    (hhas : k.has = k₀.has) (hawake : s.pipes.chan (some c) = none) (hpar : s'.parent = s.parent)
    (hchild : s'.child = update s.child c k) (hw : s.pipes.Wakes s'.pipes) (hok : s'.pipes.Ok fun _ => q')
    (htok : q'.length + k.Holds.toNat = q.length + k₀.Holds.toNat) (hout : Printed msg s') : Inv msg s' q' := by
  subst pc
  refine h.move hrun hk hpar hchild hok ?_ hw.chan hawake htok hout
  intro p e
  rw [hw.ofile]
  split
  · rename_i hp
    rw [hp, h.ofileChild, hhas]
  · rfl

theorem move_pc {k₀ k : ChildPc} (pc : s.child c = k₀) (hrun : k₀.Runs) (hk : k.Runs)
    (hhas : k.has = k₀.has) (hholds : k.Holds = k₀.Holds) (hawake : s.pipes.chan (some c) = none)
    (hpar : s'.parent = s.parent) (hchild : s'.child = update s.child c k) (hpipes : s'.pipes = s.pipes)
    (hout : Printed msg s') : Inv msg s' q :=
  h.move_call pc hrun hk hhas hawake hpar hchild (hpipes ▸ ⟨rfl, fun _ _ h => h⟩) (hpipes ▸ h.ok) (by rw [hholds]) hout

theorem move_close {k₀ k : ChildPc} {e : PipeEnd} (pc : s.child c = k₀) (hrun : k₀.Runs) (hk : k.Runs)
    (hhas : ∀ e', k.has e' = if e' = e then false else k₀.has e') (hholds : k.Holds = k₀.Holds)
    (hawake : s.pipes.chan (some c) = none) (hpar : s'.parent = s.parent)
    (hchild : s'.child = update s.child c k) (hpipes : s'.pipes = s.pipes.fileclose (some c) () e)
    (hout : Printed msg s') : Inv msg s' q := by
  subst pc
  refine h.move hrun hk hpar hchild (hpipes ▸ h.ok.fileclose) ?_ ?_ hawake (by rw [hholds]) hout
  · intro p e'
    rw [hpipes, Pipes.Ok.ofile_fileclose]
    by_cases hp : p = some c
    · rw [if_pos hp, hhas, hp, h.ofileChild]
      simp
    · simp [hp]
  · intro p x hx
    rw [hpipes] at hx
    exact Pipes.Ok.chan_fileclose hx

theorem read_ret {j : Nat} {r : Option UInt8} (pc : s.child c = .read j)
    (call : s.pipes.piperead (some c) () = (.ret r, t)) :
    s.pipes.Wakes t ∧ ∃ ch bs, r = some ch ∧ q = ch :: bs ∧ t.Ok fun _ => bs := by
  obtain ⟨hw, ⟨-, -, hclosed, -⟩ | ⟨ch, bs, hr, hq, hok⟩⟩ := h.ok.piperead_ret call
  · exact absurd (h.isOpen (c := c) (by rw [pc]; simp) .write) hclosed
  · refine ⟨hw, ch, bs, hr, hq, ?_⟩
    rwa [show update (fun _ : Unit => q) () bs = fun _ => bs from funext fun _ => update_self ..] at hok

theorem write_ret {j : Nat} {r : Int} {ch : UInt8} (pc : s.child c = .write j)
    (call : s.pipes.pipewrite (some c) () ch = (.ret r, t)) : s.pipes.Wakes t ∧ r = 1 ∧ t.Ok fun _ => q ++ [ch] := by
  obtain ⟨hw, ⟨-, hclosed, -⟩ | ⟨hr, hok⟩⟩ := h.ok.pipewrite_ret call
  · exact absurd (h.isOpen (c := c) (by rw [pc]; simp) .read) hclosed
  · refine ⟨hw, hr, ?_⟩
    rwa [show update (fun _ : Unit => q) () (q ++ [ch]) = fun _ => q ++ [ch] from
      funext fun _ => update_self ..] at hok

theorem printed_read {j : Nat} (hq : q ≠ []) (hout : s'.out = s.out)
    (hchild : s'.child = update s.child c (.print j 0)) : Printed msg s' := by
  obtain ⟨done, ⟨-, heq⟩ | ⟨c', j', i, hc', -⟩⟩ := h.printed
  · refine ⟨done, .inr ⟨c, j, 0, ?_, Nat.zero_le _, ?_⟩⟩
    · rw [hchild, update_self]
    · simpa [hout] using heq
  · exact absurd (h.empty_of_holds (c := c') (by rw [hc']; rfl)) hq

theorem printed_at {j k : Nat} (pc : s.child c = .print j k) :
    k ≤ (msg c).length ∧ ∃ done, s.out = said msg done ++ ((msg c).take k).map (Prod.mk c) := by
  obtain ⟨done, ⟨hnone, -⟩ | ⟨c', j', k', hc', hk', heq⟩⟩ := h.printed
  · exact absurd pc (hnone c j k)
  · obtain rfl : c = c' := h.eq_of_holds (by rw [pc]; rfl) (by rw [hc']; rfl)
    rw [pc, ChildPc.print.injEq] at hc'
    obtain ⟨rfl, rfl⟩ := hc'
    exact ⟨hk', done, heq⟩

theorem printed_putc {j k : Nat} {ch : UInt8} (pc : s.child c = .print j k)
    (byte : (msg c)[k]? = some ch) (hout : s'.out = s.out ++ [(c, ch)])
    (hchild : s'.child = update s.child c (.print j (k + 1))) : Printed msg s' := by
  obtain ⟨-, done, heq⟩ := h.printed_at pc
  obtain ⟨hlt, -⟩ := List.getElem?_eq_some_iff.mp byte
  refine ⟨done, .inr ⟨c, j, k + 1, by rw [hchild, update_self], hlt, ?_⟩⟩
  rw [hout, heq, List.take_add_one, byte, List.map_append, List.append_assoc]
  rfl

theorem printed_all {j k : Nat} (pc : s.child c = .print j k) (last : (msg c)[k]? = none)
    (hout : s'.out = s.out) (hchild : s'.child = update s.child c (.write j)) : Printed msg s' := by
  obtain ⟨-, done, heq⟩ := h.printed_at pc
  refine ⟨done ++ [c], .inl ⟨?_, ?_⟩⟩
  · rw [hchild]
    refine ne_print_update (by simp) fun c' j' i hne hc' => hne ?_
    exact h.eq_of_holds (by rw [hc']; rfl) (by rw [pc]; rfl)
  · rw [hout, heq, List.take_of_length_le (List.getElem?_eq_none_iff.mp last)]
    simp [said]

/-! ### Steps of the parent -/

theorem parent (hok : s'.pipes.Ok fun _ => q) (hne : s.parent ≠ .write) (hne' : s'.parent ≠ .write)
    (hpar : ∀ e, s'.pipes.ofile parentProc () e = s'.parent.has e)
    (hof : ∀ c e, s'.pipes.ofile (some c) () e = s.pipes.ofile (some c) () e)
    (hchan : ∀ p x, s'.pipes.chan p = some x → s.pipes.chan p = some x) (hchild : s'.child = s.child) (hout : s'.out = s.out)
    (hphase : Phase s'.child s'.parent) : Inv msg s' q := by
  refine ⟨hok, hpar, ?_, ?_, ?_, hphase, fun hp => absurd hp hne', fun _ => ?_, ?_⟩
  · intro c e
    rw [hof, h.ofileChild, hchild]
  · intro x hx
    exact absurd (h.sleepParent x (hchan _ _ hx)).1 hne
  · intro c x hx
    rw [hchild]
    exact h.sleepChild c x (hchan _ _ hx)
  · rw [State.holders, hchild]
    exact h.token hne
  · rw [Printed, hchild, hout]
    exact h.printed

theorem start_write {r : Int} {t : Pipes (Option (Fin n)) Unit} (pc : s.parent = .write)
    (awake : s.pipes.chan parentProc = none) (call : s.pipes.pipewrite parentProc () Interprocess.token = (.ret r, t)) :
    Inv msg { s with pipes := t, parent := .fork 0 } [Interprocess.token] := by
  have hphase : ∀ c, s.child c = .unborn := by
    have := h.phase
    rwa [pc] at this
  have hq := h.start pc
  subst hq
  obtain ⟨hw, ⟨-, hclosed, -⟩ | ⟨-, hok⟩⟩ := h.ok.pipewrite_ret call
  · refine absurd ⟨parentProc, ?_⟩ hclosed
    rw [h.ofileParent, pc]
    rfl
  refine ⟨?_, ?_, ?_, ?_, ?_, ?_, ?_, ?_, ?_⟩
  · rwa [show update (fun _ : Unit => ([] : List UInt8)) () ([] ++ [Interprocess.token]) =
      fun _ => [Interprocess.token] from funext fun _ => update_self ..] at hok
  · intro e
    change t.ofile parentProc () e = true
    rw [hw.ofile, h.ofileParent, pc]
    rfl
  · intro c e
    change t.ofile (some c) () e = _
    rw [hw.ofile]
    exact h.ofileChild c e
  · intro x hx
    have := hw.chan _ _ hx
    rw [awake] at this
    cases this
  · intro c x hx
    exact h.sleepChild c x (hw.chan _ _ hx)
  · intro c
    change (s.child c = .unborn ↔ 0 ≤ c.val) ∧ s.child c ≠ .reaped
    simp [hphase c]
  · simp
  · intro _
    have hnone : State.holders { s with pipes := t, parent := .fork 0 } = ∅ := by
      refine Finset.filter_eq_empty_iff.mpr fun c _ => ?_
      change ¬ (s.child c).Holds = true
      rw [hphase c]
      decide
    rw [hnone]
    rfl
  · exact h.printed

theorem fork {i : Nat} (lt : i < n) (pc : s.parent = .fork i) : Inv msg { s.setChild ⟨i, lt⟩ (.loop 0) with
      pipes := s.pipes.fork parentProc (some ⟨i, lt⟩), parent := .fork (i + 1) } q := by
  have hphase : ∀ c, (s.child c = .unborn ↔ i ≤ c.val) ∧ s.child c ≠ .reaped := by
    have := h.phase
    rwa [pc] at this
  have hunborn : s.child ⟨i, lt⟩ = .unborn := (hphase ⟨i, lt⟩).1.mpr (Nat.le_refl i)
  have hof : ∀ k e, s.pipes.ofile (some ⟨i, lt⟩) k e = false := by
    intro k e
    rw [h.ofileChild, hunborn]
    rfl
  refine h.change (c := ⟨i, lt⟩) (by rw [pc]; simp) (by simp) rfl (h.ok.fork hof) ?_ ?_ (fun _ _ hx => hx) ?_ ?_ ?_ ?_
  · intro e
    change update s.pipes.ofile (some ⟨i, lt⟩) (s.pipes.ofile parentProc) parentProc () e = true
    rw [update_of_ne (by simp), h.ofileParent, pc]
    rfl
  · intro c e
    change update s.pipes.ofile _ _ (some c) () e = _
    rcases eq_or_ne c ⟨i, lt⟩ with rfl | hne
    · rw [update_self, if_pos rfl, h.ofileParent, pc]
      rfl
    · rw [update_of_ne (by simpa using hne), if_neg hne]
  · exact h.awake (by simp [hunborn]) (by simp [hunborn])
  · intro c
    change (update s.child _ _ c = _ ↔ _) ∧ update s.child _ _ c ≠ _
    rcases eq_or_ne c ⟨i, lt⟩ with rfl | hne
    · rw [update_self]
      simp
    · rw [update_of_ne hne, (hphase c).1]
      refine ⟨?_, (hphase c).2⟩
      have : c.val ≠ i := fun hc => hne (Fin.ext hc)
      omega
  · rw [hunborn]
    rfl
  · exact h.printed.update (c := ⟨i, lt⟩) (k := .loop 0) rfl rfl (by simp [hunborn]) (by simp)

theorem wait {i : Nat} (pc : s.parent = .wait i) (zombie : s.child c = .zombie) :
    Inv msg { s.setChild c .reaped with parent := .wait (i + 1) } q := by
  have hphase : (∀ c, s.child c ≠ .unborn) ∧ (Finset.univ.filter fun c => decide (s.child c = .reaped)).card = i := by
    have := h.phase
    rwa [pc] at this
  refine h.change (c := c) (by rw [pc]; simp) (by simp) rfl h.ok ?_ ?_ (fun _ _ hx => hx) ?_ ⟨?_, ?_⟩ ?_ ?_
  · intro e
    exact (h.ofileParent e).trans (by rw [pc]; rfl)
  · intro c' e
    change s.pipes.ofile (some c') () e = _
    split
    · rename_i hc
      rw [hc, h.ofileChild, zombie]
      rfl
    · rfl
  · exact h.awake (by simp [zombie]) (by simp [zombie])
  · intro c'
    change update s.child c .reaped c' ≠ _
    rcases eq_or_ne c' c with rfl | hne
    · rw [update_self]
      simp
    · rw [update_of_ne hne]
      exact hphase.1 c'
  · have hcard := Family.card_update (fun x => decide (x = ChildPc.reaped)) s.child c .reaped
    rw [zombie, hphase.2] at hcard
    exact hcard
  · rw [zombie]
    rfl
  · exact h.printed.update (c := c) (k := .reaped) rfl rfl (by simp [zombie]) (by simp)

theorem all_reaped {i : Nat} (ge : n ≤ i) (pc : s.parent = .wait i) (c : Fin n) : s.child c = .reaped := by
  have hphase := h.phase
  rw [pc] at hphase
  exact of_decide_eq_true (Family.all_of_card (p := fun k => decide (k = ChildPc.reaped)) ge hphase.2 c)

theorem parent_close {pp : ParentPc} {e : PipeEnd} (hne : s.parent ≠ .write) (hne' : pp ≠ .write)
    (hhas : ∀ e', pp.has e' = if e' = e then false else s.parent.has e') (hphase : Phase s.child pp) :
    Inv msg { s with pipes := s.pipes.fileclose parentProc () e, parent := pp } q := by
  refine h.parent h.ok.fileclose hne hne' ?_ ?_ (fun p x => Pipes.Ok.chan_fileclose) rfl rfl hphase
  · intro e'
    change (s.pipes.fileclose parentProc () e).ofile parentProc () e' = pp.has e'
    rw [Pipes.Ok.ofile_fileclose, hhas, h.ofileParent]
    simp
  · intro c e'
    change (s.pipes.fileclose parentProc () e).ofile (some c) () e' = _
    rw [Pipes.Ok.ofile_fileclose, if_neg (by simp)]

end

theorem init (h : Init s) : Inv msg s [] := by
  have hok : s.pipes.Ok fun _ => [] := by
    refine .alloc (fun _ => h.pipe) (fun k e => ⟨parentProc, ?_⟩) h.chan
    rw [h.ofile]
    rfl
  refine ⟨hok, ?_, ?_, ?_, ?_, ?_, fun _ => rfl, fun hne => absurd h.parent hne, [], .inl ⟨?_, h.out⟩⟩
  · intro e
    rw [h.ofile, h.parent]
    rfl
  · intro c e
    rw [h.ofile, h.child]
    rfl
  · intro x hx
    rw [h.chan] at hx
    cases hx
  · intro c x hx
    rw [h.chan] at hx
    cases hx
  · rw [h.parent]
    exact h.child
  · intro c j k
    rw [h.child]
    simp

theorem step (h : Inv msg s q) (hst : Step rounds msg s ev s') : ∃ q', Inv msg s' q' := by
  cases hst with
  | parentWrite pc awake call => exact ⟨_, h.start_write pc awake call⟩
  | parentWriteSleep pc awake call | writeSleep pc awake call => exact absurd (h.ok.pipewrite_sleep call) h.not_full
  | fork lt pc => exact ⟨q, h.fork lt pc⟩
  | forked ge pc =>
    have hphase := h.phase
    rw [pc] at hphase
    refine ⟨q, h.parent h.ok (by rw [pc]; simp) (by simp) ?_ (fun _ _ => rfl) (fun _ _ hx => hx) rfl rfl ⟨?_, ?_⟩⟩
    · intro e
      rw [h.ofileParent, pc]
      rfl
    · intro c hc
      have := (hphase c).1.mp hc
      omega
    · refine Finset.card_eq_zero.mpr (Finset.filter_eq_empty_iff.mpr fun c _ => ?_)
      simpa using (hphase c).2
  | wait lt pc zombie => exact ⟨q, h.wait pc zombie⟩
  | waited ge pc =>
    refine ⟨q, h.parent h.ok (by rw [pc]; simp) (by simp) ?_ (fun _ _ => rfl) (fun _ _ hx => hx) rfl rfl (h.all_reaped ge pc)⟩
    intro e
    rw [h.ofileParent, pc]
    rfl
  | parentExitRead pc | parentExitWrite pc =>
    have hphase := h.phase
    refine ⟨q, h.parent_close (by rw [pc]; simp) (by simp) ?_ ?_⟩
    · intro e
      rw [pc]
      cases e <;> rfl
    · rw [pc] at hphase
      exact hphase
  | round pc hj | lastRound pc hj =>
    refine ⟨q, h.move_pc pc (by simp [ChildPc.Runs]) (by simp [ChildPc.Runs]) (by rfl) (by rfl) ?_ rfl rfl rfl ?_⟩
    · exact h.awake (by simp [pc]) (by simp [pc])
    · exact h.printed.update rfl rfl (by simp [pc]) (by simp)
  | read pc awake call =>
    obtain ⟨hw, ch, bs, -, rfl, hok⟩ := h.read_ret pc call
    refine ⟨bs, h.move_call (k := .print _ 0) pc (by simp [ChildPc.Runs]) (by simp [ChildPc.Runs]) rfl awake rfl rfl hw hok ?_ ?_⟩
    · simp [ChildPc.Holds]
    · exact h.printed_read (by simp) rfl rfl
  | @readSleep c j t pc awake call =>
    obtain ⟨rfl, hq, hok⟩ := h.ok.piperead_sleep call
    refine ⟨q, hok, h.ofileParent, h.ofileChild, ?_, ?_, h.phase, h.start, h.token, h.printed⟩
    · intro x hx
      refine h.sleepParent x ?_
      have hx : update s.pipes.chan (some c) (some ((), .read)) parentProc = some x := hx
      rwa [update_of_ne (by simp)] at hx
    · intro c' x hx
      have hx : update s.pipes.chan (some c) (some ((), .read)) (some c') = some x := hx
      rcases eq_or_ne c' c with rfl | hne
      · rw [update_self, Option.some.injEq] at hx
        exact .inl ⟨⟨j, pc⟩, by rw [← hx]⟩
      · rw [update_of_ne (by simpa using hne)] at hx
        exact h.sleepChild c' x hx
  | @putc c j k ch pc byte =>
    refine ⟨q, h.move_pc (k := .print j (k + 1)) pc (by simp [ChildPc.Runs]) (by simp [ChildPc.Runs]) rfl rfl ?_ rfl rfl rfl ?_⟩
    · exact h.awake (by simp [pc]) (by simp [pc])
    · exact h.printed_putc pc byte rfl rfl
  | printed pc last =>
    refine ⟨q, h.move_pc (k := .write _) pc (by simp [ChildPc.Runs]) (by simp [ChildPc.Runs]) rfl rfl ?_ rfl rfl rfl ?_⟩
    · exact h.awake (by simp [pc]) (by simp [pc])
    · exact h.printed_all pc last rfl rfl
  | write pc awake call =>
    obtain ⟨hw, -, hok⟩ := h.write_ret pc call
    refine ⟨_, h.move_call (k := .loop _) pc (by simp [ChildPc.Runs]) (by simp [ChildPc.Runs]) rfl awake rfl rfl hw hok ?_ ?_⟩
    · simp [ChildPc.Holds]
    · exact h.printed.update rfl rfl (by simp [pc]) (by simp)
  | exitRead pc | exitWrite pc =>
    refine ⟨q, h.move_close pc (by simp [ChildPc.Runs]) (by simp [ChildPc.Runs]) ?_ (by rfl) ?_ rfl rfl rfl ?_⟩
    · intro e
      cases e <;> rfl
    · exact h.awake (by simp [pc]) (by simp [pc])
    · exact h.printed.update rfl rfl (by simp [pc]) (by simp)

theorem reach (h : Reachable rounds msg s) : ∃ q, Inv msg s q :=
  Trans.Reach.inv (P := fun s => ∃ q, Inv msg s q) (fun _ h0 => ⟨[], init h0⟩)
    (fun _ _ hi hst => by
      obtain ⟨q, hq⟩ := hi
      obtain ⟨e, hst⟩ := hst
      exact hq.step hst) h

/-! ### Somebody can go on -/

theorem child_steps (hrun : (s.child c).Runs) (hz : s.child c ≠ .zombie)
    (hgo : s.pipes.chan (some c) = none) : ∃ e s', Step rounds msg s e s' := by
  cases hpc : s.child c with
  | unborn => exact absurd hpc hrun.1
  | loop j =>
    rcases lt_or_ge j (rounds c) with hlt | hge
    · exact ⟨_, _, .round hpc hlt⟩
    · exact ⟨_, _, .lastRound hpc hge⟩
  | read j =>
    rcases Pipes.Ok.exists_piperead s.pipes (some c) () with ⟨t, ht⟩ | ⟨r, t, ht⟩
    · exact ⟨_, _, .readSleep hpc hgo ht⟩
    · exact ⟨_, _, .read hpc hgo ht⟩
  | print j k =>
    cases hb : (msg c)[k]? with
    | none => exact ⟨_, _, .printed hpc hb⟩
    | some ch => exact ⟨_, _, .putc hpc hb⟩
  | write j =>
    rcases Pipes.Ok.exists_pipewrite s.pipes (some c) () (s.buf c) with ⟨t, ht⟩ | ⟨r, t, ht⟩
    · exact ⟨_, _, .writeSleep hpc hgo ht⟩
    · exact ⟨_, _, .write hpc hgo ht⟩
  | exitRead => exact ⟨_, _, .exitRead hpc⟩
  | exitWrite => exact ⟨_, _, .exitWrite hpc⟩
  | zombie => exact absurd hpc hz
  | reaped => exact absurd hpc hrun.2

theorem empty_of_asleep (h : Inv msg s q) {x : Unit × PipeEnd} (hx : s.pipes.chan (some c) = some x) :
    q = [] ∧ ∃ j, s.child c = .read j := by
  obtain ⟨hw, -⟩ := h.ok.asleep _ x.1 x.2 hx
  rcases h.sleepChild c x hx with ⟨hj, he⟩ | ⟨-, he⟩
  · rw [he] at hw
    exact ⟨hw, hj⟩
  · rw [he] at hw
    exact absurd hw h.not_full

theorem some_child_steps (h : Inv msg s q) (hne : s.parent ≠ .write) (hrun : (s.child c).Runs)
    (hz : ∀ c, s.child c ≠ .zombie) : ∃ e s', Step rounds msg s e s' := by
  by_cases hhold : ∃ c', (s.child c').Holds = true
  · obtain ⟨c', hc'⟩ := hhold
    refine child_steps (c := c') ?_ (hz c') ?_
    · constructor <;> intro hpc <;> rw [hpc] at hc' <;> cases hc'
    · rw [Option.eq_none_iff_forall_ne_some]
      intro x hx
      obtain ⟨-, j, hj⟩ := h.empty_of_asleep hx
      rw [hj] at hc'
      cases hc'
  · have hempty : s.holders = ∅ :=
      Finset.filter_eq_empty_iff.mpr fun c' _ hc' => hhold ⟨c', hc'⟩
    have htok := h.token hne
    rw [hempty, Finset.card_empty] at htok
    refine child_steps hrun (hz c) ?_
    rw [Option.eq_none_iff_forall_ne_some]
    intro x hx
    rw [(h.empty_of_asleep hx).1] at htok
    cases htok

theorem progress (h : Inv msg s q) (hne : s.parent ≠ .zombie) : ∃ e s', Step rounds msg s e s' := by
  cases hp : s.parent with
  | write =>
    have hawake : s.pipes.chan parentProc = none := by
      rw [Option.eq_none_iff_forall_ne_some]
      intro x hx
      obtain ⟨hw, -⟩ := h.ok.asleep _ x.1 x.2 hx
      rw [(h.sleepParent x hx).2] at hw
      exact h.not_full hw
    rcases Pipes.Ok.exists_pipewrite s.pipes parentProc () Interprocess.token with ⟨t, ht⟩ | ⟨r, t, ht⟩
    · exact ⟨_, _, .parentWriteSleep hp hawake ht⟩
    · exact ⟨_, _, .parentWrite hp hawake ht⟩
  | fork i =>
    rcases lt_or_ge i n with hlt | hge
    · exact ⟨_, _, .fork hlt hp⟩
    · exact ⟨_, _, .forked hge hp⟩
  | wait i =>
    rcases lt_or_ge i n with hlt | hge
    · by_cases hz : ∃ c, s.child c = .zombie
      · obtain ⟨c, hc⟩ := hz
        exact ⟨_, _, .wait hlt hp hc⟩
      · have hphase := h.phase
        rw [hp] at hphase
        have hrun : ∃ c, s.child c ≠ .reaped := by
          by_contra hall
          rw [← hphase.2, Finset.filter_true_of_mem fun c _ => decide_eq_true (not_not.mp fun hc => hall ⟨c, hc⟩),
            Finset.card_univ, Fintype.card_fin] at hlt
          exact lt_irrefl n hlt
        obtain ⟨c, hc⟩ := hrun
        exact h.some_child_steps (c := c) (by rw [hp]; simp) ⟨hphase.1 c, hc⟩ fun c' hc' => hz ⟨c', hc'⟩
    · exact ⟨_, _, .waited hge hp⟩
  | exitRead => exact ⟨_, _, .parentExitRead hp⟩
  | exitWrite => exact ⟨_, _, .parentExitWrite hp⟩
  | zombie => exact absurd hp hne

end Inv

/-- In every run: once the parent has written it, the byte is in the pipe or between the return of a child's `read` and the
end of its `write`, so at most one child is there; `read` of a child returns 1, and so does `write`; the messages are
printed one after the other; and until the parent has exited, which it does after all children, some process can go on. -/
theorem token_exclusion (rounds : Fin n → Nat) (msg : Fin n → List UInt8) (s : State n) (h : Reachable rounds msg s) :
    (s.parent ≠ .write → (s.pipes.pipe ()).count + s.holders.card = 1) ∧
      (∀ c c', c ∈ s.holders → c' ∈ s.holders → c = c') ∧
      (∀ c r s', Step rounds msg s (.read c r) s' ∨ Step rounds msg s (.write c r) s' → r = 1) ∧
      (∃ done, s.out = said msg done ∨
        ∃ c ∈ s.holders, ∃ k, s.out = said msg done ++ ((msg c).take k).map (Prod.mk c)) ∧
      ((s.parent = .zombie ∧ ∀ c, s.child c = .reaped) ∨ ∃ e s', Step rounds msg s e s') := by
  obtain ⟨q, hq⟩ := Inv.reach h
  refine ⟨?_, ?_, ?_, ?_, ?_⟩
  · intro hp
    rw [(hq.ok.holds ()).count_eq]
    exact hq.token hp
  · intro c c' hc hc'
    exact hq.eq_of_holds (mem_holders.mp hc) (mem_holders.mp hc')
  · rintro c r s' (hst | hst)
    · cases hst with
      | read pc awake call =>
        obtain ⟨-, ch, bs, rfl, -⟩ := hq.read_ret pc call
        rfl
    · cases hst with
      | write pc awake call => exact (hq.write_ret pc call).2.1
  · obtain ⟨done, ⟨-, heq⟩ | ⟨c, j, k, hc, -, heq⟩⟩ := hq.printed
    · exact ⟨done, .inl heq⟩
    · exact ⟨done, .inr ⟨c, mem_holders.mpr (by rw [hc]; rfl), k, heq⟩⟩
  · by_cases hp : s.parent = .zombie
    · have hphase := hq.phase
      rw [hp] at hphase
      exact .inl ⟨hp, hphase⟩
    · exact .inr (hq.progress hp)

def twoChildren : State 2 where
  pipes := ⟨fun _ => Pipe.alloc fun _ => 0, fun p _ _ => p == parentProc, fun _ => none⟩
  parent := .write
  child := fun _ => .unborn
  buf := fun _ => 0
  out := []

/-- Child 0 prints, while child 1 sleeps in `read`. -/
theorem token_exclusion_two : ∃ s : State 2, Reachable (fun _ => 200) (fun _ => [token]) s ∧ s.parent = .wait 0 ∧
    s.child 0 = .print 0 1 ∧ s.child 1 = .read 0 ∧ s.pipes.chan (some 1) ≠ none ∧
    (s.pipes.pipe ()).count + s.holders.card = 1 ∧ ∀ c ∈ s.holders, c = 0 := by
  have h : Reachable (fun _ => 200) (fun _ => [token]) twoChildren :=
    .of_init ⟨⟨_, rfl⟩, fun _ _ _ => rfl, fun _ => rfl, rfl, fun _ => rfl, rfl⟩
  have h := h.tail ⟨_, .parentWrite rfl rfl rfl⟩
  have h := h.tail ⟨_, .fork (i := 0) (by decide) rfl⟩
  have h := h.tail ⟨_, .fork (i := 1) (by decide) rfl⟩
  have h := h.tail ⟨_, .forked le_rfl rfl⟩
  have h := h.tail ⟨_, .round (c := 0) rfl (by decide)⟩
  have h := h.tail ⟨_, .read (c := 0) rfl rfl rfl⟩
  have h := h.tail ⟨_, .round (c := 1) rfl (by decide)⟩
  have h := h.tail ⟨_, .readSleep (c := 1) rfl rfl rfl⟩
  have h := h.tail ⟨_, .putc (c := 0) rfl rfl⟩
  obtain ⟨hone, heq, -⟩ := token_exclusion _ _ _ h
  exact ⟨_, h, rfl, rfl, rfl, by decide, hone (by rintro ⟨⟩), fun c hc => heq c 0 hc (mem_holders.mpr rfl)⟩

end Interprocess

end Xv6
