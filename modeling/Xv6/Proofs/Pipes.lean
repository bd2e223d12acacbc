import Xv6.Pipes
import Xv6.Proofs.Pipe

/-!
# What the calls on pipes do

`Pipe.Holds pi bs`: the bytes `bs` are in the ring. `Pipes.Ok s q`: the queues of the pipes are `q`, an end is open exactly
if some process has it open, and a process sleeps only for a reason: a reader while the pipe is empty and can be written, a
writer while it is full and can be read. There is one lemma for each call.
-/

namespace Xv6

open Function

namespace Pipe

variable {pi : Pipe} {bs : List UInt8} {ch : UInt8}

/-- The bytes in the ring, the oldest first. -/
def Holds (pi : Pipe) (bs : List UInt8) : Prop :=
  ∃ log R, RingHolds PIPESIZE (2 ^ 32) pi.data pi.nread pi.nwrite log R ∧ bs = log.drop R

namespace Holds

theorem alloc (data : Nat → UInt8) : (Pipe.alloc data).Holds [] := ⟨[], 0, RingHolds.init data, rfl⟩

theorem empty_iff (h : pi.Holds bs) : pi.empty = true ↔ bs = [] := by
  obtain ⟨log, R, hr, rfl⟩ := h
  have hle := hr.le
  rw [Pipe.empty, beq_iff_eq, hr.empty_iff PipeSys.PIPESIZE_lt, List.drop_eq_nil_iff]
  omega

theorem full_iff (h : pi.Holds bs) : pi.full = true ↔ bs.length = PIPESIZE := by
  obtain ⟨log, R, hr, rfl⟩ := h
  have hle := hr.le
  rw [Pipe.full, beq_iff_eq, hr.full_iff PipeSys.PIPESIZE_lt, List.length_drop]
  omega

theorem count_eq (h : pi.Holds bs) : pi.count = bs.length := by
  obtain ⟨log, R, hr, rfl⟩ := h
  rw [Pipe.count, hr.sub_eq PipeSys.PIPESIZE_lt, List.length_drop]

theorem push (h : pi.Holds bs) (hne : bs.length ≠ PIPESIZE) : (pi.push ch).Holds (bs ++ [ch]) := by
  obtain ⟨log, R, hr, rfl⟩ := h
  have hle := hr.le
  rw [List.length_drop] at hne
  refine ⟨log ++ [ch], R, hr.put PipeSys.PIPESIZE_dvd (by omega), ?_⟩
  rw [List.drop_append_of_le_length hle]

theorem pop (h : pi.Holds (ch :: bs)) : pi.front = ch ∧ pi.pop.Holds bs := by
  obtain ⟨log, R, hr, hbs⟩ := h
  have hlt : R < log.length := by
    by_contra hge
    rw [List.drop_eq_nil_of_le (by omega)] at hbs
    cases hbs
  obtain ⟨hget, hr'⟩ := hr.get PipeSys.PIPESIZE_dvd (by omega)
  rw [List.drop_eq_getElem_cons hlt, List.cons.injEq] at hbs
  rw [List.getElem?_eq_getElem hlt, Option.some.injEq] at hget
  refine ⟨?_, log, R + 1, hr', hbs.2⟩
  rw [hbs.1, hget]
  rfl

theorem setClosed (h : pi.Holds bs) (e : PipeEnd) : (pi.setClosed e).Holds bs := by
  cases e <;> exact h

end Holds

theorem isOpen_setClosed (e e' : PipeEnd) : (pi.setClosed e).isOpen e' = true ↔ e' ≠ e ∧ pi.isOpen e' = true := by
  cases e <;> cases e' <;> simp [setClosed, isOpen]

end Pipe

namespace Pipes

variable {P K : Type} [DecidableEq P] [DecidableEq K] {s t : Pipes P K} {q : K → List UInt8} {p p' : P} {k k' : K}
  {e e' : PipeEnd} {ch : UInt8}

def Waits (bs : List UInt8) : PipeEnd → Prop
  | .read => bs = []
  | .write => bs.length = PIPESIZE

def Open (s : Pipes P K) (k : K) (e : PipeEnd) : Prop := ∃ p, s.ofile p k e = true

structure Ok (s : Pipes P K) (q : K → List UInt8) : Prop where
  holds (k : K) : (s.pipe k).Holds (q k)
  isOpen (k : K) (e : PipeEnd) : (s.pipe k).isOpen e = true ↔ s.Open k e
  asleep (p : P) (k : K) (e : PipeEnd) (h : s.chan p = some (k, e)) : Waits (q k) e ∧ s.Open k e.other

/-- Nothing is closed, and no process goes to sleep. -/
structure Wakes (s t : Pipes P K) : Prop where
  ofile : t.ofile = s.ofile
  chan (p : P) (c : K × PipeEnd) (h : t.chan p = some c) : s.chan p = some c

section
omit [DecidableEq P]

theorem chan_wakeup {c c' : K × PipeEnd} : (s.wakeup c).chan p = some c' ↔ c' ≠ c ∧ s.chan p = some c' := by
  simp only [wakeup]
  by_cases h : s.chan p = some c
  · rw [if_pos h, h]
    simp only [reduceCtorEq, Option.some.injEq, false_iff, not_and]
    intro hne heq
    exact hne heq.symm
  · rw [if_neg h]
    constructor
    · intro h'
      refine ⟨?_, h'⟩
      rintro rfl
      exact h h'
    · exact And.right

theorem wakes_wakeup (s : Pipes P K) (c : K × PipeEnd) : Wakes s (s.wakeup c) :=
  ⟨rfl, fun _ _ h => (chan_wakeup.mp h).2⟩

theorem wakes_set_wakeup (s : Pipes P K) (k : K) (pi : Pipe) (c : K × PipeEnd) : Wakes s ((s.setPipe k pi).wakeup c) :=
  ⟨rfl, fun _ _ h => (chan_wakeup.mp h).2⟩

theorem eq_other_of_ne {e e' : PipeEnd} (h : e' ≠ e) : e' = e.other := by
  cases e <;> cases e' <;> first | rfl | exact absurd rfl h

namespace Ok

theorem wakeup (h : Ok s q) (c : K × PipeEnd) : Ok (s.wakeup c) q :=
  ⟨h.holds, h.isOpen, fun p k e hc => h.asleep p k e (chan_wakeup.mp hc).2⟩

/-- Pipe `k` gets new contents; those at `e` are woken, and nobody sleeps at the other end. -/
theorem set_wakeup (h : Ok s q) {pi : Pipe} {bs : List UInt8} (hpi : pi.Holds bs)
    (hopen : ∀ e, pi.isOpen e = (s.pipe k).isOpen e) (hw : ¬ Waits (q k) e.other) :
    Ok ((s.setPipe k pi).wakeup (k, e)) (update q k bs) := by
  refine ⟨?_, ?_, ?_⟩
  · intro k'
    change (update s.pipe k pi k').Holds _
    rcases eq_or_ne k' k with rfl | hne
    · rwa [update_self, update_self]
    · rw [update_of_ne hne, update_of_ne hne]
      exact h.holds k'
  · intro k' e'
    change (update s.pipe k pi k').isOpen e' = true ↔ s.Open k' e'
    rcases eq_or_ne k' k with rfl | hne
    · rw [update_self, hopen]
      exact h.isOpen k' e'
    · rw [update_of_ne hne]
      exact h.isOpen k' e'
  · intro p k' e' hc
    obtain ⟨hne, hc⟩ := chan_wakeup.mp hc
    obtain ⟨hwait, ho⟩ := h.asleep p k' e' hc
    rcases eq_or_ne k' k with rfl | hk
    · have he : e' = e.other := eq_other_of_ne fun he => hne (by rw [he])
      rw [he] at hwait
      exact absurd hwait hw
    · rw [update_of_ne hk]
      exact ⟨hwait, ho⟩

end Ok

end

namespace Ok

omit [DecidableEq K] in
theorem sleep (h : Ok s q) (hw : Waits (q k) e) (ho : s.Open k e.other) : Ok (s.sleep p (k, e)) q := by
  refine ⟨h.holds, h.isOpen, ?_⟩
  intro p' k' e' hc
  have hc : update s.chan p (some (k, e)) p' = some (k', e') := hc
  rcases eq_or_ne p' p with rfl | hne
  · rw [update_self] at hc
    cases hc
    exact ⟨hw, ho⟩
  · rw [update_of_ne hne] at hc
    exact h.asleep p' k' e' hc

omit [DecidableEq P] [DecidableEq K] in
theorem alloc (hpipe : ∀ k, ∃ data, s.pipe k = Pipe.alloc data) (hopen : ∀ k e, s.Open k e) (hchan : ∀ p, s.chan p = none) :
    Ok s fun _ => [] := by
  refine ⟨?_, ?_, ?_⟩
  · intro k
    obtain ⟨data, hk⟩ := hpipe k
    rw [hk]
    exact .alloc data
  · intro k e
    obtain ⟨data, hk⟩ := hpipe k
    rw [hk]
    refine ⟨fun _ => hopen k e, fun _ => ?_⟩
    cases e <;> rfl
  · intro p k e hc
    rw [hchan] at hc
    cases hc

/-! ### `read` -/

theorem piperead_sleep (h : Ok s q) (hr : s.piperead p k = (.sleep, t)) :
    t = s.sleep p (k, .read) ∧ q k = [] ∧ Ok t q := by
  rw [piperead] at hr
  split at hr
  · rename_i hc
    obtain rfl := (Prod.mk.inj hr).2
    have hq := (h.holds k).empty_iff.mp hc.1
    exact ⟨rfl, hq, h.sleep hq ((h.isOpen k .write).mp hc.2)⟩
  · split at hr <;> cases hr

/-- `read` returns the first byte; it returns 0 only if there is none and none can come. -/
theorem piperead_ret (h : Ok s q) {r : Option UInt8} (hr : s.piperead p k = (.ret r, t)) :
    Wakes s t ∧ (r = none ∧ q k = [] ∧ ¬ s.Open k .write ∧ Ok t q ∨
      ∃ ch bs, r = some ch ∧ q k = ch :: bs ∧ Ok t (update q k bs)) := by
  rw [piperead] at hr
  split at hr
  · cases hr
  · rename_i hc
    split at hr
    · rename_i hempty
      cases hr
      refine ⟨wakes_wakeup s _, .inl ⟨rfl, (h.holds k).empty_iff.mp hempty, ?_, h.wakeup _⟩⟩
      intro ho
      exact hc ⟨hempty, (h.isOpen k .write).mpr ho⟩
    · rename_i hempty
      cases hr
      obtain ⟨ch, bs, hq⟩ := List.exists_cons_of_ne_nil fun hq => hempty ((h.holds k).empty_iff.mpr hq)
      have hk := h.holds k
      rw [hq] at hk
      obtain ⟨hfront, hpop⟩ := hk.pop
      refine ⟨wakes_set_wakeup .., .inr ⟨ch, bs, by rw [hfront], hq, ?_⟩⟩
      refine h.set_wakeup hpop (fun e => by cases e <;> rfl) ?_
      intro hw
      rw [hq] at hw
      cases hw

theorem exists_piperead (s : Pipes P K) (p : P) (k : K) :
    (∃ t, s.piperead p k = (.sleep, t)) ∨ ∃ r t, s.piperead p k = (.ret r, t) := by
  rw [piperead]
  split
  · exact .inl ⟨_, rfl⟩
  · split
    · exact .inr ⟨_, _, rfl⟩
    · exact .inr ⟨_, _, rfl⟩

/-! ### `write` -/

theorem pipewrite_sleep (h : Ok s q) (hr : s.pipewrite p k ch = (.sleep, t)) : (q k).length = PIPESIZE := by
  rw [pipewrite] at hr
  split at hr
  · cases hr
  · split at hr
    · rename_i hfull
      exact (h.holds k).full_iff.mp hfull
    · cases hr

/-- `write` adds the byte; it returns -1 only if nobody can read it. -/
theorem pipewrite_ret (h : Ok s q) {r : Int} (hr : s.pipewrite p k ch = (.ret r, t)) :
    Wakes s t ∧ (r = -1 ∧ ¬ s.Open k .read ∧ Ok t q ∨ r = 1 ∧ Ok t (update q k (q k ++ [ch]))) := by
  rw [pipewrite] at hr
  split at hr
  · rename_i hclosed
    cases hr
    refine ⟨⟨rfl, fun _ _ h => h⟩, .inl ⟨rfl, ?_, h⟩⟩
    intro ho
    have := (h.isOpen k .read).mpr ho
    rw [Pipe.isOpen, hclosed] at this
    cases this
  · split at hr
    · cases hr
    · rename_i hfull
      cases hr
      have hne : (q k).length ≠ PIPESIZE := fun hq => hfull ((h.holds k).full_iff.mpr hq)
      refine ⟨wakes_set_wakeup .., .inr ⟨rfl, ?_⟩⟩
      exact h.set_wakeup ((h.holds k).push hne) (fun e => by cases e <;> rfl) hne

theorem exists_pipewrite (s : Pipes P K) (p : P) (k : K) (ch : UInt8) :
    (∃ t, s.pipewrite p k ch = (.sleep, t)) ∨ ∃ r t, s.pipewrite p k ch = (.ret r, t) := by
  rw [pipewrite]
  split
  · exact .inr ⟨_, _, rfl⟩
  · split
    · exact .inl ⟨_, rfl⟩
    · exact .inr ⟨_, _, rfl⟩

/-! ### `close` and `fork` -/

omit [DecidableEq K] in
theorem fork (h : Ok s q) {c : P} (hc : ∀ k e, s.ofile c k e = false) : Ok (s.fork p c) q := by
  have hopen : ∀ k e, (s.fork p c).Open k e ↔ s.Open k e := by
    intro k e
    constructor
    · rintro ⟨r, hr⟩
      have hr : update s.ofile c (s.ofile p) r k e = true := hr
      rcases eq_or_ne r c with rfl | hne
      · rw [update_self] at hr
        exact ⟨p, hr⟩
      · rw [update_of_ne hne] at hr
        exact ⟨r, hr⟩
    · rintro ⟨r, hr⟩
      have hne : r ≠ c := by
        rintro rfl
        rw [hc] at hr
        cases hr
      refine ⟨r, ?_⟩
      change update s.ofile c (s.ofile p) r k e = true
      rwa [update_of_ne hne]
  exact ⟨h.holds, fun k e => (h.isOpen k e).trans (hopen k e).symm,
    fun r k e hr => (h.asleep r k e hr).imp_right (hopen k _).mpr⟩

theorem ofile_setOfile {v : Bool} :
    (s.setOfile p k e v).ofile p' k' e' = if p' = p ∧ k' = k ∧ e' = e then v else s.ofile p' k' e' := by
  change update s.ofile p _ p' k' e' = _
  by_cases hp : p' = p
  · subst hp
    rw [update_self]
    by_cases hk : k' = k
    · subst hk
      rw [update_self]
      by_cases he : e' = e
      · subst he
        simp
      · simp [he]
    · simp [hk]
  · simp [hp]

variable [Fintype P]

theorem ofile_fileclose :
    (s.fileclose p k e).ofile p' k' e' = if p' = p ∧ k' = k ∧ e' = e then false else s.ofile p' k' e' := by
  rw [Pipes.fileclose]
  split
  · split
    · exact ofile_setOfile
    · exact ofile_setOfile (s := s)
  · rename_i hc
    split
    · rename_i heq
      obtain ⟨rfl, rfl, rfl⟩ := heq
      simpa using hc
    · rfl

theorem chan_fileclose {c : K × PipeEnd} (hc : (s.fileclose p k e).chan p' = some c) : s.chan p' = some c := by
  rw [Pipes.fileclose] at hc
  split at hc
  · split at hc
    · exact hc
    · exact (chan_wakeup.mp hc).2
  · exact hc

theorem fileclose (h : Ok s q) : Ok (s.fileclose p k e) q := by
  rw [Pipes.fileclose]
  split
  · have hopen : ∀ {k' : K} {e' : PipeEnd}, (k', e') ≠ (k, e) →
        ((s.setOfile p k e false).Open k' e' ↔ s.Open k' e') := by
      intro k' e' hne
      refine exists_congr fun r => ?_
      rw [ofile_setOfile, if_neg]
      rintro ⟨-, rfl, rfl⟩
      exact hne rfl
    split
    · rename_i hlast
      have hopen' : ∀ k' e', (s.setOfile p k e false).Open k' e' ↔ s.Open k' e' := by
        intro k' e'
        by_cases hne : (k', e') = (k, e)
        · cases hne
          refine ⟨?_, fun _ => hlast⟩
          rintro ⟨r, hr⟩
          rw [ofile_setOfile] at hr
          split at hr
          · cases hr
          · exact ⟨r, hr⟩
        · exact hopen hne
      exact ⟨h.holds, fun k' e' => (h.isOpen k' e').trans (hopen' k' e').symm,
        fun r k' e' hr => (h.asleep r k' e' hr).imp_right (hopen' k' _).mpr⟩
    · rename_i hlast
      refine ⟨?_, ?_, ?_⟩
      · intro k'
        change (update s.pipe k _ k').Holds _
        rcases eq_or_ne k' k with rfl | hne
        · rw [update_self]
          exact (h.holds k').setClosed e
        · rw [update_of_ne hne]
          exact h.holds k'
      · intro k' e'
        change (update s.pipe k _ k').isOpen e' = true ↔ (s.setOfile p k e false).Open k' e'
        by_cases hne : (k', e') = (k, e)
        · cases hne
          rw [update_self, Pipe.isOpen_setClosed]
          exact ⟨fun hc => absurd rfl hc.1, fun hc => absurd hc hlast⟩
        · rw [hopen hne, ← h.isOpen]
          rcases eq_or_ne k' k with rfl | hk
          · rw [update_self, Pipe.isOpen_setClosed]
            exact ⟨And.right, fun hc => ⟨fun he => hne (by rw [he]), hc⟩⟩
          · rw [update_of_ne hk]
      · intro r k' e' hr
        obtain ⟨hne, hr⟩ := chan_wakeup.mp hr
        refine (h.asleep r k' e' hr).imp_right (hopen ?_).mpr
        intro heq
        refine hne ?_
        cases e <;> cases e' <;> simp_all [PipeEnd.other]
  · exact h

end Ok

end Pipes

end Xv6
