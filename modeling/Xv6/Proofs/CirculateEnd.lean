import Xv6.Proofs.CirculateByte

/-!
# The ring comes to an end

There is no deadlock: processes that cannot go on sleep in `read` on empty pipes, or the parent waits for a child. While
the parent is in its loop the byte is somewhere, so some reader finds it. When the parent waits, all ends of exited
processes are closed, so the first child that is left finds its pipe at its end.

There is no infinite run either: the byte goes around `L` times, each process otherwise only goes forward in its program
(`potential`), and between two such steps processes can only fall asleep.
-/

namespace Xv6

open Function

namespace Circulate

variable {N L : Nat} {s s' : State N} {p p' : Proc N} {c : Fin N} {fd : Fd N} {k k₀ : Pc N}
  {q q' : Fin (N + 1) → List UInt8} {t : Pipes (Proc N) (Fin (N + 1))}

/-! ### No deadlock -/

namespace Inv

theorem asleep_read (h : Inv L s q) {x : Fd N} (hx : s.pipes.chan p = some x) :
    s.pc p = .read ∧ x = (pipeOf p .read, .read) := by
  rcases (h.proc p).asleep x hx with hr | ⟨-, rfl⟩
  · exact hr
  · exact absurd (h.ok.asleep p _ _ hx).1 (h.not_full _)

theorem awake_of_stuck (h : Inv L s q) (hne : s.pc p ≠ .read) : s.pipes.chan p = none := by
  rw [Option.eq_none_iff_forall_ne_some]
  intro x hx
  exact hne (h.asleep_read hx).1

theorem read_steps (pc : s.pc p = .read) (awake : s.pipes.chan p = none) : ∃ s', Step L s s' := by
  cases p with
  | none =>
    rcases Pipes.Ok.exists_piperead s.pipes none (Fin.last N) with ⟨t, ht⟩ | ⟨r, t, ht⟩
    · exact ⟨_, .parentReadSleep pc awake ht⟩
    · cases r with
      | none => exact ⟨_, .parentEof pc awake ht⟩
      | some b => exact ⟨_, .parentRead pc awake ht⟩
  | some c =>
    rcases Pipes.Ok.exists_piperead s.pipes (some c) c.castSucc with ⟨t, ht⟩ | ⟨r, t, ht⟩
    · exact ⟨_, .readSleep pc awake ht⟩
    · cases r with
      | none => exact ⟨_, .eof pc awake ht⟩
      | some b => exact ⟨_, .read pc awake ht⟩

theorem write_steps (h : Inv L s q) (pc : s.pc p = .write) : ∃ s', Step L s s' := by
  have awake := h.awake_of_stuck (p := p) (by simp [pc])
  cases p with
  | none =>
    rcases Pipes.Ok.exists_pipewrite s.pipes none 0 (s.buf none) with ⟨t, ht⟩ | ⟨r, t, ht⟩
    · exact ⟨_, .parentWriteSleep pc awake ht⟩
    · by_cases hr : r = 1
      · subst hr
        exact ⟨_, .parentWrite pc awake ht⟩
      · exact ⟨_, .parentWriteFail pc awake ht hr⟩
  | some c =>
    rcases Pipes.Ok.exists_pipewrite s.pipes (some c) c.succ (s.buf (some c)) with ⟨t, ht⟩ | ⟨r, t, ht⟩
    · exact ⟨_, .writeSleep pc awake ht⟩
    · by_cases hr : r = 1
      · subst hr
        exact ⟨_, .write pc awake ht⟩
      · exact ⟨_, .writeFail pc awake ht hr⟩

theorem close_steps {todo : List (Fd N)} (pc : s.pc p = .close todo) : ∃ s', Step L s s' := by
  cases todo with
  | cons fd todo => exact ⟨_, .close pc⟩
  | nil =>
    cases p with
    | none => exact ⟨_, .parentClosed pc⟩
    | some c => exact ⟨_, .childClosed pc⟩

theorem exit_steps {st : Int} {todo : List (Fd N)} (pc : s.pc p = .exit st todo) : ∃ s', Step L s s' := by
  cases todo with
  | cons fd todo => exact ⟨_, .exitClose pc⟩
  | nil => exact ⟨_, .exited pc⟩

theorem child_stuck (h : Inv L s q) (hstuck : ¬ ∃ s', Step L s s') (c : Fin N) :
    s.pc (some c) = .unborn ∨ (s.pc (some c) = .read ∧ s.pipes.chan (some c) = some (c.castSucc, .read)) ∨
      (∃ st, s.pc (some c) = .zombie st) ∨ s.pc (some c) = .reaped := by
  have hkind := (h.proc (some c)).kind
  cases hp : s.pc (some c) with
  | unborn => exact .inl rfl
  | close todo => exact absurd (close_steps hp) hstuck
  | read =>
    cases hc : s.pipes.chan (some c) with
    | none => exact absurd (read_steps hp hc) hstuck
    | some x => exact .inr (.inl ⟨rfl, by rw [(h.asleep_read hc).2]; rfl⟩)
  | write => exact absurd (h.write_steps hp) hstuck
  | exit st todo => exact absurd (exit_steps hp) hstuck
  | zombie st => exact .inr (.inr (.inl ⟨st, rfl⟩))
  | reaped => exact .inr (.inr (.inr rfl))
  | _ =>
    rw [hp] at hkind
    cases hkind

theorem empty_of_asleep (h : Inv L s q) {x : Fd N} (hx : s.pipes.chan p = some x) :
    q x.1 = [] ∧ s.pipes.Open x.1 .write := by
  obtain ⟨-, rfl⟩ := h.asleep_read hx
  exact h.ok.asleep p _ _ hx

theorem loop_steps (h : Inv L s q) (pc : s.pc none = .read) : ∃ s', Step L s s' := by
  by_contra hstuck
  have hphase := h.ring.phase
  rw [pc] at hphase
  have hparent : ∃ x, s.pipes.chan none = some x := by
    cases hc : s.pipes.chan none with
    | none => exact absurd (read_steps pc hc) hstuck
    | some x => exact ⟨x, rfl⟩
  obtain ⟨x, hx⟩ := hparent
  have hlast : q (Fin.last N) = [] := by
    have := (h.empty_of_asleep hx).1
    rwa [(h.asleep_read hx).2] at this
  -- the children sleep, too: nobody has exited yet
  have hchild : ∀ c, s.pc (some c) = .read ∧ s.pipes.chan (some c) = some (c.castSucc, .read) := by
    intro c
    have hexits : (s.pc (some c)).Exits = false := by
      by_contra he
      have := h.ring.exits c (by simpa using he)
      rw [pc] at this
      cases this
    rcases h.child_stuck hstuck c with hp | hp | ⟨st, hp⟩ | hp
    · have := (hphase c).1
      rw [hp] at this
      cases this
    · exact hp
    · rw [hp] at hexits
      cases hexits
    · rw [hp] at hexits
      cases hexits
  have hq : ∀ k, q k = [] := by
    intro k
    rcases Fin.eq_castSucc_or_eq_last k with ⟨c, rfl⟩ | rfl
    · exact (h.empty_of_asleep (hchild c).2).1
    · exact hlast
  have hpass : ∀ p, (s.pc p).Passing = false := by
    intro p
    cases p with
    | none => rw [pc]; rfl
    | some c => rw [(hchild c).1]; rfl
  have htok := h.ring.tokens
  rw [pc] at htok
  have hone : total s.pc q = 1 := htok
  simp [total, hq, hpass] at hone

theorem wait_steps (h : Inv L s q) {i : Nat} (pc : s.pc none = .wait i) : ∃ s', Step L s s' := by
  rcases lt_or_ge i N with hlt | hge
  swap
  · exact ⟨_, .waited hge pc⟩
  by_contra hstuck
  have hphase := h.ring.phase
  rw [pc] at hphase
  -- nobody is a zombie, and not all have been waited for
  have hchild : ∀ c, (s.pc (some c) = .read ∧ s.pipes.chan (some c) = some (c.castSucc, .read)) ∨ s.pc (some c) = .reaped := by
    intro c
    rcases h.child_stuck hstuck c with hp | hp | ⟨st, hp⟩ | hp
    · have := hphase.1 c
      rw [hp] at this
      cases this
    · exact .inl hp
    · exact absurd ⟨_, .wait hlt pc hp⟩ hstuck
    · exact .inr hp
  have hleft : ∃ n, ∃ hn : n < N, s.pc (some ⟨n, hn⟩) ≠ .reaped := by
    by_contra hall
    have hcard := hphase.2
    rw [Finset.filter_true_of_mem, Finset.card_univ, Fintype.card_fin] at hcard
    · omega
    · intro c _
      have : s.pc (some c) = .reaped := by
        by_contra hc
        exact hall ⟨c.val, c.isLt, hc⟩
      rw [this]
      rfl
  classical
  obtain ⟨hn, hne⟩ := Nat.find_spec hleft
  have hmin := fun m (hm : m < Nat.find hleft) => Nat.find_min hleft hm
  rcases hchild ⟨Nat.find hleft, hn⟩ with ⟨-, hchan⟩ | hreaped
  · -- its pipe can be written only by the child before it
    obtain ⟨-, p, hp⟩ := h.empty_of_asleep hchan
    rw [(h.proc p).ofile ((⟨Nat.find hleft, hn⟩ : Fin N).castSucc, .write)] at hp
    cases p with
    | none =>
      rw [pc] at hp
      cases hp
    | some d =>
      rcases hchild d with ⟨hd, -⟩ | hd
      · rw [hd] at hp
        have heq : (⟨Nat.find hleft, hn⟩ : Fin N).castSucc = d.succ := of_decide_eq_true hp
        have hval : Nat.find hleft = d.val + 1 := congrArg Fin.val heq
        refine hmin d.val (by omega) ⟨d.isLt, ?_⟩
        rw [show (⟨d.val, d.isLt⟩ : Fin N) = d from rfl, hd]
        simp
      · rw [hd] at hp
        cases hp
  · exact hne hreaped

theorem progress (h : Inv L s q) :
    ((∃ st, s.pc none = .zombie st) ∧ ∀ c, s.pc (some c) = .reaped) ∨ ∃ s', Step L s s' := by
  have hkind := (h.proc none).kind
  have hphase := h.ring.phase
  cases hp : s.pc none with
  | unborn | reaped =>
    rw [hp] at hkind
    cases hkind
  | fork i =>
    rcases lt_or_ge i N with hlt | hge
    · exact .inr ⟨_, .fork hlt hp⟩
    · exact .inr ⟨_, .forked hge hp⟩
  | close todo => exact .inr (close_steps hp)
  | send =>
    have awake := h.awake_of_stuck (p := none) (by simp [hp])
    rcases Pipes.Ok.exists_pipewrite s.pipes none 0 (s.buf none) with ⟨t, ht⟩ | ⟨r, t, ht⟩
    · exact .inr ⟨_, .sendSleep hp awake ht⟩
    · exact .inr ⟨_, .send hp awake ht⟩
  | loop =>
    rcases lt_or_ge s.loopsDone L with hlt | hge
    · exact .inr ⟨_, .enter hp hlt⟩
    · exact .inr ⟨_, .leave hp hge⟩
  | read => exact .inr (h.loop_steps hp)
  | write => exact .inr (h.write_steps hp)
  | stopWrite => exact .inr ⟨_, .stopWrite hp⟩
  | stopRead => exact .inr ⟨_, .stopRead hp⟩
  | wait i => exact .inr (h.wait_steps hp)
  | exit st todo => exact .inr (exit_steps hp)
  | zombie st =>
    rw [hp] at hphase
    exact .inl ⟨⟨st, rfl⟩, fun c => eq_reaped (hphase c)⟩

end Inv

/-! ### No infinite run -/

/-- How far the byte has to go from a pipe to the parent, and past it. -/
def weightPipe (k : Fin (N + 1)) : Nat := 2 * (N - k.val) + 2

def weightProc : Proc N → Nat
  | none => 1
  | some c => 2 * (N - c.val) + 1

/-- How far a process is from its end, but for the rounds of its loop. -/
def rank : Pc N → Nat
  | .unborn => 7 * N + 20
  | .fork i => 7 * N + 20 + (N - i)
  | .close todo => 5 * N + 15 + todo.length
  | .send => 5 * N + 14
  | .loop => 3 * N + 11
  | .read => 3 * N + 10
  | .write => 3 * N + 10
  | .stopWrite => 3 * N + 9
  | .stopRead => 3 * N + 8
  | .wait i => 2 * N + 6 + (N - i)
  | .exit _ todo => 2 + todo.length
  | .zombie _ => 1
  | .reaped => 0

def procPotential (p : Proc N) (k : Pc N) : Nat := rank k + k.Passing.toNat * weightProc p

def potential (L : Nat) (pc : Proc N → Pc N) (q : Fin (N + 1) → List UInt8) (n : Nat) : Nat :=
  ∑ p, procPotential p (pc p) + ∑ k, (q k).length * weightPipe k + (L - n) * (2 * N + 4)

theorem potential_pc (pc : Proc N → Pc N) (p : Proc N) (k : Pc N) (n : Nat) :
    potential L (update pc p k) q n + procPotential p (pc p) = potential L pc q n + procPotential p k := by
  have := Family.sum_update procPotential pc p k
  simp only [potential]
  omega

theorem potential_queue (pc : Proc N → Pc N) (i : Fin (N + 1)) (bs : List UInt8) (n : Nat) :
    potential L pc (update q i bs) n + (q i).length * weightPipe i =
      potential L pc q n + bs.length * weightPipe i := by
  have := Family.sum_update (fun k bs => List.length bs * weightPipe k) q i bs
  simp only [potential]
  omega

theorem length_allFds : (allFds : List (Fd N)).length = 2 * N + 2 := by
  simp [allFds, List.length_flatMap]
  omega

theorem length_loop_le {a b : Fin (N + 1)} {x y : PipeEnd} :
    ((List.finRange (N + 1)).flatMap fun k =>
      (if k ≠ a then [(k, x)] else []) ++ (if k ≠ b then [(k, y)] else [])).length ≤ 2 * N + 2 := by
  rw [List.length_flatMap]
  refine (List.sum_le_card_nsmul _ 2 ?_).trans ?_
  · intro n hn
    obtain ⟨k, -, rfl⟩ := List.mem_map.mp hn
    split <;> split <;> simp
  · simp
    omega

/-- A process that is awake falls asleep. -/
def State.awake (s : State N) : Nat := (Finset.univ.filter fun p => s.pipes.chan p = none).card

theorem awake_sleep {x : Fd N} (hp : s.pipes.chan p = none) :
    State.awake { s with pipes := s.pipes.sleep p x } < s.awake := by
  refine Finset.card_lt_card ((Finset.ssubset_iff_of_subset ?_).mpr ⟨p, by simpa using hp, ?_⟩)
  · intro p' hp'
    simp only [Finset.mem_filter, Finset.mem_univ, true_and] at hp' ⊢
    have hp' : update s.pipes.chan p (some x) p' = none := hp'
    rcases eq_or_ne p' p with rfl | hne
    · rw [update_self] at hp'
      cases hp'
    · rwa [update_of_ne hne] at hp'
  · simp only [Finset.mem_filter, Finset.mem_univ, true_and]
    change update s.pipes.chan p (some x) p ≠ none
    rw [update_self]
    simp

/-- A step forward, or a process falls asleep. -/
def Forward (L : Nat) (s : State N) (q : Fin (N + 1) → List UInt8) (s' : State N) (q' : Fin (N + 1) → List UInt8) : Prop :=
  potential L s'.pc q' s'.loopsDone < potential L s.pc q s.loopsDone ∨
    potential L s'.pc q' s'.loopsDone = potential L s.pc q s.loopsDone ∧ s'.awake < s.awake

theorem Forward.goto (pc : s.pc p = k₀) (hpc : s'.pc = update s.pc p k) (hl : s'.loopsDone = s.loopsDone)
    (hpass : k.Passing = k₀.Passing) (hlt : rank k < rank k₀) : Forward L s q s' q := by
  have h := potential_pc (L := L) (q := q) s.pc p k s.loopsDone
  rw [pc, procPotential, procPotential, hpass] at h
  rw [Forward, hpc, hl]
  exact .inl (by omega)

theorem Forward.two {k₁ k₂ : Pc N} (pc : s.pc none = k₁) (pc' : s.pc (some c) = k₂)
    (hpc : s'.pc = update (update s.pc (some c) k) none k₀) (hl : s'.loopsDone = s.loopsDone)
    (hpass : k₀.Passing = k₁.Passing) (hle : rank k₀ ≤ rank k₁) (hlt : procPotential (some c) k < procPotential (some c) k₂) :
    Forward L s q s' q := by
  have h := potential_pc (L := L) (q := q) s.pc (some c) k s.loopsDone
  have h' := potential_pc (L := L) (q := q) (update s.pc (some c) k) none k₀ s.loopsDone
  rw [update_of_ne (by simp), pc, procPotential, procPotential, hpass] at h'
  rw [pc'] at h
  rw [Forward, hpc, hl]
  exact .inl (by omega)

theorem Forward.read {b : UInt8} {bs : List UInt8} {i : Fin (N + 1)} (hpc : s'.pc = update s.pc p .write)
    (hl : s'.loopsDone = s.loopsDone) (pc : s.pc p = .read) (hq : q i = b :: bs) (hw : weightProc p < weightPipe i) :
    Forward L s q s' (update q i bs) := by
  have h := potential_pc (L := L) (q := q) s.pc p .write s.loopsDone
  have h' := potential_queue (L := L) (q := q) (update s.pc p .write) i bs s.loopsDone
  rw [hq, List.length_cons, Nat.succ_mul] at h'
  simp only [pc, procPotential, rank, Pc.Passing, Bool.toNat_true, Bool.toNat_false, one_mul, zero_mul] at h
  rw [Forward, hpc, hl]
  exact .inl (by omega)

theorem Forward.write {b : UInt8} {i : Fin (N + 1)} (hpc : s'.pc = update s.pc (some c) .read)
    (hl : s'.loopsDone = s.loopsDone) (pc : s.pc (some c) = .write) (hw : weightPipe i < weightProc (some c)) :
    Forward L s q s' (update q i (q i ++ [b])) := by
  have h := potential_pc (L := L) (q := q) s.pc (some c) .read s.loopsDone
  have h' := potential_queue (L := L) (q := q) (update s.pc (some c) .read) i (q i ++ [b]) s.loopsDone
  rw [List.length_append, List.length_singleton, Nat.succ_mul] at h'
  simp only [pc, procPotential, rank, Pc.Passing, Bool.toNat_true, Bool.toNat_false, one_mul, zero_mul] at h
  rw [Forward, hpc, hl]
  exact .inl (by omega)

theorem Forward.round {b : UInt8} (hpc : s'.pc = update s.pc none .loop)
    (hl : s'.loopsDone = s.loopsDone + 1) (pc : s.pc none = .write) (hlt : s.loopsDone < L) :
    Forward L s q s' (update q 0 (q 0 ++ [b])) := by
  have h := potential_pc (L := L) (q := q) s.pc none .loop s.loopsDone
  have h' := potential_queue (L := L) (q := q) (update s.pc none .loop) 0 (q 0 ++ [b]) s.loopsDone
  have hround : potential L (update s.pc none .loop) (update q 0 (q 0 ++ [b])) (s.loopsDone + 1) +
      (2 * N + 4) = potential L (update s.pc none .loop) (update q 0 (q 0 ++ [b])) s.loopsDone := by
    have hsub : L - s.loopsDone = (L - (s.loopsDone + 1)) + 1 := by omega
    have hmul : (L - s.loopsDone) * (2 * N + 4) = (L - (s.loopsDone + 1)) * (2 * N + 4) + (2 * N + 4) := by
      rw [hsub, add_mul, one_mul]
    simp only [potential]
    omega
  rw [List.length_append, List.length_singleton, Nat.succ_mul] at h'
  have hw : weightPipe (0 : Fin (N + 1)) = 2 * N + 2 := rfl
  simp only [pc, procPotential, rank, Pc.Passing, Bool.toNat_true, Bool.toNat_false, one_mul, zero_mul, weightProc] at h
  rw [Forward, hpc, hl]
  exact .inl (by omega)

theorem Forward.send {b : UInt8} (hpc : s'.pc = update s.pc none .loop) (hl : s'.loopsDone = s.loopsDone)
    (pc : s.pc none = .send) : Forward L s q s' (update q 0 (q 0 ++ [b])) := by
  have h := potential_pc (L := L) (q := q) s.pc none .loop s.loopsDone
  have h' := potential_queue (L := L) (q := q) (update s.pc none .loop) 0 (q 0 ++ [b]) s.loopsDone
  rw [List.length_append, List.length_singleton, Nat.succ_mul] at h'
  have hw : weightPipe (0 : Fin (N + 1)) = 2 * N + 2 := rfl
  simp only [pc, procPotential, rank, Pc.Passing, Bool.toNat_false, zero_mul] at h
  rw [Forward, hpc, hl]
  exact .inl (by omega)

theorem Inv.forward (h : Inv L s q) (hst : Step L s s') : ∃ q', s'.pipes.Ok q' ∧ Forward L s q s' q' := by
  cases hst with
  | @fork i lt pc =>
    have hphase := h.ring.phase
    rw [pc] at hphase
    have hunborn : s.pc (some ⟨i, lt⟩) = .unborn := Inv.eq_unborn ((hphase ⟨i, lt⟩).1.mpr (Nat.le_refl i))
    have hok : (s.pipes.fork none (some ⟨i, lt⟩)).Ok q := by
      refine h.ok.fork fun k e => ?_
      exact ((h.proc _).ofile (k, e)).trans (by rw [hunborn]; rfl)
    have hlen : (childCloses ⟨i, lt⟩).length ≤ 2 * N + 2 := length_loop_le
    refine ⟨q, hok, .two pc hunborn rfl rfl rfl (by simp only [rank]; omega) ?_⟩
    simp only [procPotential, rank, Pc.Passing, Bool.toNat_false, zero_mul]
    omega
  | forked ge pc =>
    have hlen : (parentCloses : List (Fd N)).length ≤ 2 * N + 2 := length_loop_le
    exact ⟨q, h.ok, .goto pc rfl rfl rfl (by simp only [rank]; omega)⟩
  | parentClosed pc | enter pc lt | leave pc ge | exited pc => exact ⟨q, h.ok, .goto pc rfl rfl rfl (by simp [rank])⟩
  | send pc awake call =>
    obtain ⟨-, ⟨-, hclosed, -⟩ | ⟨rfl, hok⟩⟩ := h.ok.pipewrite_ret call
    · have := h.stopped_of_closed (0, .read) hclosed
      rw [pc] at this
      cases this
    · exact ⟨_, hok, .send rfl rfl pc⟩
  | sendSleep pc awake call | parentWriteSleep pc awake call => exact absurd (h.ok.pipewrite_sleep call) (h.not_full 0)
  | parentRead pc awake call | read pc awake call =>
    obtain ⟨-, -, bs, hq, hok⟩ := h.read_ret call
    exact ⟨_, hok, .read rfl rfl pc hq (by simp [weightProc, weightPipe])⟩
  | parentEof pc awake call => exact absurd call (h.parent_no_eof pc)
  | parentReadSleep pc awake call | readSleep pc awake call =>
    obtain ⟨rfl, -, hok⟩ := h.ok.piperead_sleep call
    exact ⟨q, hok, .inr ⟨rfl, awake_sleep awake⟩⟩
  | parentWrite pc awake call =>
    obtain ⟨-, ⟨hr, -⟩ | ⟨-, hok⟩⟩ := h.ok.pipewrite_ret call
    · cases hr
    · have hl := h.ring.loops
      rw [pc] at hl
      exact ⟨_, hok, .round rfl rfl pc hl⟩
  | parentWriteFail pc awake call ne => exact absurd call (h.parent_no_fail pc ne)
  | stopWrite pc | close pc | exitClose pc => exact ⟨q, h.ok.fileclose, .goto pc rfl rfl rfl (by simp [rank])⟩
  | stopRead pc => exact ⟨q, h.ok.fileclose, .goto pc rfl rfl rfl (by simp only [rank]; omega)⟩
  | wait lt pc zombie =>
    exact ⟨q, h.ok, .two pc zombie rfl rfl rfl (by simp only [rank]; omega) (by simp [procPotential, rank, Pc.Passing])⟩
  | waited ge pc =>
    exact ⟨q, h.ok, .goto pc rfl rfl rfl (by simp only [rank, length_allFds]; omega)⟩
  | childClosed pc => exact ⟨q, h.ok, .goto pc rfl rfl rfl (by simp only [rank]; omega)⟩
  | eof pc awake call =>
    obtain ⟨-, ⟨-, -, -, hok⟩ | ⟨ch, bs, hr, -⟩⟩ := h.ok.piperead_ret call
    · exact ⟨q, hok, .goto pc rfl rfl rfl (by simp only [rank, length_allFds]; omega)⟩
    · cases hr
  | @write c t pc awake call =>
    obtain ⟨-, ⟨hr, -⟩ | ⟨-, hok⟩⟩ := h.ok.pipewrite_ret call
    · cases hr
    · refine ⟨_, hok, .write rfl rfl pc ?_⟩
      have := c.isLt
      simp only [weightPipe, weightProc, Fin.val_succ]
      omega
  | writeFail pc awake call ne =>
    obtain ⟨-, ⟨-, -, hok⟩ | ⟨hr, -⟩⟩ := h.ok.pipewrite_ret call
    · exact ⟨q, hok, .goto pc rfl rfl rfl (by simp only [rank, length_allFds]; omega)⟩
    · exact absurd hr ne
  | writeSleep pc awake call => exact absurd (h.ok.pipewrite_sleep call) (h.not_full _)

/-- The potential, read off the pipes. -/
def State.potential (L : Nat) (s : State N) : Nat :=
  ∑ p, procPotential p (s.pc p) + ∑ k, (s.pipes.pipe k).count * weightPipe k + (L - s.loopsDone) * (2 * N + 4)

theorem potential_eq (h : s.pipes.Ok q) : s.potential L = Circulate.potential L s.pc q s.loopsDone := by
  simp only [State.potential, Circulate.potential, (h.holds _).count_eq]

theorem step_lt (h : Reachable L s) (hst : Step L s s') :
    toLex (s'.potential L, s'.awake) < toLex (s.potential L, s.awake) := by
  obtain ⟨q, hq⟩ := Inv.reach h
  obtain ⟨q', hok, hfwd⟩ := hq.forward hst
  rw [Prod.Lex.toLex_lt_toLex, potential_eq hq.ok, potential_eq hok]
  exact hfwd

theorem no_infinite_run (h : Reachable L s) (r : Nat → State N) (h0 : r 0 = s) : ¬ ∀ i, Step L (r i) (r (i + 1)) := by
  intro hr
  have hreach : ∀ i, Reachable L (r i) := by
    intro i
    induction i with
    | zero => exact h0 ▸ h
    | succ i ih => exact ih.tail (hr i)
  refine not_strictAnti_of_wellFoundedLT (fun i => toLex ((r i).potential L, (r i).awake)) ?_
  exact strictAnti_nat_of_succ_lt fun i => step_lt (hreach i) (hr i)

theorem Loops.eq_of_left {n : Nat} (h : Loops L k n) (hk : k.Left = true) : n = L := by
  cases k <;> first | exact h | cases hk

/-- In every run of the ring: the bytes in the pipes and the processes that have read one and not passed it on number at
most one; it is the byte that was sent; the parent leaves its loop after `L` rounds; no child exits before the parent has
closed its write end; unless all have exited, and the parent has waited for all children, some process can go on; and no
run goes on for ever. -/
theorem ring_runs (L : Nat) (s : State N) (h : Reachable L s) :
    s.bytes ≤ 1 ∧
      (∀ k, ∃ bs, (s.pipes.pipe k).Holds bs ∧ ∀ b ∈ bs, b = theByte) ∧
      (∀ p, (s.pc p).Passing = true → s.buf p = theByte) ∧
      ((s.pc none).Left = true → s.loopsDone = L) ∧
      (∀ c, (s.pc (some c)).Exits = true → s.pipes.ofile none 0 .write = false) ∧
      (((∃ st, s.pc none = .zombie st) ∧ ∀ c, s.pc (some c) = .reaped) ∨ ∃ s', Step L s s') ∧
      ∀ r : Nat → State N, r 0 = s → ¬ ∀ i, Step L (r i) (r (i + 1)) := by
  obtain ⟨q, hq⟩ := Inv.reach h
  refine ⟨?_, ?_, ?_, ?_, ?_, hq.progress, fun r h0 => no_infinite_run h r h0⟩
  · have hle := hq.ring.tokens.le
    rwa [total, ← Finset.sum_congr rfl fun k _ => (hq.ok.holds k).count_eq] at hle
  · intro k
    exact ⟨q k, hq.ok.holds k, hq.ring.values k⟩
  · intro p hp
    exact (hq.proc p).value (.inl hp)
  · intro hleft
    exact hq.ring.loops.eq_of_left hleft
  · intro c hc
    have hstop := hq.ring.exits c hc
    rw [(hq.proc none).ofile (0, .write)]
    cases hp : s.pc none <;> rw [hp] at hstop <;> cases hstop
    all_goals simp [has]

/-- Three children; the pipes have been created. -/
def threeChildren : State 3 where
  pipes := ⟨fun _ => Pipe.alloc fun _ => 0, fun p _ _ => p.isNone, fun _ => none⟩
  pc := fun p => if p.isNone then .fork 0 else .unborn
  buf := fun _ => 0
  loopsDone := 0

def closeAll (s : State N) (p : Proc N) : List (Fd N) → State N
  | [] => s
  | fd :: todo => closeAll { s.goto p (.close todo) with pipes := s.pipes.fileclose p fd.1 fd.2 } p todo

theorem reach_closeAll {p : Proc N} {todo : List (Fd N)} (h : Reachable L s) (pc : s.pc p = .close todo) :
    Reachable L (closeAll s p todo) := by
  induction todo generalizing s with
  | nil => exact h
  | cons fd todo ih => exact ih (h.tail (.close pc)) (Function.update_self ..)

/-- Child 0 passes the byte on, and child 1 sleeps in `read`. -/
theorem ring_runs_three : ∃ s : State 3, Reachable 5000 s ∧ s.pc (some 0) = .write ∧ s.pc (some 1) = .read ∧
    s.pipes.chan (some 1) ≠ none ∧ s.bytes ≤ 1 ∧ s.buf (some 0) = theByte ∧ ∃ s', Step 5000 s s' := by
  have h : Reachable 5000 threeChildren :=
    .of_init ⟨fun _ => ⟨_, rfl⟩, fun _ _ _ => rfl, fun _ => rfl, rfl, fun _ => rfl, rfl⟩
  have h := h.tail (.fork (i := 0) (by decide) rfl)
  have h := h.tail (.fork (i := 1) (by decide) rfl)
  have h := h.tail (.fork (i := 2) (by decide) rfl)
  have h := h.tail (.forked le_rfl rfl)
  have h := (reach_closeAll (p := none) h rfl).tail (.parentClosed rfl)
  have h := h.tail (.send rfl rfl rfl)
  have h := (reach_closeAll (p := some 0) h rfl).tail (.childClosed (c := 0) rfl)
  have h := h.tail (.read (c := 0) rfl rfl rfl)
  have h := (reach_closeAll (p := some 1) h rfl).tail (.childClosed (c := 1) rfl)
  have h := h.tail (.readSleep (c := 1) rfl rfl rfl)
  obtain ⟨hbytes, -, hbuf, -, -, hprog, -⟩ := ring_runs 5000 _ h
  refine ⟨_, h, rfl, rfl, by decide, hbytes, hbuf _ rfl, ?_⟩
  rcases hprog with ⟨⟨st, hst⟩, -⟩ | hstep
  · cases hst
  · exact hstep

end Circulate

end Xv6
