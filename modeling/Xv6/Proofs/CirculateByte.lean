import Xv6.Lib.Count
import Xv6.CirculateByte
import Xv6.Proofs.Pipes

/-!
# The ring of processes

The invariant has a part for each process (`Local`: which ends it has open, what it sleeps on, what it carries) and a part
for the ring (`Global`: one byte at most, exactly one while the parent is in its loop; nobody exits before the parent has
closed its write end). An end that its process keeps stays open until the parent stops (`Inv.open_of_keep`), so until then
no `read` comes to the end of its pipe and no `write` fails.
-/

namespace Xv6

namespace Circulate

open Function

variable {N L : Nat} {s s' : State N} {p p' : Proc N} {c : Fin N} {fd : Fd N} {k k₀ : Pc N}
  {q q' : Fin (N + 1) → List UInt8} {t : Pipes (Proc N) (Fin (N + 1))}
  {i : Fin (N + 1)} {b : UInt8} {st : Int} {todo : List (Fd N)}

/-! ### The ends a process has open -/

/-- The pipe a process reads, and the one it writes. -/
def pipeOf : Proc N → PipeEnd → Fin (N + 1)
  | none, .read => Fin.last N
  | none, .write => ⟨0, Nat.succ_pos N⟩
  | some c, .read => c.castSucc
  | some c, .write => c.succ

/-- The two ends that a process needs. -/
def Keep (p : Proc N) (fd : Fd N) : Bool := fd.1 = pipeOf p fd.2

def has (p : Proc N) : Pc N → Fd N → Bool
  | .unborn, _ => false
  | .fork _, _ => true
  | .close todo, fd => decide (fd ∈ todo) || Keep p fd
  | .stopRead, fd => Keep p fd && fd.2 = .read
  | .wait _, _ => false
  | .exit _ todo, fd => p.isSome && (decide (fd ∈ todo) && Keep p fd)
  | .zombie _, _ => false
  | .reaped, _ => false
  | _, fd => Keep p fd

theorem mem_loop {a b : Fin (N + 1)} {x y : PipeEnd} : (fd ∈ (List.finRange (N + 1)).flatMap fun k =>
      (if k ≠ a then [(k, x)] else []) ++ (if k ≠ b then [(k, y)] else [])) ↔
      (fd.1 ≠ a ∧ fd.2 = x) ∨ (fd.1 ≠ b ∧ fd.2 = y) := by
  obtain ⟨k, e⟩ := fd
  have hone : ∀ {a j : Fin (N + 1)} {x : PipeEnd}, (k, e) ∈ (if j ≠ a then [(j, x)] else []) ↔ j = k ∧ k ≠ a ∧ e = x := by
    intro a j x
    split
    · rename_i hj
      simp only [List.mem_singleton, Prod.mk.injEq]
      constructor
      · rintro ⟨rfl, rfl⟩
        exact ⟨rfl, hj, rfl⟩
      · rintro ⟨rfl, -, rfl⟩
        exact ⟨rfl, rfl⟩
    · rename_i hj
      simp only [List.not_mem_nil, false_iff]
      rintro ⟨rfl, hne, -⟩
      exact hj hne
  simp only [List.mem_flatMap, List.mem_finRange, true_and, List.mem_append, hone, ← and_or_left, exists_eq_left]

theorem nodup_pipes {f : Fin (N + 1) → List (Fd N)} (hn : ∀ k, (f k).Nodup) (hf : ∀ k, ∀ fd ∈ f k, fd.1 = k) :
    ((List.finRange (N + 1)).flatMap f).Nodup := by
  refine List.nodup_flatMap.mpr ⟨fun k _ => hn k, (List.nodup_finRange (N + 1)).imp ?_⟩
  intro i j hij fd hi hj
  exact hij ((hf i fd hi).symm.trans (hf j fd hj))

theorem nodup_loop {a b : Fin (N + 1)} {x y : PipeEnd} (hxy : x ≠ y) : ((List.finRange (N + 1)).flatMap fun k =>
      (if k ≠ a then [(k, x)] else []) ++ (if k ≠ b then [(k, y)] else [])).Nodup := by
  refine nodup_pipes (fun k => by split <;> split <;> simp [hxy]) fun k fd hk => ?_
  rcases List.mem_append.mp hk with hk | hk <;> split at hk <;> first | cases hk; done | rw [List.mem_singleton.mp hk]

theorem nodup_childCloses : (childCloses c).Nodup := nodup_loop (by simp)

theorem nodup_parentCloses : (parentCloses : List (Fd N)).Nodup := nodup_loop (by simp)

theorem mem_childCloses : fd ∈ childCloses c ↔ Keep (some c) fd = false := by
  rw [childCloses, mem_loop, Keep, decide_eq_false_iff_not]
  obtain ⟨k, e⟩ := fd
  cases e <;> simp [pipeOf]

theorem mem_parentCloses : fd ∈ (parentCloses : List (Fd N)) ↔ Keep none fd = false := by
  rw [parentCloses, mem_loop, Keep, decide_eq_false_iff_not]
  obtain ⟨k, e⟩ := fd
  cases e <;> simp [pipeOf]

theorem mem_allFds : fd ∈ (allFds : List (Fd N)) := by
  obtain ⟨k, e⟩ := fd
  refine List.mem_flatMap.mpr ⟨k, List.mem_finRange k, ?_⟩
  cases e <;> simp

theorem nodup_allFds : (allFds : List (Fd N)).Nodup := by
  refine nodup_pipes (fun k => by simp) fun k fd hk => ?_
  simp only [List.mem_cons, List.not_mem_nil, or_false] at hk
  rcases hk with rfl | rfl <;> rfl

/-! ### The invariant -/

def Sleeps (p : Proc N) (k : Pc N) (x : Fd N) : Prop :=
  k = .read ∧ x = (pipeOf p .read, .read) ∨ (k = .write ∨ k = .send) ∧ x = (pipeOf p .write, .write)

def Pc.Blocks : Pc N → Bool
  | .read => true
  | .write => true
  | .send => true
  | _ => false

def Todo (p : Proc N) : Pc N → Prop
  | .close todo => todo.Nodup ∧ ∀ fd ∈ todo, Keep p fd = false
  | .exit _ todo => todo.Nodup
  | _ => True

def Kind : Proc N → Pc N → Bool
  | none, .unborn => false
  | none, .reaped => false
  | none, _ => true
  | some _, .fork _ => false
  | some _, .send => false
  | some _, .loop => false
  | some _, .stopWrite => false
  | some _, .stopRead => false
  | some _, .wait _ => false
  | some _, _ => true

structure Local (s : State N) (p : Proc N) : Prop where
  ofile (fd : Fd N) : s.pipes.ofile p fd.1 fd.2 = has p (s.pc p) fd
  asleep (x : Fd N) (h : s.pipes.chan p = some x) : Sleeps p (s.pc p) x
  todo : Todo p (s.pc p)
  kind : Kind p (s.pc p) = true
  value (h : (s.pc p).Passing = true ∨ s.pc p = .send) : s.buf p = theByte

/-- The parent has closed its write end. -/
def Pc.Stopped : Pc N → Bool
  | .stopRead => true
  | .wait _ => true
  | .exit _ _ => true
  | .zombie _ => true
  | _ => false

def Pc.IsUnborn : Pc N → Bool
  | .unborn => true
  | _ => false

def Pc.IsReaped : Pc N → Bool
  | .reaped => true
  | _ => false

def Phase (pc : Proc N → Pc N) : Pc N → Prop
  | .fork i => ∀ c : Fin N, ((pc (some c)).IsUnborn = true ↔ i ≤ c.val) ∧ (pc (some c)).IsReaped = false
  | .wait i => (∀ c, (pc (some c)).IsUnborn = false) ∧ (Finset.univ.filter fun c => (pc (some c)).IsReaped).card = i
  | .exit _ _ => ∀ c, (pc (some c)).IsReaped = true
  | .zombie _ => ∀ c, (pc (some c)).IsReaped = true
  | _ => ∀ c, (pc (some c)).IsUnborn = false ∧ (pc (some c)).IsReaped = false

def Loops (L : Nat) : Pc N → Nat → Prop
  | .fork _, n => n = 0
  | .close _, n => n = 0
  | .send, n => n = 0
  | .loop, n => n ≤ L
  | .read, n => n < L
  | .write, n => n < L
  | _, n => n = L

def Tokens : Pc N → Nat → Prop
  | .fork _, n => n = 0
  | .close _, n => n = 0
  | .send, n => n = 0
  | .loop, n => n = 1
  | .read, n => n = 1
  | .write, n => n = 1
  | .stopWrite, n => n = 1
  | _, n => n ≤ 1

def total (pc : Proc N → Pc N) (q : Fin (N + 1) → List UInt8) : Nat :=
  ∑ k, (q k).length + ∑ p, (pc p).Passing.toNat

structure Global (L : Nat) (s : State N) (q : Fin (N + 1) → List UInt8) : Prop where
  values (k : Fin (N + 1)) (b : UInt8) (h : b ∈ q k) : b = theByte
  phase : Phase s.pc (s.pc none)
  exits (c : Fin N) (h : (s.pc (some c)).Exits = true) : (s.pc none).Stopped = true
  loops : Loops L (s.pc none) s.loopsDone
  tokens : Tokens (s.pc none) (total s.pc q)

structure Inv (L : Nat) (s : State N) (q : Fin (N + 1) → List UInt8) : Prop where
  ok : s.pipes.Ok q
  proc (p : Proc N) : Local s p
  ring : Global L s q

/-! ### Counting -/

theorem total_pc (pc : Proc N → Pc N) (p : Proc N) (k : Pc N) :
    total (update pc p k) q + (pc p).Passing.toNat = total pc q + k.Passing.toNat := by
  have := Family.sum_update (fun _ k => (Pc.Passing k).toNat) pc p k
  simp only [total]
  omega

theorem total_queue (pc : Proc N → Pc N) (i : Fin (N + 1)) (bs : List UInt8) :
    total pc (update q i bs) + (q i).length = total pc q + bs.length := by
  have := Family.sum_update (fun _ bs => List.length bs) q i bs
  simp only [total]
  omega

theorem Tokens.le {n : Nat} (h : Tokens k n) : n ≤ 1 := by
  cases k <;> simp only [Tokens] at h <;> omega

namespace Inv

theorem length_le (h : Inv L s q) (k : Fin (N + 1)) : (q k).length ≤ 1 := by
  have hle := h.ring.tokens.le
  have hone : (q k).length ≤ ∑ k, (q k).length := Finset.single_le_sum (fun k _ => Nat.zero_le (q k).length) (Finset.mem_univ k)
  rw [total] at hle
  omega

theorem not_full (h : Inv L s q) (k : Fin (N + 1)) : (q k).length ≠ PIPESIZE := by
  have := h.length_le k
  have hsize : PIPESIZE = 512 := rfl
  omega

theorem fork_of_unborn (h : Inv L s q) (hc : s.pc (some c) = .unborn) : ∃ i, s.pc none = .fork i := by
  have hphase := h.ring.phase
  cases hp : s.pc none with
  | fork i => exact ⟨i, rfl⟩
  | wait i =>
    rw [hp] at hphase
    have := hphase.1 c
    rw [hc] at this
    cases this
  | _ =>
    rw [hp] at hphase
    have := hphase c
    rw [hc] at this
    simp [Pc.IsUnborn, Pc.IsReaped] at this

theorem open_of_keep (h : Inv L s q) (hs : (s.pc none).Stopped = false) (hk : Keep p fd = true) :
    s.pipes.Open fd.1 fd.2 := by
  have hparent : ∀ i, s.pc none = .fork i → s.pipes.Open fd.1 fd.2 := by
    intro i hi
    exact ⟨none, ((h.proc none).ofile fd).trans (by rw [hi]; rfl)⟩
  have hown : has p (s.pc p) fd = true → s.pipes.Open fd.1 fd.2 := by
    intro hh
    exact ⟨p, ((h.proc p).ofile fd).trans hh⟩
  have hkind := (h.proc p).kind
  cases p with
  | none =>
    refine hown ?_
    cases hp : s.pc none with
    | unborn | reaped =>
      rw [hp] at hkind
      cases hkind
    | fork i => rfl
    | close todo => simp [has, hk]
    | stopRead | wait i | exit st todo | zombie st =>
      rw [hp] at hs
      cases hs
    | _ => exact hk
  | some c =>
    cases hp : s.pc (some c) with
    | unborn =>
      obtain ⟨i, hi⟩ := h.fork_of_unborn hp
      exact hparent i hi
    | close todo => exact hown (by simp [hp, has, hk])
    | read | write => exact hown (by rw [hp]; exact hk)
    | exit st todo | zombie st | reaped => exact absurd (h.ring.exits c (by rw [hp]; rfl)) (by rw [hs]; simp)
    | _ =>
      rw [hp] at hkind
      cases hkind

end Inv

theorem keep_pipeOf (p : Proc N) (e : PipeEnd) : Keep p (pipeOf p e, e) = true := decide_eq_true rfl

theorem exists_keep (fd : Fd N) : ∃ p, Keep p fd = true := by
  obtain ⟨k, e⟩ := fd
  cases e with
  | read =>
    rcases Fin.eq_castSucc_or_eq_last k with ⟨c, rfl⟩ | rfl
    · exact ⟨some c, keep_pipeOf (some c) .read⟩
    · exact ⟨none, keep_pipeOf none .read⟩
  | write =>
    rcases Fin.eq_zero_or_eq_succ k with rfl | ⟨c, rfl⟩
    · exact ⟨none, keep_pipeOf none .write⟩
    · exact ⟨some c, keep_pipeOf (some c) .write⟩

theorem Inv.stopped_of_closed (h : Inv L s q) (fd : Fd N) (hc : ¬ s.pipes.Open fd.1 fd.2) : (s.pc none).Stopped = true := by
  by_contra hs
  obtain ⟨p, hp⟩ := exists_keep fd
  exact hc (h.open_of_keep (by simpa using hs) hp)

/-! ### A step of one process -/

theorem Local.other (h : Local s p) (hpc : s'.pc p = s.pc p) (hbuf : s'.buf p = s.buf p)
    (hof : ∀ k e, s'.pipes.ofile p k e = s.pipes.ofile p k e)
    (hchan : ∀ x, s'.pipes.chan p = some x → s.pipes.chan p = some x) : Local s' p := by
  refine ⟨?_, ?_, ?_, ?_, ?_⟩
  · intro fd
    rw [hof, hpc]
    exact h.ofile fd
  · intro x hx
    rw [hpc]
    exact h.asleep x (hchan x hx)
  · rw [hpc]
    exact h.todo
  · rw [hpc]
    exact h.kind
  · rw [hpc, hbuf]
    exact h.value

theorem Inv.move (h : Inv L s q) (hpc : s'.pc = update s.pc p k) (hbuf : ∀ p', p' ≠ p → s'.buf p' = s.buf p')
    (hof : ∀ p', p' ≠ p → ∀ k e, s'.pipes.ofile p' k e = s.pipes.ofile p' k e)
    (hchan : ∀ p', p' ≠ p → ∀ x, s'.pipes.chan p' = some x → s.pipes.chan p' = some x) (hok : s'.pipes.Ok q')
    (hlocal : Local s' p) (hring : Global L s' q') : Inv L s' q' := by
  refine ⟨hok, fun p' => ?_, hring⟩
  by_cases hp : p' = p
  · rw [hp]
    exact hlocal
  · exact (h.proc p').other (by rw [hpc, update_of_ne hp]) (hbuf p' hp) (hof p' hp) (hchan p' hp)

theorem Local.awake (h : Local s p) (pc : s.pc p = k) (hk : k.Blocks = false) : s.pipes.chan p = none := by
  rw [Option.eq_none_iff_forall_ne_some]
  intro x hx
  rcases h.asleep x hx with ⟨hpc, -⟩ | ⟨hpc | hpc, -⟩ <;> rw [← pc, hpc] at hk <;> cases hk

theorem Local.awake_at (hpc : s.pc p = k) (hof : ∀ fd, s.pipes.ofile p fd.1 fd.2 = has p k fd)
    (hawake : s.pipes.chan p = none) (htodo : Todo p k) (hkind : Kind p k = true)
    (hval : k.Passing = true ∨ k = .send → s.buf p = theByte) : Local s p := by
  subst hpc
  refine ⟨hof, fun x hx => ?_, htodo, hkind, hval⟩
  rw [hawake] at hx
  cases hx

theorem still_awake (hawake : s.pipes.chan p = none)
    (hchan : ∀ x, s'.pipes.chan p = some x → s.pipes.chan p = some x) : s'.pipes.chan p = none := by
  rw [Option.eq_none_iff_forall_ne_some]
  intro x hx
  have := hchan x hx
  rw [hawake] at this
  cases this

/-! ### The ring -/

theorem update_child {pc : Proc N → Pc N} (f : Pc N → Bool) (hk : f k = f (pc (some c))) (c' : Fin N) :
    f (update pc (some c) k (some c')) = f (pc (some c')) := by
  rcases eq_or_ne c' c with rfl | hne
  · rw [update_self, hk]
  · rw [update_of_ne (by simpa using hne)]

theorem Phase.child {pc : Proc N → Pc N} {k' : Pc N} (h : Phase pc k')
    (hu : k.IsUnborn = (pc (some c)).IsUnborn) (hr : k.IsReaped = (pc (some c)).IsReaped) :
    Phase (update pc (some c) k) k' := by
  cases k' <;> simp only [Phase, update_child Pc.IsUnborn hu, update_child Pc.IsReaped hr] at h ⊢ <;> exact h

theorem Global.child (h : Global L s q) (hpc : s'.pc = update s.pc (some c) k) (hl : s'.loopsDone = s.loopsDone)
    (hval : ∀ i, ∀ b ∈ q' i, b = theByte) (hu : k.IsUnborn = (s.pc (some c)).IsUnborn)
    (hr : k.IsReaped = (s.pc (some c)).IsReaped)
    (hex : k.Exits = true → (s.pc (some c)).Exits = true ∨ (s.pc none).Stopped = true)
    (htok : total s'.pc q' = total s.pc q) : Global L s' q' := by
  have hnone : s'.pc none = s.pc none := by rw [hpc, update_of_ne (by simp)]
  refine ⟨hval, ?_, ?_, ?_, ?_⟩
  · rw [hnone, hpc]
    exact h.phase.child hu hr
  · intro c' hc'
    rw [hnone]
    rw [hpc] at hc'
    rcases eq_or_ne c' c with rfl | hne
    · rw [update_self] at hc'
      exact (hex hc').elim (h.exits c') id
    · rw [update_of_ne (by simpa using hne)] at hc'
      exact h.exits c' hc'
  · rw [hnone, hl]
    exact h.loops
  · rw [hnone, htok]
    exact h.tokens

theorem Global.parent (h : Global L s q) (pc : s.pc none = k₀) (hpc : s'.pc = update s.pc none k)
    (hval : ∀ i, ∀ b ∈ q' i, b = theByte) (hphase : Phase s.pc k₀ → Phase s.pc k)
    (hst : k₀.Stopped = true → k.Stopped = true) (hl : Loops L k₀ s.loopsDone → Loops L k s'.loopsDone)
    (htok : Tokens k₀ (total s.pc q) → Tokens k (total s'.pc q')) : Global L s' q' := by
  subst pc
  have hnone : s'.pc none = k := by rw [hpc, update_self]
  have hsome : ∀ c, s'.pc (some c) = s.pc (some c) := by
    intro c
    rw [hpc, update_of_ne (by simp)]
  refine ⟨hval, ?_, ?_, ?_, ?_⟩
  · rw [hnone]
    have := hphase h.phase
    cases k <;> simp only [Phase, hsome] at this ⊢ <;> exact this
  · intro c hc
    rw [hsome] at hc
    rw [hnone]
    exact hst (h.exits c hc)
  · rw [hnone]
    exact hl h.loops
  · rw [hnone]
    exact htok h.tokens

theorem Global.two (h : Global L s q) {k' : Pc N} (hpc : s'.pc = update (update s.pc (some c) k) none k')
    (hex : k.Exits = true → k'.Stopped = true) (hst : (s.pc none).Stopped = true → k'.Stopped = true)
    (hphase : Phase s'.pc k') (hl : Loops L k' s'.loopsDone) (htok : Tokens k' (total s'.pc q)) : Global L s' q := by
  have hnone : s'.pc none = k' := by rw [hpc, update_self]
  refine ⟨h.values, by rwa [hnone], ?_, by rwa [hnone], by rwa [hnone]⟩
  intro c' hc'
  rw [hnone]
  rw [hpc, update_of_ne (by simp)] at hc'
  rcases eq_or_ne c' c with rfl | hne
  · rw [update_self] at hc'
    exact hex hc'
  · rw [update_of_ne (by simpa using hne)] at hc'
    exact hst (h.exits c' hc')

theorem total_two (s : State N) (c : Fin N) (k k₀ : Pc N) : total (update (update s.pc (some c) k) none k₀) q +
    ((s.pc (some c)).Passing.toNat + (s.pc none).Passing.toNat) = total s.pc q + (k.Passing.toNat + k₀.Passing.toNat) := by
  have h1 := total_pc (q := q) s.pc (some c) k
  have h2 := total_pc (q := q) (update s.pc (some c) k) none k₀
  rw [update_of_ne (by simp)] at h2
  omega

namespace Inv

section

variable (h : Inv L s q)
include h

theorem goto (hpc : s'.pc = update s.pc p k) (hbuf : ∀ p', p' ≠ p → s'.buf p' = s.buf p')
    (hw : s.pipes.Wakes s'.pipes) (hok : s'.pipes.Ok q') (hawake : s.pipes.chan p = none)
    (hhas : has p k = has p (s.pc p)) (htodo : Todo p k) (hkind : Kind p k = true)
    (hval : k.Passing = true ∨ k = .send → s'.buf p = theByte) (hring : Global L s' q') : Inv L s' q' := by
  refine h.move hpc hbuf (fun p' _ k e => by rw [hw.ofile]) (fun p' _ => hw.chan p') hok ?_ hring
  refine .awake_at (by rw [hpc, update_self]) (fun fd => ?_) (still_awake hawake (hw.chan p)) htodo hkind hval
  rw [hw.ofile, hhas]
  exact (h.proc p).ofile fd

theorem close (fd : Fd N) (hpc : s'.pc = update s.pc p k) (hbuf : s'.buf = s.buf)
    (hpipes : s'.pipes = s.pipes.fileclose p fd.1 fd.2) (hawake : s.pipes.chan p = none)
    (hhas : ∀ fd', has p k fd' = if fd' = fd then false else has p (s.pc p) fd') (htodo : Todo p k)
    (hkind : Kind p k = true) (hval : k.Passing = true ∨ k = .send → (s.pc p).Passing = true) (hring : Global L s' q) :
    Inv L s' q := by
  have hchan : ∀ p' x, s'.pipes.chan p' = some x → s.pipes.chan p' = some x := by
    intro p' x hx
    rw [hpipes] at hx
    exact Pipes.Ok.chan_fileclose hx
  refine h.move hpc (fun p' _ => by rw [hbuf]) ?_ (fun p' _ => hchan p') ?_ ?_ hring
  · intro p' hp k e
    rw [hpipes, Pipes.Ok.ofile_fileclose, if_neg fun hc => hp hc.1]
  · rw [hpipes]
    exact h.ok.fileclose
  · refine .awake_at (by rw [hpc, update_self]) ?_ (still_awake hawake (hchan p)) htodo hkind ?_
    · intro fd'
      rw [hpipes, Pipes.Ok.ofile_fileclose, hhas, ← (h.proc p).ofile]
      simp only [true_and, Prod.ext_iff]
    · intro hc
      rw [hbuf]
      exact (h.proc p).value (.inl (hval hc))

theorem sleep {x : Fd N} (hx : Sleeps p (s.pc p) x) (hok : (s.pipes.sleep p x).Ok q) :
    Inv L { s with pipes := s.pipes.sleep p x } q := by
  refine ⟨hok, fun p' => ?_, h.ring.values, h.ring.phase, h.ring.exits, h.ring.loops, h.ring.tokens⟩
  have hl := h.proc p'
  refine ⟨hl.ofile, ?_, hl.todo, hl.kind, hl.value⟩
  intro y hy
  have hy : update s.pipes.chan p (some x) p' = some y := hy
  rcases eq_or_ne p' p with rfl | hne
  · rw [update_self, Option.some.injEq] at hy
    rw [← hy]
    exact hx
  · rw [update_of_ne hne] at hy
    exact hl.asleep y hy

theorem read_sleep (pc : s.pc p = .read) (call : s.pipes.piperead p (pipeOf p .read) = (.sleep, t)) :
    Inv L { s with pipes := t } q := by
  obtain ⟨rfl, -, hok⟩ := h.ok.piperead_sleep call
  exact h.sleep (.inl ⟨pc, rfl⟩) hok

theorem read_ret (call : s.pipes.piperead p i = (.ret (some b), t)) :
    s.pipes.Wakes t ∧ b = theByte ∧ ∃ bs, q i = b :: bs ∧ t.Ok (update q i bs) := by
  obtain ⟨hw, ⟨hr, -⟩ | ⟨ch, bs, hr, hq, hok⟩⟩ := h.ok.piperead_ret call
  · cases hr
  · cases hr
    exact ⟨hw, h.ring.values i b (by rw [hq]; exact List.mem_cons_self), bs, hq, hok⟩

theorem values_pop {bs : List UInt8} (hq : q i = b :: bs) (j : Fin (N + 1))
    (x : UInt8) (hx : x ∈ update q i bs j) : x = theByte := by
  rcases eq_or_ne j i with rfl | hne
  · rw [update_self] at hx
    exact h.ring.values j x (by rw [hq]; exact List.mem_cons_of_mem _ hx)
  · rw [update_of_ne hne] at hx
    exact h.ring.values j x hx

theorem values_push (hb : b = theByte) (j : Fin (N + 1))
    (x : UInt8) (hx : x ∈ update q i (q i ++ [b]) j) : x = theByte := by
  rcases eq_or_ne j i with rfl | hne
  · rw [update_self, List.mem_append, List.mem_singleton] at hx
    rcases hx with hx | rfl
    · exact h.ring.values j x hx
    · exact hb
  · rw [update_of_ne hne] at hx
    exact h.ring.values j x hx

end

theorem total_read {bs : List UInt8} (hq : q i = b :: bs) (hk0 : (s.pc p).Passing = false)
    (hk : k.Passing = true) : total (update s.pc p k) (update q i bs) = total s.pc q := by
  have h1 := total_queue (q := q) (update s.pc p k) i bs
  have h2 := total_pc (q := q) s.pc p k
  rw [hk0, hk] at h2
  rw [hq] at h1
  simp only [List.length_cons, Bool.toNat_true, Bool.toNat_false] at h1 h2
  omega

theorem total_write (hk0 : (s.pc p).Passing = true) (hk : k.Passing = false) :
    total (update s.pc p k) (update q i (q i ++ [b])) = total s.pc q := by
  have h1 := total_queue (q := q) (update s.pc p k) i (q i ++ [b])
  have h2 := total_pc (q := q) s.pc p k
  rw [hk0, hk] at h2
  simp only [List.length_append, List.length_singleton, Bool.toNat_true, Bool.toNat_false] at h1 h2
  omega

theorem total_same (hk : k.Passing = (s.pc p).Passing) : total (update s.pc p k) q = total s.pc q := by
  have h := total_pc (q := q) s.pc p k
  rw [hk] at h
  omega

end Inv

theorem Global.keep (h : Global L s q) (pc : s.pc p = k₀) (hpc : s'.pc = update s.pc p k)
    (hl : s'.loopsDone = s.loopsDone) (hval : ∀ i, ∀ b ∈ q' i, b = theByte) (htotal : total s'.pc q' = total s.pc q)
    (hu : k.IsUnborn = k₀.IsUnborn) (hr : k.IsReaped = k₀.IsReaped) (hex : k.Exits = true → k₀.Exits = true)
    (hphase : Phase s.pc k₀ → Phase s.pc k) (hst : k₀.Stopped = true → k.Stopped = true)
    (hloops : Loops L k₀ s.loopsDone → Loops L k s.loopsDone) (htok : ∀ n, Tokens k₀ n → Tokens k n) : Global L s' q' := by
  cases p with
  | none => exact h.parent pc hpc hval hphase hst (by rwa [hl]) (by rw [htotal]; exact htok _)
  | some c =>
    subst pc
    exact h.child hpc hl hval hu hr (fun he => .inl (hex he)) htotal

theorem wakes_refl (s : Pipes (Proc N) (Fin (N + 1))) : s.Wakes s := ⟨rfl, fun _ _ h => h⟩

theorem has_exit (c : Fin N) (st : Int) : has (some c) (.exit st allFds) = has (some c) .read := by
  funext fd
  simp [has, mem_allFds]

theorem has_close_nil (p : Proc N) : has p (.close []) = has p .read := by
  funext fd
  simp [has]

/-! ### Steps of a child -/

namespace Inv

section

variable (h : Inv L s q)
include h

theorem child_closed (pc : s.pc (some c) = .close []) : Inv L (s.goto (some c) .read) q := by
  refine h.goto rfl (fun _ _ => rfl) (wakes_refl _) h.ok ?_ ?_ trivial rfl (by simp [Pc.Passing]) ?_
  · exact (h.proc _).awake pc rfl
  · rw [pc, has_close_nil]
  · refine h.ring.child rfl rfl h.ring.values (by rw [pc]; rfl) (by rw [pc]; rfl) (by simp [Pc.Exits]) ?_
    exact total_same (by rw [pc]; rfl)

theorem child_exit (fd : Fd N) (pc : s.pc (some c) = k) (awake : s.pipes.chan (some c) = none)
    (hw : s.pipes.Wakes t) (hok : t.Ok q) (hclosed : ¬ s.pipes.Open fd.1 fd.2) (hhas : has (some c) k = has (some c) .read)
    (hu : k.IsUnborn = false) (hr : k.IsReaped = false)
    (hpass : (Pc.exit st (allFds : List (Fd N))).Passing = k.Passing) :
    Inv L { s.goto (some c) (.exit st allFds) with pipes := t } q := by
  refine h.goto rfl (fun _ _ => rfl) hw hok awake (by rw [pc, has_exit, hhas]) nodup_allFds rfl ?_ ?_
  · rw [hpass, ← pc]
    rintro (hc | hc)
    · exact (h.proc (some c)).value (.inl hc)
    · cases hc
  · refine h.ring.child rfl rfl h.ring.values (by rw [pc, hu]; rfl) (by rw [pc, hr]; rfl) ?_ ?_
    · intro _
      exact .inr (h.stopped_of_closed fd hclosed)
    · exact total_same (by rw [pc, hpass])

theorem child_eof (pc : s.pc (some c) = .read) (awake : s.pipes.chan (some c) = none)
    (call : s.pipes.piperead (some c) c.castSucc = (.ret none, t)) :
    Inv L { s.goto (some c) (.exit 0 allFds) with pipes := t } q := by
  obtain ⟨hw, ⟨-, -, hclosed, hok⟩ | ⟨ch, bs, hr, -⟩⟩ := h.ok.piperead_ret call
  · exact h.child_exit (c.castSucc, .write) pc awake hw hok hclosed rfl rfl rfl rfl
  · cases hr

theorem child_write (pc : s.pc (some c) = .write) (awake : s.pipes.chan (some c) = none)
    (call : s.pipes.pipewrite (some c) c.succ (s.buf (some c)) = (.ret 1, t)) :
    ∃ q', Inv L { s.goto (some c) .read with pipes := t } q' := by
  obtain ⟨hw, ⟨hr, -⟩ | ⟨-, hok⟩⟩ := h.ok.pipewrite_ret call
  · cases hr
  · have hb := (h.proc (some c)).value (.inl (by rw [pc]; rfl))
    refine ⟨_, h.goto rfl (fun _ _ => rfl) hw hok awake (by rw [pc]; rfl) trivial rfl (by simp [Pc.Passing]) ?_⟩
    refine h.ring.child rfl rfl (h.values_push hb) (by rw [pc]; rfl) (by rw [pc]; rfl) (by simp [Pc.Exits]) ?_
    exact total_write (by rw [pc]; rfl) rfl

theorem child_write_fail {r : Int} (pc : s.pc (some c) = .write) (awake : s.pipes.chan (some c) = none)
    (call : s.pipes.pipewrite (some c) c.succ (s.buf (some c)) = (.ret r, t)) (ne : r ≠ 1) :
    Inv L { s.goto (some c) (.exit 1 allFds) with pipes := t } q := by
  obtain ⟨hw, ⟨-, hclosed, hok⟩ | ⟨hr, -⟩⟩ := h.ok.pipewrite_ret call
  · exact h.child_exit (c.succ, .read) pc awake hw hok hclosed rfl rfl rfl rfl
  · exact absurd hr ne

/-! ### Steps of both -/

theorem read_step (pc : s.pc p = .read) (awake : s.pipes.chan p = none)
    (call : s.pipes.piperead p (pipeOf p .read) = (.ret (some b), t)) :
    ∃ q', Inv L { (s.setBuf p b).goto p .write with pipes := t } q' := by
  obtain ⟨hw, hb, bs, hq, hok⟩ := h.read_ret call
  refine ⟨_, h.goto rfl ?_ hw hok awake (by rw [pc]; rfl) trivial (by cases p <;> rfl) ?_ ?_⟩
  · intro p' hp
    exact update_of_ne hp ..
  · intro _
    exact (update_self ..).trans hb
  · exact h.ring.keep pc rfl rfl (h.values_pop hq) (total_read (s := s) hq (by rw [pc]; rfl) rfl) rfl rfl id id id id
      fun _ => id

theorem close_step (pc : s.pc p = .close (fd :: todo)) :
    Inv L { s.goto p (.close todo) with pipes := s.pipes.fileclose p fd.1 fd.2 } q := by
  have htodo := (h.proc p).todo
  rw [pc] at htodo
  obtain ⟨hnodup, hkeep⟩ := htodo
  rw [List.nodup_cons] at hnodup
  have hkind := (h.proc p).kind
  rw [pc] at hkind
  refine h.close fd rfl rfl rfl ?_ ?_ ⟨hnodup.2, fun fd' hfd => hkeep fd' (List.mem_cons_of_mem _ hfd)⟩ ?_
    (by simp [Pc.Passing]) ?_
  · exact (h.proc _).awake pc rfl
  · intro fd'
    rw [pc]
    simp only [has]
    split
    · rename_i heq
      rw [heq, decide_eq_false hnodup.1, hkeep fd List.mem_cons_self]
      rfl
    · rename_i hne
      simp [hne]
  · cases p <;> exact hkind
  · exact h.ring.keep pc rfl rfl h.ring.values (total_same (by rw [pc]; rfl)) rfl rfl id id id id fun _ => id

end

theorem has_exit_cons (hfd : fd ∉ todo) (fd' : Fd N) :
    has p (.exit st todo) fd' = if fd' = fd then false else has p (.exit st (fd :: todo)) fd' := by
  simp only [has]
  split
  · rename_i heq
    rw [heq, decide_eq_false hfd]
    simp
  · rename_i hne
    simp [hne]

theorem exit_close (h : Inv L s q) (pc : s.pc p = .exit st (fd :: todo)) :
    Inv L { s.goto p (.exit st todo) with pipes := s.pipes.fileclose p fd.1 fd.2 } q := by
  have htodo : (fd :: todo).Nodup := by
    have := (h.proc p).todo
    rwa [pc] at this
  rw [List.nodup_cons] at htodo
  refine h.close fd rfl rfl rfl ?_ ?_ htodo.2 (by cases p <;> rfl) ?_ ?_
  · exact (h.proc _).awake pc rfl
  · intro fd'
    rw [pc]
    exact has_exit_cons htodo.1 fd'
  · rw [pc]
    rintro (hc | hc)
    · exact hc
    · cases hc
  · exact h.ring.keep pc rfl rfl h.ring.values (total_same (by rw [pc]; rfl)) rfl rfl id id id id fun _ => id

theorem exited (h : Inv L s q) (pc : s.pc p = .exit st []) : Inv L (s.goto p (.zombie st)) q := by
  refine h.goto rfl (fun _ _ => rfl) (wakes_refl _) h.ok ?_ ?_ trivial (by cases p <;> rfl) ?_ ?_
  · exact (h.proc _).awake pc rfl
  · rw [pc]
    funext fd
    simp [has]
  · rintro (hc | hc)
    · exact (h.proc p).value (.inl (by rw [pc]; exact hc))
    · cases hc
  · exact h.ring.keep pc rfl rfl h.ring.values (total_same (by rw [pc]; rfl)) rfl rfl id id id id fun _ => id

/-! ### Steps of the parent -/

theorem eq_unborn (h : k.IsUnborn = true) : k = .unborn := by
  cases k <;> first | rfl | cases h

theorem eq_reaped (h : k.IsReaped = true) : k = .reaped := by
  cases k <;> first | rfl | cases h

section

variable (h : Inv L s q)
include h

theorem move_two {k' : Pc N} (hpc : s'.pc = update (update s.pc (some c) k) none k')
    (hbuf : s'.buf = s.buf) (hchan : s'.pipes.chan = s.pipes.chan) (hawake : s.pipes.chan none = none)
    (hawake' : s.pipes.chan (some c) = none) (hok : s'.pipes.Ok q) (hof : ∀ p fd, s'.pipes.ofile p fd.1 fd.2 =
      if p = none then has p k' fd else if p = some c then has p k fd else s.pipes.ofile p fd.1 fd.2)
    (htodo : Todo none k') (htodo' : Todo (some c) k) (hkind : Kind none k' = true) (hkind' : Kind (some c) k = true)
    (hval : k'.Passing = false ∧ k' ≠ .send) (hval' : k.Passing = false ∧ k ≠ .send) (hring : Global L s' q) :
    Inv L s' q := by
  refine ⟨hok, fun p => ?_, hring⟩
  rcases eq_or_ne p none with rfl | hp
  · refine .awake_at (by rw [hpc, update_self]) ?_ (by rw [hchan, hawake]) htodo hkind (by simp [hval])
    intro fd
    rw [hof, if_pos rfl]
  rcases eq_or_ne p (some c) with rfl | hp'
  · refine .awake_at (by rw [hpc, update_of_ne hp, update_self]) ?_ (by rw [hchan, hawake']) htodo' hkind'
      (by simp [hval'])
    intro fd
    rw [hof, if_neg hp, if_pos rfl]
  · refine (h.proc p).other ?_ (by rw [hbuf]) ?_ (fun x hx => by rwa [hchan] at hx)
    · rw [hpc, update_of_ne hp, update_of_ne hp']
    · intro k e
      exact (hof p (k, e)).trans (by rw [if_neg hp, if_neg hp'])

theorem fork {i : Nat} (lt : i < N) (pc : s.pc none = .fork i) :
    Inv L { (s.goto (some ⟨i, lt⟩) (.close (childCloses ⟨i, lt⟩))).goto none (.fork (i + 1)) with
      pipes := s.pipes.fork none (some ⟨i, lt⟩) } q := by
  have hphase := h.ring.phase
  rw [pc] at hphase
  have hunborn : s.pc (some ⟨i, lt⟩) = .unborn := eq_unborn ((hphase ⟨i, lt⟩).1.mpr (Nat.le_refl i))
  have hall : ∀ k e, s.pipes.ofile none k e = true := by
    intro k e
    exact ((h.proc none).ofile (k, e)).trans (by rw [pc]; rfl)
  refine h.move_two rfl rfl rfl ?_ ?_ (h.ok.fork ?_) ?_ trivial ⟨nodup_childCloses, fun fd hfd => mem_childCloses.mp hfd⟩ rfl
    rfl ⟨rfl, by simp⟩ ⟨rfl, by simp⟩ ?_
  · exact (h.proc none).awake pc rfl
  · exact (h.proc _).awake hunborn rfl
  · intro k e
    exact ((h.proc _).ofile (k, e)).trans (by rw [hunborn]; rfl)
  · intro p fd
    change update s.pipes.ofile (some ⟨i, lt⟩) (s.pipes.ofile none) p fd.1 fd.2 = _
    split
    · rename_i hp
      rw [hp, update_of_ne (by simp), hall]
      rfl
    · split
      · rename_i hp
        rw [hp, update_self, hall, has]
        by_cases hk : Keep (some ⟨i, lt⟩) fd = true
        · rw [hk, Bool.or_true]
        · rw [decide_eq_true (mem_childCloses.mpr (by simpa using hk)), Bool.true_or]
      · rename_i hp
        rw [update_of_ne hp]
  · refine h.ring.two rfl (by simp [Pc.Exits]) ?_ ?_ ?_ ?_
    · rw [pc]
      exact id
    · intro c
      rcases eq_or_ne c ⟨i, lt⟩ with rfl | hne
      · simp [State.goto, Pc.IsUnborn, Pc.IsReaped]
      · have hc := hphase c
        have hlt : c.val ≠ i := fun hc => hne (Fin.ext hc)
        simp only [State.goto, update_of_ne (show some c ≠ none by simp),
          update_of_ne (show some c ≠ some ⟨i, lt⟩ by simpa using hne)]
        exact ⟨hc.1.trans (by omega), hc.2⟩
    · have := h.ring.loops
      rwa [pc] at this
    · have htok := h.ring.tokens
      rw [pc] at htok
      have htot := total_two (q := q) s ⟨i, lt⟩ (.close (childCloses ⟨i, lt⟩)) (.fork (i + 1))
      rw [pc, hunborn] at htot
      exact (show total _ q = total s.pc q from htot).trans htok

theorem wait {i : Nat} (pc : s.pc none = .wait i) (zombie : s.pc (some c) = .zombie st) :
    Inv L ((s.goto (some c) .reaped).goto none (.wait (i + 1))) q := by
  have hphase := h.ring.phase
  rw [pc] at hphase
  refine h.move_two rfl rfl rfl ?_ ?_ h.ok ?_ trivial trivial rfl rfl ⟨rfl, by simp⟩ ⟨rfl, by simp⟩ ?_
  · exact (h.proc none).awake pc rfl
  · exact (h.proc _).awake zombie rfl
  · intro p fd
    change s.pipes.ofile p fd.1 fd.2 = _
    rw [(h.proc p).ofile]
    split
    · rename_i hp
      rw [hp, pc]
      rfl
    · split
      · rename_i hp
        rw [hp, zombie]
        rfl
      · rfl
  · refine h.ring.two rfl (fun _ => rfl) (fun _ => rfl) ?_ ?_ ?_
    · refine ⟨fun c' => ?_, ?_⟩
      · rcases eq_or_ne c' c with rfl | hne
        · simp [State.goto, Pc.IsUnborn]
        · simp only [State.goto, update_of_ne (show some c' ≠ none by simp),
            update_of_ne (show some c' ≠ some c by simpa using hne)]
          exact hphase.1 c'
      · have hcard := Family.card_update Pc.IsReaped (fun c => s.pc (some c)) c .reaped
        rw [zombie, hphase.2] at hcard
        have hsame : ∀ c', ((s.goto (some c) .reaped).goto none (.wait (i + 1))).pc (some c') =
            update (fun c => s.pc (some c)) c .reaped c' := by
          intro c'
          rcases eq_or_ne c' c with rfl | hne
          · simp [State.goto]
          · simp [State.goto, hne]
        simp only [hsame]
        exact hcard
    · have := h.ring.loops
      rwa [pc] at this
    · have htok := h.ring.tokens.le
      have htot := total_two (q := q) s c .reaped (.wait (i + 1))
      rw [pc, zombie] at htot
      have hzero : (Pc.reaped : Pc N).Passing.toNat + (Pc.wait (i + 1) : Pc N).Passing.toNat = 0 := rfl
      have hle : total (update (update s.pc (some c) .reaped) none (.wait (i + 1))) q ≤ total s.pc q := by
        omega
      exact hle.trans htok

theorem all_reaped {i : Nat} (ge : N ≤ i) (pc : s.pc none = .wait i) (c : Fin N) : (s.pc (some c)).IsReaped = true := by
  have hphase := h.ring.phase
  rw [pc] at hphase
  exact Family.all_of_card (g := fun c => s.pc (some c)) ge hphase.2 c

theorem parent_goto (pc : s.pc none = k₀) (hb : k = .send → s'.buf none = theByte)
    (hpc : s'.pc = update s.pc none k) (hbuf : ∀ p, p ≠ none → s'.buf p = s.buf p) (hpipes : s'.pipes = s.pipes)
    (hl : s'.loopsDone = s.loopsDone) (hawake : k₀.Blocks = false) (hhas : has none k = has none k₀)
    (htodo : Todo none k) (hkind : Kind none k = true) (hpass : k.Passing = false ∧ k₀.Passing = false)
    (hphase : Phase s.pc k₀ → Phase s.pc k) (hst : k₀.Stopped = true → k.Stopped = true)
    (hloops : Loops L k₀ s.loopsDone → Loops L k s.loopsDone) (htok : ∀ n, Tokens k₀ n → Tokens k n) : Inv L s' q := by
  refine h.goto hpc hbuf (hpipes ▸ wakes_refl _) (hpipes ▸ h.ok) ?_ (by rw [pc, hhas]) htodo hkind ?_ ?_
  · exact (h.proc none).awake pc hawake
  · rw [hpass.1]
    rintro (hc | hc)
    · cases hc
    · exact hb hc
  · refine h.ring.parent pc hpc h.ring.values hphase hst (by rw [hl]; exact hloops) fun ht => ?_
    rw [hpc, total_same (by rw [pc, hpass.1, hpass.2])]
    exact htok _ ht

theorem send {r : Int} (pc : s.pc none = .send) (awake : s.pipes.chan none = none)
    (call : s.pipes.pipewrite none 0 (s.buf none) = (.ret r, t)) :
    ∃ q', Inv L { s.goto none (if r = 1 then .loop else .stopWrite) with pipes := t } q' := by
  obtain ⟨hw, ⟨-, hclosed, -⟩ | ⟨rfl, hok⟩⟩ := h.ok.pipewrite_ret call
  · have := h.stopped_of_closed (0, .read) hclosed
    rw [pc] at this
    cases this
  · have hb := (h.proc none).value (.inr pc)
    refine ⟨_, h.goto (k := .loop) rfl (fun _ _ => rfl) hw hok awake (by rw [pc]; rfl) trivial rfl (by simp [Pc.Passing]) ?_⟩
    refine h.ring.parent pc rfl (h.values_push hb) id id ?_ ?_
    · intro hl
      exact (show s.loopsDone = 0 from hl).le.trans (Nat.zero_le L)
    · intro ht
      have h1 := total_queue (q := q) (update s.pc none .loop) 0 (q 0 ++ [s.buf none])
      have h2 := total_same (q := q) (s := s) (p := none) (k := .loop) (by rw [pc]; rfl)
      rw [h2, show total s.pc q = 0 from ht, List.length_append, List.length_singleton] at h1
      have hone : total (update s.pc none .loop) (update q 0 (q 0 ++ [s.buf none])) = 1 := by omega
      exact hone

theorem parent_write (pc : s.pc none = .write) (awake : s.pipes.chan none = none)
    (call : s.pipes.pipewrite none 0 (s.buf none) = (.ret 1, t)) :
    ∃ q', Inv L { s.goto none .loop with pipes := t, loopsDone := s.loopsDone + 1 } q' := by
  obtain ⟨hw, ⟨hr, -⟩ | ⟨-, hok⟩⟩ := h.ok.pipewrite_ret call
  · cases hr
  · have hb := (h.proc none).value (.inl (by rw [pc]; rfl))
    refine ⟨_, h.goto rfl (fun _ _ => rfl) hw hok awake (by rw [pc]; rfl) trivial rfl (by simp [Pc.Passing]) ?_⟩
    refine h.ring.parent pc rfl (h.values_push hb) id id id fun ht => ?_
    exact (total_write (s := s) (by rw [pc]; rfl) rfl).trans ht

theorem parent_no_eof (pc : s.pc none = .read) : s.pipes.piperead none (Fin.last N) ≠ (.ret none, t) := by
  intro call
  obtain ⟨-, ⟨-, -, hclosed, -⟩ | ⟨ch, bs, hr, -⟩⟩ := h.ok.piperead_ret call
  · have := h.stopped_of_closed (Fin.last N, .write) hclosed
    rw [pc] at this
    cases this
  · cases hr

theorem parent_no_fail {r : Int} (pc : s.pc none = .write) (ne : r ≠ 1) :
    s.pipes.pipewrite none 0 (s.buf none) ≠ (.ret r, t) := by
  intro call
  obtain ⟨-, ⟨-, hclosed, -⟩ | ⟨hr, -⟩⟩ := h.ok.pipewrite_ret call
  · have := h.stopped_of_closed (0, .read) hclosed
    rw [pc] at this
    cases this
  · exact ne hr

theorem stop_write (pc : s.pc none = .stopWrite) :
    Inv L { s.goto none .stopRead with pipes := s.pipes.fileclose none 0 .write } q := by
  refine h.close (0, .write) rfl rfl rfl ?_ ?_ trivial rfl (by simp [Pc.Passing]) ?_
  · exact (h.proc _).awake pc rfl
  · rintro ⟨k, e⟩
    rw [pc]
    cases e <;> simp [has, Keep, pipeOf]
    exact decide_eq_false
  · refine h.ring.parent pc rfl h.ring.values id (fun _ => rfl) id fun ht => ?_
    exact ((total_same (by rw [pc]; rfl)).trans ht).le

theorem stop_read (pc : s.pc none = .stopRead) :
    Inv L { s.goto none (.wait 0) with pipes := s.pipes.fileclose none (Fin.last N) .read } q := by
  refine h.close (Fin.last N, .read) rfl rfl rfl ?_ ?_ trivial rfl (by simp [Pc.Passing]) ?_
  · exact (h.proc _).awake pc rfl
  · rintro ⟨k, e⟩
    rw [pc]
    cases e <;> simp [has, Keep, pipeOf]
    exact decide_eq_false
  · refine h.ring.parent pc rfl h.ring.values ?_ (fun _ => rfl) id fun ht => ?_
    · intro hphase
      refine ⟨fun c => (hphase c).1, Finset.card_eq_zero.mpr (Finset.filter_eq_empty_iff.mpr fun c _ => ?_)⟩
      simp [(hphase c).2]
    · exact (total_same (by rw [pc]; rfl)).le.trans ht

end

theorem init (h : Init s) : Inv L s fun _ => [] := by
  refine ⟨.alloc h.pipe ?_ h.chan, ?_, ?_⟩
  · intro k e
    refine ⟨none, ?_⟩
    rw [h.ofile]
    rfl
  · intro p
    cases p with
    | none => exact .awake_at h.parent (fun fd => by rw [h.ofile]; rfl) (h.chan none) trivial rfl (by simp [Pc.Passing])
    | some c => exact .awake_at (h.child c) (fun fd => by rw [h.ofile]; rfl) (h.chan _) trivial rfl (by simp [Pc.Passing])
  · refine ⟨by simp, ?_, ?_, ?_, ?_⟩
    · rw [h.parent]
      intro c
      simp [h.child, Pc.IsUnborn, Pc.IsReaped]
    · intro c hc
      rw [h.child] at hc
      cases hc
    · rw [h.parent]
      exact h.loopsDone
    · have hpass : ∀ p, (s.pc p).Passing = false := by
        intro p
        cases p <;> simp [h.parent, h.child, Pc.Passing]
      rw [h.parent]
      change total s.pc (fun _ => []) = 0
      simp [total, hpass]

theorem step (h : Inv L s q) (hst : Step L s s') : ∃ q', Inv L s' q' := by
  cases hst with
  | fork lt pc => exact ⟨q, h.fork lt pc⟩
  | forked ge pc =>
    refine ⟨q, h.parent_goto pc (by simp) rfl (fun _ _ => rfl) rfl rfl rfl ?_ ⟨nodup_parentCloses, fun fd => mem_parentCloses.mp⟩
      rfl ⟨rfl, rfl⟩ ?_ id id fun _ => id⟩
    · funext fd
      simp only [has]
      by_cases hk : Keep none fd = true
      · rw [hk, Bool.or_true]
      · rw [decide_eq_true (mem_parentCloses.mpr (by simpa using hk)), Bool.true_or]
    · intro hphase c
      refine ⟨?_, (hphase c).2⟩
      have := (hphase c).1
      have hlt := c.isLt
      by_contra hc
      have := this.mp (by simpa using hc)
      omega
  | parentClosed pc =>
    refine ⟨q, h.parent_goto pc ?_ rfl ?_ rfl rfl rfl ?_ trivial rfl ⟨rfl, rfl⟩ id id id fun _ => id⟩
    · intro _
      change update s.buf none theByte none = theByte
      rw [update_self]
    · intro p hp
      exact update_of_ne hp ..
    · rw [has_close_nil]
      rfl
  | send pc awake call => exact h.send pc awake call
  | sendSleep pc awake call | parentWriteSleep pc awake call => exact absurd (h.ok.pipewrite_sleep call) (h.not_full 0)
  | enter pc lt =>
    exact ⟨q, h.parent_goto pc (by simp) rfl (fun _ _ => rfl) rfl rfl rfl rfl trivial rfl ⟨rfl, rfl⟩ id id
      (fun _ => lt) fun _ => id⟩
  | leave pc ge =>
    exact ⟨q, h.parent_goto pc (by simp) rfl (fun _ _ => rfl) rfl rfl rfl rfl trivial rfl ⟨rfl, rfl⟩ id id
      (fun hle => le_antisymm hle ge) fun _ => id⟩
  | parentRead pc awake call => exact h.read_step (p := none) pc awake call
  | parentEof pc awake call => exact absurd call (h.parent_no_eof pc)
  | parentReadSleep pc awake call => exact ⟨q, h.read_sleep (p := none) pc call⟩
  | parentWrite pc awake call => exact h.parent_write pc awake call
  | parentWriteFail pc awake call ne => exact absurd call (h.parent_no_fail pc ne)
  | stopWrite pc => exact ⟨q, h.stop_write pc⟩
  | stopRead pc => exact ⟨q, h.stop_read pc⟩
  | wait lt pc zombie => exact ⟨q, h.wait pc zombie⟩
  | waited ge pc =>
    refine ⟨q, h.parent_goto pc (by simp) rfl (fun _ _ => rfl) rfl rfl rfl rfl nodup_allFds rfl ⟨rfl, rfl⟩ ?_ id id fun _ => id⟩
    intro _
    exact h.all_reaped ge pc
  | childClosed pc => exact ⟨q, h.child_closed pc⟩
  | @read c b t pc awake call => exact h.read_step (p := some c) pc awake call
  | eof pc awake call => exact ⟨q, h.child_eof pc awake call⟩
  | @readSleep c t pc awake call => exact ⟨q, h.read_sleep (p := some c) pc call⟩
  | write pc awake call => exact h.child_write pc awake call
  | writeFail pc awake call ne => exact ⟨q, h.child_write_fail pc awake call ne⟩
  | writeSleep pc awake call => exact absurd (h.ok.pipewrite_sleep call) (h.not_full _)
  | close pc => exact ⟨q, h.close_step pc⟩
  | exitClose pc => exact ⟨q, h.exit_close pc⟩
  | exited pc => exact ⟨q, h.exited pc⟩

theorem reach (h : Reachable L s) : ∃ q, Inv L s q :=
  Trans.Reach.inv (P := fun s => ∃ q, Inv L s q) (fun _ h0 => ⟨_, init h0⟩)
    (fun _ _ hi hst => by
      obtain ⟨q, hq⟩ := hi
      exact hq.step hst) h

end Inv

end Circulate

end Xv6
