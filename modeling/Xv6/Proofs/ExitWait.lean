import Xv6.Lib.Trans
import Xv6.Proofs.ProcThread

/-!
# The exit/wait protocol

`Table` is what holds of the process table whoever is where: parents are alive, a zombie has the status
its process gave to `exit`, and a process that is in the table has not been returned by `wait`.
-/

namespace Xv6

open Function

def ProcState.Alive (st : ProcState) : Prop := st = .sleeping ∨ st = .runnable ∨ st = .running

theorem ProcState.Alive.ne {st : ProcState} (h : st.Alive) : st ≠ .unused ∧ st ≠ .used ∧ st ≠ .zombie := by
  rcases h with rfl | rfl | rfl <;> exact ⟨nofun, nofun, nofun⟩

/-- How often `c` has been returned by `wait`. -/
def ProcEv.isReap (c : Nat) : ProcEv → Bool
  | .reap _ c' .. => c' == c
  | _ => false

namespace ProcSys

variable {s s' : ProcSys} {p q i : Nat} {k k' : ProcPc} {f : Proc → Proc}

def reaps (s : ProcSys) (c : Nat) : Nat := (s.trace.filter (ProcEv.isReap c)).length

structure Table (s : ProcSys) : Prop where
  lt : ∀ i, (s.proc i).state ≠ .unused → i < NPROC
  unused : ∀ i, (s.proc i).state = .unused → (s.proc i).parent = none
  parent : ∀ q r, (s.proc q).parent = some r →
    (s.proc r).state.Alive ∧ (r = initproc ∨ s.forker (s.uid q) = some (s.uid r))
  init : (s.proc initproc).state.Alive
  uid_lt : ∀ i, (s.proc i).state ≠ .unused → s.uid i < s.nextUid
  uid_inj : ∀ i j, (s.proc i).state ≠ .unused → (s.proc j).state ≠ .unused → s.uid i = s.uid j → i = j
  zombie : ∀ i, (s.proc i).state = .zombie → .exit (s.uid i) (s.proc i).xstate ∈ s.trace
  exit_lt : ∀ c st, .exit c st ∈ s.trace → c < s.nextUid
  exit_once : ∀ c st st', .exit c st ∈ s.trace → .exit c st' ∈ s.trace → st = st'
  fresh : ∀ i, (s.proc i).state ≠ .unused → (s.proc i).state ≠ .zombie → (s.pc i).exiting = none →
    ∀ st, .exit (s.uid i) st ∉ s.trace
  reap_lt : ∀ c, s.nextUid ≤ c → s.reaps c = 0
  reap_live : ∀ i, (s.proc i).state ≠ .unused → s.reaps (s.uid i) = 0
  reap_once : ∀ c, s.reaps c ≤ 1

/-- A write that keeps parent and status, and the state or else makes a process runnable. -/
structure SameLife (x y : Proc) : Prop where
  parent : y.parent = x.parent
  xstate : y.xstate = x.xstate
  state : y.state = x.state ∨ x.state ≠ .unused ∧ x.state ≠ .zombie ∧ y.state.Alive

namespace SameLife

variable {x y : Proc}

theorem unused (h : SameLife x y) : y.state = .unused ↔ x.state = .unused := by
  rcases h.state with e | ⟨h1, -, h3⟩
  · rw [e]
  · simp [h1, h3.ne.1]

theorem zombie (h : SameLife x y) : y.state = .zombie ↔ x.state = .zombie := by
  rcases h.state with e | ⟨-, h2, h3⟩
  · rw [e]
  · simp [h2, h3.ne.2.2]

theorem alive (h : SameLife x y) (hx : x.state.Alive) : y.state.Alive := by
  rcases h.state with e | ⟨-, -, h3⟩
  · rwa [e]
  · exact h3

end SameLife

namespace Table

section

variable (h : Table s)
include h

theorem of_eq (hproc : s'.proc = s.proc) (hpc : s'.pc = s.pc) (huid : s'.uid = s.uid)
    (hnext : s'.nextUid = s.nextUid) (hfork : s'.forker = s.forker) (htrace : s'.trace = s.trace) : Table s' := by
  obtain ⟨_, _, _, _, _, _, _, _, _, _, _⟩ := s'
  dsimp only at hproc hpc huid hnext hfork htrace
  subst hproc hpc huid hnext hfork htrace
  exact ⟨h.lt, h.unused, h.parent, h.init, h.uid_lt, h.uid_inj, h.zombie, h.exit_lt, h.exit_once, h.fresh,
    h.reap_lt, h.reap_live, h.reap_once⟩

theorem goto (hk : k.exiting = none → (s.pc p).exiting = none ∨ (s.proc p).state = .unused ∨
    (s.proc p).state = .zombie) : Table (s.goto p k) := by
  refine ⟨h.lt, h.unused, h.parent, h.init, h.uid_lt, h.uid_inj, h.zombie, h.exit_lt, h.exit_once,
    fun i hu hz hi => h.fresh i hu hz ?_, h.reap_lt, h.reap_live, h.reap_once⟩
  by_cases hip : i = p
  · subst hip
    rw [goto_self] at hi
    exact (hk hi).resolve_right fun e => e.elim hu hz
  · rwa [goto_of_ne hip] at hi

theorem emit_of {e : ProcEv} (he : ∀ c st, e ≠ .exit c st) (hlt : ∀ c, s.nextUid ≤ c → (s.emit e).reaps c = 0)
    (hlive : ∀ i, (s.proc i).state ≠ .unused → (s.emit e).reaps (s.uid i) = 0) (honce : ∀ c, (s.emit e).reaps c ≤ 1) :
    Table (s.emit e) := by
  have hmem : ∀ {c st}, .exit c st ∈ (s.emit e).trace ↔ .exit c st ∈ s.trace := fun {c st} => by
    rw [ProcSys.emit, List.mem_cons, or_iff_right (he c st).symm]
  exact ⟨h.lt, h.unused, h.parent, h.init, h.uid_lt, h.uid_inj, fun i hz => hmem.2 (h.zombie i hz),
    fun c st hm => h.exit_lt c st (hmem.1 hm), fun c st st' h1 h2 => h.exit_once c st st' (hmem.1 h1) (hmem.1 h2),
    fun i h1 h2 h3 st hm => h.fresh i h1 h2 h3 st (hmem.1 hm), hlt, hlive, honce⟩

theorem emit {e : ProcEv} (he : ∀ c st, e ≠ .exit c st) (hr : ∀ w c pid a st, e ≠ .reap w c pid a st) : Table (s.emit e) := by
  have hreaps : (s.emit e).reaps = s.reaps := by
    funext c
    cases e with
    | reap w c' pid a st => exact absurd rfl (hr w c' pid a st)
    | exit | waitRet | kill => rfl
  exact h.emit_of he (hreaps ▸ h.reap_lt) (hreaps ▸ h.reap_live) (hreaps ▸ h.reap_once)

theorem modify (hf : SameLife (s.proc i) (f (s.proc i))) : Table (s.modify i f) := by
  have hlife : ∀ j, SameLife (s.proc j) ((s.modify i f).proc j) := fun j => by
    by_cases hj : j = i
    · subst hj; rw [modify_self]; exact hf
    · rw [modify_of_ne hj]; exact ⟨rfl, rfl, .inl rfl⟩
  have hne : ∀ {j}, ((s.modify i f).proc j).state ≠ .unused → (s.proc j).state ≠ .unused :=
    fun h e => h ((hlife _).unused.2 e)
  refine ⟨fun j hj => h.lt j (hne hj), fun j hj => ?_, fun q r hr => ?_, (hlife _).alive h.init,
    fun j hj => h.uid_lt j (hne hj), fun j l hj hl => h.uid_inj j l (hne hj) (hne hl), fun j hj => ?_,
    h.exit_lt, h.exit_once, fun j h1 h2 => h.fresh j (hne h1) fun e => h2 ((hlife j).zombie.2 e), h.reap_lt,
    fun j hj => h.reap_live j (hne hj), h.reap_once⟩
  · rw [(hlife j).parent]; exact h.unused j ((hlife j).unused.1 hj)
  · rw [(hlife q).parent] at hr
    exact (h.parent q r hr).imp (hlife r).alive id
  · rw [(hlife j).xstate]; exact h.zombie j ((hlife j).zombie.1 hj)

theorem callExit (status : CInt) (hat : s.At p k) (hk : k.exiting = none) : Table (s.callExit p status) := by
  have hu : (s.proc p).state ≠ .unused := by rw [hat.2.1]; nofun
  have hfresh := h.fresh p hu (by rw [hat.2.1]; nofun) (by rw [hat.2.2]; exact hk)
  refine ⟨h.lt, h.unused, h.parent, h.init, h.uid_lt, h.uid_inj,
    fun i hz => List.mem_cons_of_mem _ (h.zombie i hz), fun c st hm => ?_, fun c st st' hm hm' => ?_,
    fun i h1 h2 h3 st hm => ?_, h.reap_lt, h.reap_live, h.reap_once⟩
  · rcases List.mem_cons.1 hm with e | hm
    · cases e; exact h.uid_lt p hu
    · exact h.exit_lt c st hm
  · rcases List.mem_cons.1 hm with e | hm <;> rcases List.mem_cons.1 hm' with e' | hm'
    · cases e; cases e'; rfl
    · cases e; exact absurd hm' (hfresh st')
    · cases e'; exact absurd hm (hfresh st)
    · exact h.exit_once c st st' hm hm'
  · have hip : i ≠ p := by
      rintro rfl
      have : ((s.callExit i status).pc i).exiting = some status := congrArg ProcPc.exiting goto_self
      rw [this] at h3; cases h3
    rcases List.mem_cons.1 hm with e | hm
    · exact hip (h.uid_inj i p h1 hu (by injection e))
    · exact h.fresh i h1 h2 (by rwa [show (s.callExit p status).pc i = s.pc i from goto_of_ne hip] at h3) st hm

theorem found (hlt : i < NPROC) (hst : (s.proc i).state = .unused) (hk : (s.pc p).exiting = none) :
    Table (s.found p i) := by
  have hpar := h.unused i hst
  have huid : ∀ {j}, j ≠ i → (s.found p i).uid j = s.uid j := fun hj => update_of_ne hj ..
  have huid_i : (s.found p i).uid i = s.nextUid := update_self ..
  have halive : ∀ {j}, (s.proc j).state.Alive → j ≠ i := fun ha e => ha.ne.1 (e ▸ hst)
  have hnext : (s.found p i).nextUid = s.nextUid + 1 := rfl
  have hreaps : (s.found p i).reaps = s.reaps := rfl
  refine ⟨fun j hj => ?_, fun j hj => ?_, fun q r hr => ?_, ?_, fun j hj => ?_, fun j l hj hl e => ?_,
    fun j hj => ?_, fun c st hm => Nat.lt_succ_of_lt (h.exit_lt c st hm), h.exit_once, fun j h1 h2 h3 st hm => ?_,
    fun c hc => h.reap_lt c (Nat.le_of_succ_le hc), fun j hj => ?_, h.reap_once⟩
  · by_cases hji : j = i
    · exact hji ▸ hlt
    · rw [found_of_ne hji] at hj; exact h.lt j hj
  · by_cases hji : j = i
    · subst hji; rw [found_self]; exact hpar
    · rw [found_of_ne hji] at hj ⊢; exact h.unused j hj
  · have hqi : q ≠ i := by
      rintro rfl
      rw [found_self] at hr; exact absurd (hpar.symm.trans hr) nofun
    rw [found_of_ne hqi] at hr
    obtain ⟨ha, hf⟩ := h.parent q r hr
    rw [found_of_ne (halive ha), huid hqi, huid (halive ha)]
    exact ⟨ha, hf⟩
  · rw [found_of_ne (halive h.init)]; exact h.init
  · by_cases hji : j = i
    · subst hji; rw [huid_i, hnext]; exact Nat.lt_succ_self _
    · rw [found_of_ne hji] at hj
      rw [huid hji, hnext]; exact Nat.lt_succ_of_lt (h.uid_lt j hj)
  · by_cases hji : j = i <;> by_cases hli : l = i
    · rw [hji, hli]
    · rw [found_of_ne hli] at hl
      rw [hji, huid_i, huid hli] at e
      exact absurd e.symm (ne_of_lt (h.uid_lt l hl))
    · rw [found_of_ne hji] at hj
      rw [hli, huid_i, huid hji] at e
      exact absurd e (ne_of_lt (h.uid_lt j hj))
    · rw [found_of_ne hji] at hj
      rw [found_of_ne hli] at hl
      rw [huid hji, huid hli] at e
      exact h.uid_inj j l hj hl e
  · have hji : j ≠ i := by rintro rfl; rw [found_self] at hj; cases hj
    rw [found_of_ne hji] at hj ⊢
    rw [huid hji]; exact h.zombie j hj
  · by_cases hji : j = i
    · subst hji
      rw [huid_i] at hm
      exact lt_irrefl _ (h.exit_lt _ st hm)
    · rw [found_of_ne hji] at h1 h2
      rw [huid hji] at hm
      refine h.fresh j h1 h2 ?_ st hm
      by_cases hjp : j = p
      · rw [hjp]; exact hk
      · rwa [show (s.found p i).pc j = s.pc j from goto_of_ne hjp] at h3
  · by_cases hji : j = i
    · subst hji; rw [huid_i, hreaps]; exact h.reap_lt _ (le_rfl)
    · rw [found_of_ne hji] at hj
      rw [huid hji, hreaps]; exact h.reap_live j hj

theorem free (hi : ¬ (s.proc i).state.Alive) (hs : (f (s.proc i)).state = .unused)
    (hp : (f (s.proc i)).parent = none) : Table (s.modify i f) := by
  have halive : ∀ {j}, (s.proc j).state.Alive → j ≠ i := fun ha e => hi (e ▸ ha)
  have hne : ∀ {j}, ((s.modify i f).proc j).state ≠ .unused → j ≠ i := by
    rintro j hj rfl
    rw [modify_self] at hj; exact hj hs
  refine ⟨fun j hj => ?_, fun j hj => ?_, fun q r hr => ?_, ?_, fun j hj => ?_, fun j l hj hl => ?_,
    fun j hj => ?_, h.exit_lt, h.exit_once, fun j h1 h2 => ?_, h.reap_lt, fun j hj => ?_, h.reap_once⟩
  · have hji := hne hj
    rw [modify_of_ne hji] at hj; exact h.lt j hj
  · by_cases hji : j = i
    · subst hji; rw [modify_self]; exact hp
    · rw [modify_of_ne hji] at hj ⊢; exact h.unused j hj
  · have hqi : q ≠ i := by
      rintro rfl
      rw [modify_self, hp] at hr; cases hr
    rw [modify_of_ne hqi] at hr
    obtain ⟨ha, hf⟩ := h.parent q r hr
    rw [modify_of_ne (halive ha)]
    exact ⟨ha, hf⟩
  · rw [modify_of_ne (halive h.init)]; exact h.init
  · have hji := hne hj
    rw [modify_of_ne hji] at hj; exact h.uid_lt j hj
  · have hji := hne hj
    have hli := hne hl
    rw [modify_of_ne hji] at hj
    rw [modify_of_ne hli] at hl
    exact h.uid_inj j l hj hl
  · have hji : j ≠ i := hne (by rw [hj]; nofun)
    rw [modify_of_ne hji] at hj ⊢; exact h.zombie j hj
  · have hji := hne h1
    rw [modify_of_ne hji] at h1 h2; exact h.fresh j h1 h2
  · have hji := hne hj
    rw [modify_of_ne hji] at hj; exact h.reap_live j hj

theorem forkParent {np : Nat} (hnp : (s.proc np).state = .used) (hp : (s.proc p).state.Alive) :
    Table ({ s with forker := update s.forker (s.uid np) (some (s.uid p)) }.modify np
      fun x => { x with parent := some p }) := by
  have hu : (s.proc np).state ≠ .unused := by rw [hnp]; nofun
  have hstate : ∀ j, (({ s with forker := update s.forker (s.uid np) (some (s.uid p)) }.modify np
      fun x => { x with parent := some p }).proc j).state = (s.proc j).state := fun j => by
    by_cases hj : j = np
    · subst hj; rw [modify_self]
    · rw [modify_of_ne hj]
  refine ⟨fun j hj => h.lt j (hstate j ▸ hj), fun j hj => ?_, fun q r hr => ?_, hstate _ ▸ h.init,
    fun j hj => h.uid_lt j (hstate j ▸ hj), fun j l hj hl => h.uid_inj j l (hstate j ▸ hj) (hstate l ▸ hl),
    fun j hj => ?_, h.exit_lt, h.exit_once, fun j h1 h2 => h.fresh j (hstate j ▸ h1) (hstate j ▸ h2), h.reap_lt,
    fun j hj => h.reap_live j (hstate j ▸ hj), h.reap_once⟩
  · rw [hstate] at hj
    have hjn : j ≠ np := fun e => hu (e ▸ hj)
    rw [modify_of_ne hjn]; exact h.unused j hj
  · rw [hstate]
    by_cases hq : q = np
    · subst hq
      rw [modify_self] at hr
      cases hr
      exact ⟨hp, .inr (update_self ..)⟩
    · rw [modify_of_ne hq] at hr
      obtain ⟨ha, hf⟩ := h.parent q r hr
      refine ⟨ha, hf.imp id fun hf => ?_⟩
      have hqu : (s.proc q).state ≠ .unused := fun e => absurd ((h.unused q e).symm.trans hr) nofun
      have huid : s.uid q ≠ s.uid np := fun e => hq (h.uid_inj q np hqu hu e)
      exact (update_of_ne huid ..).trans hf
  · rw [hstate] at hj
    have hjn : j ≠ np := by rintro rfl; rw [hnp] at hj; cases hj
    rw [modify_of_ne hjn]; exact h.zombie j hj

theorem reparent (hi : (s.proc i).parent = some p) :
    Table (s.modify i fun x => { x with parent := some initproc }) := by
  have hu : (s.proc i).state ≠ .unused := fun e => absurd ((h.unused i e).symm.trans hi) nofun
  have hstate : ∀ j, ((s.modify i fun x => { x with parent := some initproc }).proc j).state =
      (s.proc j).state ∧ ((s.modify i fun x => { x with parent := some initproc }).proc j).xstate =
      (s.proc j).xstate := fun j => by
    by_cases hj : j = i
    · subst hj; rw [modify_self]; exact ⟨rfl, rfl⟩
    · rw [modify_of_ne hj]; exact ⟨rfl, rfl⟩
  refine ⟨fun j hj => h.lt j ((hstate j).1 ▸ hj), fun j hj => ?_, fun q r hr => ?_, (hstate _).1 ▸ h.init,
    fun j hj => h.uid_lt j ((hstate j).1 ▸ hj),
    fun j l hj hl => h.uid_inj j l ((hstate j).1 ▸ hj) ((hstate l).1 ▸ hl), fun j hj => ?_, h.exit_lt,
    h.exit_once, fun j h1 h2 => h.fresh j ((hstate j).1 ▸ h1) ((hstate j).1 ▸ h2), h.reap_lt,
    fun j hj => h.reap_live j ((hstate j).1 ▸ hj), h.reap_once⟩
  · rw [(hstate j).1] at hj
    have hji : j ≠ i := fun e => hu (e ▸ hj)
    rw [modify_of_ne hji]; exact h.unused j hj
  · rw [(hstate r).1]
    by_cases hq : q = i
    · subst hq
      rw [modify_self] at hr
      cases hr
      exact ⟨h.init, .inl rfl⟩
    · rw [modify_of_ne hq] at hr
      exact h.parent q r hr
  · rw [(hstate j).1] at hj
    rw [(hstate j).2]
    exact h.zombie j hj

theorem exitZombie {status : CInt} (ht : Thread s p (.exitLock status)) (hs : (s.proc p).state = .running) :
    Table (s.modify p fun x => { x with lock := some p, xstate := status, state := .zombie }) := by
  obtain ⟨hinit, hexit⟩ := ht.exiting status rfl
  have hu : (s.proc p).state ≠ .unused := by rw [hs]; nofun
  -- `reparent` has left no child
  have hchild : ∀ q, (s.proc q).parent ≠ some p := fun q hq => by
    by_cases hlt : q < NPROC
    · exact ht.scanned q hlt hq
    · have hqu : (s.proc q).state = .unused := by
        by_contra hne
        exact hlt (h.lt q hne)
      exact absurd ((h.unused q hqu).symm.trans hq) nofun
  have hne : ∀ {j}, ((s.modify p fun x => { x with lock := some p, xstate := status, state := .zombie }).proc
      j).state ≠ .unused → (s.proc j).state ≠ .unused := fun {j} hj => by
    by_cases hjp : j = p
    · exact hjp ▸ hu
    · rwa [modify_of_ne hjp] at hj
  refine ⟨fun j hj => h.lt j (hne hj), fun j hj => ?_, fun q r hr => ?_, ?_, fun j hj => h.uid_lt j (hne hj),
    fun j l hj hl => h.uid_inj j l (hne hj) (hne hl), fun j hj => ?_, h.exit_lt, h.exit_once,
    fun j h1 h2 => ?_, h.reap_lt, fun j hj => h.reap_live j (hne hj), h.reap_once⟩
  · have hjp : j ≠ p := by rintro rfl; rw [modify_self] at hj; cases hj
    rw [modify_of_ne hjp] at hj ⊢; exact h.unused j hj
  · have hq : (s.proc q).parent = some r := by
      by_cases hqp : q = p
      · subst hqp; rwa [modify_self] at hr
      · rwa [modify_of_ne hqp] at hr
    have hrp : r ≠ p := fun e => hchild q (e ▸ hq)
    rw [modify_of_ne hrp]
    exact h.parent q r hq
  · rw [modify_of_ne (Ne.symm hinit)]; exact h.init
  · by_cases hjp : j = p
    · subst hjp; rw [modify_self]; exact hexit
    · rw [modify_of_ne hjp] at hj ⊢; exact h.zombie j hj
  · have hjp : j ≠ p := by rintro rfl; rw [modify_self] at h2; exact absurd rfl h2
    rw [modify_of_ne hjp] at h1 h2; exact h.fresh j h1 h2

theorem emitReap {w c a : Nat} {pid : CInt} {st : Option CInt} (hc : c < s.nextUid) (h0 : s.reaps c = 0)
    (hgone : ∀ j, (s.proc j).state ≠ .unused → s.uid j ≠ c) : Table (s.emit (.reap w c pid a st)) := by
  have hreaps : ∀ c', (s.emit (.reap w c pid a st)).reaps c' = if c = c' then s.reaps c' + 1 else s.reaps c' := by
    intro c'
    unfold reaps ProcSys.emit
    by_cases he : c = c'
    · subst he; simp [ProcEv.isReap]
    · simp [ProcEv.isReap, he]
  refine h.emit_of (by simp) (fun c' hc' => ?_) (fun j hj => ?_) fun c' => ?_
  · rw [hreaps, if_neg (ne_of_lt (lt_of_lt_of_le hc hc'))]; exact h.reap_lt c' hc'
  · rw [hreaps, if_neg (Ne.symm (hgone j hj))]; exact h.reap_live j hj
  · rw [hreaps]
    split
    · rename_i e; subst e; omega
    · exact h.reap_once c'

theorem reap {addr : Nat} {havekids : Bool} (hat : s.At p (.waitScan addr i havekids))
    (hz : (s.proc i).state = .zombie) : Table (s.reap p addr i) := by
  have hu : (s.proc i).state ≠ .unused := by rw [hz]; nofun
  have hfree : Table (s.modify i Proc.freeproc) := h.free (fun ha => ha.ne.2.2 hz) rfl rfl
  have hfree' : Table ({ s with freed := update s.freed p (s.uid i :: s.freed p) }.modify i
      Proc.freeproc) := hfree.of_eq rfl rfl rfl rfl rfl rfl
  have hgo := hfree'.goto (p := p) (k := .waitRet addr (some (s.proc i).pid)) fun _ =>
    .inl (congrArg ProcPc.exiting hat.2.2)
  refine hgo.emitReap (h.uid_lt i hu) (h.reap_live i hu) fun j hj e => ?_
  have hji : j ≠ i := by
    rintro rfl
    exact hj (congrArg Proc.state modify_self)
  exact hji (h.uid_inj j i (by rwa [ProcSys.goto, modify_of_ne hji] at hj) hu e)

end

theorem wakeup (c : Option Nat) (h : Table s) : Table (s.modify i (Proc.wakeup c)) := by
  refine h.modify ?_
  unfold Proc.wakeup
  split
  · rename_i hs
    exact ⟨rfl, rfl, .inr ⟨by rw [hs.1]; nofun, by rw [hs.1]; nofun, .inr (.inl rfl)⟩⟩
  · exact ⟨rfl, rfl, .inl rfl⟩

theorem kill (h : Table s) : Table (s.modify i Proc.kill) := by
  refine h.modify ⟨rfl, rfl, ?_⟩
  unfold Proc.kill
  dsimp only
  split
  · rename_i hs
    exact .inr ⟨by rw [hs]; nofun, by rw [hs]; nofun, .inr (.inl rfl)⟩
  · exact .inl rfl

theorem look_exiting (hl : s.Look p k k') (hk : k'.exiting = none) : k.exiting = none := by
  cases hl <;> first | rfl | cases hk

theorem own (h : Table s) (hs : (s.proc p).state = .running) (hf : (f (s.proc p)).state.Alive)
    (hp : (f (s.proc p)).parent = (s.proc p).parent) (hx : (f (s.proc p)).xstate = (s.proc p).xstate) :
    Table (s.modify p f) :=
  h.modify ⟨hp, hx, .inr ⟨by rw [hs]; nofun, by rw [hs]; nofun, hf⟩⟩

theorem step (h : Table s) (ht : Threads s) (hs : Step s s') : Table s' := by
  have hrun : ∀ {p k}, s.At p k → (s.proc p).state.Alive := fun hat => .inr (.inr hat.2.1)
  have hgo : ∀ {s₁ : ProcSys} {p k k'}, Table s₁ → s₁.pc p = k → k.exiting = none → Table (s₁.goto p k') :=
    fun h hpc hk => h.goto fun _ => .inl (hpc ▸ hk)
  have hgo' : ∀ {s₁ : ProcSys} {p k' status}, Table s₁ → k'.exiting = some status → Table (s₁.goto p k') :=
    fun h hk => h.goto fun e => absurd (hk.symm.trans e) nofun
  cases hs with
  | look at_ hl =>
    exact h.goto fun hk => .inl (at_.2.2 ▸ look_exiting hl hk)
  | run _ _ hr =>
    exact h.modify ⟨rfl, rfl, .inr ⟨by rw [hr]; nofun, by rw [hr]; nofun, .inr (.inr rfl)⟩⟩
  | yield at_ => exact h.own at_.2.1 (.inr (.inl rfl)) rfl rfl
  | sleep at_ => exact h.own at_.2.1 (.inl rfl) rfl rfl
  | wakeup c => exact h.wakeup _
  | memory w at_ => exact h.of_eq rfl rfl rfl rfl rfl rfl
  | @fault p at_ =>
    have h1 : Table { s with hit := update s.hit p true } := h.of_eq rfl rfl rfl rfl rfl rfl
    exact hgo (h1.own at_.2.1 (hrun at_) rfl rfl) at_.2.2 rfl
  | exitKilled at_ hk => exact h.callExit _ at_ (by rcases hk with rfl | rfl <;> rfl)
  | sysExit st at_ => exact h.callExit st at_ rfl
  | @sysWait p addr at_ =>
    have h1 : Table { s with freed := update s.freed p [] } := h.of_eq rfl rfl rfl rfl rfl rfl
    exact hgo h1 at_.2.2 rfl
  | allocFound at_ hlt _ hst => exact h.found hlt hst (at_.2.2 ▸ rfl)
  | @forkFail p np at_ =>
    have hnp := (ht.at_ at_).making np rfl
    exact hgo (h.free (fun ha => ha.ne.2.1 hnp) rfl rfl) at_.2.2 rfl
  | @forkRelease p np w at_ =>
    have h1 : Table { s with writable := update s.writable np w } := h.of_eq rfl rfl rfl rfl rfl rfl
    exact hgo (h1.modify ⟨rfl, rfl, .inl rfl⟩) at_.2.2 rfl
  | @forkParent p np at_ => exact hgo (h.forkParent ((ht.at_ at_).making np rfl) (hrun at_)) at_.2.2 rfl
  | @forkRunnable p np at_ =>
    have hnp := (ht.at_ at_).making np rfl
    have hne : np ≠ p := by rintro rfl; rw [at_.2.1] at hnp; cases hnp
    have h1 : Table (s.goto p .sysret) := hgo h at_.2.2 rfl
    have h2 : Table ((s.goto p .sysret).modify np fun x => { x with state := .runnable }) :=
      h1.modify ⟨rfl, rfl, .inr ⟨fun e => absurd (hnp.symm.trans e) nofun,
        fun e => absurd (hnp.symm.trans e) nofun, .inr (.inl rfl)⟩⟩
    exact hgo h2 ((goto_of_ne hne).trans (ht.off_of_used (.inr hnp))) rfl
  | @exitAcquire p st at_ =>
    have h1 : Table { s with waitLock := some p } := h.of_eq rfl rfl rfl rfl rfl rfl
    exact hgo' h1 rfl
  | reparentChild at_ _ hi => exact hgo' (h.reparent hi) rfl
  | reparentWakeup at_ => exact hgo' (h.wakeup _) rfl
  | exitWakeup at_ => exact hgo' (h.wakeup _) rfl
  | exitZombie at_ =>
    exact (h.exitZombie (ht.at_ at_) at_.2.1).goto fun _ => .inr (.inr (congrArg Proc.state modify_self))
  | exitRelease hpc =>
    have h1 : Table { s with waitLock := none } := h.of_eq rfl rfl rfl rfl rfl rfl
    exact hgo h1 hpc rfl
  | exitSched hpc => exact hgo (h.modify ⟨rfl, rfl, .inl rfl⟩) hpc rfl
  | @waitAcquire p addr k at_ hk =>
    have h1 : Table { s with waitLock := some p } := h.of_eq rfl rfl rfl rfl rfl rfl
    exact hgo h1 at_.2.2 (by rcases hk with rfl | rfl <;> rfl)
  | waitReap at_ _ _ _ hz => exact h.reap at_ hz
  | waitSleepAcquire at_ => exact hgo (h.own at_.2.1 (hrun at_) rfl rfl) at_.2.2 rfl
  | waitSleepRelease at_ =>
    have h1 : Table { s with waitLock := none } := h.of_eq rfl rfl rfl rfl rfl rfl
    exact hgo h1 at_.2.2 rfl
  | waitSleepSched at_ => exact hgo (h.own at_.2.1 (.inl rfl) rfl rfl) at_.2.2 rfl
  | waitRet at_ =>
    have h1 : Table { s with waitLock := none } := h.of_eq rfl rfl rfl rfl rfl rfl
    exact (hgo h1 at_.2.2 rfl).emit nofun nofun
  | @killFound p i pid at_ =>
    have h1 : Table { s with hit := update s.hit i (s.hit i || decide ((s.proc i).state ≠ ProcState.unused)) } :=
      h.of_eq rfl rfl rfl rfl rfl rfl
    exact (hgo h1.kill at_.2.2 rfl).emit nofun nofun

theorem boot (w : Nat → Nat → Bool) : Table (boot w) := by
  have hst : ∀ i, i ≠ initproc → ((ProcSys.boot w).proc i).state = .unused := fun i hi => by
    simp [ProcSys.boot, hi]
  have hlive : ∀ {i}, ((ProcSys.boot w).proc i).state ≠ .unused → i = initproc := fun {i} hi => by
    by_contra hne
    exact hi (hst i hne)
  have hpar : ∀ i, ((ProcSys.boot w).proc i).parent = none := fun i => by
    by_cases hi : i = initproc <;> simp [ProcSys.boot, hi]
  refine ⟨fun i hi => hlive hi ▸ by decide, fun i _ => hpar i, fun q r hr => ?_, .inr (.inl rfl),
    fun i _ => Nat.zero_lt_one, fun i j hi hj _ => (hlive hi).trans (hlive hj).symm, fun i hz => ?_, fun c st hm => ?_,
    fun c st st' hm _ => ?_, fun _ _ _ _ st hm => ?_, fun _ _ => rfl, fun _ _ => rfl, fun _ => Nat.zero_le _⟩
  · rw [hpar] at hr; cases hr
  · have hi := hlive (by rw [hz]; simp)
    subst hi; cases hz
  all_goals exact absurd hm List.not_mem_nil

end Table

/-! ### The protocol -/

theorem reach_inv (h : Trans.Reach Init Step s) : Threads s ∧ Table s :=
  h.inv (P := fun s => Threads s ∧ Table s) (by rintro _ ⟨w, rfl⟩; exact ⟨.boot w, .boot w⟩)
    fun _ _ ⟨ht, hb⟩ hs => ⟨ht.step hs, hb.step ht hs⟩

/-- What `wait` may report in state `s`. -/
def EvOk (s : ProcSys) : ProcEv → Prop
  | .reap w c pid addr st => ∃ i j status, s.uid i = c ∧ s.uid j = w ∧ (s.proc i).pid = pid ∧
      (s.proc i).parent = some j ∧ (j = initproc ∨ s.forker c = some w) ∧ .exit c status ∈ s.trace ∧
      st = if addr = 0 then none else some status
  | .waitRet w none freed => freed = [] ∧ ∃ p addr, s.uid p = w ∧ s.pc p = .waitRet addr none ∧
      ((∀ i < NPROC, (s.proc i).parent ≠ some p) ∨ s.hit p = true ∨
        addr ≠ 0 ∧ s.writable p addr = false)
  | .waitRet w (some pid) freed => ∃ c addr st, freed = [c] ∧ .reap w c pid addr st ∈ s.trace
  | .exit .. | .kill .. => True

theorem evOk_of_step {e : ProcEv} (ht : Threads s) (hb : Table s) (hs : Step s s')
    (he : s'.trace = e :: s.trace) : EvOk s e := by
  have hno : ∀ {P : Prop}, s.trace = e :: s.trace → P := fun h => absurd h.symm (List.cons_ne_self _ _)
  cases hs with
  | exitKilled | sysExit | killFound =>
    obtain ⟨rfl, -⟩ := List.cons.inj he
    trivial
  | @waitReap p addr i hk at_ _ hpar hlock hz =>
    obtain ⟨rfl, -⟩ := List.cons.inj he
    exact ⟨i, p, (s.proc i).xstate, rfl, rfl, rfl, hpar, (hb.parent i p hpar).2, hb.zombie i hz, rfl⟩
  | @waitRet p addr r at_ =>
    obtain ⟨rfl, -⟩ := List.cons.inj he
    have htp := ht.at_ at_
    cases r with
    | none => exact ⟨htp.freed none rfl, p, addr, rfl, at_.2.2, htp.ret addr rfl⟩
    | some pid => exact htp.freed (some pid) rfl
  | _ => exact hno he

/-- In every reachable state: parents are neither zombies nor free slots, no process has been returned by
`wait` twice or called `exit` with two statuses. And what a step reports is so: a child is freed by
its parent of that moment, which is the process that forked it or init, with the status it gave to
`exit`; a `wait` that returns a pid has freed one child, which had that pid; one that returns -1 has freed no child, and its caller has no child, was killed, or gave an
address that cannot be written. -/
theorem exit_wait (h : Trans.Reach Init Step s) :
    (∀ q r, (s.proc q).parent = some r → (s.proc r).state ≠ .zombie ∧ (s.proc r).state ≠ .unused) ∧
    (∀ c, s.reaps c ≤ 1) ∧ (∀ c st st', .exit c st ∈ s.trace → .exit c st' ∈ s.trace → st = st') ∧
    ∀ s' e, Step s s' → s'.trace = e :: s.trace → EvOk s e := by
  obtain ⟨ht, hb⟩ := reach_inv h
  refine ⟨fun q r hr => ?_, hb.reap_once, hb.exit_once, fun s' e hs he => evOk_of_step ht hb hs he⟩
  have ha := (hb.parent q r hr).1
  exact ⟨ha.ne.2.2, ha.ne.1⟩

/-! ### A child is forked, exits and is waited for -/

theorem goto_goto : (s.goto p k).goto p k' = s.goto p k' := by
  unfold ProcSys.goto
  rw [update_idem]

theorem goto_pc : s.goto p (s.pc p) = s := by
  unfold ProcSys.goto
  rw [update_eq_self]

theorem reach_reparent (status : CInt) (h : Trans.Reach Init Step s) (hat : s.At p (.reparent status 0))
    (hpar : ∀ i, (s.proc i).parent ≠ some p) : Trans.Reach Init Step (s.goto p (.exitWakeup status 0)) := by
  have hscan : ∀ n ≤ NPROC, Trans.Reach Init Step (s.goto p (.reparent status n)) := by
    intro n
    induction n with
    | zero =>
      intro _
      rwa [← hat.2.2, goto_pc]
    | succ n ih =>
      intro hn
      have := (ih (by omega)).tail (.look ⟨hat.1, hat.2.1, goto_self⟩ (.reparentNext hn (hpar n)))
      rwa [goto_goto] at this
  have := (hscan NPROC (le_rfl)).tail (.look ⟨hat.1, hat.2.1, goto_self⟩ .reparentDone)
  rwa [goto_goto] at this

theorem reach_exitWakeup (status : CInt) (h : Trans.Reach Init Step s) (hat : s.At p (.exitWakeup status 0))
    (hproc : ∀ i, (s.proc i).lock = none ∧ (s.proc i).state ≠ .sleeping) :
    Trans.Reach Init Step (s.goto p (.exitLock status)) := by
  have hwake : ∀ {k c} j, (s.goto p k).modify j (Proc.wakeup c) = s.goto p k := by
    intro k c j
    unfold ProcSys.modify Proc.wakeup
    rw [if_neg fun e => (hproc j).2 e.1, update_eq_self]
  have hscan : ∀ n ≤ NPROC, Trans.Reach Init Step (s.goto p (.exitWakeup status n)) := by
    intro n
    induction n with
    | zero =>
      intro _
      rwa [← hat.2.2, goto_pc]
    | succ n ih =>
      intro hn
      have hat' : (s.goto p (.exitWakeup status n)).At p (.exitWakeup status n) := ⟨hat.1, hat.2.1, goto_self⟩
      by_cases hnp : n = p
      · subst hnp
        have := (ih (by omega)).tail (.look hat' .exitWakeupSelf)
        rwa [goto_goto] at this
      · have := (ih (by omega)).tail (.exitWakeup hat' hn hnp (hproc n).1)
        rwa [hwake, goto_goto] at this
  have := (hscan NPROC (le_rfl)).tail (.look ⟨hat.1, hat.2.1, goto_self⟩ .exitWakeupDone)
  rwa [goto_goto] at this

theorem exit_wait_reaped : ∃ s, Trans.Reach Init Step s ∧
    s.trace = [.waitRet 0 (some 2) [1], .reap 0 1 2 8 (some 7), .exit 1 7] ∧
    (∀ q r, (s.proc q).parent = some r → (s.proc r).state ≠ .zombie ∧ (s.proc r).state ≠ .unused) ∧
    (∀ c, s.reaps c ≤ 1) ∧ (∀ c st st', .exit c st ∈ s.trace → .exit c st' ∈ s.trace → st = st') ∧
    ∀ s' e, Step s s' → s'.trace = e :: s.trace → EvOk s e := by
  have h : Trans.Reach Init Step (boot fun _ _ => true) := .of_init ⟨_, rfl⟩
  have h := h.tail (.run (i := 0) (by decide) rfl rfl)
  have h := h.tail (.look (p := 0) ⟨by decide, rfl, rfl⟩ (.ecall rfl rfl))
  have h := h.tail (.look (p := 0) ⟨by decide, rfl, rfl⟩ .sysFork)
  have h := h.tail (.look (p := 0) ⟨by decide, rfl, rfl⟩ (.allocNext (by decide) rfl nofun))
  have h := h.tail (.allocFound (p := 0) (i := 1) ⟨by decide, rfl, rfl⟩ (by decide) rfl rfl)
  have h := h.tail (.forkRelease (p := 0) (fun _ => true) ⟨by decide, rfl, rfl⟩)
  have h := h.tail (.forkParent (p := 0) ⟨by decide, rfl, rfl⟩ rfl)
  have h := h.tail (.forkRunnable (p := 0) ⟨by decide, rfl, rfl⟩ rfl)
  have h := h.tail (.run (i := 1) (by decide) rfl rfl)
  have h := h.tail (.look (p := 1) ⟨by decide, rfl, rfl⟩ (.ecall rfl rfl))
  have h := h.tail (.sysExit (p := 1) 7 ⟨by decide, rfl, rfl⟩ (by decide))
  have h := h.tail (.exitAcquire (p := 1) ⟨by decide, rfl, rfl⟩ rfl)
  have h := reach_reparent (p := 1) 7 h ⟨by decide, rfl, rfl⟩ fun i => by
    rcases i with _ | _ | i <;> nofun
  have h := reach_exitWakeup (p := 1) 7 h ⟨by decide, rfl, rfl⟩ fun i => by
    rcases i with _ | _ | i <;> exact ⟨rfl, nofun⟩
  have h := h.tail (.exitZombie (p := 1) ⟨by decide, rfl, rfl⟩ rfl)
  have h := h.tail (.exitRelease (p := 1) rfl)
  have h := h.tail (.exitSched (p := 1) rfl)
  have h := h.tail (.look (p := 0) ⟨by decide, rfl, rfl⟩ (.usertrapret rfl rfl))
  have h := h.tail (.look (p := 0) ⟨by decide, rfl, rfl⟩ (.ecall rfl rfl))
  have h := h.tail (.sysWait (p := 0) 8 ⟨by decide, rfl, rfl⟩)
  have h := h.tail (.waitAcquire (p := 0) ⟨by decide, rfl, rfl⟩ (.inl rfl) rfl)
  have h := h.tail (.look (p := 0) ⟨by decide, rfl, rfl⟩ (.waitNext (by decide) nofun))
  have h := h.tail (.waitReap (p := 0) (i := 1) ⟨by decide, rfl, rfl⟩ (by decide) rfl rfl rfl (.inr rfl))
  have h := h.tail (.waitRet (p := 0) ⟨by decide, rfl, rfl⟩)
  exact ⟨_, h, rfl, exit_wait h⟩

end ProcSys

end Xv6
