import Xv6.Lib.Exclusive
import Xv6.Lib.Ring
import Xv6.Pipe

/-!
# A pipe is a queue

`Queue` is the pipe as a queue: the ring holds what has been put in and not yet taken out. `At` is what a
process knows at each place of the code; who is past `acquire(&pi->lock)` owns the lock, so nobody else
changes the pipe under it.
-/

namespace Xv6

open Function

def PipePc.call : PipePc → Option Nat
  | .write c _ _ | .writeLoop c _ _ | .writeDone c _ _ => some c
  | _ => none

namespace PipeSys

variable {P : Type} {src : Nat → Nat → UInt8} {s s' : PipeSys P} {p q : P} {ret : Option (P × Int)}
  {k : PipePc}

/-! ### The queue -/

structure Queue (src : Nat → Nat → UInt8) (s : PipeSys P) : Prop where
  ring : RingHolds PIPESIZE (2 ^ 32) s.pipe.data s.pipe.nread s.pipe.nwrite (s.put.map Prod.snd) s.taken.length
  taken : s.taken = (s.put.map Prod.snd).take s.taken.length
  own : ∀ c, (s.put.filter (·.1 = c)).map Prod.snd = (List.range (s.done c)).map (src c)

theorem PIPESIZE_lt : PIPESIZE < 2 ^ 32 := by decide

theorem PIPESIZE_dvd : PIPESIZE ∣ 2 ^ 32 := by decide

namespace Queue

theorem of_eq (h : Queue src s) (hd : s'.pipe.data = s.pipe.data) (hr : s'.pipe.nread = s.pipe.nread)
    (hw : s'.pipe.nwrite = s.pipe.nwrite) (hp : s'.put = s.put) (ht : s'.taken = s.taken) (hn : s'.done = s.done) :
    Queue src s' := by
  refine ⟨?_, ?_, ?_⟩
  · rw [hd, hr, hw, hp, ht]; exact h.ring
  · rw [hp, ht]; exact h.taken
  · rw [hp, hn]; exact h.own

theorem init (h : Init s) : Queue src s := by
  refine ⟨?_, ?_, ?_⟩
  · rw [h.nread, h.nwrite, h.put, h.taken]; exact .init _
  · rw [h.taken]; simp
  · intro c; rw [h.put, h.done]; simp

theorem push (h : Queue src s) {c i : Nat} (hi : s.done c = i) (room : s.pipe.full = false) :
    Queue src (s.push c (src c i)) := by
  have hne : (s.put.map Prod.snd).length ≠ s.taken.length + PIPESIZE := by
    intro e
    have := (h.ring.full_iff PIPESIZE_lt).mpr e
    simp [Pipe.full, this] at room
  have hmap : (s.put ++ [(c, src c i)]).map Prod.snd = s.put.map Prod.snd ++ [src c i] := by simp
  refine ⟨?_, ?_, ?_⟩
  · show RingHolds _ _ (s.pipe.push (src c i)).data _ (s.pipe.push (src c i)).nwrite
      ((s.put ++ [(c, src c i)]).map Prod.snd) _
    rw [hmap]
    exact h.ring.put PIPESIZE_dvd hne
  · show s.taken = ((s.put ++ [(c, src c i)]).map Prod.snd).take s.taken.length
    rw [hmap, List.take_append_of_le_length h.ring.le]
    exact h.taken
  · intro c'
    show ((s.put ++ [(c, src c i)]).filter (·.1 = c')).map Prod.snd = _
    rw [List.filter_append, List.map_append, h.own c']
    by_cases hc : c = c'
    · subst hc
      simp [PipeSys.push, hi, List.range_succ]
    · simp [PipeSys.push, hc, update_of_ne (Ne.symm hc)]

theorem pop (h : Queue src s) (some : s.pipe.empty = false) : Queue src s.pop := by
  have hne : s.taken.length ≠ (s.put.map Prod.snd).length := by
    intro e
    have := (h.ring.empty_iff PIPESIZE_lt).mpr e
    simp [Pipe.empty, this] at some
  obtain ⟨hfront, hring⟩ := h.ring.get PIPESIZE_dvd hne
  have hlen : s.pop.taken.length = s.taken.length + 1 := by simp [PipeSys.pop]
  refine ⟨?_, ?_, h.own⟩
  · rw [hlen]; exact hring
  · rw [hlen]
    show s.taken ++ [s.pipe.front] = (s.put.map Prod.snd).take (s.taken.length + 1)
    rw [List.take_add_one, ← h.taken, hfront]
    rfl

end Queue

/-! ### Where the processes are -/

def At (s : PipeSys P) (p : P) : PipePc → Prop
  | .out | .read _ _ => True
  | .write c _ i => s.done c = i ∧ c < s.next
  | .writeLoop c _ i | .writeDone c _ i => s.lock = some p ∧ s.done c = i ∧ c < s.next
  | .readWait _ _ | .fail => s.lock = some p
  | .readCopy _ _ i => s.lock = some p ∧ (i = 0 → ¬ (s.pipe.empty = true ∧ s.pipe.writeopen = true))
  | .readDone valid n i => s.lock = some p ∧
    (valid = true → i = 0 → 0 < n.toInt → s.pipe.empty = true ∧ s.pipe.writeopen = false)

structure Inv (src : Nat → Nat → UInt8) (s : PipeSys P) : Prop where
  queue : Queue src s
  at_ : ∀ p, At s p (s.pc p)
  call : Exclusive fun p c => (s.pc p).call = some c
  fresh : ∀ c, s.next ≤ c → s.done c = 0

/-- What `q` knows stays when the lock is somebody else's and the calls of others go on. -/
theorem At.other (h : At s q k) (hl : s.lock ≠ some q) (hd : ∀ c, k.call = some c → s'.done c = s.done c)
    (hn : s.next ≤ s'.next) : At s' q k := by
  cases k with
  | out | read => trivial
  | write c n i => exact ⟨(hd c rfl).trans h.1, lt_of_lt_of_le h.2 hn⟩
  | writeLoop | writeDone | readCopy | readDone => exact absurd h.1 hl
  | readWait | fail => exact absurd h hl

/-- What `q` knows stays when only the lock passes to somebody else and `q` does not hold it, or nothing happens. -/
theorem At.same (h : At s q k) (hl : s.lock = some q → s'.lock = some q) (hp : s'.pipe = s.pipe)
    (hd : ∀ c, k.call = some c → s'.done c = s.done c) (hn : s.next ≤ s'.next) : At s' q k := by
  cases k with
  | out | read => trivial
  | write c n i => exact ⟨(hd c rfl).trans h.1, lt_of_lt_of_le h.2 hn⟩
  | writeLoop c n i | writeDone c n i => exact ⟨hl h.1, (hd c rfl).trans h.2.1, lt_of_lt_of_le h.2.2 hn⟩
  | readCopy | readDone => exact ⟨hl h.1, by rw [hp]; exact h.2⟩
  | readWait | fail => exact hl h

theorem At.call_lt {c : Nat} (h : At s p k) (hc : k.call = some c) : c < s.next := by
  cases k with
  | write => cases hc; exact h.2
  | writeLoop | writeDone => cases hc; exact h.2.2
  | _ => cases hc

theorem not_locked (hp : s.lock = some p) (hqp : q ≠ p) : s.lock ≠ some q := by
  rw [hp]
  intro e
  exact hqp (Option.some.inj e).symm

theorem Inv.init (h : Init s)   : Inv src s := by
  refine ⟨.init h, fun p => ?_, fun p q c hc => ?_, fun c _ => h.done c⟩
  · rw [h.pc]; trivial
  · simp only [h.pc] at hc; cases hc

variable [DecidableEq P]

namespace Inv

theorem goto (h : Inv src s) (hpc : s'.pc = update s.pc p k) (hq : Queue src s')
    (hk : At s' p k) (hother : ∀ q, q ≠ p → At s' q (s.pc q))
    (hcall : ∀ c, k.call = some c → (s.pc p).call = some c ∨ ∀ q, (s.pc q).call ≠ some c)
    (hfresh : ∀ c, s'.next ≤ c → s'.done c = 0) : Inv src s' := by
  refine ⟨hq, fun q => ?_, h.call.step (i := p) (fun q hqp => ?_) ?_, hfresh⟩
  · rw [hpc]
    rcases eq_or_ne q p with hqp | hqp
    · rw [hqp, update_self]; exact hk
    · rw [update_of_ne hqp]; exact hother q hqp
  · rw [hpc, update_of_ne hqp]; exact fun c => id
  · rw [hpc, update_self]
    intro c hc
    exact (hcall c hc).imp id fun h q _ => h q

theorem control (h : Inv src s) (hpc : s'.pc = update s.pc p k) (hpipe : s'.pipe = s.pipe)
    (hput : s'.put = s.put) (htaken : s'.taken = s.taken) (hdone : s'.done = s.done) (hnext : s.next ≤ s'.next)
    (hlock : ∀ q, q ≠ p → s.lock = some q → s'.lock = some q) (hk : At s' p k)
    (hcall : ∀ c, k.call = some c → (s.pc p).call = some c ∨ ∀ q, (s.pc q).call ≠ some c) : Inv src s' := by
  refine h.goto hpc (h.queue.of_eq ?_ ?_ ?_ hput htaken hdone) hk (fun q hqp => ?_) hcall fun c hc => ?_
  · rw [hpipe]
  · rw [hpipe]
  · rw [hpipe]
  · exact (h.at_ q).same (hlock q hqp) hpipe (fun c _ => by rw [hdone]) hnext
  · rw [hdone]; exact h.fresh c (le_trans hnext hc)

/-- The same, when `p` is at `k₀` and goes on in the same call or in none. -/
theorem control_at {k₀ k : PipePc} (h : Inv src s) (pc : s.pc p = k₀) (hpc : s'.pc = update s.pc p k)
    (hpipe : s'.pipe = s.pipe) (hput : s'.put = s.put) (htaken : s'.taken = s.taken) (hdone : s'.done = s.done)
    (hnext : s.next = s'.next) (hlock : ∀ q, q ≠ p → s.lock = some q → s'.lock = some q) (hk : At s p k₀ → At s' p k)
    (hcall : k.call = none ∨ k.call = k₀.call) : Inv src s' := by
  refine h.control hpc hpipe hput htaken hdone (le_of_eq hnext) hlock (hk (pc ▸ h.at_ p)) fun c hc => ?_
  rcases hcall with hn | he
  · rw [hn] at hc; cases hc
  · rw [pc, ← he]; exact .inl hc

theorem step (h : Inv src s) (hst : Step src s ret s') : Inv src s' := by
  -- a step of the owner of the lock does not concern the others
  have hmine : ∀ {p : P} {l : Option P}, s.lock = some p → ∀ q, q ≠ p → s.lock = some q → l = some q :=
    fun hp q hqp hq => absurd hq (not_locked hp hqp)
  cases hst with
  | @pipewrite p n pc =>
    refine h.control rfl rfl rfl rfl rfl (Nat.le_succ _) (fun _ _ => id) ?_ fun c hc => .inr fun q hq => ?_
    · exact ⟨h.fresh _ (le_rfl), Nat.lt_succ_self _⟩
    · cases hc
      exact lt_irrefl _ ((h.at_ q).call_lt hq)
  | writeAcquire pc free =>
    refine h.control_at pc rfl rfl rfl rfl rfl rfl (fun q _ hq => ?_) (fun hat => ⟨rfl, hat⟩) (.inr rfl)
    rw [free] at hq; cases hq
  | writeFail pc _ => exact h.control_at pc rfl rfl rfl rfl rfl rfl (fun _ _ => id) (fun hat => hat.1) (.inl rfl)
  | @writeSleep p c n i pc =>
    have hat : At s p (.writeLoop c n i) := pc ▸ h.at_ p
    exact h.control_at pc rfl rfl rfl rfl rfl rfl (hmine hat.1) (fun hat => hat.2) (.inr rfl)
  | writeBreak pc | writeExit pc =>
    exact h.control_at pc rfl rfl rfl rfl rfl rfl (fun _ _ => id) (fun hat => hat) (.inr rfl)
  | @writeByte p c n i pc lt hopen room =>
    have hat : At s p (.writeLoop c n i) := pc ▸ h.at_ p
    obtain ⟨hlock, hdone, hc⟩ := hat
    refine h.goto rfl ((h.queue.push hdone room).of_eq rfl rfl rfl rfl rfl rfl) ?_ (fun q hqp => ?_) (fun c' hc' => ?_)
      fun c' hc' => ?_
    · refine ⟨hlock, ?_, hc⟩
      show update s.done c (s.done c + 1) c = i + 1
      rw [update_self, hdone]
    · refine (h.at_ q).other (not_locked hlock hqp) (fun c' hc' => update_of_ne ?_ ..) (le_rfl)
      rintro rfl
      exact hqp (h.call q p c' hc' (congrArg PipePc.call pc))
    · rw [pc]; exact .inl hc'
    · have hne : c' ≠ c := Nat.ne_of_gt (lt_of_lt_of_le hc hc')
      exact (update_of_ne hne ..).trans (h.fresh c' hc')
  | @writeReturn p c n i pc =>
    have hat : At s p (.writeDone c n i) := pc ▸ h.at_ p
    exact h.control_at pc rfl rfl rfl rfl rfl rfl (hmine hat.1) (fun _ => trivial) (.inl rfl)
  | piperead valid n pc => exact h.control_at pc rfl rfl rfl rfl rfl rfl (fun _ _ => id) (fun _ => trivial) (.inl rfl)
  | readAcquire pc free =>
    refine h.control_at pc rfl rfl rfl rfl rfl rfl (fun q _ hq => ?_) (fun _ => rfl) (.inl rfl)
    rw [free] at hq; cases hq
  | readFail pc => exact h.control_at pc rfl rfl rfl rfl rfl rfl (fun _ _ => id) (fun hat => hat) (.inl rfl)
  | @readSleep p valid n pc =>
    have hat : At s p (.readWait valid n) := pc ▸ h.at_ p
    exact h.control_at pc rfl rfl rfl rfl rfl rfl (hmine hat) (fun _ => trivial) (.inl rfl)
  | readStart pc go =>
    exact h.control_at pc rfl rfl rfl rfl rfl rfl (fun _ _ => id) (fun hat => ⟨hat, fun _ => go⟩) (.inl rfl)
  | readEmpty pc lt empty =>
    refine h.control_at pc rfl rfl rfl rfl rfl rfl (fun _ _ => id) (fun hat => ⟨hat.1, fun _ hi _ => ⟨empty, ?_⟩⟩) (.inl rfl)
    exact Bool.eq_false_iff.mpr fun e => hat.2 hi ⟨empty, e⟩
  | @readByte p valid n i pc lt some =>
    have hat : At s p (.readCopy valid n i) := pc ▸ h.at_ p
    refine h.goto rfl ((h.queue.pop some).of_eq rfl rfl rfl rfl rfl rfl) ⟨hat.1, fun e => absurd e (Nat.succ_ne_zero i)⟩
      (fun q hqp => (h.at_ q).other (not_locked hat.1 hqp) (fun _ _ => rfl) (le_rfl)) (fun c hc => ?_) h.fresh
    cases hc
  | @readBreak p n i pc lt some =>
    have hat : At s p (.readCopy false n i) := pc ▸ h.at_ p
    refine h.goto rfl ((h.queue.pop some).of_eq rfl rfl rfl rfl rfl rfl) ⟨hat.1, fun e => Bool.noConfusion e⟩
      (fun q hqp => (h.at_ q).other (not_locked hat.1 hqp) (fun _ _ => rfl) (le_rfl)) (fun c hc => ?_) h.fresh
    cases hc
  | @readExit p valid n i pc ge =>
    refine h.control_at pc rfl rfl rfl rfl rfl rfl (fun _ _ => id) (fun hat => ⟨hat.1, fun _ hi hn => ?_⟩) (.inl rfl)
    subst hi
    exact absurd hn (Int.not_lt.mpr ge)
  | @readReturn p valid n i pc =>
    have hat : At s p (.readDone valid n i) := pc ▸ h.at_ p
    exact h.control_at pc rfl rfl rfl rfl rfl rfl (hmine hat.1) (fun _ => trivial) (.inl rfl)
  | @failReturn p pc =>
    have hat : At s p .fail := pc ▸ h.at_ p
    exact h.control_at pc rfl rfl rfl rfl rfl rfl (hmine hat) (fun _ => trivial) (.inl rfl)
  | closeWrite free | closeRead free =>
    refine ⟨h.queue.of_eq rfl rfl rfl rfl rfl rfl, fun q => ?_, h.call, h.fresh⟩
    exact (h.at_ q).other (by rw [free]; simp) (fun _ _ => rfl) (le_rfl)

theorem reach (h : Reachable src s) : Inv src s :=
  Trans.Reach.inv (P := Inv src) (fun _ => init) (fun _ _ h ⟨_, hst⟩ => h.step hst) h

end Inv

/-! ### The pipe -/

/-- The counters are the numbers of bytes that have been put in and taken out, up to their width, and differ by what is in
the ring; what has been taken out is the beginning of what has been put in, where the bytes of each call of `pipewrite` are in their order; and a read of a
mapped buffer returns 0 only at the end of the file. -/
theorem pipe_fifo (h : Reachable src s) : s.pipe.nwrite = s.put.length % 2 ^ 32 ∧ s.pipe.nread = s.taken.length % 2 ^ 32 ∧
    (s.pipe.nwrite + 2 ^ 32 - s.pipe.nread) % 2 ^ 32 ≤ PIPESIZE ∧ s.taken <+: s.put.map Prod.snd ∧
    (∀ c, (s.put.filter (·.1 = c)).map Prod.snd = (List.range (s.done c)).map (src c)) ∧
    ∀ p n i s', s.pc p = .readDone true n i → 0 < n.toInt → Step src s (some (p, 0)) s' →
      s.pipe.empty = true ∧ s.pipe.writeopen = false := by
  have hinv := Inv.reach h
  have hring := hinv.queue.ring
  refine ⟨by simpa using hring.w_eq, hring.r_eq, ?_, ?_, hinv.queue.own, fun p n i s' hpc hn hst => ?_⟩
  · rw [hring.sub_eq PIPESIZE_lt]
    have := hring.cap
    omega
  · rw [hinv.queue.taken]; exact List.take_prefix ..
  · have hat : At s p (.readDone true n i) := hpc ▸ hinv.at_ p
    refine hat.2 rfl ?_ hn
    generalize hret : (some (p, (0 : Int)) : Option (P × Int)) = ret at hst
    cases hst with
    | writeReturn pc =>
      simp only [Option.some.injEq, Prod.mk.injEq] at hret
      obtain ⟨rfl, -⟩ := hret
      rw [hpc] at pc
      cases pc
    | readReturn pc =>
      simp only [Option.some.injEq, Prod.mk.injEq] at hret
      obtain ⟨rfl, hi⟩ := hret
      rw [hpc] at pc
      cases pc
      omega
    | _ => cases hret

/-- A byte is written and the end closed; another process reads it, and reads again. -/
theorem pipe_fifo_eof : ∃ s s' : PipeSys Bool, Reachable (fun _ _ => 7) s ∧ s.put = [(0, 7)] ∧ s.taken = [7] ∧
    s.pc false = .readDone true 1 0 ∧ Step (fun _ _ => 7) s (some (false, 0)) s' ∧ s.pipe.nwrite = s.put.length % 2 ^ 32 ∧
    s.pipe.empty = true ∧ s.pipe.writeopen = false := by
  let s₀ : PipeSys Bool := ⟨⟨fun _ => 0, 0, 0, true, true⟩, none, fun _ => .out, [], [], fun _ => 0, 0⟩
  have h : Reachable (fun _ _ => 7) s₀ := .of_init ⟨rfl, rfl, rfl, rfl, rfl, fun _ => rfl, rfl, rfl, fun _ => rfl, rfl⟩
  have h := h.tail ⟨_, .pipewrite (p := true) 1 rfl⟩
  have h := h.tail ⟨_, .writeAcquire (p := true) rfl rfl⟩
  have h := h.tail ⟨_, .writeByte (p := true) rfl (by decide) rfl (by decide)⟩
  have h := h.tail ⟨_, .writeExit (p := true) rfl (by decide)⟩
  have h := h.tail ⟨_, .writeReturn (p := true) rfl⟩
  have h := h.tail ⟨_, .closeWrite rfl⟩
  have h := h.tail ⟨_, .piperead (p := false) true 1 rfl⟩
  have h := h.tail ⟨_, .readAcquire (p := false) rfl rfl⟩
  have h := h.tail ⟨_, .readStart (p := false) rfl fun e => Bool.noConfusion e.2⟩
  have h := h.tail ⟨_, .readByte (p := false) rfl (by decide) rfl⟩
  have h := h.tail ⟨_, .readExit (p := false) rfl (by decide)⟩
  have h := h.tail ⟨_, .readReturn (p := false) rfl⟩
  have h := h.tail ⟨_, .piperead (p := false) true 1 rfl⟩
  have h := h.tail ⟨_, .readAcquire (p := false) rfl rfl⟩
  have h := h.tail ⟨_, .readStart (p := false) rfl fun e => Bool.noConfusion e.2⟩
  have h := h.tail ⟨_, .readEmpty (p := false) rfl (by decide) rfl⟩
  have hret : ∀ {s : PipeSys Bool}, s.pc false = .readDone true 1 0 →
      Step (fun _ _ => 7) s (some (false, 0)) { s.goto false .out with lock := none } := fun pc => .readReturn (i := 0) pc
  obtain ⟨hw, -, -, -, -, heof⟩ := pipe_fifo h
  exact ⟨_, _, h, rfl, rfl, rfl, hret rfl, hw, heof false 1 0 _ rfl (by decide) (hret rfl)⟩

end PipeSys

end Xv6
