import Xv6.Proofs.Pipe
import Xv6.Proofs.UserCopySpec
import Xv6.StreamRead

/-!
# What a reader takes from a stream, and what it stores

A device is `Lawful` if it hands out its bytes in the order in which they arrived: `Holds d log R` says that of the
bytes `log` the first `R` have been handed out. Over any lawful device a call takes a byte and stores it before the next,
so that the two differ only by a byte whose `copyout` fails.
-/

namespace Xv6

open Prog Function

/-! ### The memory of a process -/

/-- `bs` is written from `a` on. -/
def UserMem.write (m : UserMem) (a : Nat) (bs : List UInt8) : UserMem :=
  fun x => if a ≤ x ∧ x < a + bs.length then bs[x - a]? else m x

namespace UserMem

variable {m m' : UserMem} {a : Nat} {b : UInt8} {bs cs : List UInt8} {ok : Bool}

@[simp] theorem write_nil : m.write a [] = m := by
  funext x
  exact if_neg (by simp only [List.length_nil]; omega)

theorem write_append : (m.write a bs).write (a + bs.length) cs = m.write a (bs ++ cs) := by
  funext x
  simp only [write, List.length_append]
  by_cases h1 : a + bs.length ≤ x
  · rw [if_neg (show ¬ (a ≤ x ∧ x < a + bs.length) by omega), List.getElem?_append_right (by omega)]
    exact if_congr (by omega) (by rw [Nat.sub_add_eq]) rfl
  · rw [if_neg (by omega)]
    by_cases h2 : a ≤ x
    · rw [if_pos (by omega), if_pos (by omega), List.getElem?_append_left (by omega)]
    · rw [if_neg (by omega), if_neg (by omega)]

theorem write_of_not_mem {x : Nat} (h : ¬ (a ≤ x ∧ x < a + bs.length)) : m.write a bs x = m x := if_neg h

theorem write_singleton : m.write a [b] = update m a (some b) := by
  funext x
  rw [write, List.length_singleton]
  by_cases h : x = a
  · subst h
    rw [if_pos (by omega), Nat.sub_self, update_self, List.getElem?_cons_zero]
  · rw [if_neg (by omega), update_of_ne h]

/-- `copyout` stores the bytes up to the first address that is not mapped. -/
theorem copyout_of {k : Nat} (hk : k ≤ bs.length) (hin : ∀ j < k, (m (a + j)).isSome) (hout : k < bs.length → m (a + k) = none) :
    m.copyout a bs = (decide (k = bs.length), m.write a (bs.take k)) := by
  induction bs generalizing m a k with
  | nil =>
    obtain rfl : k = 0 := Nat.le_zero.mp hk
    rw [copyout, List.take_zero, write_nil]
    rfl
  | cons b bs ih =>
    cases k with
    | zero =>
      have h0 : m a = none := hout (Nat.succ_pos _)
      rw [copyout, h0, List.take_zero, write_nil]
      rfl
    | succ k =>
      have h0 : (m a).isSome := hin 0 (Nat.succ_pos k)
      rw [copyout, if_pos h0, ih (k := k) (Nat.le_of_succ_le_succ hk) ?_ ?_, ← write_singleton]
      · rw [List.take_succ_cons, List.length_cons]
        have happ : (m.write a [b]).write (a + [b].length) (bs.take k) = m.write a ([b] ++ bs.take k) := write_append
        exact Prod.ext (decide_eq_decide.mpr Nat.succ_inj.symm) happ
      · intro j hj
        rw [update_of_ne (by omega), show a + 1 + j = a + (j + 1) by omega]
        exact hin (j + 1) (by omega)
      · intro hlt
        rw [update_of_ne (by omega), show a + 1 + k = a + (k + 1) by omega]
        exact hout (Nat.succ_lt_succ hlt)

theorem copyout_one (h : m.copyout a [b] = (ok, m')) : ok = (m a).isSome ∧ m' = if ok then m.write a [b] else m := by
  rw [write_singleton]
  rw [copyout, copyout] at h
  split at h <;> obtain ⟨rfl, rfl⟩ := Prod.mk.inj h <;> simp_all

end UserMem

open Classical in
noncomputable def userMem (m : Bytes) (r : Nat) : UserMem := fun va => if UserByte m r va then some (m (phys m r va)) else none

namespace UserTable

variable {m m' : Bytes} {s : Kmem} {r va : Nat} {node : Nat → Nat → Option Nat} {src bs : List UInt8}

/-- No two pages of the user are at one place. -/
def Apart (m : Bytes) (r : Nat) : Prop := ∀ x y, UserByte m r x → UserByte m r y → phys m r x = phys m r y → x = y

theorem userMem_scatter (h : UserTable m r node) (hinj : Apart m r) (hu : ∀ k < bs.length, UserByte m r (va + k)) :
    userMem (Bytes.scatter (phys m r) m va bs) r = (userMem m r).write va bs := by
  have hsame : ∀ l x q, node l x = some q → SamePage m (Bytes.scatter (phys m r) m va bs) q :=
    h.samePage_of_user fun a ha => Bytes.scatter_of_not_mem fun i hi => ha _ (hu i hi)
  funext x
  simp only [userMem, UserMem.write]
  by_cases hx : x < MAXVA
  · have hpte := h.pteOf_of_same hsame (page_lt_of_lt hx)
    rw [UserByte, phys, hpte, ← UserByte, ← phys]
    by_cases hux : UserByte m r x
    · rw [if_pos hux, if_pos hux]
      split
      · rename_i hin
        obtain ⟨k, rfl⟩ := Nat.exists_eq_add_of_le hin.1
        have hk : k < bs.length := by omega
        rw [Bytes.scatter_last hk fun i hi hlt he => ?_]
        · rw [Nat.add_sub_cancel_left, List.getD_eq_getElem?_getD, List.getElem?_eq_getElem hk, Option.getD_some]
        · have := hinj _ _ (hu i hlt) (hu k hk) he
          omega
      · rename_i hin
        rw [Bytes.scatter_of_not_mem fun i hi he => ?_]
        have := hinj _ _ (hu i hi) hux he
        omega
    · rw [if_neg hux, if_neg hux, if_neg fun hin => hux ?_]
      obtain ⟨k, rfl⟩ := Nat.exists_eq_add_of_le hin.1
      exact hu k (by omega)
  · have hux : ∀ m', ¬ UserByte m' r x := fun m' hu => hx hu.1
    rw [if_neg (hux _), if_neg (hux m), if_neg fun hin => hx ?_]
    obtain ⟨k, rfl⟩ := Nat.exists_eq_add_of_le hin.1
    exact (hu k (by omega)).1

/-- `copyout` of `vm.c` does to the memory of the process what `UserMem.copyout` says. -/
theorem copyout_userMem (h : UserTable s.mem r node) (hinj : Apart s.mem r) : wp (Xv6.copyout r va src)
    (fun ok s' => (userMem s.mem r).copyout va src = (ok, userMem s'.mem r)) s := by
  refine wp_copyout_bytes h.stable fun c hc => ?_
  obtain ⟨hle, hin, hout⟩ := h.upto hc
  have hlen : (src.take c).length = c := List.length_take_of_le hle
  rw [h.scatter_eq fun k hk => hin k (by omega), h.userMem_scatter hinj fun k hk => hin k (by omega)]
  exact UserMem.copyout_of hle (fun j hj => by rw [userMem, if_pos (hin j hj)]; rfl) fun hlt => if_neg (hout hlt)

end UserTable

/-! ### Calls -/

/-- A call on the way, with `i` bytes done: it has stored what it has taken. -/
structure Progress (c : ReadCall) (i : Nat) (m : UserMem) : Prop where
  length : c.sent.length = i
  le : (i : Int) ≤ max c.n.toInt 0
  mem : m = c.start.write c.addr c.sent
  got : c.got = c.sent

/-- The call returns `r ≥ 0`, has stored `r` bytes, and has taken these, or an end of file only. -/
structure Exact (mark : UInt8 → Prop) (c : ReadCall) (r : Int) (m : UserMem) : Prop where
  length : (c.sent.length : Int) = r
  mem : m = c.start.write c.addr c.sent
  got : c.got = c.sent ∨ ∃ ch, mark ch ∧ c.got = [ch] ∧ c.sent = []

/-- A call that returns `r`, when `faults` bytes have been lost in all. -/
structure Finished (mark : UInt8 → Prop) (faults : Nat) (c : ReadCall) (r : Int) (m : UserMem) : Prop where
  le : (c.sent.length : Int) ≤ max c.n.toInt 0
  mem : m = c.start.write c.addr c.sent
  val : r = -1 ∨ r = c.sent.length
  exact : 0 ≤ r → Exact mark c r m ∨ 0 < faults ∧ r < c.n.toInt ∧ c.start (c.addr + r.toNat) = none

variable {mark : UInt8 → Prop} {c : ReadCall} {i faults faults' : Nat} {r : Int} {m m' : UserMem} {ch : UInt8}

namespace Progress

variable (h : Progress c i m)
include h

theorem killed : Finished mark faults c (-1) m :=
  ⟨by rw [h.length]; exact h.le, h.mem, .inl rfl, fun h0 => absurd h0 (by decide)⟩

theorem stop : Finished mark faults c i m := by
  have hlen : (c.sent.length : Int) = i := congrArg Nat.cast h.length
  exact ⟨by rw [hlen]; exact h.le, h.mem, .inr hlen.symm, fun _ => .inl ⟨hlen, h.mem, .inl h.got⟩⟩

theorem eof (hi : i = 0) (hch : mark ch) : Finished mark faults { c with got := c.got ++ [ch] } i m := by
  have hnil : c.sent = [] := List.length_eq_zero_iff.mp (h.length.trans hi)
  have hlen : (c.sent.length : Int) = i := congrArg Nat.cast h.length
  refine ⟨by rw [hlen]; exact h.le, h.mem, .inr hlen.symm, fun _ => .inl ⟨hlen, h.mem, .inr ⟨ch, hch, ?_, hnil⟩⟩⟩
  rw [h.got, hnil]
  rfl

theorem byte (hi : (i : Int) < c.n.toInt) (hm : m' = m.write (c.addr + i) [ch]) :
    Progress { c with got := c.got ++ [ch], sent := c.sent ++ [ch] } (i + 1) m' := by
  refine ⟨by rw [List.length_append, h.length]; rfl, ?_, ?_, by rw [h.got]⟩
  · show ((i + 1 : Nat) : Int) ≤ max c.n.toInt 0
    omega
  rw [hm, h.mem, ← h.length]
  exact UserMem.write_append

theorem fault (ch : UInt8) (hi : (i : Int) < c.n.toInt) (hm : m (c.addr + i) = none) (hf : 0 < faults) :
    Finished mark faults { c with got := c.got ++ [ch] } i m := by
  have hlen : (c.sent.length : Int) = i := congrArg Nat.cast h.length
  refine ⟨by rw [hlen]; exact h.le, h.mem, .inr hlen.symm, fun _ => .inr ⟨hf, hi, ?_⟩⟩
  rwa [h.mem, UserMem.write_of_not_mem (by rw [h.length]; omega)] at hm

end Progress

namespace Finished

variable (h : Finished mark faults c r m)
include h

theorem mono (hf : faults ≤ faults') : Finished mark faults' c r m :=
  ⟨h.le, h.mem, h.val, fun hr => (h.exact hr).imp_right (.imp_left fun h0 => lt_of_lt_of_le h0 hf)⟩

theorem within : r ≤ max c.n.toInt 0 ∧
    ∀ a, ¬ (c.addr ≤ a ∧ (a : Int) < c.addr + max c.n.toInt 0) → m a = c.start a := by
  have hle := h.le
  refine ⟨?_, fun a ha => ?_⟩
  · rcases h.val with hr | hr <;> omega
  · rw [h.mem]
    exact UserMem.write_of_not_mem (by omega)

end Finished

/-! ### Devices -/

/-- The device hands out the bytes in the order in which they arrived. -/
structure Lawful {D : Type} (dev : StreamDevice D) (mark : UInt8 → Prop) (Holds : D → List UInt8 → Nat → Prop) : Prop where
  input : ∀ {d d' log cs bs R}, Holds d log R → dev.input d cs bs d' → Holds d' (log ++ bs) R
  byte : ∀ {d d' log R waiting n i ch last}, Holds d log R → dev.turn d waiting n i = .byte ch d' last →
    log[R]? = some ch ∧ Holds d' log (R + 1) ∧ (i : Int) < n.toInt
  eof : ∀ {d d' log R waiting n i ch}, Holds d log R → dev.turn d waiting n i = .eof ch d' →
    log[R]? = some ch ∧ Holds d' log (R + 1) ∧ i = 0 ∧ mark ch

namespace StreamSys

variable {P D : Type} {s s' : StreamSys P D}

def reported (s : StreamSys P D) : List UInt8 := (s.taken.filter fun x => !x.2).map Prod.fst

def At (mark : UInt8 → Prop) (faults : Nat) (m : UserMem) : ReadPc → Prop
  | .out => True
  | .enter c _ i | .loop c _ i => Progress c i m
  | .done c r => Finished mark faults c r m

theorem At.mono {k : ReadPc} (h : At mark faults m k) (hf : faults ≤ faults') : At mark faults' m k := by
  cases k with
  | out => trivial
  | enter c waiting i => exact h
  | loop c waiting i => exact h
  | done c r => exact Finished.mono h hf

structure Inv (mark : UInt8 → Prop) (Holds : D → List UInt8 → Nat → Prop) (s : StreamSys P D) : Prop where
  holds : Holds s.dev s.arrived s.taken.length
  taken : s.taken.map Prod.fst <+: s.arrived
  marked : ∀ x ∈ s.taken, x.2 = true → mark x.1
  sub : s.delivered.Sublist s.reported
  count : s.delivered.length + s.faults = s.reported.length
  calls : ∀ p, At mark s.faults (s.mem p) (s.pc p)
  returned : ∀ x ∈ s.returned, Finished mark s.faults x.1 x.2.1 x.2.2

variable [DecidableEq P] {dev : StreamDevice D} {Holds : D → List UInt8 → Nat → Prop}

theorem calls_update {pc : P → ReadPc} {mem : P → UserMem} {p : P} {k : ReadPc} (h : ∀ q, At mark faults (mem q) (pc q))
    (hf : faults ≤ faults') (hk : At mark faults' m k) (q : P) :
    At mark faults' (update mem p m q) (update pc p k q) := by
  by_cases hq : q = p
  · subst hq
    rw [update_self, update_self]
    exact hk
  · rw [update_of_ne hq, update_of_ne hq]
    exact (h q).mono hf

namespace Inv

theorem goto (h : Inv mark Holds s) {p : P} {k : ReadPc} (hk : At mark s.faults (s.mem p) k) : Inv mark Holds (s.goto p k) := by
  refine ⟨h.holds, h.taken, h.marked, h.sub, h.count, fun q => ?_, h.returned⟩
  have := calls_update (p := p) h.calls (le_rfl) hk q
  rwa [update_eq_self] at this

/-- A byte is taken: it is an end of file, is delivered, or is lost. -/
theorem take (h : Inv mark Holds s) {p : P} {k : ReadPc} {d : D} (eof : Bool) (sent : List UInt8) (lost : Nat)
    (hch : s.arrived[s.taken.length]? = some ch) (hd : Holds d s.arrived (s.taken.length + 1)) (hmark : eof = true → mark ch)
    (hsub : sent.Sublist (if eof then [] else [ch])) (hcount : sent.length + lost = if eof then 0 else 1)
    (hk : At mark (s.faults + lost) m k) : Inv mark Holds { s.goto p k with
      dev := d, taken := s.taken ++ [(ch, eof)], delivered := s.delivered ++ sent, faults := s.faults + lost
      mem := update s.mem p m } := by
  have hrep : (s.taken ++ [(ch, eof)] |>.filter fun x => !x.2).map Prod.fst = s.reported ++ if eof then [] else [ch] := by
    rw [List.filter_append, List.map_append, reported]
    cases eof <;> rfl
  refine ⟨?_, ?_, fun x hx => ?_, ?_, ?_, calls_update h.calls (Nat.le_add_right ..) hk,
    fun x hx => (h.returned x hx).mono (Nat.le_add_right ..)⟩
  · show Holds d s.arrived (s.taken ++ [(ch, eof)]).length
    rw [List.length_append]
    exact hd
  · have htake := List.prefix_iff_eq_take.mp h.taken
    rw [List.length_map] at htake
    rw [List.map_append, htake, List.prefix_iff_eq_take, ← htake, List.length_append, List.length_map]
    show s.taken.map Prod.fst ++ [ch] = s.arrived.take (s.taken.length + 1)
    rw [List.take_add_one, hch, ← htake]
    rfl
  · rcases List.mem_append.mp hx with hx | hx
    · exact h.marked x hx
    · obtain rfl := List.mem_singleton.mp hx
      exact hmark
  · show (s.delivered ++ sent).Sublist _
    rw [reported, hrep]
    exact h.sub.append hsub
  · have hl : (if eof then [] else [ch]).length = if eof then 0 else 1 := by cases eof <;> rfl
    have := h.count
    rw [reported, hrep, List.length_append, List.length_append, hl]
    show _ + (s.faults + lost) = _
    omega

omit [DecidableEq P] in
theorem init {d : D} (h₀ : Holds d [] 0) (h : Init d s) : Inv mark Holds s := by
  refine ⟨?_, ?_, ?_, ?_, ?_, fun p => ?_, ?_⟩
  · rw [h.dev, h.arrived, h.taken]
    exact h₀
  · rw [h.taken]
    exact List.nil_prefix
  · simp [h.taken]
  · rw [h.delivered]
    exact List.nil_sublist _
  · simp [h.delivered, h.faults, reported, h.taken]
  · rw [h.pc p]
    trivial
  · simp [h.returned]

omit [DecidableEq P] in
theorem progress (h : Inv mark Holds s) {p : P} {waiting : Bool} (hp : s.pc p = .loop c waiting i) : Progress c i (s.mem p) := by
  have := h.calls p
  rwa [hp] at this

theorem step (hdev : Lawful dev mark Holds) (h : Inv mark Holds s) (hs : Step dev s s') : Inv mark Holds s' := by
  cases hs with
  | input free input =>
    exact ⟨hdev.input h.holds input, h.taken.trans (List.prefix_append ..), h.marked, h.sub, h.count, h.calls, h.returned⟩
  | @user p m pc =>
    refine ⟨h.holds, h.taken, h.marked, h.sub, h.count, fun q => ?_, h.returned⟩
    have := calls_update (p := p) (m := m) (k := .out) h.calls (le_rfl) trivial q
    rwa [← pc, update_eq_self] at this
  | call addr n pc =>
    exact h.goto ⟨rfl, le_max_right .., UserMem.write_nil.symm, rfl⟩
  | @acquire p c waiting i pc free =>
    have hp := h.calls p
    rw [pc] at hp
    exact { h.goto (p := p) (k := .loop c waiting i) hp with }
  | sleep pc turn => exact { h.goto (k := .enter _ _ _) (h.progress pc) with }
  | killed pc turn => exact h.goto (h.progress pc).killed
  | go pc turn => exact h.goto (k := .loop _ _ _) (h.progress pc)
  | stop pc turn => exact h.goto (h.progress pc).stop
  | @eof p c waiting i ch d pc turn =>
    obtain ⟨hch, hd, hi, hmark⟩ := hdev.eof h.holds turn
    have := h.take (p := p) true [] 0 hch hd (fun _ => hmark) (List.Sublist.refl _) rfl
      (k := .done _ _) ((h.progress pc).eof hi hmark)
    rwa [List.append_nil, add_zero, update_eq_self] at this
  | @byte p c waiting i ch d last m pc turn copy =>
    obtain ⟨hch, hd, hi⟩ := hdev.byte h.holds turn
    have hp := (h.progress pc).byte hi (UserMem.copyout_one copy).2
    refine h.take false [ch] 0 hch hd Bool.noConfusion (List.Sublist.refl _) rfl ?_
    cases last
    · exact hp
    · exact hp.stop
  | @fault p c waiting i ch d last m pc turn copy =>
    obtain ⟨hch, hd, hi⟩ := hdev.byte h.holds turn
    obtain ⟨hnone, rfl⟩ := UserMem.copyout_one copy
    have := h.take (p := p) false [] 1 hch hd Bool.noConfusion (List.nil_sublist _) rfl
      (k := .done _ _) ((h.progress pc).fault ch hi (by simpa using hnone) (Nat.succ_pos _))
    rwa [List.append_nil] at this
  | @ret p c r pc =>
    have hp := h.calls p
    rw [pc] at hp
    have hg := h.goto (p := p) (k := .out) trivial
    refine { hg with returned := fun x hx => ?_ }
    rcases List.mem_append.mp hx with hx | hx
    · exact h.returned x hx
    · obtain rfl := List.mem_singleton.mp hx
      exact hp

theorem of_reachable (hdev : Lawful dev mark Holds) {d : D} (h₀ : Holds d [] 0) (h : Reachable dev d s) : Inv mark Holds s :=
  Trans.Reach.inv (P := Inv mark Holds) (fun _ hi => init h₀ hi) (fun _ _ hi hs => hi.step hdev hs) h

end Inv

/-- What is taken from the stream is what is stored, apart from ends of file. -/
structure NothingLost (mark : UInt8 → Prop) (s : StreamSys P D) : Prop where
  calls : ∀ x ∈ s.returned, 0 ≤ x.2.1 → Exact mark x.1 x.2.1 x.2.2
  delivered : s.delivered = s.reported
  arrived : s.taken.map Prod.fst <+: s.arrived
  marked : ∀ x ∈ s.taken, x.2 = true → mark x.1

omit [DecidableEq P] in
theorem Inv.nothingLost_iff (h : Inv mark Holds s) : NothingLost mark s ↔ s.faults = 0 := by
  have hcount := h.count
  refine ⟨fun hn => ?_, fun hf => ⟨fun x hx hr => ?_, ?_, h.taken, h.marked⟩⟩
  · rw [hn.delivered] at hcount
    omega
  · exact ((h.returned x hx).exact hr).resolve_right fun h => by omega
  · exact h.sub.eq_of_length (by omega)

theorem lands_of_update {p : P} {k : ReadPc} (hpc : s'.pc = update s.pc p k)
    (h : ∀ c waiting i ch d last, s.pc p = .loop c waiting i → dev.turn s.dev waiting c.n i = .byte ch d last →
      (s.mem p (c.addr + i)).isSome) : Lands dev s s' := by
  intro q c waiting i ch d last hq hne
  by_cases hqp : q = p
  · exact hqp ▸ h c waiting i ch d last (hqp ▸ hq)
  · rw [hpc, update_of_ne hqp] at hne
    exact absurd rfl hne

/-- A byte is lost exactly in a step that takes it for an address that is not mapped. -/
theorem Step.faults_iff (h : Step dev s s') : s'.faults = 0 ↔ s.faults = 0 ∧ Lands dev s s' := by
  have same : Lands dev s s' → s'.faults = s.faults → (s'.faults = 0 ↔ s.faults = 0 ∧ Lands dev s s') :=
    fun hl hf => by rw [hf, and_iff_left hl]
  cases h with
  | input | user => exact same (fun q _ _ _ _ _ _ _ hne => absurd rfl hne) rfl
  | call _ _ pc | ret pc | acquire pc => exact same (lands_of_update rfl fun _ _ _ _ _ _ e => by cases pc.symm.trans e) rfl
  | sleep pc turn | killed pc turn | go pc turn | stop pc turn | eof pc turn =>
    refine same (lands_of_update rfl fun _ _ _ _ _ _ e ht => ?_) rfl
    cases pc.symm.trans e
    cases turn.symm.trans ht
  | byte pc turn copy =>
    refine same (lands_of_update rfl fun _ _ _ _ _ _ e _ => ?_) rfl
    cases pc.symm.trans e
    exact (UserMem.copyout_one copy).1.symm
  | @fault p c waiting i ch d last m pc turn copy =>
    refine iff_of_false (Nat.succ_ne_zero _) fun hl => ?_
    have hsome := hl.2 p c waiting i ch d last pc (by rw [pc]; exact fun e => by cases (update_self ..).symm.trans e) turn
    cases (UserMem.copyout_one copy).1.trans hsome

theorem reach_lands_iff {d : D} (h : Reachable dev d s) :
    s.faults = 0 ↔ Trans.Reach (Init d) (fun s s' => Step dev s s' ∧ Lands dev s s') s := by
  constructor
  · refine Trans.Reach.inv_of (P := fun s => s.faults = 0 → Trans.Reach (Init d) (fun s s' => Step dev s s' ∧ Lands dev s s') s)
      (fun s hi _ => .of_init hi) (fun s s' _ ih hs hf => ?_) h
    obtain ⟨hf, hl⟩ := hs.faults_iff.mp hf
    exact (ih hf).tail ⟨hs, hl⟩
  · intro h
    exact h.inv (P := fun s => s.faults = 0) (fun _ hi => hi.faults) fun _ _ hf hs => hs.1.faults_iff.mpr ⟨hf, hs.2⟩

theorem Inv.nothingLost_iff_lands (hinv : Inv mark Holds s) {d : D} (h : Reachable dev d s) :
    NothingLost mark s ↔ Trans.Reach (Init d) (fun s s' => Step dev s s' ∧ Lands dev s s') s :=
  hinv.nothingLost_iff.trans (reach_lands_iff h)

end StreamSys

/-! ### The pipe and the console -/

/-- The bytes that have arrived at a pipe are in its ring. -/
def PipeHolds (pi : Pipe) (log : List UInt8) (R : Nat) : Prop := RingHolds PIPESIZE (2 ^ 32) pi.data pi.nread pi.nwrite log R

theorem pipereadTurn_cases (pi : Pipe) (waiting : Bool) (n : CInt) (i : Nat) :
    pipereadTurn pi waiting n i ∈ [.block, .go, .stop] ∨
    pi.empty = false ∧ (i : Int) < n.toInt ∧ pipereadTurn pi waiting n i = .byte pi.front pi.pop false := by
  rw [pipereadTurn]
  split
  · split <;> simp
  · split
    · split <;> simp_all
    · simp

theorem lawful_pipeDevice : Lawful pipeDevice (fun _ => False) PipeHolds := by
  refine ⟨fun {d d' log cs bs R} h hi => ?_, fun {d d' log R waiting n i ch last} h ht => ?_,
    fun {d d' log R waiting n i ch} h ht => ?_⟩
  · cases hi with
    | write ch room =>
      refine RingHolds.put h PipeSys.PIPESIZE_dvd fun e => ?_
      have := (RingHolds.full_iff h PipeSys.PIPESIZE_lt).mpr e
      simp [Pipe.full, this] at room
    | close => rwa [List.append_nil]
  · rcases pipereadTurn_cases d waiting n i with hturn | ⟨hempty, hi, hturn⟩
    · simp [show pipereadTurn d waiting n i = _ from ht] at hturn
    · obtain ⟨rfl, rfl, -⟩ := Turn.byte.inj (hturn.symm.trans ht)
      obtain ⟨hfront, hring⟩ := RingHolds.get h PipeSys.PIPESIZE_dvd fun e => by
        simp [Pipe.empty, (RingHolds.empty_iff h PipeSys.PIPESIZE_lt).mpr e] at hempty
      exact ⟨hfront, hring, hi⟩
  · rcases pipereadTurn_cases d waiting n i with hturn | ⟨-, -, hturn⟩
    · simp [show pipereadTurn d waiting n i = _ from ht] at hturn
    · cases hturn.symm.trans ht

/-- The bytes up to `cons.w` have arrived, and those from there to `cons.e` are being edited. -/
structure ConsHolds (co : Cons) (log : List UInt8) (R : Nat) (edit : List UInt8) : Prop where
  ring : RingHolds INPUT_BUF_SIZE (2 ^ 32) co.buf co.r.toNat co.e.toNat (log ++ edit) R
  le : R ≤ log.length
  w : co.w.toNat = log.length % 2 ^ 32

theorem INPUT_BUF_SIZE_dvd : INPUT_BUF_SIZE ∣ 2 ^ 32 := by decide

theorem toNat_sub_eq (x y : BitVec 32) : (x - y).toNat = (x.toNat + 2 ^ 32 - y.toNat) % 2 ^ 32 := by
  rw [BitVec.toNat_sub]
  congr 1
  have := y.isLt
  omega

theorem toNat_succ (x : BitVec 32) : (x + 1).toNat = (x.toNat + 1) % 2 ^ 32 := BitVec.toNat_add x 1

namespace ConsHolds

variable {co : Cons} {log edit : List UInt8} {R : Nat}

section

variable (h : ConsHolds co log R edit)
include h

theorem e_eq_iff : co.e = co.w ↔ edit = [] := by
  have hring := h.ring.skip h.le (by rw [List.length_append]; exact Nat.le_add_right ..)
  rw [← BitVec.toNat_inj, h.w, eq_comm, hring.empty_iff (by decide), List.length_append, Nat.left_eq_add, List.length_eq_zero_iff]

theorem back (hne : co.e ≠ co.w) : ConsHolds { co with e := co.e - 1 } log R edit.dropLast := by
  rcases List.eq_nil_or_concat' edit with rfl | ⟨edit', a, rfl⟩
  · exact absurd (h.e_eq_iff.mpr rfl) hne
  · have hring := h.ring
    rw [← List.append_assoc] at hring
    rw [List.dropLast_concat]
    refine ⟨?_, h.le, h.w⟩
    show RingHolds _ _ co.buf co.r.toNat (co.e - 1).toNat _ _
    rw [toNat_sub_eq]
    exact hring.unput (by decide) (by rw [List.length_append]; exact Nat.le_add_right_of_le h.le)

theorem get_back (hne : co.e ≠ co.w) : co.get (co.e - 1) ∈ edit := by
  have he := (h.back hne).ring.w_eq
  rcases List.eq_nil_or_concat' edit with rfl | ⟨edit', a, rfl⟩
  · exact absurd (h.e_eq_iff.mpr rfl) hne
  · rw [List.dropLast_concat] at he
    have hcell := h.ring.cell (log ++ edit').length (by rw [List.length_append]; exact Nat.le_add_right_of_le h.le)
      (by simp only [List.length_append, List.length_singleton]; omega)
    rw [← List.append_assoc, List.getElem?_concat_length] at hcell
    rw [Cons.get, he, Nat.mod_mod_of_dvd _ INPUT_BUF_SIZE_dvd, ← Option.some.inj hcell]
    exact List.mem_append_right _ (List.mem_singleton_self a)

/-- There is no newline in the line, so all of it goes. -/
theorem killLine (hn : newline ∉ edit) :
    ConsHolds (co.killLine edit.length) log R [] ∧ (co.killLine edit.length).w = co.w := by
  induction hk : edit.length generalizing co edit with
  | zero => exact ⟨List.length_eq_zero_iff.mp hk ▸ h, rfl⟩
  | succ k ih =>
    have hne : co.e ≠ co.w := fun he => by simp [h.e_eq_iff.mp he] at hk
    rw [Cons.killLine, if_pos ⟨hne, fun he => hn (show (0x0a : UInt8) ∈ edit from he ▸ h.get_back hne)⟩]
    exact ih (h.back hne) (fun hm => hn (List.mem_of_mem_dropLast hm)) (by rw [List.length_dropLast, hk, Nat.add_sub_cancel])

theorem e_sub_r : (co.e - co.r).toNat = (log.drop R).length + edit.length := by
  have := h.le
  rw [toNat_sub_eq, h.ring.sub_eq (by decide), List.length_append, List.length_drop]
  omega

theorem e_sub_w : (co.e - co.w).toNat = edit.length := by
  have hring := h.ring.skip h.le (by rw [List.length_append]; exact Nat.le_add_right ..)
  rw [toNat_sub_eq, h.w, hring.sub_eq (by decide), List.length_append, Nat.add_sub_cancel_left]

theorem store (hroom : (co.e - co.r).toNat < INPUT_BUF_SIZE) (c : UInt8) :
    ConsHolds { co with buf := update co.buf (co.e.toNat % INPUT_BUF_SIZE) c, e := co.e + 1 } log R (edit ++ [c]) := by
  have hne : (log ++ edit).length ≠ R + INPUT_BUF_SIZE := by
    rw [h.e_sub_r, List.length_drop] at hroom
    rw [List.length_append]
    omega
  refine ⟨?_, h.le, h.w⟩
  rw [← List.append_assoc]
  show RingHolds _ _ _ co.r.toNat (co.e + 1).toNat _ _
  rw [toNat_succ]
  exact h.ring.put INPUT_BUF_SIZE_dvd hne

theorem commit : ConsHolds { co with w := co.e } (log ++ edit) R [] :=
  ⟨by rw [List.append_nil]; exact h.ring, h.ring.le, h.ring.w_eq⟩

end

theorem committed_commit (co₀ : Cons) (h : ConsHolds co log R edit) (hw : co₀.w = co.w) :
    co₀.committed { co with w := co.e } = edit := by
  have hring := h.ring.skip h.le (by rw [List.length_append]; exact Nat.le_add_right ..)
  have hdrop := hring.drop_eq INPUT_BUF_SIZE_dvd (by decide)
  rw [List.drop_left, ← h.w, ← hw, ← toNat_sub_eq] at hdrop
  exact hdrop.symm

theorem committed_of_eq {co' : Cons} (hw : co'.w = co.w) : co.committed co' = [] := by
  rw [Cons.committed, hw, BitVec.sub_self]
  rfl

theorem get (h : ConsHolds co log R edit) (hne : co.r ≠ co.w) :
    log[R]? = some (co.get co.r) ∧ ConsHolds { co with r := co.r + 1 } log (R + 1) edit := by
  have hlt : R < log.length := by
    refine lt_of_le_of_ne h.le fun e => hne (BitVec.eq_of_toNat_eq ?_)
    rw [h.ring.r_eq, h.w, e]
  obtain ⟨hfront, hring⟩ := h.ring.get INPUT_BUF_SIZE_dvd (by rw [List.length_append]; omega)
  rw [List.getElem?_append_left hlt] at hfront
  rw [← toNat_succ] at hring
  exact ⟨hfront, hring, hlt, h.w⟩

end ConsHolds

/-- The ring and the indices show an editor. -/
structure Shows (co : Cons) (log : List UInt8) (R : Nat) (x : Editor) : Prop extends ConsHolds co log R x.edit where
  committed : x.committed = log.drop R
  line : newline ∉ x.edit

namespace Shows

variable {co co' : Cons} {log edit : List UInt8} {R : Nat} {x : Editor}

theorem init (buf : Nat → UInt8) : Shows ⟨buf, 0, 0, 0⟩ [] 0 ⟨[], []⟩ :=
  ⟨⟨.init buf, Nat.le_refl 0, rfl⟩, rfl, List.not_mem_nil⟩

section

variable (h : Shows co log R x)
include h

theorem keep (h' : ConsHolds co' log R edit) (hn : newline ∉ edit) (hw : co'.w = co.w) :
    Shows co' (log ++ co.committed co') R { x with edit := edit } := by
  rw [ConsHolds.committed_of_eq hw, List.append_nil]
  exact ⟨h', h.committed, hn⟩

theorem unread_eq : (co.e - co.r).toNat = x.unread := by
  rw [h.e_sub_r, Editor.unread, h.committed]

theorem add (hroom : (co.e - co.r).toNat < INPUT_BUF_SIZE) (c : UInt8) :
    let y := { co with buf := update co.buf (co.e.toNat % INPUT_BUF_SIZE) c, e := co.e + 1 }
    let y := if c = newline ∨ c = ctrlD ∨ (y.e - y.r).toNat = INPUT_BUF_SIZE then { y with w := y.e } else y
    Shows y (log ++ co.committed y) R (x.add c) := by
  intro y
  have h' : ConsHolds y log R (x.edit ++ [c]) := h.store hroom c
  have hfull : (y.e - y.r).toNat = x.unread + 1 := by
    rw [h'.e_sub_r, ← h.committed, List.length_append, List.length_singleton, Editor.unread, add_assoc]
  dsimp only
  rw [hfull, Editor.add]
  split
  · rw [h'.committed_commit co rfl]
    exact ⟨h'.commit, by rw [List.drop_append_of_le_length h.le, h.committed], List.not_mem_nil⟩
  · rename_i hc
    exact h.keep h' (fun hm => (List.mem_append.mp hm).elim h.line fun hm => hc (.inl (List.mem_singleton.mp hm).symm)) rfl

theorem intr (c : UInt8) : Shows (co.intr c) (log ++ co.committed (co.intr c)) R (x.type c) := by
  have same : Shows co (log ++ co.committed co) R x := h.keep h.toConsHolds h.line rfl
  rw [Cons.intr, Editor.type, ← h.unread_eq]
  by_cases hp : c = 0x10
  · rw [if_pos hp, if_pos (.inr hp)]
    exact same
  by_cases hnul : c = 0
  · subst hnul
    exact same
  rw [if_neg hp, if_neg (not_or.mpr ⟨hnul, hp⟩)]
  split
  · obtain ⟨h', hw⟩ := h.killLine h.line
    rw [h.e_sub_w]
    exact h.keep h' List.not_mem_nil hw
  · split
    · split
      · rename_i hne
        exact h.keep (h.back hne) (fun hm => h.line (List.mem_of_mem_dropLast hm)) rfl
      · rename_i heq
        have hnil := h.e_eq_iff.mp (not_not.mp heq)
        have hc := h.toConsHolds
        rw [hnil] at hc ⊢
        exact h.keep hc List.not_mem_nil rfl
    · by_cases hroom : (co.e - co.r).toNat < INPUT_BUF_SIZE
      · rw [if_pos ⟨hnul, hroom⟩, if_pos hroom]
        exact h.add hroom _
      · rw [if_neg fun hc => hroom hc.2, if_neg hroom]
        exact same

theorem get (hne : co.r ≠ co.w) :
    log[R]? = some (co.get co.r) ∧ ∃ l, x.committed = co.get co.r :: l ∧ Shows { co with r := co.r + 1 } log (R + 1) ⟨l, x.edit⟩ := by
  obtain ⟨hget, h'⟩ := h.toConsHolds.get hne
  refine ⟨hget, log.drop (R + 1), ?_, h', rfl, h.line⟩
  rw [h.committed]
  exact List.drop_eq_getElem?_toList_append.trans (by rw [hget]; rfl)

theorem r_eq_iff : co.r = co.w ↔ x.committed = [] := by
  refine ⟨fun he => ?_, fun hnil => ?_⟩
  · have hcap := h.ring.cap
    rw [List.length_append] at hcap
    rw [h.committed, RingHolds.eq_of_mod (M := 2 ^ 32) h.le (by simp only [INPUT_BUF_SIZE] at hcap; omega)
      (by rw [← h.ring.r_eq, ← h.w, he]), List.drop_length]
  · by_contra hne
    obtain ⟨-, l, hl, -⟩ := h.get hne
    exact List.cons_ne_nil _ l (hl.symm.trans hnil)

end

end Shows

theorem consolereadTurn_cases (co : Cons) (waiting : Bool) (n : CInt) (i : Nat) :
    consolereadTurn co waiting n i ∈ [.block, .stop] ∨ co.r ≠ co.w ∧ (i : Int) < n.toInt ∧
      (co.get co.r = ctrlD ∧ i = 0 ∧ consolereadTurn co waiting n i = .eof (co.get co.r) { co with r := co.r + 1 } ∨
      co.get co.r ≠ ctrlD ∧ consolereadTurn co waiting n i =
        .byte (co.get co.r) { co with r := co.r + 1 } (co.get co.r = newline)) := by
  simp only [consolereadTurn]
  split
  · split
    · simp
    · rename_i hi hne
      split
      · split
        · simp
        · exact .inr ⟨hne, by omega, .inl ⟨‹_›, by omega, rfl⟩⟩
      · exact .inr ⟨hne, by omega, .inr ⟨‹_›, rfl⟩⟩
  · simp

theorem lawful_consoleDevice : Lawful consoleDevice (· = ctrlD) fun co log R => ∃ x, Shows co log R x := by
  refine ⟨fun {d d' log cs bs R} h hi => ?_, fun {d d' log R waiting n i ch last} h ht => ?_,
    fun {d d' log R waiting n i ch} h ht => ?_⟩ <;> obtain ⟨x, h⟩ := h
  · cases hi with
    | intr c => exact ⟨_, h.intr c⟩
  · rcases consolereadTurn_cases d waiting n i with hturn | ⟨hne, hi, ⟨-, -, hturn⟩ | ⟨hc, hturn⟩⟩
    · simp [show consolereadTurn d waiting n i = _ from ht] at hturn
    · cases hturn.symm.trans ht
    · obtain ⟨rfl, rfl, -⟩ := Turn.byte.inj (hturn.symm.trans ht)
      obtain ⟨hget, l, -, h'⟩ := h.get hne
      exact ⟨hget, ⟨_, h'⟩, hi⟩
  · rcases consolereadTurn_cases d waiting n i with hturn | ⟨hne, hi, ⟨hc, h0, hturn⟩ | ⟨hc, hturn⟩⟩
    · simp [show consolereadTurn d waiting n i = _ from ht] at hturn
    · obtain ⟨rfl, rfl⟩ := Turn.eof.inj (hturn.symm.trans ht)
      obtain ⟨hget, l, -, h'⟩ := h.get hne
      exact ⟨hget, ⟨_, h'⟩, h0, hc⟩
    · cases hturn.symm.trans ht

/-! ### What is lost -/

namespace StreamSys

variable {P : Type} [DecidableEq P]

theorem inv_pipe {pi : Pipe} {s : StreamSys P Pipe} (hr : pi.nread = 0) (hw : pi.nwrite = 0)
    (h : Reachable pipeDevice pi s) : Inv (fun _ => False) PipeHolds s :=
  .of_reachable lawful_pipeDevice (by rw [PipeHolds, hr, hw]; exact .init _) h

theorem inv_console {s : StreamSys P Cons} {buf : Nat → UInt8} (h : Reachable consoleDevice ⟨buf, 0, 0, 0⟩ s) :
    Inv (· = ctrlD) (fun co log R => ∃ x, Shows co log R x) s :=
  .of_reachable lawful_consoleDevice ⟨⟨[], []⟩, .init buf⟩ h

/-- Whatever the readers of a pipe or of the console do, nothing is lost exactly in the runs in which every byte that is taken
has a mapped address before the step that takes it; and a call that returns `r` has taken what it has stored, unless the
address of its next byte was not mapped when it started. -/
theorem stream_reads_iff {P : Type} [DecidableEq P] :
    (∀ (pi : Pipe) (s : StreamSys P Pipe), pi.nread = 0 → pi.nwrite = 0 → Reachable pipeDevice pi s →
      (NothingLost (fun _ => False) s ↔
        Trans.Reach (Init pi) (fun s s' => Step pipeDevice s s' ∧ Lands pipeDevice s s') s) ∧
      (NothingLost (fun _ => False) s → s.delivered <+: s.arrived) ∧
      ∀ x ∈ s.returned, 0 ≤ x.2.1 → Exact (fun _ => False) x.1 x.2.1 x.2.2 ∨
        x.2.1 < x.1.n.toInt ∧ x.1.start (x.1.addr + x.2.1.toNat) = none) ∧
    ∀ (buf : Nat → UInt8) (s : StreamSys P Cons), Reachable consoleDevice ⟨buf, 0, 0, 0⟩ s →
      (NothingLost (· = ctrlD) s ↔
        Trans.Reach (Init ⟨buf, 0, 0, 0⟩) (fun s s' => Step consoleDevice s s' ∧ Lands consoleDevice s s') s) ∧
      ∀ x ∈ s.returned, 0 ≤ x.2.1 → Exact (· = ctrlD) x.1 x.2.1 x.2.2 ∨
        x.2.1 < x.1.n.toInt ∧ x.1.start (x.1.addr + x.2.1.toNat) = none := by
  refine ⟨fun pi s hr hw h => ?_, fun buf s h => ?_⟩
  · have hinv := inv_pipe hr hw h
    refine ⟨hinv.nothingLost_iff_lands h, fun hn => ?_, fun x hx hr => ((hinv.returned x hx).exact hr).imp_right And.right⟩
    have hall : ∀ x ∈ s.taken, !x.2 := fun x hx => by simpa using hinv.marked x hx
    rw [hn.delivered, reported, List.filter_eq_self.mpr hall]
    exact hinv.taken
  · have hinv := inv_console h
    exact ⟨hinv.nothingLost_iff_lands h, fun x hx hr => ((hinv.returned x hx).exact hr).imp_right And.right⟩

/-- A pipe that has just been made, and a process whose memory is `m`. -/
def oneReader (m : UserMem) : StreamSys Unit Pipe :=
  ⟨⟨fun _ => 0, 0, 0, true, true⟩, none, fun _ => .out, fun _ => m, [], [], [], [], 0, []⟩

theorem init_oneReader (m : UserMem) : Init (oneReader m).dev (oneReader m) := ⟨rfl, rfl, fun _ => rfl, rfl, rfl, rfl, rfl, rfl, rfl⟩

/-- A read of one byte, to a good address. -/
theorem stream_reads_iff_one : ∃ s : StreamSys Unit Pipe, Reachable pipeDevice (oneReader fun _ => some 0).dev s ∧
    s.delivered = [1] ∧ s.returned.length = 1 ∧ NothingLost (fun _ => False) s := by
  have h : Reachable pipeDevice (oneReader fun _ => some 0).dev (oneReader fun _ => some 0) := .of_init (init_oneReader _)
  have h := h.tail (.input rfl (.write 1 rfl))
  have h := h.tail (.call (p := ()) 0 1 rfl)
  have h := h.tail (.acquire (p := ()) rfl rfl)
  have h := h.tail (.go (p := ()) rfl rfl)
  have h := h.tail (.byte (p := ()) rfl rfl rfl)
  have h := h.tail (.stop (p := ()) rfl rfl)
  have h := h.tail (.ret (p := ()) rfl)
  exact ⟨_, h, rfl, rfl, (stream_reads_iff.1 _ _ rfl rfl h).1.mpr ((reach_lands_iff h).mp rfl)⟩

/-- Of two bytes in the pipe, a read of one byte to an address that is not mapped returns 0 and loses the first one:
a read to a good address then gets the second. -/
theorem piperead_loses : ∃ s : StreamSys Unit Pipe, Reachable pipeDevice (oneReader fun _ => none).dev s ∧
    s.arrived = [1, 2] ∧ s.delivered = [2] ∧ (∃ c m, (c, 0, m) ∈ s.returned ∧ c.got = [1] ∧ c.sent = []) ∧
    ¬ NothingLost (fun _ => False) s := by
  have h : Reachable pipeDevice (oneReader fun _ => none).dev (oneReader fun _ => none) := .of_init (init_oneReader _)
  have h := h.tail (.input rfl (.write 1 rfl))
  have h := h.tail (.input rfl (.write 2 rfl))
  have h := h.tail (.call (p := ()) 0 1 rfl)
  have h := h.tail (.acquire (p := ()) rfl rfl)
  have h := h.tail (.go (p := ()) rfl rfl)
  have h := h.tail (.fault (p := ()) rfl rfl rfl)
  have h := h.tail (.ret (p := ()) rfl)
  have h := h.tail (.user (p := ()) (fun _ => some 0) rfl)
  have h := h.tail (.call (p := ()) 0 1 rfl)
  have h := h.tail (.acquire (p := ()) rfl rfl)
  have h := h.tail (.go (p := ()) rfl rfl)
  have h := h.tail (.byte (p := ()) rfl rfl rfl)
  exact ⟨_, h, rfl, rfl, ⟨_, _, List.mem_singleton.mpr rfl, rfl, rfl⟩, fun hn => absurd hn.delivered (by decide)⟩

end StreamSys

end Xv6
