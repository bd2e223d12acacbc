import Xv6.Proofs.StreamRead

/-!
# The console is a line editor

The system of readers runs over the editor as it does over the ring of `console.c`: `console_refines`.
-/

namespace Xv6

/-! ### Devices that simulate others -/

inductive TurnSim {D E : Type} (Sim : D → E → Prop) : Turn D → Turn E → Prop
  | block : TurnSim Sim .block .block
  | go : TurnSim Sim .go .go
  | stop : TurnSim Sim .stop .stop
  | eof {ch d e} (sim : Sim d e) : TurnSim Sim (.eof ch d) (.eof ch e)
  | byte {ch d e last} (sim : Sim d e) : TurnSim Sim (.byte ch d last) (.byte ch e last)

namespace TurnSim

variable {D E : Type} {Sim : D → E → Prop} {k : Turn E}

theorem block_inv (h : TurnSim Sim .block k) : k = .block := by
  cases h; rfl

theorem go_inv (h : TurnSim Sim .go k) : k = .go := by
  cases h; rfl

theorem stop_inv (h : TurnSim Sim .stop k) : k = .stop := by
  cases h; rfl

theorem eof_inv {ch : UInt8} {d : D} (h : TurnSim Sim (.eof ch d) k) : ∃ e, k = .eof ch e ∧ Sim d e := by
  cases h with
  | eof sim => exact ⟨_, rfl, sim⟩

theorem byte_inv {ch : UInt8} {d : D} {last : Bool} (h : TurnSim Sim (.byte ch d last) k) : ∃ e, k = .byte ch e last ∧ Sim d e := by
  cases h with
  | byte sim => exact ⟨_, rfl, sim⟩

end TurnSim

structure DeviceSim {D E : Type} (dev : StreamDevice D) (dev' : StreamDevice E) (Sim : D → E → Prop) : Prop where
  turn : ∀ {d e}, Sim d e → ∀ waiting n i, TurnSim Sim (dev.turn d waiting n i) (dev'.turn e waiting n i)
  input : ∀ {d e cs bs d'}, Sim d e → dev.input d cs bs d' → ∃ e', dev'.input e cs bs e' ∧ Sim d' e'

namespace StreamSys

variable {P D E : Type} [DecidableEq P] {dev : StreamDevice D} {dev' : StreamDevice E} {Sim : D → E → Prop} {s s' : StreamSys P D}

/-- The same system over another device. -/
def withDev (s : StreamSys P D) (e : E) : StreamSys P E :=
  ⟨e, s.lock, s.pc, s.mem, s.typed, s.arrived, s.taken, s.delivered, s.faults, s.returned⟩

theorem Step.sim (hdev : DeviceSim dev dev' Sim) {e : E} (hs : Sim s.dev e) (h : Step dev s s') :
    ∃ e', Sim s'.dev e' ∧ Step dev' (s.withDev e) (s'.withDev e') := by
  have turn : ∀ {waiting n i k}, dev.turn s.dev waiting n i = k → TurnSim Sim k (dev'.turn e waiting n i) :=
    fun h => h ▸ hdev.turn hs _ _ _
  cases h with
  | input free input =>
    obtain ⟨e', hin, hs'⟩ := hdev.input hs input
    exact ⟨e', hs', .input free hin⟩
  | user m pc => exact ⟨e, hs, .user m pc⟩
  | call addr n pc => exact ⟨e, hs, .call addr n pc⟩
  | acquire pc free => exact ⟨e, hs, .acquire pc free⟩
  | sleep pc ht => exact ⟨e, hs, .sleep pc (turn ht).block_inv⟩
  | killed pc ht => exact ⟨e, hs, .killed pc (turn ht).block_inv⟩
  | go pc ht => exact ⟨e, hs, .go pc (turn ht).go_inv⟩
  | stop pc ht => exact ⟨e, hs, .stop pc (turn ht).stop_inv⟩
  | eof pc ht =>
    obtain ⟨e', hk, hs'⟩ := (turn ht).eof_inv
    exact ⟨e', hs', .eof pc hk⟩
  | byte pc ht copy =>
    obtain ⟨e', hk, hs'⟩ := (turn ht).byte_inv
    exact ⟨e', hs', .byte pc hk copy⟩
  | fault pc ht copy =>
    obtain ⟨e', hk, hs'⟩ := (turn ht).byte_inv
    exact ⟨e', hs', .fault pc hk copy⟩
  | ret pc => exact ⟨e, hs, .ret pc⟩

theorem Reachable.sim (hdev : DeviceSim dev dev' Sim) {d : D} {e : E} (hs : Sim d e) (h : Reachable dev d s) :
    ∃ e', Sim s.dev e' ∧ Reachable dev' e (s.withDev e') := by
  refine Trans.Reach.inv_of (P := fun s => ∃ e', Sim s.dev e' ∧ Reachable dev' e (s.withDev e')) ?_ ?_ h
  · intro s hi
    exact ⟨e, hi.dev ▸ hs, .of_init ⟨rfl, hi.lock, hi.pc, hi.typed, hi.arrived, hi.taken, hi.delivered, hi.faults, hi.returned⟩⟩
  · rintro s s' - ⟨e₁, hs1, h1⟩ hstep
    obtain ⟨e₂, hs2, hstep'⟩ := hstep.sim hdev hs1
    exact ⟨e₂, hs2, h1.tail hstep'⟩

end StreamSys

/-! ### The editor -/

/-- `cons.buf` from one index up to another. -/
def Cons.slice (co : Cons) (i j : BitVec 32) : List UInt8 :=
  (List.range (j - i).toNat).map fun k => co.buf ((i.toNat + k) % INPUT_BUF_SIZE)

namespace Shows

variable {co : Cons} {log : List UInt8} {R : Nat} {x : Editor}

theorem turn (h : Shows co log R x) (waiting : Bool) (n : CInt) (i : Nat) :
    TurnSim (fun co x => ∃ log R, Shows co log R x) (consolereadTurn co waiting n i) (x.turn waiting n i) := by
  rw [consolereadTurn, Editor.turn]
  by_cases hi : (i : Int) < n.toInt
  · rw [if_pos (by omega), if_pos hi]
    by_cases hne : co.r = co.w
    · rw [if_pos hne, h.r_eq_iff.mp hne]
      exact .block
    · obtain ⟨-, l, hl, h'⟩ := h.get hne
      rw [if_neg hne, hl]
      dsimp only
      split
      · by_cases h0 : i = 0
        · rw [if_neg (by omega), if_pos h0]
          exact .eof ⟨log, R + 1, h'⟩
        · rw [if_pos (by omega), if_neg h0]
          exact .stop
      · exact .byte ⟨log, R + 1, h'⟩
  · rw [if_neg (by omega), if_neg hi]
    exact .stop

theorem sim : DeviceSim consoleDevice Editor.device fun co x => ∃ log R, Shows co log R x := by
  refine ⟨fun {co x} h waiting n i => ?_, fun {co x cs bs co'} h hin => ?_⟩
  · obtain ⟨log, R, h⟩ := h
    exact h.turn waiting n i
  · obtain ⟨log, R, h⟩ := h
    cases hin with
    | intr c =>
      have h' := h.intr c
      refine ⟨x.type c, .type c ?_, _, R, h'⟩
      rw [h'.committed, h.committed, List.drop_append_of_le_length h.le]

theorem slice_committed (h : Shows co log R x) : co.slice co.r co.w = x.committed := by
  have hdrop := (h.ring.truncate h.le).drop_eq INPUT_BUF_SIZE_dvd (by decide)
  rw [← h.w, ← toNat_sub_eq] at hdrop
  rw [h.committed, hdrop]
  rfl

theorem slice_edit (h : Shows co log R x) : co.slice co.w co.e = x.edit := by
  have hring := h.ring.skip h.le (by rw [List.length_append]; exact Nat.le_add_right ..)
  have hdrop := hring.drop_eq INPUT_BUF_SIZE_dvd (by decide)
  rw [List.drop_left, ← h.w, ← toNat_sub_eq] at hdrop
  exact hdrop.symm

theorem w_sub_r_le (h : Shows co log R x) : (co.w - co.r).toNat ≤ (co.e - co.r).toNat := by
  rw [toNat_sub_eq co.w, h.w, (h.ring.truncate h.le).sub_eq (by decide), h.e_sub_r, List.length_drop]
  exact Nat.le_add_right ..

theorem e_sub_r_le (h : Shows co log R x) : (co.e - co.r).toNat ≤ INPUT_BUF_SIZE := by
  have := h.ring.cap
  rw [toNat_sub_eq, h.ring.sub_eq (by decide)]
  omega

end Shows

/-- Every run of `consoleintr` and of any number of `consoleread` calls is one of the editor: the same bytes are typed, arrive,
are taken and are delivered, and the calls return the same; and the indices `r`, `w` and `e` are in order. -/
theorem console_refines {P : Type} [DecidableEq P] {buf : Nat → UInt8} {s : StreamSys P Cons}
    (h : StreamSys.Reachable consoleDevice ⟨buf, 0, 0, 0⟩ s) :
    ∃ x : Editor, StreamSys.Reachable Editor.device ⟨[], []⟩ (s.withDev x) ∧
      s.dev.slice s.dev.r s.dev.w = x.committed ∧ s.dev.slice s.dev.w s.dev.e = x.edit ∧
      (s.dev.w - s.dev.r).toNat ≤ (s.dev.e - s.dev.r).toNat ∧ (s.dev.e - s.dev.r).toNat ≤ INPUT_BUF_SIZE := by
  obtain ⟨x, ⟨log, R, hx⟩, hr⟩ := StreamSys.Reachable.sim Shows.sim ⟨[], 0, Shows.init buf⟩ h
  exact ⟨x, hr, hx.slice_committed, hx.slice_edit, hx.w_sub_r_le, hx.e_sub_r_le⟩

def oneTyping : StreamSys Unit Cons := ⟨⟨fun _ => 0, 0, 0, 0⟩, none, fun _ => .out, fun _ _ => some 0, [], [], [], [], 0, []⟩

/-- A letter is typed, and taken back; then another one, and a newline. -/
theorem console_refines_one : ∃ s : StreamSys Unit Cons, s.typed = [97, 0x7f, 98, 0x0d] ∧
    s.dev.slice s.dev.r s.dev.w = [98, newline] ∧ ∃ x : Editor, StreamSys.Reachable Editor.device ⟨[], []⟩ (s.withDev x) ∧ x.committed = [98, newline] := by
  have h : StreamSys.Reachable consoleDevice ⟨fun _ => 0, 0, 0, 0⟩ oneTyping :=
    .of_init ⟨rfl, rfl, fun _ => rfl, rfl, rfl, rfl, rfl, rfl, rfl⟩
  have h := h.tail (.input rfl (.intr 97))
  have h := h.tail (.input rfl (.intr 0x7f))
  have h := h.tail (.input rfl (.intr 98))
  have h := h.tail (.input rfl (.intr 0x0d))
  obtain ⟨x, hr, hx, -⟩ := console_refines h
  have hslice : (((((oneTyping.dev.intr 97).intr 0x7f).intr 98).intr 0x0d).slice 0 2) = [98, newline] := by decide
  exact ⟨_, rfl, hslice, x, hr, hx.symm.trans hslice⟩

end Xv6
