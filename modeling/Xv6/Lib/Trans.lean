import Mathlib

/-!
# Transition systems

The states a system can reach from its initial states (`Trans.Reach`) and the induction rule for
invariants. `Reach.inv` is the usual rule; `Reach.inv_of` lets the step use facts already known of
reachable states, so that invariants can be proved one after the other.
-/

namespace Trans

variable {σ : Type*} {init init' : σ → Prop} {step step' : σ → σ → Prop}

/-- `s` is reached from an initial state by finitely many steps. -/
def Reach (init : σ → Prop) (step : σ → σ → Prop) (s : σ) : Prop :=
  ∃ s₀, init s₀ ∧ Relation.ReflTransGen step s₀ s

namespace Reach

theorem of_init {s : σ} (h : init s) : Reach init step s := ⟨s, h, .refl⟩

theorem tail {s s' : σ} (h : Reach init step s) (hs : step s s') : Reach init step s' :=
  let ⟨s₀, h0, hr⟩ := h; ⟨s₀, h0, hr.tail hs⟩

theorem inv_of {P : σ → Prop} (h0 : ∀ s, init s → P s)
    (hs : ∀ s s', Reach init step s → P s → step s s' → P s') {s : σ}
    (h : Reach init step s) : P s := by
  obtain ⟨s₀, hi, hr⟩ := h
  induction hr with
  | refl => exact h0 s₀ hi
  | tail hr hst ih => exact hs _ _ ⟨s₀, hi, hr⟩ ih hst

theorem inv {P : σ → Prop} (h0 : ∀ s, init s → P s)
    (hs : ∀ s s', P s → step s s' → P s') {s : σ} (h : Reach init step s) : P s :=
  h.inv_of h0 fun s s' _ hi hst => hs s s' hi hst

end Reach

end Trans
