import Mathlib

/-!
# Programs with state and failure

`Prog ε σ` are computations on a state `σ` that return a value or stop with an error `ε`. `wp x Q s` says
that `x`, started in `s`, returns, with a value and a state that satisfy `Q`: a computation that stops with
an error satisfies no postcondition. The rules take a computation apart from the front; `wp.mono` weakens
what is known of a call to what the caller needs.
-/

abbrev Prog (ε σ : Type) := StateT σ (Except ε)

namespace Prog

variable {ε σ τ α β : Type} {x : Prog ε σ α} {f : α → Prog ε σ β} {Q Q' : α → σ → Prop} {s : σ}

/-- `x` returns from `s`, with `Q`. -/
def wp (x : Prog ε σ α) (Q : α → σ → Prop) (s : σ) : Prop := ∃ a s', x s = .ok (a, s') ∧ Q a s'

/-- Stops with `e`. -/
def fail (e : ε) : Prog ε σ α := fun _ => .error e

/-- Runs `x` on a part of the state. -/
def zoom (get : σ → τ) (put : τ → σ → σ) (x : Prog ε τ α) : Prog ε σ α := fun s =>
  match x (get s) with
  | .ok (a, t) => .ok (a, put t s)
  | .error e => .error e

/-- Runs `x` with its errors renamed. -/
def mapError {δ : Type} (f : δ → ε) (x : Prog δ σ α) : Prog ε σ α := fun s =>
  match x s with
  | .ok r => .ok r
  | .error e => .error (f e)

@[simp] theorem wp_pure {a : α} : wp (pure a : Prog ε σ α) Q s ↔ Q a s :=
  ⟨fun ⟨_, _, h, hq⟩ => by cases h; exact hq, fun h => ⟨a, s, rfl, h⟩⟩

@[simp] theorem wp_bind {Q : β → σ → Prop} : wp (x >>= f) Q s ↔ wp x (fun a => wp (f a) Q) s := by
  have hb : (x >>= f) s = match x s with | .ok (a, s') => f a s' | .error e => .error e := by
    simp only [bind, StateT.bind, Except.bind]
    cases x s <;> rfl
  simp only [wp, hb]
  constructor
  · rintro ⟨b, s', h, hq⟩
    cases hx : x s with
    | error e => rw [hx] at h; cases h
    | ok r => rw [hx] at h; exact ⟨r.1, r.2, rfl, b, s', h, hq⟩
  · rintro ⟨a, s', h, b, s'', h', hq⟩
    exact ⟨b, s'', by rw [h]; exact h', hq⟩

@[simp] theorem wp_get {Q : σ → σ → Prop} : wp (get : Prog ε σ σ) Q s ↔ Q s s :=
  ⟨fun ⟨_, _, h, hq⟩ => by cases h; exact hq, fun h => ⟨s, s, rfl, h⟩⟩

@[simp] theorem wp_set {t : σ} {Q : PUnit → σ → Prop} : wp (set t : Prog ε σ PUnit) Q s ↔ Q ⟨⟩ t :=
  ⟨fun ⟨_, _, h, hq⟩ => by cases h; exact hq, fun h => ⟨⟨⟩, t, rfl, h⟩⟩

@[simp] theorem wp_modify {g : σ → σ} {Q : PUnit → σ → Prop} : wp (modify g : Prog ε σ PUnit) Q s ↔ Q ⟨⟩ (g s) :=
  ⟨fun ⟨_, _, h, hq⟩ => by cases h; exact hq, fun h => ⟨⟨⟩, g s, rfl, h⟩⟩

@[simp] theorem wp_fail {e : ε} : wp (fail e : Prog ε σ α) Q s ↔ False :=
  ⟨fun ⟨_, _, h, _⟩ => absurd h nofun, False.elim⟩

@[simp] theorem wp_zoom {get : σ → τ} {put : τ → σ → σ} {x : Prog ε τ α} :
    wp (zoom get put x) Q s ↔ wp x (fun a t => Q a (put t s)) (get s) := by
  simp only [wp, zoom]
  constructor
  · rintro ⟨a, s', h, hq⟩
    cases hx : x (get s) with
    | error e => rw [hx] at h; cases h
    | ok r => rw [hx] at h; cases h; exact ⟨r.1, r.2, rfl, hq⟩
  · rintro ⟨a, t, h, hq⟩
    exact ⟨a, put t s, by rw [h], hq⟩

@[simp] theorem wp_mapError {δ : Type} {f : δ → ε} {x : Prog δ σ α} : wp (mapError f x) Q s ↔ wp x Q s := by
  rw [wp, wp, mapError]
  cases x s with
  | ok r => simp
  | error e => simp

theorem wp.mono (h : wp x Q s) (hq : ∀ a s', Q a s' → Q' a s') : wp x Q' s :=
  let ⟨a, s', hx, h'⟩ := h; ⟨a, s', hx, hq a s' h'⟩

/-- The rule for a loop over a list: an invariant of the elements to come, the accumulator and the state. -/
theorem wp_foldlM {f : β → α → Prog ε σ β} {Q : β → σ → Prop} (I : List α → β → σ → Prop)
    (hf : ∀ a l b s, I (a :: l) b s → wp (f b a) (I l) s) (hQ : ∀ b s, I [] b s → Q b s) {l : List α} {b : β} {s : σ}
    (h : I l b s) : wp (l.foldlM f b) Q s := by
  induction l generalizing b s with
  | nil =>
    rw [List.foldlM_nil, wp_pure]
    exact hQ b s h
  | cons a l ih =>
    rw [List.foldlM_cons, wp_bind]
    exact (hf a l b s h).mono fun b' s' h' => ih h'

theorem wp.of_eq {a : α} {s' : σ} (h : wp x Q s) (hx : x s = .ok (a, s')) : Q a s' := by
  obtain ⟨_, _, h', hq⟩ := h
  cases hx.symm.trans h'
  exact hq

/-! ### Computations that may fail -/

/-- `x` returns from `s` with `Q`, or stops with an error that satisfies `E`. -/
def wpe (x : Prog ε σ α) (Q : α → σ → Prop) (E : ε → Prop) (s : σ) : Prop :=
  match x s with
  | .ok (a, s') => Q a s'
  | .error e => E e

variable {E : ε → Prop}

theorem wp.wpe (h : wp x Q s) : wpe x Q E s := by
  obtain ⟨a, s', hx, hq⟩ := h
  simp only [Prog.wpe, hx]
  exact hq

theorem wpe.mono {E' : ε → Prop} (h : Prog.wpe x Q E s) (hq : ∀ a s', Q a s' → Q' a s') (he : ∀ e, E e → E' e) :
    Prog.wpe x Q' E' s := by
  simp only [Prog.wpe] at h ⊢
  cases hx : x s with
  | error e =>
    rw [hx] at h
    exact he e h
  | ok r =>
    rw [hx] at h
    exact hq r.1 r.2 h

theorem wpe_any (h : ∀ a s', Q a s') : Prog.wpe x Q (fun _ => True) s := by
  rw [Prog.wpe]
  split
  · exact h _ _
  · trivial

theorem wpe_fail {e : ε} (h : E e) : wpe (fail e : Prog ε σ α) Q E s := h

theorem wpe_bind {Q : β → σ → Prop} (h : wpe x (fun a => wpe (f a) Q E) E s) : wpe (x >>= f) Q E s := by
  simp only [wpe, bind, StateT.bind, Except.bind] at h ⊢
  cases hx : x s with
  | error e => rw [hx] at h; exact h
  | ok r => rw [hx] at h; exact h

theorem wpe.bind {R : β → σ → Prop} (h : Prog.wpe x Q E s) (hf : ∀ a s', Q a s' → Prog.wpe (f a) R E s') :
    Prog.wpe (x >>= f) R E s := wpe_bind (h.mono hf fun _ he => he)

theorem wpe_zoom {get : σ → τ} {put : τ → σ → σ} {x : Prog ε τ α}
    (h : wpe x (fun a t => Q a (put t s)) E (get s)) : wpe (zoom get put x) Q E s := by
  simp only [wpe, zoom] at h ⊢
  cases hx : x (get s) with
  | error e => rw [hx] at h; exact h
  | ok r => rw [hx] at h; exact h

theorem wpe.of_eq {a : α} {s' : σ} (h : wpe x Q E s) (hx : x s = .ok (a, s')) : Q a s' := by
  simp only [wpe, hx] at h; exact h

theorem wpe.of_error {e : ε} (h : wpe x Q E s) (hx : x s = .error e) : E e := by
  simp only [wpe, hx] at h; exact h

instance [∀ a s', Decidable (Q a s')] [∀ e, Decidable (E e)] : Decidable (wpe x Q E s) :=
  match h : x s with
  | .ok (a, s') => decidable_of_iff (Q a s') (by simp only [wpe, h])
  | .error e => decidable_of_iff (E e) (by simp only [wpe, h])

end Prog
