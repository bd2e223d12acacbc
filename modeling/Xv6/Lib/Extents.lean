import Mathlib

/-!
# Extents

An extent is a range of addresses. `Packed lo hi es` says that the extents `es` are non-empty ranges of `[lo, hi)`, no
two of which meet. An allocator splits, joins and moves extents around between its lists; `Packed` does not depend on
their order.
-/

namespace Xv6

@[ext] structure Extent where
  start : Nat
  len : Nat
deriving DecidableEq

namespace Extent

def stop (e : Extent) : Nat := e.start + e.len

def Apart (d e : Extent) : Prop := d.stop ≤ e.start ∨ e.stop ≤ d.start

theorem Apart.symm {d e : Extent} (h : Apart d e) : Apart e d := Or.symm h

end Extent

structure Packed (lo hi : Nat) (es : List Extent) : Prop where
  apart : es.Pairwise Extent.Apart
  lo_le : ∀ e ∈ es, lo ≤ e.start
  le_hi : ∀ e ∈ es, e.stop ≤ hi
  pos : ∀ e ∈ es, 0 < e.len

namespace Packed

variable {lo hi hi' : Nat} {es es' : List Extent} {d e f : Extent}

theorem nil : Packed lo hi [] := ⟨.nil, by simp, by simp, by simp⟩

theorem cons_iff : Packed lo hi (e :: es) ↔
    (∀ d ∈ es, e.Apart d) ∧ (lo ≤ e.start ∧ e.stop ≤ hi ∧ 0 < e.len) ∧ Packed lo hi es := by
  constructor
  · intro h
    refine ⟨(List.pairwise_cons.mp h.apart).1, ⟨?_, ?_, ?_⟩, (List.pairwise_cons.mp h.apart).2, ?_, ?_, ?_⟩
    · exact h.lo_le e (by simp)
    · exact h.le_hi e (by simp)
    · exact h.pos e (by simp)
    · exact fun d hd => h.lo_le d (by simp [hd])
    · exact fun d hd => h.le_hi d (by simp [hd])
    · exact fun d hd => h.pos d (by simp [hd])
  · rintro ⟨hap, ⟨hlo, hhi, hpos⟩, h⟩
    refine ⟨List.pairwise_cons.mpr ⟨hap, h.apart⟩, ?_, ?_, ?_⟩
    · simpa using ⟨hlo, h.lo_le⟩
    · simpa using ⟨hhi, h.le_hi⟩
    · simpa using ⟨hpos, h.pos⟩

theorem perm (h : Packed lo hi es) (hp : es.Perm es') : Packed lo hi es' where
  apart := (hp.pairwise_iff fun h => Extent.Apart.symm h).mp h.apart
  lo_le e he := h.lo_le e (hp.mem_iff.mpr he)
  le_hi e he := h.le_hi e (hp.mem_iff.mpr he)
  pos e he := h.pos e (hp.mem_iff.mpr he)

theorem grow (h : Packed lo hi es) (hle : hi ≤ hi') : Packed lo hi' es :=
  ⟨h.apart, h.lo_le, fun e he => le_trans (h.le_hi e he) hle, h.pos⟩

theorem apart_of_ne (h : Packed lo hi es) (hd : d ∈ es) (he : e ∈ es) (hne : d ≠ e) : d.Apart e := by
  obtain ⟨l, r, rfl⟩ := List.append_of_mem hd
  have hperm : (l ++ d :: r).Perm (d :: (l ++ r)) := List.perm_middle
  have hcons := cons_iff.mp (h.perm hperm)
  rcases List.mem_cons.mp (hperm.mem_iff.mp he) with rfl | he
  · exact absurd rfl hne
  · exact hcons.1 e he

theorem cons_top (h : Packed lo hi es) (hlo : lo ≤ hi) (hhi : e.start = hi) (hpos : 0 < e.len) :
    Packed lo e.stop (e :: es) := by
  refine cons_iff.mpr ⟨fun d hd => ?_, ⟨hhi ▸ hlo, le_rfl, hpos⟩, h.grow ?_⟩
  · have := h.le_hi d hd
    exact .inr (hhi ▸ this)
  · rw [Extent.stop, hhi]
    omega

theorem join (h : Packed lo hi (d :: e :: es)) (heq : d.stop = e.start) :
    Packed lo hi (⟨d.start, d.len + e.len⟩ :: es) := by
  obtain ⟨hd, ⟨hlo, hhi, hpos⟩, h⟩ := cons_iff.mp h
  obtain ⟨he, ⟨hlo', hhi', hpos'⟩, h⟩ := cons_iff.mp h
  simp only [Extent.stop] at heq hhi'
  refine cons_iff.mpr ⟨fun f hf => ?_, ⟨hlo, by simp only [Extent.stop]; omega, by simp only; omega⟩, h⟩
  have h1 := hd f (by simp [hf])
  have h2 := he f hf
  simp only [Extent.Apart, Extent.stop] at h1 h2 ⊢
  have := h.pos f hf
  omega

theorem split {k : Nat} (h : Packed lo hi (d :: es)) (h0 : 0 < k) (hk : k < d.len) :
    Packed lo hi (⟨d.start, d.len - k⟩ :: ⟨d.start + (d.len - k), k⟩ :: es) := by
  obtain ⟨hd, ⟨hlo, hhi, hpos⟩, h⟩ := cons_iff.mp h
  simp only [Extent.stop] at hhi
  refine cons_iff.mpr ⟨?_, ⟨hlo, ?_, ?_⟩, cons_iff.mpr ⟨?_, ⟨?_, ?_, h0⟩, h⟩⟩
  · intro f hf
    rcases List.mem_cons.mp hf with rfl | hf
    · exact .inl (le_rfl)
    · have := hd f hf
      simp only [Extent.Apart, Extent.stop] at this ⊢
      omega
  · simp only [Extent.stop]; omega
  · simp only; omega
  · intro f hf
    have := hd f hf
    simp only [Extent.Apart, Extent.stop] at this ⊢
    omega
  · simp only; omega
  · simp only [Extent.stop]; omega

end Packed

/-! ### Joining neighbours -/

/-- Puts `d` in front of the extents `l`, and makes one of it and the first of them if they are adjacent. -/
def coalesce (d : Extent) : List Extent → List Extent
  | [] => [d]
  | f :: l => if d.stop = f.start then ⟨d.start, d.len + f.len⟩ :: l else d :: f :: l

/-- The extents are in ascending order, and each takes at least `k`, be it as short as it may. -/
def Spaced (k : Nat) (es : List Extent) : Prop := es.Pairwise fun d e => d.start + max k d.len ≤ e.start

/-- No extent is adjacent to the next one. -/
def Gapped (es : List Extent) : Prop := es.IsChain fun d e => d.stop ≠ e.start

def covered (es : List Extent) : Set Nat := {a | ∃ e ∈ es, e.start ≤ a ∧ a < e.stop}

section
variable {k lo hi : Nat} {d e : Extent} {l r us : List Extent}

theorem exists_coalesce (d : Extent) (l : List Extent) :
    ∃ n t, coalesce d l = ⟨d.start, n⟩ :: t ∧ (n = d.len ∧ t = l ∧ (∀ f ∈ l.head?, d.stop ≠ f.start) ∨
      ∃ f, l = f :: t ∧ d.stop = f.start ∧ n = d.len + f.len) := by
  cases l with
  | nil => exact ⟨d.len, [], rfl, .inl ⟨rfl, rfl, by simp⟩⟩
  | cons f l =>
    by_cases h : d.stop = f.start
    · exact ⟨_, l, if_pos h, .inr ⟨f, rfl, h, rfl⟩⟩
    · exact ⟨d.len, f :: l, if_neg h, .inl ⟨rfl, rfl, by simpa using h⟩⟩

/-- What comes behind a list that is not empty makes no difference. -/
theorem coalesce_append (h : l = [] → ∀ u ∈ us.head?, d.stop ≠ u.start) : coalesce d (l ++ us) = coalesce d l ++ us := by
  cases l with
  | nil =>
    cases us with
    | nil => rfl
    | cons u us => exact if_neg (h rfl u rfl)
  | cons f l =>
    rw [List.cons_append, coalesce, coalesce]
    split <;> rfl

theorem start_of_mem_coalesce (h : e ∈ coalesce d l) : ∃ f ∈ d :: l, e.start = f.start := by
  obtain ⟨n, t, heq, hn⟩ := exists_coalesce d l
  rw [heq] at h
  rcases List.mem_cons.mp h with rfl | h
  · exact ⟨d, by simp, rfl⟩
  · rcases hn with ⟨-, rfl, -⟩ | ⟨f, rfl, -⟩
    · exact ⟨e, by simp [h], rfl⟩
    · exact ⟨e, by simp [h], rfl⟩

theorem le_coalesce (h : e ∈ d :: l) : ∃ f ∈ coalesce d l, e.len ≤ f.len := by
  obtain ⟨n, t, heq, hn⟩ := exists_coalesce d l
  rw [heq]
  rcases hn with ⟨rfl, rfl, -⟩ | ⟨f, rfl, -, rfl⟩
  · exact ⟨e, h, le_rfl⟩
  · rcases List.mem_cons.mp h with rfl | h
    · exact ⟨_, List.mem_cons_self .., Nat.le_add_right ..⟩
    · rcases List.mem_cons.mp h with rfl | h
      · exact ⟨_, List.mem_cons_self .., Nat.le_add_left ..⟩
      · exact ⟨e, List.mem_cons_of_mem _ h, le_rfl⟩

theorem stop_of_mem_coalesce (h : ∀ f ∈ d :: l, f.start + max k f.len ≤ hi) :
    ∀ f ∈ coalesce d l, f.start + max k f.len ≤ hi := by
  obtain ⟨n, t, heq, hn⟩ := exists_coalesce d l
  rw [heq]
  rcases hn with ⟨rfl, rfl, -⟩ | ⟨f, rfl, hadj, rfl⟩
  · exact h
  · have h1 := h d (by simp)
    have h2 := h f (by simp)
    unfold Extent.stop at hadj
    simp only [List.forall_mem_cons] at h ⊢
    exact ⟨by omega, h.2.2⟩

theorem covered_append : covered (r ++ us) = covered r ∪ covered us := by
  ext a
  simp only [covered, List.mem_append, Set.mem_ofPred_eq, Set.mem_union, or_and_right, exists_or]

theorem covered_coalesce : covered (coalesce d l) = covered (d :: l) := by
  obtain ⟨n, t, heq, hn⟩ := exists_coalesce d l
  rw [heq]
  rcases hn with ⟨rfl, rfl, -⟩ | ⟨f, rfl, hadj, rfl⟩
  · rfl
  · ext a
    unfold Extent.stop at hadj
    simp only [covered, List.exists_mem_cons_iff, Set.mem_ofPred_eq, Extent.stop, ← or_assoc]
    refine or_congr_left ?_
    omega

theorem Gapped.coalesce (h : Gapped (r ++ [d])) (hl : Gapped l) : Gapped (r ++ Xv6.coalesce d l) := by
  obtain ⟨n, t, heq, hn⟩ := exists_coalesce d l
  rw [heq]
  refine List.isChain_split.mpr ⟨?_, ?_⟩
  · -- the start of what `d` becomes is that of `d`
    obtain ⟨h1, -, h2⟩ := List.isChain_append.mp h
    refine List.isChain_append.mpr ⟨h1, .singleton _, ?_⟩
    simpa using h2
  · rcases hn with ⟨rfl, rfl, hne⟩ | ⟨f, rfl, hadj, rfl⟩
    · exact List.isChain_cons.mpr ⟨fun f hf => hne f hf, hl⟩
    · refine hl.cons_of_imp fun c hc => ?_
      unfold Extent.stop at hadj hc ⊢
      simp only
      omega

theorem Spaced.coalesce (h : Spaced k (r ++ d :: l)) : Spaced k (r ++ Xv6.coalesce d l) := by
  obtain ⟨n, t, heq, hn⟩ := exists_coalesce d l
  rw [heq]
  rcases hn with ⟨rfl, rfl, -⟩ | ⟨f, rfl, hadj, rfl⟩
  · exact h
  · obtain ⟨h1, h2, h3⟩ := List.pairwise_append.mp h
    obtain ⟨hd, h2⟩ := List.pairwise_cons.mp h2
    obtain ⟨hf, ht⟩ := List.pairwise_cons.mp h2
    refine List.pairwise_append.mpr ⟨h1, List.pairwise_cons.mpr ⟨fun g hg => ?_, ht⟩, fun a ha g hg => ?_⟩
    · have hfg := hf g hg
      have hdg := hd g (by simp [hg])
      unfold Extent.stop at hadj
      simp only
      omega
    · rcases List.mem_cons.mp hg with rfl | hg
      · exact h3 a ha d (by simp)
      · exact h3 a ha g (by simp [hg])

theorem Packed.coalesce (h : Packed lo hi (d :: (l ++ us))) : Packed lo hi (Xv6.coalesce d l ++ us) := by
  obtain ⟨n, t, heq, hn⟩ := exists_coalesce d l
  rw [heq]
  rcases hn with ⟨rfl, rfl, -⟩ | ⟨f, rfl, hadj, rfl⟩
  · exact h
  · exact Packed.join h hadj

end

end Xv6
