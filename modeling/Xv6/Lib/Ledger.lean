import Mathlib.Data.Set.Insert

/-!
# A ledger of resources

Resources are marked as taken in one place and stand with their owners in another. `Ledger fixed valid mark holds E`: a
valid resource is marked exactly if it is fixed (never given out), or held by an owner, or in `E`, the resources that are on
their way from one place to the other; and no two owners hold the same resource.

A resource is handed out in two steps, `take` and `link`, and given back in two, `unlink` and `give`.
-/

namespace Xv6

structure Ledger {κ β : Type*} (fixed valid mark : β → Prop) (holds : κ → β → Prop) (E : Set β) : Prop where
  mark_iff {b : β} (hb : valid b) : mark b ↔ fixed b ∨ b ∈ E ∨ ∃ k, holds k b
  held {k : κ} {b : β} (h : holds k b) : valid b ∧ ¬ fixed b
  unique {k k' : κ} {b : β} (h : holds k b) (h' : holds k' b) : k = k'
  loose {b : β} (hb : b ∈ E) : valid b ∧ ¬ fixed b ∧ ∀ k, ¬ holds k b

namespace Ledger

variable {κ β : Type*} {fixed valid mark mark' : β → Prop} {holds holds' : κ → β → Prop} {E S : Set β} {b : β} {k : κ}

section

variable (h : Ledger fixed valid mark holds E)
include h

theorem congr (hm : ∀ b, valid b → (mark' b ↔ mark b))
    (hh : ∀ k b, holds' k b ↔ holds k b) : Ledger fixed valid mark' holds' E := by
  obtain rfl : holds' = holds := by
    funext k b
    exact propext (hh k b)
  refine ⟨fun hb => ?_, h.held, h.unique, h.loose⟩
  rw [hm _ hb, h.mark_iff hb]

theorem not_fixed_of_free (hb : valid b) (hfree : ¬ mark b) : ¬ fixed b := by
  intro hfix
  exact hfree ((h.mark_iff hb).mpr (.inl hfix))

theorem not_held_of_free (hfree : ¬ mark b) : ¬ holds k b := by
  intro hk
  exact hfree ((h.mark_iff (h.held hk).1).mpr (.inr (.inr ⟨k, hk⟩)))

theorem mark_of_held (hk : holds k b) : mark b :=
  (h.mark_iff (h.held hk).1).mpr (.inr (.inr ⟨k, hk⟩))

theorem mark_of_loose (hb : b ∈ E) : mark b :=
  (h.mark_iff (h.loose hb).1).mpr (.inr (.inl hb))

theorem take (hb : valid b) (hfree : ¬ mark b)
    (hm : ∀ b', valid b' → (mark' b' ↔ b' = b ∨ mark b')) : Ledger fixed valid mark' holds (insert b E) := by
  refine ⟨fun {b'} hb' => ?_, h.held, h.unique, fun {b'} hb' => ?_⟩
  · rw [hm b' hb', h.mark_iff hb', Set.mem_insert_iff, or_assoc]
    exact or_left_comm
  · rcases Set.mem_insert_iff.mp hb' with rfl | hb'
    · exact ⟨hb, h.not_fixed_of_free hb hfree, fun k => h.not_held_of_free hfree⟩
    · exact h.loose hb'

theorem give (hb : b ∈ E) (hm : ∀ b', valid b' → (mark' b' ↔ b' ≠ b ∧ mark b')) :
    Ledger fixed valid mark' holds (E \ {b}) := by
  obtain ⟨-, hfix, hnot⟩ := h.loose hb
  refine ⟨fun {b'} hb' => ?_, h.held, h.unique, fun hb' => h.loose hb'.1⟩
  rw [hm b' hb', h.mark_iff hb', Set.mem_sdiff, Set.mem_singleton_iff]
  constructor
  · rintro ⟨hne, h' | h' | h'⟩
    · exact .inl h'
    · exact .inr (.inl ⟨h', hne⟩)
    · exact .inr (.inr h')
  · rintro (h' | ⟨h', hne⟩ | ⟨k, hk⟩)
    · exact ⟨fun he => hfix (he ▸ h'), .inl h'⟩
    · exact ⟨hne, .inr (.inl h')⟩
    · exact ⟨fun he => hnot k (he ▸ hk), .inr (.inr ⟨k, hk⟩)⟩

end

theorem link (h : Ledger fixed valid mark holds (insert b E)) (hb : b ∉ E) (k : κ)
    (hh : ∀ k' b', holds' k' b' ↔ k' = k ∧ b' = b ∨ holds k' b') : Ledger fixed valid mark holds' E := by
  obtain ⟨hvalid, hfix, hnot⟩ := h.loose (Set.mem_insert b E)
  refine ⟨fun {b'} hb' => ?_, fun {k' b'} hk => ?_, fun {k₁ k₂ b'} h1 h2 => ?_, fun {b'} hb' => ?_⟩
  · rw [h.mark_iff hb', Set.mem_insert_iff]
    constructor
    · rintro (h' | (rfl | h') | ⟨k', hk'⟩)
      · exact .inl h'
      · exact .inr (.inr ⟨k, (hh _ _).mpr (.inl ⟨rfl, rfl⟩)⟩)
      · exact .inr (.inl h')
      · exact .inr (.inr ⟨k', (hh _ _).mpr (.inr hk')⟩)
    · rintro (h' | h' | ⟨k', hk'⟩)
      · exact .inl h'
      · exact .inr (.inl (.inr h'))
      · rcases (hh _ _).mp hk' with ⟨-, rfl⟩ | hk'
        · exact .inr (.inl (.inl rfl))
        · exact .inr (.inr ⟨k', hk'⟩)
  · rcases (hh _ _).mp hk with ⟨-, rfl⟩ | hk
    · exact ⟨hvalid, hfix⟩
    · exact h.held hk
  · rcases (hh _ _).mp h1 with ⟨rfl, rfl⟩ | h1 <;> rcases (hh _ _).mp h2 with ⟨rfl, he⟩ | h2
    · rfl
    · exact absurd h2 (hnot _)
    · exact absurd (he ▸ h1) (hnot _)
    · exact h.unique h1 h2
  · obtain ⟨h1, h2, h3⟩ := h.loose (Set.mem_insert_of_mem b hb')
    refine ⟨h1, h2, fun k' hk' => ?_⟩
    rcases (hh _ _).mp hk' with ⟨-, rfl⟩ | hk'
    · exact hb hb'
    · exact h3 k' hk'

theorem unlink (h : Ledger fixed valid mark holds E) (hS : ∀ b ∈ S, ∃ k, holds k b)
    (hh : ∀ k b, holds' k b ↔ holds k b ∧ b ∉ S) : Ledger fixed valid mark holds' (S ∪ E) := by
  refine ⟨fun {b} hb => ?_, fun hk => h.held ((hh _ _).mp hk).1,
    fun h1 h2 => h.unique ((hh _ _).mp h1).1 ((hh _ _).mp h2).1, fun {b} hb => ?_⟩
  · rw [h.mark_iff hb, Set.mem_union]
    constructor
    · rintro (h' | h' | ⟨k, hk⟩)
      · exact .inl h'
      · exact .inr (.inl (.inr h'))
      · by_cases hbS : b ∈ S
        · exact .inr (.inl (.inl hbS))
        · exact .inr (.inr ⟨k, (hh _ _).mpr ⟨hk, hbS⟩⟩)
    · rintro (h' | (h' | h') | ⟨k, hk⟩)
      · exact .inl h'
      · exact .inr (.inr (hS b h'))
      · exact .inr (.inl h')
      · exact .inr (.inr ⟨k, ((hh _ _).mp hk).1⟩)
  · rcases hb with hb | hb
    · obtain ⟨k, hk⟩ := hS b hb
      exact ⟨(h.held hk).1, (h.held hk).2, fun k' hk' => ((hh _ _).mp hk').2 hb⟩
    · obtain ⟨h1, h2, h3⟩ := h.loose hb
      exact ⟨h1, h2, fun k' hk' => h3 k' ((hh _ _).mp hk').1⟩

end Ledger

end Xv6
