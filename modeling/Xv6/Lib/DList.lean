import Mathlib

/-!
# Circular doubly linked lists

`Links` are the two pointers of every node. `L.Cycle h xs` says that the `next` pointers lead from `h` through the
nodes of `xs` back to `h`, and the `prev` pointers the same way back. Taking a node out and putting one in behind `h` are
the pointer assignments a program makes; what they do to the cycle is what the same operations do to `xs`
(`Cycle.unlink`, `Cycle.insert`), and a search along either pointer is a search in `xs` (`Cycle.find_next`,
`Cycle.find_prev`).
-/

namespace Xv6

open Function

structure Links (α : Type) where
  next : α → α
  prev : α → α

namespace Links

variable {α : Type} {L L' : Links α} {h a b : α} {xs ys l : List α}

/-- Each node of `l` points to the one after it, and that one back. -/
def Seg (L : Links α) (l : List α) : Prop := l.IsChain fun a b => L.next a = b ∧ L.prev b = a

structure Cycle (L : Links α) (h : α) (xs : List α) : Prop where
  seg : L.Seg (h :: (xs ++ [h]))
  nodup : (h :: xs).Nodup

theorem Seg.congr (hs : L.Seg l) (hnext : ∀ a ∈ l.dropLast, L'.next a = L.next a)
    (hprev : ∀ b ∈ l.tail, L'.prev b = L.prev b) : L'.Seg l := by
  induction l with
  | nil => exact .nil
  | cons a l ih =>
    cases l with
    | nil => exact .singleton a
    | cons b l =>
      obtain ⟨⟨hn, hp⟩, hs⟩ := List.isChain_cons_cons.1 hs
      refine List.isChain_cons_cons.2 ⟨⟨?_, ?_⟩, ih hs (fun c hc => ?_) fun c hc => ?_⟩
      · exact (hnext a (by simp)).trans hn
      · exact (hprev b (by simp)).trans hp
      · exact hnext c (by simp [hc])
      · exact hprev c (List.mem_of_mem_tail hc)

section
variable [DecidableEq α]

def setNext (L : Links α) (a b : α) : Links α := { L with next := Function.update L.next a b }

def setPrev (L : Links α) (a b : α) : Links α := { L with prev := Function.update L.prev a b }

/-- `b->next->prev = b->prev; b->prev->next = b->next;` -/
def unlink (L : Links α) (b : α) : Links α :=
  let L := L.setPrev (L.next b) (L.prev b)
  L.setNext (L.prev b) (L.next b)

/-- `b->next = h->next; b->prev = h; h->next->prev = b; h->next = b;` -/
def insert (L : Links α) (h b : α) : Links α :=
  let L := L.setNext b (L.next h)
  let L := L.setPrev b h
  let L := L.setPrev (L.next h) b
  L.setNext h b

theorem Cycle.unlink (hc : L.Cycle h (xs ++ b :: ys)) : (L.unlink b).Cycle h (xs ++ ys) := by
  obtain ⟨hseg, hnd⟩ := hc
  obtain ⟨l, a, hl⟩ : ∃ l a, h :: xs = l ++ [a] := ⟨_, _, (List.dropLast_concat_getLast (List.cons_ne_nil h xs)).symm⟩
  obtain ⟨c, r, hr⟩ : ∃ c r, ys ++ [h] = c :: r := List.exists_cons_of_ne_nil (by simp)
  have ha : a ∈ h :: xs := hl ▸ List.mem_append_right l (List.mem_singleton_self a)
  have hc : c ∈ ys ++ [h] := hr ▸ List.mem_cons_self
  have hchain : L.Seg (l ++ a :: b :: c :: r) := by
    have heq : h :: (xs ++ b :: ys ++ [h]) = h :: xs ++ b :: (ys ++ [h]) := by simp
    rwa [heq, hl, hr, List.append_assoc] at hseg
  obtain ⟨hleft, ⟨-, hp⟩, hright⟩ := List.isChain_append_cons_cons.1 hchain
  obtain ⟨⟨hn, -⟩, hright⟩ := List.isChain_cons_cons.1 hright
  -- what is distinct
  have hnd' : (h :: xs).Nodup ∧ (ys ++ [h]).Nodup ∧ c ∉ xs ∧ a ∉ ys ∧ b ≠ c := by
    simp only [List.nodup_cons, List.mem_append, List.mem_cons, List.nodup_append] at hnd ha hc ⊢
    grind
  obtain ⟨hnd1, hnd2, hcx, hay, hbc⟩ := hnd'
  have hunlink : L.unlink b = ⟨update L.next a c, update L.prev c a⟩ := by
    simp only [Links.unlink, setPrev, setNext, hn, hp, update_of_ne hbc]
  refine ⟨?_, hnd.sublist (((List.sublist_cons_self b ys).append_left xs).cons_cons h)⟩
  have heq : h :: (xs ++ ys ++ [h]) = h :: xs ++ (ys ++ [h]) := by simp
  rw [heq, hl, hr, List.append_assoc, hunlink]
  refine List.isChain_append_cons_cons.2 ⟨Seg.congr hleft (fun x hx => ?_) (fun x hx => ?_), ⟨?_, ?_⟩,
    Seg.congr hright (fun x hx => ?_) fun x hx => ?_⟩
  · refine update_of_ne ?_ ..
    rintro rfl
    rw [List.dropLast_concat] at hx
    rw [hl] at hnd1
    exact List.disjoint_of_nodup_append hnd1 hx (List.mem_singleton_self x)
  · refine update_of_ne ?_ ..
    rintro rfl
    rw [← hl] at hx
    exact hcx hx
  · exact update_self ..
  · exact update_self ..
  · refine update_of_ne ?_ ..
    rintro rfl
    rw [← hr, List.dropLast_concat] at hx
    exact hay hx
  · refine update_of_ne ?_ ..
    rintro rfl
    rw [hr] at hnd2
    exact (List.nodup_cons.1 hnd2).1 hx

theorem Cycle.insert (hc : L.Cycle h xs) (hb : b ∉ h :: xs) : (L.insert h b).Cycle h (b :: xs) := by
  obtain ⟨hseg, hnd⟩ := hc
  obtain ⟨c, r, hr⟩ : ∃ c r, xs ++ [h] = c :: r := List.exists_cons_of_ne_nil (by simp)
  have hc : c ∈ xs ++ [h] := hr ▸ List.mem_cons_self
  have hne : h ≠ b ∧ c ≠ b ∧ (xs ++ [h]).Nodup ∧ h ∉ xs ∧ b ∉ xs := by
    simp only [List.nodup_cons, List.mem_append, List.mem_cons, List.nodup_append] at hnd hb hc ⊢
    grind
  obtain ⟨hhb, hcb, hnd', hhx, hbx⟩ := hne
  rw [hr] at hseg
  obtain ⟨⟨hn, -⟩, hright⟩ := List.isChain_cons_cons.1 hseg
  have hinsert : L.insert h b = ⟨update (update L.next b c) h b,
      update (update L.prev b h) c b⟩ := by
    simp only [Links.insert, setPrev, setNext, hn, update_of_ne hhb]
  refine ⟨?_, List.nodup_cons.2 ⟨?_, List.nodup_cons.2 ⟨hbx, hnd.of_cons⟩⟩⟩
  · rw [List.cons_append, hr, hinsert]
    refine List.isChain_cons_cons.2 ⟨⟨?_, ?_⟩, List.isChain_cons_cons.2 ⟨⟨?_, ?_⟩, Seg.congr hright (fun x hx => ?_) fun x hx => ?_⟩⟩
    · exact update_self ..
    · exact (update_of_ne hcb.symm ..).trans (update_self ..)
    · exact (update_of_ne hhb.symm ..).trans (update_self ..)
    · exact update_self ..
    · rw [← hr, List.dropLast_concat] at hx
      refine (update_of_ne ?_ ..).trans (update_of_ne ?_ ..)
      · rintro rfl
        exact hhx hx
      · rintro rfl
        exact hbx hx
    · refine (update_of_ne ?_ ..).trans (update_of_ne ?_ ..)
      · rintro rfl
        rw [hr] at hnd'
        exact (List.nodup_cons.1 hnd').1 hx
      · rintro rfl
        have hx' : x ∈ xs ++ [h] := hr ▸ List.mem_cons_of_mem c hx
        rcases List.mem_append.1 hx' with hx' | hx'
        · exact hbx hx'
        · exact hhb (List.mem_singleton.1 hx').symm
  · rintro hm
    rcases List.mem_cons.1 hm with rfl | hm
    · exact hhb rfl
    · exact hhx hm

/-- `for(; b != h; b = step(b)) if(p(b)) break;` with at most `n` turns -/
def find (step : α → α) (h : α) (p : α → Bool) : Nat → α → Option α
  | 0, _ => none
  | n + 1, b => if b = h then none else if p b then some b else find step h p n (step b)

theorem find_of_isChain {step : α → α} {p : α → Bool} {n : Nat} (hs : (a :: (l ++ [h])).IsChain fun a b => step a = b)
    (hh : h ∉ l) (hn : l.length < n) : find step h p n (step a) = l.find? p := by
  induction l generalizing a n with
  | nil =>
    obtain ⟨m, rfl⟩ := Nat.exists_eq_add_of_lt hn
    have ha : step a = h := (List.isChain_cons_cons.1 hs).1
    rw [ha, find, if_pos rfl, List.find?_nil]
  | cons b l ih =>
    obtain ⟨m, rfl⟩ := Nat.exists_eq_add_of_lt hn
    obtain ⟨rfl, hs⟩ := List.isChain_cons_cons.1 hs
    rw [List.mem_cons, not_or] at hh
    have hrest := ih hs hh.2 (n := l.length + 1 + m) (by omega)
    rw [find, if_neg (Ne.symm hh.1), List.find?_cons, List.length_cons, hrest]
    cases p (step a) <;> rfl

theorem Cycle.find_next {p : α → Bool} {n : Nat} (hc : L.Cycle h xs) (hn : xs.length < n) :
    find L.next h p n (L.next h) = xs.find? p :=
  find_of_isChain (hc.seg.imp fun _ _ => And.left) (List.nodup_cons.1 hc.nodup).1 hn

theorem Cycle.find_prev {p : α → Bool} {n : Nat} (hc : L.Cycle h xs) (hn : xs.length < n) :
    find L.prev h p n (L.prev h) = xs.reverse.find? p := by
  have hchain : (h :: (xs.reverse ++ [h])).IsChain fun a b => L.prev a = b := by
    have hrev : h :: (xs.reverse ++ [h]) = (h :: (xs ++ [h])).reverse := by simp
    rw [hrev, List.isChain_reverse]
    exact hc.seg.imp fun _ _ => And.right
  refine find_of_isChain hchain ?_ (by rwa [List.length_reverse])
  rw [List.mem_reverse]
  exact (List.nodup_cons.1 hc.nodup).1

end

end Links

end Xv6
