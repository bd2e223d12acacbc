import Xv6.Grep

/-!
# The language of a pattern, and the lines that `grep` prints
-/

namespace Xv6

namespace Grep

open Computability

variable {c t : UInt8} {re text s a b : List UInt8} {here : List UInt8 → Bool}

/-! ### Patterns -/

/-- A character of a pattern, and whether it is starred. -/
inductive Item
  | once (c : UInt8)
  | star (c : UInt8)

def single (c : UInt8) : Language UInt8 := {w | ∃ x, w = [x] ∧ (c = dot ∨ c = x)}

def Item.lang : Item → Language UInt8
  | once c => single c
  | star c => (single c)∗

/-- The characters from left to right; `atEnd` if the last one is a `$` without a star. -/
structure Pattern where
  items : List Item
  atEnd : Bool

namespace Pattern

def cons (i : Item) (p : Pattern) : Pattern := ⟨i :: p.items, p.atEnd⟩

def parse : (re : List UInt8) → Pattern
  | [] => ⟨[], false⟩
  | [c] => if c = dollar then ⟨[], true⟩ else ⟨[.once c], false⟩
  | c :: d :: re => if d = Grep.star then (parse re).cons (.star c) else (parse (d :: re)).cons (.once c)

def lang (p : Pattern) : Language UInt8 := (p.items.map Item.lang).prod

/-- The text starts with a word of the language, or is one. -/
def Holds (p : Pattern) (s : List UInt8) : Prop := ∃ w ∈ p.lang, if p.atEnd then w = s else w <+: s

theorem holds_cons {p : Pattern} {i : Item} : (p.cons i).Holds s ↔ ∃ a b, a ++ b = s ∧ a ∈ i.lang ∧ p.Holds b := by
  have hlang : (p.cons i).lang = i.lang * p.lang := rfl
  simp only [Holds, hlang, Language.mem_mul]
  constructor
  · rintro ⟨w, ⟨a, ha, b, hb, rfl⟩, hw⟩
    by_cases he : p.atEnd
    · rw [cons, if_pos he] at hw
      exact ⟨a, b, hw, ha, b, hb, by rw [if_pos he]⟩
    · rw [cons, if_neg he] at hw
      obtain ⟨r, rfl⟩ := hw
      exact ⟨a, b ++ r, (List.append_assoc ..).symm, ha, b, hb, by rw [if_neg he]; exact List.prefix_append ..⟩
  · rintro ⟨a, b, rfl, ha, w, hw, h⟩
    refine ⟨a ++ w, ⟨a, ha, w, hw, rfl⟩, ?_⟩
    by_cases he : p.atEnd
    · rw [if_pos he] at h
      rw [cons, if_pos he, h]
    · rw [if_neg he] at h
      rw [cons, if_neg he]
      exact (List.prefix_append_right_inj a).mpr h

theorem holds_nil : (⟨[], false⟩ : Pattern).Holds s :=
  ⟨[], Language.nil_mem_one, List.nil_prefix⟩

theorem holds_atEnd : (⟨[], true⟩ : Pattern).Holds s ↔ s = [] := by
  constructor
  · rintro ⟨w, hw, h⟩
    rw [← (show w = s from h)]
    exact hw
  · rintro rfl
    exact ⟨[], Language.nil_mem_one, rfl⟩

theorem holds_once {p : Pattern} : (p.cons (.once c)).Holds s ↔ ∃ t text, s = t :: text ∧ (c = dot ∨ c = t) ∧ p.Holds text := by
  rw [holds_cons]
  constructor
  · rintro ⟨_, b, rfl, ⟨t, rfl, ht⟩, hb⟩
    exact ⟨t, b, rfl, ht, hb⟩
  · rintro ⟨t, text, rfl, ht, hb⟩
    exact ⟨[t], text, rfl, ⟨t, rfl, ht⟩, hb⟩

end Pattern

theorem mem_kstar_single : t :: a ∈ (single c)∗ ↔ (c = dot ∨ c = t) ∧ a ∈ (single c)∗ := by
  constructor
  · intro h
    rw [← Language.one_add_self_mul_kstar_eq_kstar] at h
    obtain h | ⟨_, ⟨x, rfl, hx⟩, b, hb, he⟩ := h
    · exact absurd h (List.cons_ne_nil t a)
    · obtain ⟨rfl, rfl⟩ := List.cons.inj he
      exact ⟨hx, hb⟩
  · rintro ⟨hx, ha⟩
    rw [← Language.one_add_self_mul_kstar_eq_kstar]
    exact .inr ⟨[t], ⟨t, rfl, hx⟩, a, ha, rfl⟩

theorem starred_iff : (decide (t = c) || decide (c = dot)) = true ↔ c = dot ∨ c = t := by
  rw [Bool.or_eq_true, decide_eq_true_iff, decide_eq_true_iff, or_comm, eq_comm (a := t)]

theorem matchstar_iff : matchstar c here text = true ↔ ∃ a b, a ++ b = text ∧ a ∈ (single c)∗ ∧ here b = true := by
  induction text with
  | nil =>
    rw [matchstar]
    constructor
    · exact fun h => ⟨[], [], rfl, Language.nil_mem_kstar _, h⟩
    · rintro ⟨a, b, hab, -, hb⟩
      rwa [(List.append_eq_nil_iff.mp hab).2] at hb
  | cons t text ih =>
    rw [matchstar, Bool.or_eq_true, Bool.and_eq_true, starred_iff, ih]
    constructor
    · rintro (h | ⟨ht, a, b, rfl, ha, hb⟩)
      · exact ⟨[], t :: text, rfl, Language.nil_mem_kstar _, h⟩
      · exact ⟨t :: a, b, rfl, mem_kstar_single.mpr ⟨ht, ha⟩, hb⟩
    · rintro ⟨_ | ⟨t', a⟩, b, hab, ha, hb⟩
      · exact .inl (hab ▸ hb)
      · obtain ⟨rfl, rfl⟩ := List.cons.inj hab
        obtain ⟨ht, ha⟩ := mem_kstar_single.mp ha
        exact .inr ⟨ht, a, b, rfl, ha, hb⟩

theorem matchhere_iff (re text : List UInt8) : matchhere re text = true ↔ (Pattern.parse re).Holds text := by
  induction re using Pattern.parse.induct generalizing text with
  | case1 => exact iff_of_true rfl Pattern.holds_nil
  | case2 =>
    rw [matchhere.eq_def, Pattern.parse, if_pos rfl, Pattern.holds_atEnd]
    exact List.isEmpty_iff
  | case3 c hc =>
    rw [matchhere.eq_def, Pattern.parse, if_neg hc]
    dsimp only
    rw [if_neg hc]
    refine Iff.trans ?_ (Pattern.holds_once (p := ⟨[], false⟩)).symm
    cases text <;> simp [Pattern.holds_nil]
  | case4 c re ih =>
    rw [matchhere.eq_def, Pattern.parse, if_pos rfl, Pattern.holds_cons]
    dsimp only
    rw [if_pos rfl, matchstar_iff]
    simp only [ih]
    rfl
  | case5 c d re hd ih =>
    rw [matchhere.eq_def, Pattern.parse, if_neg hd, Pattern.holds_once]
    dsimp only
    rw [if_neg hd]
    cases text <;> simp [ih]

theorem matchLoop_iff (re text : List UInt8) : matchLoop re text = true ↔ ∃ s, s <:+ text ∧ matchhere re s = true := by
  induction text with
  | nil => simp [matchLoop]
  | cons t text ih => simp [matchLoop, ih, List.suffix_cons_iff, or_and_right, exists_or]

/-- Where a match may start, and the pattern behind a `^`. -/
theorem match_iff (re text : List UInt8) : matchRe re text = true ↔
    if re.head? = some caret then (Pattern.parse re.tail).Holds text else ∃ s, s <:+ text ∧ (Pattern.parse re).Holds s := by
  rw [matchRe]
  split
  · exact matchhere_iff ..
  · simp only [matchLoop_iff, matchhere_iff]

/-! ### Lines -/

variable {pattern l p q : List UInt8} {lines : List (List UInt8)} {split : Nat → Nat} {i : Nat} {input buf : List UInt8}

/-- Every line with its newline. -/
def unlines (lines : List (List UInt8)) : List UInt8 := lines.flatMap (· ++ [newline])

def fits (l : List UInt8) : Bool := l.length + 1 < bufSize

/-- Lines are NUL-free, and the newline is at their end. -/
def AreLines (lines : List (List UInt8)) : Prop := ∀ l ∈ lines, 0 ∉ l ∧ newline ∉ l

theorem unlines_cons : unlines (l :: lines) = l ++ newline :: unlines lines := by
  simp [unlines]

theorem unlines_append (ls ls' : List (List UInt8)) : unlines (ls ++ ls') = unlines ls ++ unlines ls' := List.flatMap_append

theorem strchr_newline (h0 : 0 ∉ l) (hl : newline ∉ l) : strchr newline (l ++ newline :: q) = some (l, q) := by
  induction l with
  | nil => rfl
  | cons x l ih =>
    rw [List.mem_cons, not_or] at h0 hl
    rw [List.cons_append, strchr, if_neg (Ne.symm h0.1), if_neg (Ne.symm hl.1), ih h0.2 hl.2]
    rfl

theorem strchr_none (hl : newline ∉ l) : strchr newline l = none := by
  induction l with
  | nil => rfl
  | cons x l ih =>
    rw [List.mem_cons, not_or] at hl
    rw [strchr, if_neg (Ne.symm hl.1), ih hl.2]
    exact ite_self none

theorem lineLoop_eq (h : AreLines lines) (hq : newline ∉ q) :
    lineLoop pattern (unlines lines ++ q) = (unlines (lines.filter (matchRe pattern)), q) := by
  induction lines with
  | nil => rw [lineLoop, show unlines [] ++ q = q from rfl, strchr_none hq]; rfl
  | cons l lines ih =>
    obtain ⟨⟨h0, hl⟩, h⟩ := List.forall_mem_cons.mp h
    rw [lineLoop, unlines_cons, List.append_assoc, List.cons_append, strchr_newline h0 hl]
    dsimp only
    rw [ih h, List.filter_cons]
    split <;> simp [unlines_cons]

theorem exists_cut (h : AreLines lines) (hpq : p ++ q = unlines lines) : ∃ done rest part, lines = done ++ rest ∧
    p = unlines done ++ part ∧ part ++ q = unlines rest ∧ newline ∉ part := by
  induction lines generalizing p with
  | nil =>
    obtain ⟨rfl, rfl⟩ := List.append_eq_nil_iff.mp hpq
    exact ⟨[], [], [], rfl, rfl, rfl, List.not_mem_nil⟩
  | cons l lines ih =>
    obtain ⟨⟨-, hl⟩, h⟩ := List.forall_mem_cons.mp h
    rw [unlines_cons, List.append_eq_append_iff] at hpq
    obtain ⟨a, rfl, rfl⟩ | ⟨a, rfl, ha⟩ := hpq
    · exact ⟨[], _, p, rfl, rfl, by rw [unlines_cons, List.append_assoc], fun hp => hl (List.mem_append_left _ hp)⟩
    · cases a with
      | nil =>
        refine ⟨[], l :: lines, l, rfl, List.append_nil l, ?_, hl⟩
        rw [unlines_cons, ha]
        rfl
      | cons x a =>
        obtain ⟨rfl, ha'⟩ := List.cons.inj ha
        obtain ⟨done, rest, part, rfl, rfl, hrest, hpart⟩ := ih h ha'.symm
        exact ⟨l :: done, rest, part, rfl, by rw [unlines_cons, List.append_assoc]; rfl, hrest, hpart⟩

theorem length_of_mem_unlines (h : l ∈ lines) : l.length + 1 ≤ (unlines lines).length := by
  obtain ⟨a, b, rfl⟩ := List.append_of_mem h
  simp only [unlines, List.flatMap_append, List.flatMap_cons, List.length_append, List.length_singleton]
  omega

/-- The loop prints the lines up to the first one that does not fit. -/
theorem grepLoop_eq (h : AreLines lines) (hbuf : newline ∉ buf) (hlen : buf.length < bufSize) (hin : buf ++ input = unlines lines) :
    grepLoop pattern split i buf input = unlines ((lines.takeWhile fits).filter (matchRe pattern)) := by
  induction hn : input.length using Nat.strong_induction_on generalizing i buf input lines with
  | _ n ih =>
    subst hn
    rw [grepLoop]
    dsimp only
    generalize hk : readLen (split i) (bufSize - buf.length - 1) input.length = k
    have hkn : k ≤ bufSize - buf.length - 1 := by rw [← hk]; exact (Nat.min_le_right ..).trans (Nat.min_le_left ..)
    have hki : k ≤ input.length := by rw [← hk]; exact (Nat.min_le_right ..).trans (Nat.min_le_right ..)
    obtain ⟨done, rest, part, rfl, hp, hrest, hpart⟩ := exists_cut h
      (show (buf ++ input.take k) ++ input.drop k = _ by rw [List.append_assoc, List.take_append_drop, hin])
    have hplen : (unlines done).length + part.length = buf.length + k := by
      rw [← List.length_append, ← hp, List.length_append, List.length_take, min_eq_left hki]
    by_cases hpos : k > 0
    · rw [dif_pos hpos, hp, lineLoop_eq (fun l hl => h l (List.mem_append_left _ hl)) hpart]
      have hdone : ∀ l ∈ done, fits l = true := by
        intro l hl
        have := length_of_mem_unlines hl
        rw [fits, decide_eq_true_iff]
        omega
      rw [List.takeWhile_append_of_pos hdone, List.filter_append, unlines_append]
      refine congrArg (_ ++ ·) ?_
      exact ih _ (by rw [List.length_drop]; omega) (fun l hl => h l (List.mem_append_right _ hl)) hpart (by dsimp only; omega) hrest rfl
    · -- nothing is left, or the buffer is full
      rw [dif_neg hpos]
      obtain rfl : k = 0 := by omega
      obtain rfl : done = [] := by
        cases done with
        | nil => rfl
        | cons l done => exact absurd (show newline ∈ buf by rw [← List.append_nil buf, ← List.take_zero, hp, unlines_cons]; simp) hbuf
      obtain rfl : buf = part := by rw [← List.append_nil buf, ← List.take_zero, hp]; rfl
      rw [List.nil_append]
      cases rest with
      | nil => rfl
      | cons l rest =>
        rw [List.nil_append, unlines_cons] at hin
        have hfull : ¬ fits l = true := by
          intro hfit
          rw [fits, decide_eq_true_iff] at hfit
          have hlt : l.length < buf.length := by
            have hlens := congrArg List.length hin
            rw [List.length_append, List.length_append, List.length_cons] at hlens
            simp only [readLen, bufSize] at hk hfit
            omega
          have hat : (buf ++ input)[l.length]? = some newline := by
            rw [hin, List.getElem?_append_right (le_rfl), Nat.sub_self]
            rfl
          rw [List.getElem?_append_left hlt] at hat
          exact hbuf (List.mem_of_getElem? hat)
        rw [List.takeWhile_cons_of_neg hfull]
        rfl

theorem grep_lines_iff (pattern : List UInt8) (lines : List (List UInt8)) (h : AreLines lines) (split : Nat → Nat) :
    grep pattern split (unlines lines) = unlines (lines.filter (matchRe pattern)) ↔
      ∀ l ∈ lines.dropWhile fits, matchRe pattern l = false := by
  rw [grep, grepLoop_eq h List.not_mem_nil (by decide) (List.nil_append _)]
  nth_rewrite 2 [← List.takeWhile_append_dropWhile (p := fits) (l := lines)]
  rw [List.filter_append, unlines_append, List.self_eq_append_right, unlines, List.flatMap_eq_nil_iff]
  constructor
  · intro hnil l hl
    by_contra hm
    exact List.append_ne_nil_of_right_ne_nil l (List.cons_ne_nil newline []) (hnil l (List.mem_filter.mpr ⟨hl, Bool.eq_true_of_not_eq_false hm⟩))
  · intro hno l hl
    obtain ⟨hl, hm⟩ := List.mem_filter.mp hl
    rw [hno l hl] at hm
    exact absurd hm Bool.false_ne_true

/-- A line of 1023 bytes, and its newline: nothing is printed. -/
theorem grep_long_line : AreLines [List.replicate 1023 97] ∧ matchRe [97] (List.replicate 1023 97) = true ∧
    ∀ split, grep [97] split (unlines [List.replicate 1023 97]) = [] := by
  have h : AreLines [List.replicate 1023 97] := by
    intro l hl
    obtain rfl := List.mem_singleton.mp hl
    exact ⟨fun h0 => absurd (List.eq_of_mem_replicate h0) (by decide), fun hn => absurd (List.eq_of_mem_replicate hn) (by decide)⟩
  refine ⟨h, rfl, fun split => ?_⟩
  rw [grep, grepLoop_eq h List.not_mem_nil (by decide) (List.nil_append _),
    List.takeWhile_cons_of_neg (by rw [fits, List.length_replicate]; decide)]
  rfl

theorem grep_lines_iff_one : AreLines [[97], [98]] ∧ grep [98] (fun _ => 3) (unlines [[97], [98]]) = unlines [[98]] := by
  have h : AreLines [[97], [98]] := by
    intro l hl
    fin_cases hl <;> decide
  exact ⟨h, (grep_lines_iff [98] [[97], [98]] h fun _ => 3).mpr fun l hl => absurd hl (by simp [fits, bufSize])⟩

end Grep

end Xv6
