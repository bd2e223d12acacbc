import Xv6.Shell

/-!
# The tokens of a line

A line has exactly one sequence of tokens (`Lexes.unique`, `exists_lexes`). The cursor stands for the tokens that are left:
`gettoken` takes the first of them off and `peek` looks at it (`wp_gettoken_sym`, `wp_gettoken_word`, `wp_peek`).
-/

namespace Xv6

open Prog

namespace Shell

variable {b : List UInt8} {i j s : Nat} {ts ts' : List Token} {p : UInt8 → Bool} {c : UInt8} {x : Sym} {w : Word}

/-! ### The loops of the scanner -/

theorem skip_succ (h : i < b.length) (hp : p (byte b i) = true) : skip b p i = skip b p (i + 1) := by
  rw [skip, if_pos ⟨h, hp⟩]

theorem skip_stop (h : ¬ (i < b.length ∧ p (byte b i) = true)) : skip b p i = i := by
  rw [skip, if_neg h]

/-- The loop passes over what satisfies `p`, and no further. -/
theorem skip_eq (hij : i ≤ j) (hj : j ≤ b.length) (h : ∀ k, i ≤ k → k < j → p (byte b k) = true)
    (hstop : j < b.length → p (byte b j) = false) : skip b p i = j := by
  obtain ⟨n, rfl⟩ := Nat.exists_eq_add_of_le hij
  induction n generalizing i with
  | zero =>
    refine skip_stop ?_
    rintro ⟨h1, h2⟩
    have h3 : p (byte b i) = false := hstop h1
    rw [h3] at h2
    cases h2
  | succ n ih =>
    rw [skip_succ (by omega) (h i (by omega) (by omega))]
    have hn : i + (n + 1) = i + 1 + n := by omega
    rw [hn] at hj h hstop ⊢
    exact ih (by omega) hj (fun k h1 h2 => h k (by omega) h2) hstop

theorem le_skip : i ≤ skip b p i := by
  fun_induction skip b p i with
  | case1 i h ih => omega
  | case2 i h => exact Nat.le_refl i

theorem skip_le (hi : i ≤ b.length) : skip b p i ≤ b.length := by
  fun_induction skip b p i with
  | case1 i h ih => exact ih h.1
  | case2 i h => exact hi

theorem of_lt_skip (k : Nat) (h1 : i ≤ k) (h2 : k < skip b p i) : p (byte b k) = true := by
  fun_induction skip b p i with
  | case1 i h ih =>
    rcases Nat.eq_or_lt_of_le h1 with rfl | h1
    · exact h.2
    · exact ih h1 h2
  | case2 i h => omega

theorem not_at_skip (h : skip b p i < b.length) : p (byte b (skip b p i)) = false := by
  fun_induction skip b p i with
  | case1 i hi ih => exact ih h
  | case2 i hi => simpa [h] using hi

/-! ### Bytes -/

theorem byte_of_ge (h : b.length ≤ i) : byte b i = 0 := List.getD_eq_default _ _ h

theorem byte_ne_zero (hb : 0 ∉ b) (h : i < b.length) : byte b i ≠ 0 := by
  rw [byte, List.getD_eq_getElem _ _ h]
  intro h0
  exact hb (h0 ▸ List.getElem_mem h)

theorem strchr_iff {cs : List UInt8} : strchr cs c = true ↔ c ∈ cs := List.contains_iff_mem

def Sym.first : Sym → UInt8
  | .pipe => '|'.toUInt8
  | .lparen => '('.toUInt8
  | .rparen => ')'.toUInt8
  | .semi => ';'.toUInt8
  | .amp => '&'.toUInt8
  | .lt => '<'.toUInt8
  | .gt => '>'.toUInt8
  | .append => '>'.toUInt8

def Sym.ret (x : Sym) : UInt8 := if x = .append then '+'.toUInt8 else x.first

theorem Sym.first_mem (x : Sym) : x.first ∈ symbols := by cases x <;> decide

theorem not_mem_whitespace (h : c ∈ symbols) : c ∉ whitespace := by
  simp only [symbols, List.mem_cons, List.not_mem_nil, or_false] at h
  rcases h with rfl | rfl | rfl | rfl | rfl | rfl | rfl <;> decide

theorem byte_of_start {l : List UInt8} (h : l <+: b.drop i) {k : Nat} (hk : k < l.length) :
    i + k < b.length ∧ byte b (i + k) = l.getD k 0 := by
  obtain ⟨t, ht⟩ := h
  have hlen : l.length + t.length = b.length - i := by
    have := congrArg List.length ht
    simpa using this
  refine ⟨by omega, ?_⟩
  have hget : (b.drop i).getD k 0 = l.getD k 0 := by
    rw [← ht, List.getD_append _ _ _ _ hk]
  rw [← hget]
  simp [byte, List.getD_eq_getElem?_getD]

theorem Sym.at_start (h : x.text <+: b.drop i) : i < b.length ∧ byte b i = x.first := by
  have := byte_of_start h (k := 0) (by cases x <;> decide)
  refine ⟨this.1, this.2.trans ?_⟩
  cases x <;> rfl

theorem Sym.append_start (h : Sym.append.text <+: b.drop i) : byte b (i + 1) = '>'.toUInt8 :=
  (byte_of_start h (k := 1) (by decide)).2

/-! ### The token sequence -/

namespace Lexes

theorem skip (h : Lexes b i ts) : Lexes b (Shell.skip b (strchr whitespace) i) ts := by
  induction h with
  | nil =>
    rw [skip_stop (by simp)]
    exact .nil
  | blank lt hb rest ih =>
    rw [skip_succ lt (strchr_iff.mpr hb)]
    exact ih
  | sym x hx max rest ih =>
    rw [skip_stop]
    · exact .sym x hx max rest
    · rintro ⟨-, hw⟩
      rw [(Sym.at_start hx).2, strchr_iff] at hw
      exact not_mem_whitespace x.first_mem hw
  | @word i j ts lt le hw max rest ih =>
    rw [skip_stop]
    · exact .word lt le hw max rest
    · rintro ⟨-, hb⟩
      exact (hw i (Nat.le_refl i) lt).1 (strchr_iff.mp hb)

/-- After the blanks, the first token is at the cursor. -/
theorem not_blank_skip : Shell.skip b (strchr whitespace) i < b.length →
    byte b (Shell.skip b (strchr whitespace) i) ∉ whitespace := by
  intro h hmem
  have := not_at_skip h
  rw [strchr_iff.mpr hmem] at this
  cases this

theorem nil_iff (h : Lexes b i []) (hn : i < b.length → byte b i ∉ whitespace) : i = b.length := by
  cases h with
  | nil => rfl
  | blank lt hb _ => exact absurd hb (hn lt)

theorem sym_at (h : Lexes b i (.sym x :: ts)) (hn : i < b.length → byte b i ∉ whitespace) :
    x.text <+: b.drop i ∧ (x = .gt → byte b (i + 1) ≠ '>'.toUInt8) ∧ Lexes b (i + x.text.length) ts := by
  cases h with
  | blank lt hb _ => exact absurd hb (hn lt)
  | sym x hx max rest => exact ⟨hx, max, rest⟩

theorem word_at (h : Lexes b i (.word w :: ts)) (hn : i < b.length → byte b i ∉ whitespace) :
    w.q = i ∧ i < w.eq ∧ w.eq ≤ b.length ∧ (∀ k, i ≤ k → k < w.eq → IsWord (byte b k)) ∧
      (w.eq < b.length → ¬ IsWord (byte b w.eq)) ∧ Lexes b w.eq ts := by
  cases h with
  | blank lt hb _ => exact absurd hb (hn lt)
  | word lt le hw max rest => exact ⟨rfl, lt, le, hw, max, rest⟩

theorem unique (h : Lexes b i ts) (h' : Lexes b i ts') : ts = ts' := by
  induction h generalizing ts' with
  | nil =>
    have hn : b.length < b.length → byte b b.length ∉ whitespace := fun h => absurd h (lt_irrefl _)
    cases ts' with
    | nil => rfl
    | cons t ts' =>
      cases t with
      | sym x => exact absurd (Sym.at_start (h'.sym_at hn).1).1 (lt_irrefl _)
      | word w =>
        obtain ⟨-, h1, h2, -⟩ := h'.word_at hn
        omega
  | blank lt hb rest ih =>
    cases h' with
    | nil => exact absurd lt (lt_irrefl _)
    | blank _ _ rest' => exact ih rest'
    | sym x hx _ _ =>
      rw [(Sym.at_start hx).2] at hb
      exact absurd hb (not_mem_whitespace x.first_mem)
    | word lt' _ hw _ _ => exact absurd hb (hw _ (le_rfl) lt').1
  | @sym i ts x hx max rest ih =>
    obtain ⟨hlt, hfirst⟩ := Sym.at_start hx
    have hn : i < b.length → byte b i ∉ whitespace := fun _ => hfirst ▸ not_mem_whitespace x.first_mem
    cases ts' with
    | nil => exact absurd (h'.nil_iff hn) (ne_of_lt hlt)
    | cons t ts' =>
      cases t with
      | word w =>
        obtain ⟨-, h1, -, hw, -⟩ := h'.word_at hn
        exact absurd (hfirst ▸ x.first_mem) (hw i (Nat.le_refl i) h1).2
      | sym y =>
        obtain ⟨hy, maxy, resty⟩ := h'.sym_at hn
        have hxy : x = y := by
          have hfy := hfirst.symm.trans (Sym.at_start hy).2
          cases x <;> cases y <;> first | rfl | exact absurd hfy (by decide) | skip
          · exact absurd (Sym.append_start hy) (max rfl)
          · exact absurd (Sym.append_start hx) (maxy rfl)
        subst hxy
        rw [ih resty]
  | @word i j ts lt le hw max rest ih =>
    have hn : i < b.length → byte b i ∉ whitespace := fun _ => (hw i (Nat.le_refl i) lt).1
    cases ts' with
    | nil => exact absurd (h'.nil_iff hn) (by omega)
    | cons t ts' =>
      cases t with
      | sym x =>
        have hfirst := (Sym.at_start (h'.sym_at hn).1).2
        exact absurd (hfirst ▸ x.first_mem) (hw i (Nat.le_refl i) lt).2
      | word w =>
        obtain ⟨hq, h1, h2, hw', max', rest'⟩ := h'.word_at hn
        have hj : j = w.eq := by
          rcases Nat.lt_trichotomy j w.eq with hlt | heq | hgt
          · exact absurd (hw' j (by omega) hlt) (max (by omega))
          · exact heq
          · exact absurd (hw w.eq (by omega) hgt) (max' (by omega))
        subst hj
        rw [ih rest', ← hq]

end Lexes

theorem exists_sym (h : i < b.length) (hc : byte b i ∈ symbols) :
    ∃ x : Sym, x.text <+: b.drop i ∧ (x = .gt → byte b (i + 1) ≠ '>'.toUInt8) := by
  have hdrop : b.drop i = byte b i :: b.drop (i + 1) := by
    rw [List.drop_eq_getElem_cons h, byte, List.getD_eq_getElem _ _ h]
  have hone : ∀ x : Sym, x.text = [byte b i] → x.text <+: b.drop i := by
    intro x hx
    rw [hx, hdrop]
    exact ⟨_, rfl⟩
  generalize byte b i = c at hc hone hdrop
  simp only [symbols, List.mem_cons, List.not_mem_nil, or_false] at hc
  rcases hc with rfl | rfl | rfl | rfl | rfl | rfl | rfl
  · exact ⟨.lt, hone _ rfl, fun h => by cases h⟩
  · exact ⟨.pipe, hone _ rfl, fun h => by cases h⟩
  · by_cases hg : byte b (i + 1) = '>'.toUInt8
    · have hlt : i + 1 < b.length := by
        by_contra hge
        rw [byte_of_ge (by omega)] at hg
        exact absurd hg (by decide)
      refine ⟨.append, ?_, fun h => by cases h⟩
      rw [hdrop, List.drop_eq_getElem_cons hlt]
      rw [byte, List.getD_eq_getElem _ _ hlt] at hg
      rw [hg]
      exact ⟨_, rfl⟩
    · exact ⟨.gt, hone _ rfl, fun _ => hg⟩
  · exact ⟨.amp, hone _ rfl, fun h => by cases h⟩
  · exact ⟨.semi, hone _ rfl, fun h => by cases h⟩
  · exact ⟨.lparen, hone _ rfl, fun h => by cases h⟩
  · exact ⟨.rparen, hone _ rfl, fun h => by cases h⟩

/-- The bytes of words, as `gettoken` tests for them. -/
def isWord (c : UInt8) : Bool := !strchr whitespace c && !strchr symbols c

theorem isWord_iff : isWord c = true ↔ IsWord c := by
  simp [isWord, IsWord, strchr]

theorem exists_lexes (hi : i ≤ b.length) : ∃ ts, Lexes b i ts := by
  -- by induction on what is left of the line
  induction hn : b.length - i using Nat.strong_induction_on generalizing i with
  | _ n ih =>
    rcases Nat.eq_or_lt_of_le hi with rfl | hlt
    · exact ⟨[], .nil⟩
    by_cases hb : byte b i ∈ whitespace
    · obtain ⟨ts, hts⟩ := ih _ (by omega) (i := i + 1) (by omega) rfl
      exact ⟨ts, .blank hlt hb hts⟩
    by_cases hs : byte b i ∈ symbols
    · obtain ⟨x, hx, hmax⟩ := exists_sym hlt hs
      have hle : i + x.text.length ≤ b.length := by
        have := hx.length_le
        rw [List.length_drop] at this
        omega
      have hpos : 0 < x.text.length := by cases x <;> decide
      obtain ⟨ts, hts⟩ := ih _ (by omega) hle rfl
      exact ⟨.sym x :: ts, .sym x hx hmax hts⟩
    · have hw : isWord (byte b i) = true := isWord_iff.mpr ⟨hb, hs⟩
      have hlt' : i < skip b isWord i := by
        rw [skip_succ hlt hw]
        exact le_skip
      have hle : skip b isWord i ≤ b.length := skip_le hi
      obtain ⟨ts, hts⟩ := ih _ (by omega) hle rfl
      refine ⟨_, .word hlt' hle (fun k h1 h2 => isWord_iff.mp (of_lt_skip k h1 h2)) (fun h => ?_) hts⟩
      rw [← isWord_iff, not_at_skip h]
      simp

theorem Lexes.length_le (h : Lexes b i ts) : ts.length ≤ b.length - i := by
  induction h with
  | nil => simp
  | blank lt _ _ ih => omega
  | sym x hx _ rest ih =>
    have := (Sym.at_start hx).1
    have hpos : 0 < x.text.length := by cases x <;> decide
    rw [List.length_cons]
    omega
  | word lt le _ _ _ ih =>
    rw [List.length_cons]
    omega

/-! ### The scanner -/

section
variable {Q : Gettoken → Nat → Prop} {R : Bool → Nat → Prop}

theorem wp_gettoken_of {ret : UInt8} {q e : Nat} (hq : skip b (strchr whitespace) s = q) (hscan : scan b q = (ret, e))
    (h : Q ⟨ret, q, e⟩ (skip b (strchr whitespace) e)) : wp (gettoken b) Q s := by
  unfold gettoken
  rw [wp_bind, wp_get, hq]
  dsimp only
  rw [hscan]
  dsimp only
  rw [wp_bind, wp_set, wp_pure]
  exact h

theorem wp_gettoken_nil (hl : Lexes b s []) (h : ∀ w s', Lexes b s' [] → Q ⟨0, w⟩ s') : wp (gettoken b) Q s := by
  have hend := hl.skip.nil_iff Lexes.not_blank_skip
  have hscan : scan b b.length = (0, b.length) := by simp [scan, byte_of_ge]
  exact wp_gettoken_of hend hscan (h _ _ (Lexes.skip .nil))

theorem scan_sym (hx : x.text <+: b.drop i) (hmax : x = .gt → byte b (i + 1) ≠ '>'.toUInt8) :
    scan b i = (x.ret, i + x.text.length) := by
  have hfirst := (Sym.at_start hx).2
  unfold scan
  rw [hfirst]
  cases x
  case gt => exact if_neg (hmax rfl)
  case append => exact if_pos (Sym.append_start hx)
  all_goals rfl

theorem wp_gettoken_sym (hl : Lexes b s (.sym x :: ts)) (h : ∀ w s', Lexes b s' ts → Q ⟨x.ret, w⟩ s') :
    wp (gettoken b) Q s := by
  obtain ⟨hx, hmax, hrest⟩ := hl.skip.sym_at Lexes.not_blank_skip
  exact wp_gettoken_of rfl (scan_sym hx hmax) (h _ _ hrest.skip)

theorem wp_gettoken_word (hb : 0 ∉ b) (hl : Lexes b s (.word w :: ts))
    (h : ∀ s', Lexes b s' ts → Q ⟨'a'.toUInt8, w⟩ s') : wp (gettoken b) Q s := by
  obtain ⟨hq, hlt, hle, hw, hmax, hrest⟩ := hl.skip.word_at Lexes.not_blank_skip
  have hscan : scan b w.q = ('a'.toUInt8, w.eq) := by
    rw [← hq] at hlt hw
    obtain ⟨-, hsym⟩ := hw w.q (le_rfl) hlt
    have hne : ∀ c ∈ symbols, byte b w.q ≠ c := fun c hc heq => hsym (heq ▸ hc)
    have hskip : skip b isWord w.q = w.eq := by
      refine skip_eq (le_of_lt hlt) hle (fun k h1 h2 => isWord_iff.mpr (hw k h1 h2)) fun h => ?_
      rw [← Bool.not_eq_true, isWord_iff]
      exact hmax h
    unfold scan
    dsimp only
    rw [if_neg (byte_ne_zero hb (by omega)), if_neg, if_neg (hne _ (by decide))]
    · exact Prod.ext rfl hskip
    · rintro (h | h | h | h | h | h)
      all_goals exact hne _ (by decide) h
  exact wp_gettoken_of hq.symm hscan (h _ hrest.skip)

/-- What `peek` answers: the first token is a symbol that starts with one of the bytes. -/
def peeks (toks : List UInt8) : List Token → Bool
  | .sym x :: _ => toks.contains x.first
  | _ => false

theorem wp_peek {toks : List UInt8} (ht : toks ⊆ symbols) (hb : 0 ∉ b) (hl : Lexes b s ts)
    (h : ∀ s', Lexes b s' ts → R (peeks toks ts) s') : wp (peek b toks) R s := by
  have hskip := hl.skip
  have hn := Lexes.not_blank_skip (b := b) (i := s)
  unfold peek
  rw [wp_bind, wp_get]
  dsimp only
  rw [wp_bind, wp_set, wp_pure]
  generalize skip b (strchr whitespace) s = q at hskip hn ⊢
  suffices hpeek : decide (byte b q ≠ 0 ∧ strchr toks (byte b q) = true) = peeks toks ts by
    rw [hpeek]
    exact h q hskip
  cases ts with
  | nil =>
    rw [hskip.nil_iff hn, byte_of_ge (le_rfl)]
    simp [peeks]
  | cons t ts =>
    cases t with
    | sym x =>
      obtain ⟨hlt, hfirst⟩ := Sym.at_start (hskip.sym_at hn).1
      have h0 := byte_ne_zero hb hlt
      rw [hfirst] at h0 ⊢
      simp [peeks, strchr, h0]
    | word w =>
      obtain ⟨-, hlt, -, hw, -⟩ := hskip.word_at hn
      have hnot : byte b q ∉ toks := fun hmem => (hw q (Nat.le_refl q) hlt).2 (ht hmem)
      simp [peeks, strchr, hnot]

end

end Shell

end Xv6
