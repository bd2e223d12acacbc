import Xv6.Proofs.Shell

/-!
# The grammar of the shell

A sequence of tokens has one derivation at most (`Deriv.unique`): what may follow a nonterminal does not start any of its
optional parts. The words of a tree are tokens of the line, and a token ends at a byte that is in no token, so
`nulterminate` writes no NUL into a word (`isString_of_mem`). With the two halves of the parser this is
`parsecmd_grammar`.
-/

namespace Xv6

open Prog

namespace Shell

variable {b : List UInt8} {s : Nat} {ts rest rest' : List Token} {w : Word} {c : Cmd}

/-! ### The grammar is unambiguous -/

theorem redirToks_inj {rs rs' : List RedirTok} (h : Deriv.redirToks rs ++ rest = Deriv.redirToks rs' ++ rest')
    (hr : peeks dirs rest = false) (hr' : peeks dirs rest' = false) : rs = rs' ∧ rest = rest' := by
  induction rs generalizing rs' with
  | nil =>
    cases rs' with
    | nil => exact ⟨rfl, h⟩
    | cons r rs' =>
      have hstart := r.peeks_dirs (Deriv.redirToks rs' ++ rest')
      have hrest : rest = r.toks ++ (Deriv.redirToks rs' ++ rest') := by simpa [Deriv.redirToks] using h
      rw [hrest, hstart] at hr
      cases hr
  | cons r rs ih =>
    cases rs' with
    | nil =>
      have hstart := r.peeks_dirs (Deriv.redirToks rs ++ rest)
      have hrest : r.toks ++ (Deriv.redirToks rs ++ rest) = rest' := by simpa [Deriv.redirToks] using h
      rw [← hrest, hstart] at hr'
      cases hr'
    | cons r' rs' =>
      have hcons : r.toks ++ (Deriv.redirToks rs ++ rest) = r'.toks ++ (Deriv.redirToks rs' ++ rest') := by
        simpa [Deriv.redirToks] using h
      obtain ⟨dir, file, hdir⟩ := r
      obtain ⟨dir', file', hdir'⟩ := r'
      simp only [RedirTok.toks, List.cons_append, List.nil_append, List.cons.injEq, Token.sym.injEq, Token.word.injEq] at hcons
      obtain ⟨rfl, rfl, htail⟩ := hcons
      obtain ⟨rfl, rfl⟩ := ih htail
      exact ⟨rfl, rfl⟩

theorem argToks_inj {args args' : List (Word × List RedirTok)}
    (h : Deriv.argToks args ++ rest = Deriv.argToks args' ++ rest') (hr : ExecEnd rest) (hr' : ExecEnd rest') :
    args = args' ∧ rest = rest' := by
  have hword : ∀ {w : Word} {ts : List Token}, ¬ ExecEnd (.word w :: ts) := by
    rintro w ts (h | h) <;> cases h
  induction args generalizing args' with
  | nil =>
    cases args' with
    | nil => exact ⟨rfl, h⟩
    | cons a args' =>
      obtain rfl : rest = _ := h
      exact absurd hr hword
  | cons a args ih =>
    cases args' with
    | nil =>
      obtain rfl : _ = rest' := h
      exact absurd hr' hword
    | cons a' args' =>
      have hcons : Token.word a.1 :: (Deriv.redirToks a.2 ++ (Deriv.argToks args ++ rest)) =
          .word a'.1 :: (Deriv.redirToks a'.2 ++ (Deriv.argToks args' ++ rest')) := by
        simpa [Deriv.argToks] using h
      obtain ⟨w, rs⟩ := a
      obtain ⟨w', rs'⟩ := a'
      simp only [List.cons.injEq, Token.word.injEq] at hcons
      obtain ⟨rfl, htail⟩ := hcons
      obtain ⟨rfl, hmore⟩ := redirToks_inj htail hr.peeks_dirs_args hr'.peeks_dirs_args
      obtain ⟨rfl, rfl⟩ := ih hmore
      exact ⟨rfl, rfl⟩

theorem amps_inj {n n' : Nat} (h : List.replicate n (Token.sym .amp) ++ rest = List.replicate n' (.sym .amp) ++ rest')
    (hr : peeks ['&'.toUInt8] rest = false) (hr' : peeks ['&'.toUInt8] rest' = false) : n = n' ∧ rest = rest' := by
  induction n generalizing n' with
  | zero =>
    cases n' with
    | zero => exact ⟨rfl, h⟩
    | succ n' =>
      obtain rfl : rest = _ := h
      cases hr
  | succ n ih =>
    cases n' with
    | zero =>
      obtain rfl : _ = rest' := h
      cases hr'
    | succ n' =>
      simp only [List.replicate_succ, List.cons_append, List.cons.injEq, true_and] at h
      obtain ⟨rfl, rfl⟩ := ih h
      exact ⟨rfl, rfl⟩

theorem Deriv.unique {x : NonTerm} (d d' : Deriv x) (h : d.yield ++ rest = d'.yield ++ rest') (hr : Follow x rest)
    (hr' : Follow x rest') : d = d' ∧ rest = rest' := by
  induction d generalizing rest rest' with
  | block l rs ih =>
    cases d' with
    | block l' rs' =>
      have htail : l.yield ++ (.sym .rparen :: (redirToks rs ++ rest)) =
          l'.yield ++ (.sym .rparen :: (redirToks rs' ++ rest')) := by simpa [yield] using h
      obtain ⟨rfl, hmore⟩ := ih l' htail (.inr rfl) (.inr rfl)
      rw [List.cons.injEq] at hmore
      obtain ⟨rfl, rfl⟩ := redirToks_inj hmore.2 hr.peeks_dirs hr'.peeks_dirs
      exact ⟨rfl, rfl⟩
    | simple rs' args' =>
      have hpeek := peeks_lparen_simple rs' args' hr'
      have heq : redirToks rs' ++ (argToks args' ++ rest') = _ :=
        (by simpa [yield] using h.symm : _ = .sym .lparen :: (l.yield ++ .sym .rparen :: (redirToks rs ++ rest)))
      rw [heq] at hpeek
      cases hpeek
  | simple rs args =>
    cases d' with
    | block l' rs' =>
      have hpeek := peeks_lparen_simple rs args hr
      have heq : redirToks rs ++ (argToks args ++ rest) = _ :=
        (by simpa [yield] using h : _ = .sym .lparen :: (l'.yield ++ .sym .rparen :: (redirToks rs' ++ rest')))
      rw [heq] at hpeek
      cases hpeek
    | simple rs' args' =>
      have hall : redirToks rs ++ (argToks args ++ rest) = redirToks rs' ++ (argToks args' ++ rest') := by
        simpa [yield] using h
      obtain ⟨rfl, htail⟩ := redirToks_inj hall hr.peeks_dirs_args hr'.peeks_dirs_args
      obtain ⟨rfl, rfl⟩ := argToks_inj htail hr hr'
      exact ⟨rfl, rfl⟩
  | single e ih =>
    cases d' with
    | single e' =>
      obtain ⟨rfl, rfl⟩ := ih e' h hr.exec hr'.exec
      exact ⟨rfl, rfl⟩
    | pipe e' p' =>
      have hall : e.yield ++ rest = e'.yield ++ (.sym .pipe :: (p'.yield ++ rest')) := by simpa [yield] using h
      obtain ⟨-, rfl⟩ := ih e' hall hr.exec (.inr rfl)
      cases hr.peeks_bar
  | pipe e p ihe ihp =>
    cases d' with
    | single e' =>
      have hall : e.yield ++ (.sym .pipe :: (p.yield ++ rest)) = e'.yield ++ rest' := by simpa [yield] using h
      obtain ⟨-, rfl⟩ := ihe e' hall (.inr rfl) hr'.exec
      cases hr'.peeks_bar
    | pipe e' p' =>
      have hall : e.yield ++ (.sym .pipe :: (p.yield ++ rest)) = e'.yield ++ (.sym .pipe :: (p'.yield ++ rest')) := by
        simpa [yield] using h
      obtain ⟨rfl, htail⟩ := ihe e' hall (.inr rfl) (.inr rfl)
      rw [List.cons.injEq] at htail
      obtain ⟨rfl, rfl⟩ := ihp p' htail.2 hr hr'
      exact ⟨rfl, rfl⟩
  | line p n ih =>
    cases d' with
    | line p' n' =>
      have hall : p.yield ++ (List.replicate n (.sym .amp) ++ rest) = p'.yield ++ (List.replicate n' (.sym .amp) ++ rest') := by
        simpa [yield] using h
      obtain ⟨rfl, htail⟩ := ih p' hall (follow_pipe_amps hr.pipe) (follow_pipe_amps hr'.pipe)
      obtain ⟨rfl, rfl⟩ := amps_inj htail hr.peeks_amp hr'.peeks_amp
      exact ⟨rfl, rfl⟩
    | list p' n' l' =>
      have hall : p.yield ++ (List.replicate n (.sym .amp) ++ rest) =
          p'.yield ++ (List.replicate n' (.sym .amp) ++ (.sym .semi :: (l'.yield ++ rest'))) := by simpa [yield] using h
      obtain ⟨-, htail⟩ := ih p' hall (follow_pipe_amps hr.pipe) (follow_pipe_amps (.inr rfl))
      obtain ⟨-, rfl⟩ := amps_inj htail hr.peeks_amp rfl
      cases hr.peeks_semi
  | list p n l ihp ihl =>
    cases d' with
    | line p' n' =>
      have hall : p.yield ++ (List.replicate n (.sym .amp) ++ (.sym .semi :: (l.yield ++ rest))) =
          p'.yield ++ (List.replicate n' (.sym .amp) ++ rest') := by simpa [yield] using h
      obtain ⟨-, htail⟩ := ihp p' hall (follow_pipe_amps (.inr rfl)) (follow_pipe_amps hr'.pipe)
      obtain ⟨-, rfl⟩ := amps_inj htail rfl hr'.peeks_amp
      cases hr'.peeks_semi
    | list p' n' l' =>
      have hall : p.yield ++ (List.replicate n (.sym .amp) ++ (.sym .semi :: (l.yield ++ rest))) =
          p'.yield ++ (List.replicate n' (.sym .amp) ++ (.sym .semi :: (l'.yield ++ rest'))) := by
        simpa [yield] using h
      obtain ⟨rfl, htail⟩ := ihp p' hall (follow_pipe_amps (.inr rfl)) (follow_pipe_amps (.inr rfl))
      obtain ⟨rfl, hmore⟩ := amps_inj htail rfl rfl
      rw [List.cons.injEq] at hmore
      obtain ⟨rfl, rfl⟩ := ihl l' hmore.2 hr hr'
      exact ⟨rfl, rfl⟩

/-! ### The strings -/

theorem mem_words_wrap {rs : List Redir} : w ∈ (wrap c rs).words ↔ w ∈ c.words ∨ ∃ r ∈ rs, w = r.file := by
  induction rs generalizing c with
  | nil => simp [wrap]
  | cons r rs ih =>
    have hwrap : wrap c (r :: rs) = wrap (.redir c r) rs := rfl
    rw [hwrap, ih, Cmd.words, List.mem_cons, List.exists_mem_cons_iff, or_assoc, or_left_comm]

theorem words_back (n : Nat) : (Cmd.back^[n] c).words = c.words := by
  induction n generalizing c with
  | zero => rfl
  | succ n ih => exact ih

theorem RedirTok.file_redir (r : RedirTok) : r.redir.file = r.file := by
  obtain ⟨dir, file, hdir⟩ := r
  rcases hdir with rfl | rfl | rfl <;> rfl

theorem mem_redirToks {rs : List RedirTok} {r : Redir} (hr : r ∈ rs.map RedirTok.redir) :
    .word r.file ∈ Deriv.redirToks rs := by
  obtain ⟨t, ht, rfl⟩ := List.mem_map.mp hr
  rw [t.file_redir]
  exact List.mem_flatMap.mpr ⟨t, ht, by simp [RedirTok.toks]⟩

theorem Deriv.word_mem {x : NonTerm} (d : Deriv x) (hw : w ∈ d.tree.words) : .word w ∈ d.yield := by
  induction d with
  | block l rs ih =>
    rw [yield]
    rcases mem_words_wrap.mp hw with hw | ⟨r, hr, rfl⟩
    · simp [ih hw]
    · simp [mem_redirToks hr]
  | simple rs args =>
    rw [yield, List.mem_append]
    rcases mem_words_wrap.mp hw with hw | ⟨r, hr, rfl⟩
    · obtain ⟨a, ha, rfl⟩ := List.mem_map.mp hw
      exact .inr (List.mem_flatMap.mpr ⟨a, ha, by simp⟩)
    · rcases List.mem_append.mp hr with hr | hr
      · exact .inl (mem_redirToks hr)
      · obtain ⟨a, ha, hr⟩ := List.mem_flatMap.mp hr
        exact .inr (List.mem_flatMap.mpr ⟨a, ha, List.mem_cons_of_mem _ (mem_redirToks hr)⟩)
  | single e ih => exact ih hw
  | pipe e p ihe ihp =>
    rw [yield]
    rcases List.mem_append.mp hw with hw | hw
    · simp [ihe hw]
    · simp [ihp hw]
  | line p n ih =>
    rw [tree, words_back] at hw
    exact List.mem_append_left _ (ih hw)
  | list p n l ihp ihl =>
    rw [yield]
    rcases List.mem_append.mp hw with hw | hw
    · rw [words_back] at hw
      simp [ihp hw]
    · simp [ihl hw]

/-- Where a word of the line stands. -/
structure IsToken (b : List UInt8) (w : Word) : Prop where
  lt : w.q < w.eq
  le : w.eq ≤ b.length
  isWord (k : Nat) (h1 : w.q ≤ k) (h₂ : k < w.eq) : IsWord (byte b k)
  max (h : w.eq < b.length) : ¬ IsWord (byte b w.eq)

theorem Lexes.isToken {i : Nat} (h : Lexes b i ts) (hw : .word w ∈ ts) : IsToken b w := by
  induction h with
  | nil => cases hw
  | blank _ _ _ ih => exact ih hw
  | sym x _ _ _ ih =>
    rcases List.mem_cons.mp hw with hw | hw
    · cases hw
    · exact ih hw
  | word lt le h max _ ih =>
    rcases List.mem_cons.mp hw with hw | hw
    · cases hw
      exact ⟨lt, le, h, max⟩
    · exact ih hw

theorem terminate_apply (ws : List Word) (m : Bytes) (k : Nat) :
    ws.foldl (fun m w => Function.update m w.eq 0) m k = if ∃ w ∈ ws, w.eq = k then 0 else m k := by
  induction ws generalizing m with
  | nil => simp
  | cons w ws ih =>
    rw [List.foldl_cons, ih]
    by_cases hw : w.eq = k
    · simp [hw]
    · simp [hw, Function.update_of_ne (Ne.symm hw)]

/-- `nulterminate` changes the bytes at the ends of the words and no others. -/
theorem nulterminate_apply (c : Cmd) (m : Bytes) (k : Nat) :
    nulterminate c m k = if ∃ w ∈ c.words, w.eq = k then 0 else m k := by
  have htwo : ∀ (ws ws' : List Word) (v : UInt8),
      (if ∃ w ∈ ws', w.eq = k then 0 else if ∃ w ∈ ws, w.eq = k then 0 else v) =
        if ∃ w ∈ ws ++ ws', w.eq = k then 0 else v := by
    intro ws ws' v
    by_cases h : ∃ w ∈ ws, w.eq = k <;> by_cases h' : ∃ w ∈ ws', w.eq = k <;>
      simp only [List.mem_append, or_and_right, exists_or, h, h', if_true, if_false, or_self, or_true, true_or]
  induction c generalizing m with
  | exec argv => exact terminate_apply argv m k
  | redir c r ih =>
    rw [nulterminate, Cmd.words]
    by_cases hr : r.file.eq = k
    · rw [← hr, Function.update_self, if_pos ⟨r.file, List.mem_cons_self, rfl⟩]
    · rw [Function.update_of_ne (Ne.symm hr), ih]
      simp [hr]
  | pipe l r ihl ihr | list l r ihl ihr => rw [nulterminate, ihr, ihl, htwo, Cmd.words]
  | back c ih => exact ih m

/-- If the words of a command are tokens, they can be read from the terminated line as strings. -/
theorem isString_of_mem (hb : 0 ∉ b) (hc : ∀ w ∈ c.words, IsToken b w) (hw : w ∈ c.words) :
    IsString (nulterminate c (byte b)) w.q (w.text b) := by
  have ht := hc w hw
  have hlt := ht.lt
  have hle := ht.le
  have hlen : (w.text b).length = w.eq - w.q := by
    rw [Word.text, List.length_take, List.length_drop]
    omega
  constructor
  · intro i hi
    rw [hlen] at hi
    have hword := ht.isWord (w.q + i) (by omega) (by omega)
    -- the end of another word is the end of the line or no byte of a word
    have hnot : ¬ ∃ w' ∈ c.words, w'.eq = w.q + i := by
      rintro ⟨w', hw', heq⟩
      have hmax := (hc w' hw').max (by omega)
      rw [heq] at hmax
      exact hmax hword
    rw [nulterminate_apply, if_neg hnot]
    refine ⟨?_, byte_ne_zero hb (by omega)⟩
    simp [Word.text, byte, List.getD_eq_getElem?_getD, hi]
  · rw [hlen, show w.q + (w.eq - w.q) = w.eq by omega, nulterminate_apply, if_pos ⟨w, hw, rfl⟩]

/-! ### The whole parser -/

/-- The last `peek` of `parsecmd` stops at the end exactly if no token is left. -/
theorem skip_eq_length_iff (hl : Lexes b s rest) : skip b (strchr whitespace) s = b.length ↔ rest = [] := by
  constructor
  · intro h
    have hend := hl.skip
    rw [h] at hend
    exact hend.unique .nil
  · rintro rfl
    exact hl.skip.nil_iff Lexes.not_blank_skip

theorem need_le (hl : Lexes b 0 ts) : need .line ts.length ≤ maxTurns b := by
  have := hl.length_le
  simp only [need, maxTurns]
  omega

theorem wp_peek_nil {Q : Bool → Nat → Prop} (h : ∀ v, Q v (skip b (strchr whitespace) s)) : wp (peek b []) Q s := by
  rw [peek, wp_bind, wp_get, wp_bind, wp_set]
  exact wp_pure.mpr (h _)

theorem wpe_parsecmd (hb : 0 ∉ b) (hl : Lexes b 0 ts) :
    wpe (parsecmd b) (fun r _ => ∃ d : Deriv .line, d.Short ∧ d.yield = ts ∧ r = (d.tree, nulterminate d.tree (byte b)))
      (· ≠ .turns) s := by
  rw [parsecmd]
  refine wpe_bind (wp_set.mpr ?_).wpe
  refine wpe.bind (wpe_parse hb .line hl (need_le hl)) ?_
  rintro _ s' ⟨d, rest, hd, rfl, rfl, hrest⟩
  refine wpe_bind (wp_peek_nil fun _ => ?_).wpe
  refine wpe_bind (wp_get.mpr ?_).wpe
  split
  · exact wpe_fail (by decide)
  · rename_i hend
    obtain rfl := (skip_eq_length_iff hrest).mp (not_not.mp hend)
    exact (wp_pure.mpr ⟨d, hd, by simp, rfl⟩).wpe

theorem wp_parsecmd (hb : 0 ∉ b) {d : Deriv .line} (hd : d.Short) (hl : Lexes b 0 d.yield) :
    wp (parsecmd b) (fun r _ => r = (d.tree, nulterminate d.tree (byte b))) s := by
  rw [parsecmd, wp_bind, wp_set, wp_bind]
  have hl' : Lexes b 0 (d.yield ++ []) := by rwa [List.append_nil]
  refine wp_deriv (x := .line) hb d hd hl' (.inl rfl) (need_le hl) fun s' hs' => ?_
  rw [wp_bind]
  refine wp_peek_nil fun _ => ?_
  rw [wp_bind, wp_get, if_neg (not_not.mpr ((skip_eq_length_iff hs').mpr rfl))]
  exact wp_pure.mpr rfl

/-- The parser accepts its grammar: every line has one sequence of tokens; `parsecmd` stops, and returns a tree exactly if
it is the tree of a derivation of the tokens with at most `MAXARGS - 1` words in each command; there is one derivation at
most; and the words of the tree are strings in the line that is left behind, with the texts of their tokens. -/
theorem parsecmd_grammar (b : List UInt8) (hb : 0 ∉ b) (s : Nat) : ∃ ts, (∀ ts', Lexes b 0 ts' ↔ ts' = ts) ∧
      parsecmd b s ≠ .error .turns ∧
      (∀ cmd, (∃ buf s', parsecmd b s = .ok ((cmd, buf), s')) ↔
        ∃ d : Deriv .line, d.Short ∧ d.yield = ts ∧ d.tree = cmd) ∧
      (∀ d d' : Deriv .line, d.yield = ts → d'.yield = ts → d = d') ∧
      ∀ cmd buf s', parsecmd b s = .ok ((cmd, buf), s') →
        ∀ w ∈ cmd.words, .word w ∈ ts ∧ IsString buf w.q (w.text b) := by
  obtain ⟨ts, hl⟩ := exists_lexes (b := b) (Nat.zero_le _)
  have hrun := wpe_parsecmd (s := s) hb hl
  refine ⟨ts, ?_, ?_, ?_, ?_, ?_⟩
  · intro ts'
    constructor
    · intro h
      exact h.unique hl
    · rintro rfl
      exact hl
  · intro herr
    exact hrun.of_error herr rfl
  · intro cmd
    constructor
    · rintro ⟨buf, s', hok⟩
      obtain ⟨d, hd, hy, heq⟩ := hrun.of_eq hok
      cases heq
      exact ⟨d, hd, hy, rfl⟩
    · rintro ⟨d, hd, rfl, rfl⟩
      obtain ⟨_, s', hok, rfl⟩ := wp_parsecmd (s := s) hb hd hl
      exact ⟨_, s', hok⟩
  · rintro d d' rfl hy
    have happ : d.yield ++ [] = d'.yield ++ [] := by rw [hy]
    exact (Deriv.unique d d' happ (.inl rfl) (.inl rfl)).1
  · intro cmd buf s' hok w hw
    obtain ⟨d, -, rfl, heq⟩ := hrun.of_eq hok
    cases heq
    exact ⟨d.word_mem hw, isString_of_mem hb (fun w' hw' => hl.isToken (d.word_mem hw')) hw⟩

/-- `a;b` -/
theorem parsecmd_grammar_list : 0 ∉ ['a'.toUInt8, ';'.toUInt8, 'b'.toUInt8] ∧
      ∃ buf s', parsecmd ['a'.toUInt8, ';'.toUInt8, 'b'.toUInt8] 0 =
          .ok ((.list (.exec [⟨0, 1⟩]) (.exec [⟨2, 3⟩]), buf), s') ∧
        IsString buf 0 ['a'.toUInt8] := by
  have hb : 0 ∉ ['a'.toUInt8, ';'.toUInt8, 'b'.toUInt8] := by decide
  obtain ⟨ts, hts, -, htree, -, hstr⟩ := parsecmd_grammar _ hb 0
  have hl : Lexes ['a'.toUInt8, ';'.toUInt8, 'b'.toUInt8] 0 [.word ⟨0, 1⟩, .sym .semi, .word ⟨2, 3⟩] := by
    refine .word (by decide) (by decide) ?_ ?_ (.sym .semi (by decide) (by decide)
      (.word (by decide) (by decide) ?_ ?_ .nil))
    · intro k _ hk
      obtain rfl : k = 0 := by omega
      constructor <;> decide
    · rintro _ ⟨-, h⟩
      exact h (by decide)
    · intro k h2 hk
      have h2 : 2 ≤ k := h2
      obtain rfl : k = 2 := by omega
      constructor <;> decide
    · intro h
      exact absurd h (by decide)
  obtain ⟨buf, s', hok⟩ := (htree _).mpr
    ⟨.list (.single (.simple [] [(⟨0, 1⟩, [])])) 0 (.line (.single (.simple [] [(⟨2, 3⟩, [])])) 0),
      ⟨show 1 ≤ MAXARGS - 1 by decide, show 1 ≤ MAXARGS - 1 by decide⟩, (hts _).mp hl, rfl⟩
  exact ⟨hb, buf, s', hok, (hstr _ _ _ hok ⟨0, 1⟩ (by decide)).2⟩

end Shell

end Xv6
