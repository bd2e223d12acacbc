import Xv6.Proofs.ShellLex

/-!
# The parser of the shell accepts its grammar

What may follow a nonterminal decides where the parser stops: `Follow` says it in the terms of `peek`. On the tokens of a
derivation, followed by what may follow it, the parser returns its tree (`wp_deriv`); and when a parser function
returns, it has read a derivation (`wpe_parse`), in at most four turns for each token. The grammar is unambiguous
(`Deriv.unique`).
-/

namespace Xv6

open Prog

namespace Shell

variable {b : List UInt8} {s turns : Nat} {ts rest rest' : List Token}

/-! ### Redirections -/

/-- `"<>"` -/
def dirs : List UInt8 := ['<'.toUInt8, '>'.toUInt8]

/-- `"|)&;"` -/
def execEnd : List UInt8 := ['|'.toUInt8, ')'.toUInt8, '&'.toUInt8, ';'.toUInt8]

theorem dirs_sub : dirs ⊆ symbols := by simp [dirs, symbols]

theorem execEnd_sub : execEnd ⊆ symbols := by simp [execEnd, symbols]

theorem RedirTok.peeks_dirs (r : RedirTok) (ts : List Token) : peeks dirs (r.toks ++ ts) = true := by
  obtain ⟨dir, file, hdir⟩ := r
  rcases hdir with rfl | rfl | rfl <;> rfl

theorem RedirTok.redircmd_eq (r : RedirTok) : redircmd r.dir.ret r.file = [r.redir] := by
  obtain ⟨dir, file, hdir⟩ := r
  rcases hdir with rfl | rfl | rfl <;> rfl

/-- Where `peek` finds something, there is an operator. -/
theorem sym_of_peek {l : List UInt8} (h : peeks l ts = true) : ∃ x rest, ts = .sym x :: rest ∧ l.contains x.first = true := by
  cases ts with
  | nil => cases h
  | cons t ts =>
    cases t with
    | word w => cases h
    | sym x => exact ⟨x, ts, rfl, h⟩

theorem peeks_congr {l l' : List UInt8} {v : Bool} (h : peeks l rest = true)
    (hl : ∀ x : Sym, l.contains x.first = true → l'.contains x.first = v) : peeks l' rest = v := by
  obtain ⟨x, rest, rfl, hx⟩ := sym_of_peek h
  exact hl x hx

theorem peeks_end {l l' : List UInt8} (h : rest = [] ∨ peeks l rest = true)
    (hl : ∀ x : Sym, l.contains x.first = true → l'.contains x.first = false) : peeks l' rest = false := by
  rcases h with rfl | h
  · rfl
  · exact peeks_congr h hl

theorem Sym.first_inj {x y : Sym} (hgt : x ≠ .gt) (happ : x ≠ .append) (h : y.first = x.first) : y = x := by
  cases x with
  | gt => exact absurd rfl hgt
  | append => exact absurd rfl happ
  | _ => cases y <;> first | rfl | cases h

theorem sym_of_peeks {x : Sym} (hgt : x ≠ .gt) (happ : x ≠ .append) (h : peeks [x.first] ts = true) :
    ∃ rest, ts = .sym x :: rest := by
  obtain ⟨y, rest, rfl, hy⟩ := sym_of_peek h
  have hfirst : y.first = x.first := by simpa using hy
  exact ⟨rest, by rw [Sym.first_inj hgt happ hfirst]⟩

/-- Where `peek` finds `<` or `>`, a redirection starts. -/
theorem exists_dir (h : peeks dirs ts = true) : ∃ x rest, ts = .sym x :: rest ∧ (x = .lt ∨ x = .gt ∨ x = .append) := by
  obtain ⟨x, rest, rfl, hx⟩ := sym_of_peek h
  refine ⟨x, rest, rfl, ?_⟩
  cases x <;> first | exact absurd hx (by decide) | simp

theorem a_ne_zero : 'a'.toUInt8 ≠ 0 := by decide

theorem Sym.ret_ne_zero (x : Sym) : x.ret ≠ 0 := by cases x <;> decide

theorem Sym.ret_ne_a (x : Sym) : x.ret ≠ 'a'.toUInt8 := by cases x <;> decide

theorem length_redirToks (rs : List RedirTok) : (Deriv.redirToks rs).length = 2 * rs.length := by
  induction rs with
  | nil => rfl
  | cons r rs ih =>
    have hcons : Deriv.redirToks (r :: rs) = r.toks ++ Deriv.redirToks rs := rfl
    rw [hcons, List.length_append, ih, List.length_cons]
    change 2 + _ = _
    omega

section
variable {Q : List Redir → Nat → Prop}

theorem wp_parseredirs (hb : 0 ∉ b) {rs : List RedirTok} (hl : Lexes b s (Deriv.redirToks rs ++ rest))
    (hend : peeks dirs rest = false) (ht : rs.length < turns)
    (h : ∀ s', Lexes b s' rest → Q (rs.map RedirTok.redir) s') : wp (parseredirs b turns) Q s := by
  induction rs generalizing s turns Q with
  | nil =>
    obtain ⟨t, rfl⟩ := Nat.exists_eq_add_of_lt ht
    rw [parseredirs, wp_bind]
    refine wp_peek dirs_sub hb hl fun s' hs' => ?_
    change wp (if peeks dirs rest = true then _ else _) _ _
    rw [hend, if_neg (by decide), wp_pure]
    exact h s' hs'
  | cons r rs ih =>
    obtain ⟨t, rfl⟩ := Nat.exists_eq_add_of_lt ht
    have hl' : Lexes b s (r.toks ++ (Deriv.redirToks rs ++ rest)) := by simpa [Deriv.redirToks] using hl
    rw [parseredirs, wp_bind]
    refine wp_peek dirs_sub hb hl' fun s' hs' => ?_
    change wp (if peeks dirs _ = true then _ else _) _ _
    rw [r.peeks_dirs, if_pos rfl, wp_bind]
    refine wp_gettoken_sym hs' fun w s' hs' => ?_
    rw [wp_bind]
    refine wp_gettoken_word hb hs' fun s' hs' => ?_
    rw [if_neg (by simp), wp_bind]
    refine ih hs' (by simp; omega) fun s' hs' => ?_
    rw [wp_pure, r.redircmd_eq]
    exact h s' hs'

theorem wpe_parseredirs (hb : 0 ∉ b) (hl : Lexes b s ts) (ht : ts.length < turns) :
    wpe (parseredirs b turns) (fun out s' => ∃ rs rest, ts = Deriv.redirToks rs ++ rest ∧ out = rs.map RedirTok.redir ∧
      Lexes b s' rest) (· ≠ .turns) s := by
  induction turns generalizing s ts with
  | zero => omega
  | succ turns ih =>
    rw [parseredirs]
    refine wpe_bind (wp_peek dirs_sub hb hl fun s' hs' => ?_).wpe
    change wpe (if peeks dirs ts = true then _ else _) _ _ _
    split
    · rename_i hpeek
      obtain ⟨x, ts, rfl, hx⟩ := exists_dir hpeek
      refine wpe_bind (wp_gettoken_sym hs' fun w s' hs' => ?_).wpe
      cases ts with
      | nil =>
        refine wpe_bind (wp_gettoken_nil hs' fun w s' hs' => ?_).wpe
        rw [if_pos a_ne_zero.symm]
        exact wpe_fail (by decide)
      | cons t ts =>
        cases t with
        | sym y =>
          refine wpe_bind (wp_gettoken_sym hs' fun w s' hs' => ?_).wpe
          rw [if_pos y.ret_ne_a]
          exact wpe_fail (by decide)
        | word f =>
          refine wpe_bind (wp_gettoken_word hb hs' fun s' hs' => ?_).wpe
          rw [if_neg (by simp)]
          refine wpe.bind (ih hs' (by simp at ht; omega)) ?_
          rintro out s'' ⟨rs, rest, rfl, rfl, hrest⟩
          refine (wp_pure.mpr ⟨⟨x, f, hx⟩ :: rs, rest, rfl, ?_, hrest⟩).wpe
          rw [RedirTok.redircmd_eq ⟨x, f, hx⟩]
          rfl
    · exact (wp_pure.mpr ⟨[], ts, rfl, rfl, hs'⟩).wpe

end

/-! ### Words -/

def argRedirs (args : List (Word × List RedirTok)) : List Redir := args.flatMap fun a => a.2.map RedirTok.redir

section
variable {Q : List Word × List Redir → Nat → Prop} {argv : List Word}

def ExecEnd (rest : List Token) : Prop := rest = [] ∨ peeks execEnd rest = true

theorem ExecEnd.peeks_dirs (h : ExecEnd rest) : peeks dirs rest = false :=
  peeks_end h (by rintro ⟨⟩ <;> decide)

theorem ExecEnd.peeks_dirs_args {args : List (Word × List RedirTok)} (h : ExecEnd rest) :
    peeks dirs (Deriv.argToks args ++ rest) = false := by
  cases args with
  | nil => exact h.peeks_dirs
  | cons a args => rfl

theorem wp_argLoop (hb : 0 ∉ b) {args : List (Word × List RedirTok)} (hl : Lexes b s (Deriv.argToks args ++ rest))
    (hend : ExecEnd rest) (hlen : argv.length + args.length < MAXARGS) (ht : (Deriv.argToks args).length < turns)
    (h : ∀ s', Lexes b s' rest → Q (argv ++ args.map Prod.fst, argRedirs args) s') : wp (argLoop b turns argv) Q s := by
  induction args generalizing s turns argv Q with
  | nil =>
    obtain ⟨t, rfl⟩ := Nat.exists_eq_add_of_lt ht
    rw [argLoop, wp_bind]
    refine wp_peek execEnd_sub hb hl fun s' hs' => ?_
    change wp (if peeks execEnd rest = true then _ else _) _ _
    have hq : ∀ s', Lexes b s' rest → Q (argv, []) s' := by simpa [argRedirs] using h
    rcases hend with rfl | hend
    · rw [if_neg (by decide), wp_bind]
      refine wp_gettoken_nil hs' fun w s' hs' => ?_
      rw [if_pos rfl, wp_pure]
      exact hq s' hs'
    · rw [if_pos hend, wp_pure]
      exact hq s' hs'
  | cons a args ih =>
    obtain ⟨t, rfl⟩ := Nat.exists_eq_add_of_lt ht
    have hl' : Lexes b s (.word a.1 :: (Deriv.redirToks a.2 ++ (Deriv.argToks args ++ rest))) := by
      simpa [Deriv.argToks] using hl
    have htoks : (Deriv.argToks (a :: args)).length =
        1 + (Deriv.redirToks a.2).length + (Deriv.argToks args).length := by
      simp [Deriv.argToks]
      omega
    have hredirs := length_redirToks a.2
    simp only [List.length_cons] at hlen
    rw [argLoop, wp_bind]
    refine wp_peek execEnd_sub hb hl' fun s' hs' => ?_
    rw [if_neg (by simp [peeks]), wp_bind]
    refine wp_gettoken_word hb hs' fun s' hs' => ?_
    rw [if_neg a_ne_zero, if_neg (by simp), if_neg (by omega), wp_bind]
    refine wp_parseredirs hb hs' hend.peeks_dirs_args (by omega) fun s' hs' => ?_
    rw [wp_bind]
    refine ih hs' (by simp; omega) (by omega) fun s' hs' => ?_
    rw [wp_pure]
    simpa [argRedirs] using h s' hs'

theorem wpe_argLoop (hb : 0 ∉ b) (hl : Lexes b s ts) (ht : ts.length < turns) (hlen : argv.length < MAXARGS) :
    wpe (argLoop b turns argv) (fun out s' => ∃ args rest, ts = Deriv.argToks args ++ rest ∧
      out = (argv ++ args.map Prod.fst, argRedirs args) ∧ argv.length + args.length < MAXARGS ∧ Lexes b s' rest)
      (· ≠ .turns) s := by
  induction turns generalizing s ts argv with
  | zero => omega
  | succ turns ih =>
    rw [argLoop]
    refine wpe_bind (wp_peek execEnd_sub hb hl fun s' hs' => ?_).wpe
    have hdone : ∀ s', Lexes b s' ts → wpe (pure (argv, []) : Sh (List Word × List Redir)) (fun out s' => ∃ args rest,
        ts = Deriv.argToks args ++ rest ∧ out = (argv ++ args.map Prod.fst, argRedirs args) ∧
        argv.length + args.length < MAXARGS ∧ Lexes b s' rest) (· ≠ .turns) s' := fun s' hs' =>
      (wp_pure.mpr ⟨[], ts, rfl, by simp [argRedirs], hlen, hs'⟩).wpe
    split
    · exact hdone s' hs'
    · rename_i hpeek
      cases ts with
      | nil =>
        refine wpe_bind (wp_gettoken_nil hs' fun w s' hs' => ?_).wpe
        rw [if_pos rfl]
        exact hdone s' hs'
      | cons t ts =>
        cases t with
        | sym x =>
          refine wpe_bind (wp_gettoken_sym hs' fun w s' hs' => ?_).wpe
          rw [if_neg x.ret_ne_zero, if_pos x.ret_ne_a]
          exact wpe_fail (by decide)
        | word w =>
          refine wpe_bind (wp_gettoken_word hb hs' fun s' hs' => ?_).wpe
          rw [if_neg a_ne_zero, if_neg (by simp)]
          split
          · exact wpe_fail (by decide)
          · rename_i hmore
            simp only [List.length_cons] at ht
            refine wpe.bind (wpe_parseredirs hb hs' (by omega)) ?_
            rintro out s'' ⟨rs, rest, rfl, rfl, hrest⟩
            rw [List.length_append] at ht
            refine wpe.bind (ih hrest (by omega) (by simp; omega)) ?_
            rintro out s'' ⟨args, rest', rfl, rfl, hlen', hrest'⟩
            refine (wp_pure.mpr ⟨(w, rs) :: args, rest', ?_, ?_, ?_, hrest'⟩).wpe
            · simp [Deriv.argToks]
            · simp [argRedirs]
            · simp at hlen' ⊢
              omega

end

/-! ### Derivations -/

section
variable {Q : Cmd → Nat → Prop} {cmd : Cmd}

theorem amp_sub : ['&'.toUInt8] ⊆ symbols := by simp [symbols]

theorem wp_backLoop (hb : 0 ∉ b) {n : Nat} (hl : Lexes b s (List.replicate n (.sym .amp) ++ rest))
    (hend : peeks ['&'.toUInt8] rest = false) (ht : n < turns) (h : ∀ s', Lexes b s' rest → Q (Cmd.back^[n] cmd) s') :
    wp (backLoop b turns cmd) Q s := by
  induction n generalizing s turns cmd with
  | zero =>
    obtain ⟨t, rfl⟩ := Nat.exists_eq_add_of_lt ht
    rw [backLoop, wp_bind]
    refine wp_peek amp_sub hb hl fun s' hs' => ?_
    change wp (if peeks ['&'.toUInt8] rest = true then _ else _) _ _
    rw [hend, if_neg (by decide), wp_pure]
    exact h s' hs'
  | succ n ih =>
    obtain ⟨t, rfl⟩ := Nat.exists_eq_add_of_lt ht
    rw [backLoop, wp_bind]
    refine wp_peek amp_sub hb hl fun s' hs' => ?_
    rw [List.replicate_succ, List.cons_append] at hs'
    have hpeek : peeks ['&'.toUInt8] (List.replicate (n + 1) (.sym .amp) ++ rest) = true := rfl
    rw [hpeek, if_pos rfl, wp_bind]
    refine wp_gettoken_sym hs' fun w s' hs' => ?_
    exact ih hs' (by omega) h

theorem wpe_backLoop (hb : 0 ∉ b) (hl : Lexes b s ts) (ht : ts.length < turns) :
    wpe (backLoop b turns cmd) (fun out s' => ∃ n rest, ts = List.replicate n (.sym .amp) ++ rest ∧
      out = Cmd.back^[n] cmd ∧ Lexes b s' rest) (· ≠ .turns) s := by
  induction turns generalizing s ts cmd with
  | zero => omega
  | succ turns ih =>
    rw [backLoop]
    refine wpe_bind (wp_peek amp_sub hb hl fun s' hs' => ?_).wpe
    split
    · rename_i hpeek
      obtain ⟨ts, rfl⟩ := sym_of_peeks (x := .amp) (by decide) (by decide) hpeek
      refine wpe_bind (wp_gettoken_sym hs' fun w s' hs' => ?_).wpe
      refine wpe.mono (ih hs' (by simp at ht; omega)) ?_ fun _ h => h
      rintro out s'' ⟨n, rest, rfl, rfl, hrest⟩
      exact ⟨n + 1, rest, by simp [List.replicate_succ], rfl, hrest⟩
    · exact (wp_pure.mpr ⟨0, ts, rfl, rfl, hs'⟩).wpe

def Follow : NonTerm → List Token → Prop
  | .line, rest => rest = [] ∨ peeks [')'.toUInt8] rest = true
  | .pipe, rest => rest = [] ∨ peeks [')'.toUInt8, '&'.toUInt8, ';'.toUInt8] rest = true
  | .exec, rest => ExecEnd rest

theorem Follow.pipe (h : Follow .line rest) : Follow .pipe rest :=
  h.imp_right fun h => peeks_congr h (by rintro ⟨⟩ <;> decide)

theorem Follow.exec (h : Follow .pipe rest) : Follow .exec rest :=
  h.imp_right fun h => peeks_congr h (by rintro ⟨⟩ <;> decide)

theorem Follow.peeks_bar (h : Follow .pipe rest) : peeks ['|'.toUInt8] rest = false :=
  peeks_end h (by rintro ⟨⟩ <;> decide)

theorem Follow.peeks_amp (h : Follow .line rest) : peeks ['&'.toUInt8] rest = false :=
  peeks_end h (by rintro ⟨⟩ <;> decide)

theorem Follow.peeks_semi (h : Follow .line rest) : peeks [';'.toUInt8] rest = false :=
  peeks_end h (by rintro ⟨⟩ <;> decide)

theorem Follow.peeks_lparen (h : Follow .exec rest) : peeks ['('.toUInt8] rest = false :=
  peeks_end h (by rintro ⟨⟩ <;> decide)

/-- Backgrounding, and then the end of the line or `;`. -/
theorem follow_pipe_amps {n : Nat} (h : Follow .pipe rest) : Follow .pipe (List.replicate n (.sym .amp) ++ rest) := by
  cases n with
  | zero => exact h
  | succ n => exact .inr rfl

def parse (b : List UInt8) : NonTerm → Nat → Sh Cmd
  | .line => parseline b
  | .pipe => parsepipe b
  | .exec => parseexec b

/-- The turns that are enough for `k` tokens. -/
def need : NonTerm → Nat → Nat
  | .line, k => 4 * k + 4
  | .pipe, k => 4 * k + 3
  | .exec, k => 4 * k + 2

theorem exists_turn {x : NonTerm} {k : Nat} (h : need x k ≤ turns) : ∃ t, turns = t + 1 := by
  cases x <;> exact Nat.exists_eq_add_of_le' (le_trans (Nat.le_add_left 1 _) h)

theorem one_sub {x : Sym} : [x.first] ⊆ symbols := by
  simpa using x.first_mem

theorem peeks_lparen_simple (rs : List RedirTok) (args : List (Word × List RedirTok)) (h : Follow .exec rest) :
    peeks ['('.toUInt8] (Deriv.redirToks rs ++ (Deriv.argToks args ++ rest)) = false := by
  cases rs with
  | cons r rs =>
    obtain ⟨dir, file, hdir⟩ := r
    rcases hdir with rfl | rfl | rfl <;> rfl
  | nil =>
    cases args with
    | cons a args => rfl
    | nil => exact h.peeks_lparen

theorem wp_deriv (hb : 0 ∉ b) {x : NonTerm} (d : Deriv x) (hd : d.Short) (hl : Lexes b s (d.yield ++ rest))
    (hf : Follow x rest) (ht : need x d.yield.length ≤ turns) (h : ∀ s', Lexes b s' rest → Q d.tree s') :
    wp (parse b x turns) Q s := by
  induction d generalizing s rest turns Q with
  | block l rs ih =>
    simp only [Deriv.yield, List.length_cons, List.length_append, need] at ht
    obtain ⟨t, rfl⟩ : ∃ t, turns = t + 2 := Nat.exists_eq_add_of_le' (by omega)
    have hl' : Lexes b s (.sym .lparen :: (l.yield ++ (.sym .rparen :: (Deriv.redirToks rs ++ rest)))) := by
      simpa [Deriv.yield] using hl
    have hlen := length_redirToks rs
    rw [parse, parseexec, wp_bind]
    refine wp_peek (one_sub (x := .lparen)) hb hl' fun s' hs' => ?_
    rw [if_pos (show peeks ['('.toUInt8] _ = true from rfl), parseblock, wp_bind]
    refine wp_peek (one_sub (x := .lparen)) hb hs' fun s' hs' => ?_
    rw [if_neg (by simp [peeks, Sym.first]), wp_bind]
    refine wp_gettoken_sym hs' fun w s' hs' => ?_
    rw [wp_bind]
    refine ih hd hs' (.inr rfl) (by simp only [need]; omega) fun s' hs' => ?_
    rw [wp_bind]
    refine wp_peek (one_sub (x := .rparen)) hb hs' fun s' hs' => ?_
    rw [if_neg (by simp [peeks, Sym.first]), wp_bind]
    refine wp_gettoken_sym hs' fun w s' hs' => ?_
    rw [wp_bind]
    refine wp_parseredirs hb hs' hf.peeks_dirs (by omega) fun s' hs' => ?_
    exact wp_pure.mpr (h s' hs')
  | simple rs args =>
    obtain ⟨t, rfl⟩ := exists_turn ht
    simp only [Deriv.yield, List.length_append, need] at ht
    have hl' : Lexes b s (Deriv.redirToks rs ++ (Deriv.argToks args ++ rest)) := by simpa [Deriv.yield] using hl
    have hlen := length_redirToks rs
    rw [parse, parseexec, wp_bind]
    refine wp_peek (one_sub (x := .lparen)) hb hl' fun s' hs' => ?_
    have hpeek := peeks_lparen_simple rs args hf
    change wp (if peeks ['('.toUInt8] _ = true then _ else _) _ _
    rw [hpeek, if_neg (by decide), wp_bind]
    refine wp_parseredirs hb hs' (ExecEnd.peeks_dirs_args hf) (by omega) fun s' hs' => ?_
    rw [wp_bind]
    have hshort : ([] : List Word).length + args.length < MAXARGS := by
      have : args.length ≤ MAXARGS - 1 := hd
      simp only [MAXARGS, List.length_nil] at this ⊢
      omega
    refine wp_argLoop hb hs' hf hshort (by omega) fun s' hs' => ?_
    exact wp_pure.mpr (h s' hs')
  | single e ih =>
    obtain ⟨t, rfl⟩ := exists_turn ht
    simp only [Deriv.yield, need] at ht ih hl
    rw [parse, parsepipe, wp_bind]
    refine ih hd hl hf.exec (by omega) fun s' hs' => ?_
    rw [wp_bind]
    refine wp_peek (one_sub (x := .pipe)) hb hs' fun s' hs' => ?_
    change wp (if peeks ['|'.toUInt8] _ = true then _ else _) _ _
    rw [hf.peeks_bar, if_neg (by decide)]
    exact wp_pure.mpr (h s' hs')
  | pipe e p ihe ihp =>
    obtain ⟨t, rfl⟩ := exists_turn ht
    simp only [Deriv.yield, List.length_cons, List.length_append, need] at ht ihe ihp
    have hl' : Lexes b s (e.yield ++ (.sym .pipe :: (p.yield ++ rest))) := by simpa [Deriv.yield] using hl
    rw [parse, parsepipe, wp_bind]
    refine ihe hd.1 hl' (.inr rfl) (by omega) fun s' hs' => ?_
    rw [wp_bind]
    refine wp_peek (one_sub (x := .pipe)) hb hs' fun s' hs' => ?_
    rw [if_pos (show peeks ['|'.toUInt8] _ = true from rfl), wp_bind]
    refine wp_gettoken_sym hs' fun w s' hs' => ?_
    rw [wp_bind]
    refine ihp hd.2 hs' hf (by omega) fun s' hs' => ?_
    exact wp_pure.mpr (h s' hs')
  | line p n ih =>
    obtain ⟨t, rfl⟩ := exists_turn ht
    simp only [Deriv.yield, List.length_append, List.length_replicate, need] at ht ih
    have hl' : Lexes b s (p.yield ++ (List.replicate n (.sym .amp) ++ rest)) := by simpa [Deriv.yield] using hl
    rw [parse, parseline, wp_bind]
    refine ih hd hl' (follow_pipe_amps hf.pipe) (by omega) fun s' hs' => ?_
    rw [wp_bind]
    refine wp_backLoop hb hs' hf.peeks_amp (by omega) fun s' hs' => ?_
    rw [wp_bind]
    refine wp_peek (one_sub (x := .semi)) hb hs' fun s' hs' => ?_
    change wp (if peeks [';'.toUInt8] _ = true then _ else _) _ _
    rw [hf.peeks_semi, if_neg (by decide)]
    exact wp_pure.mpr (h s' hs')
  | list p n l ihp ihl =>
    obtain ⟨t, rfl⟩ := exists_turn ht
    simp only [Deriv.yield, List.length_cons, List.length_append, List.length_replicate, need] at ht ihp ihl
    have hl' : Lexes b s (p.yield ++ (List.replicate n (.sym .amp) ++ (.sym .semi :: (l.yield ++ rest)))) := by
      simpa [Deriv.yield] using hl
    rw [parse, parseline, wp_bind]
    refine ihp hd.1 hl' (follow_pipe_amps (.inr rfl)) (by omega) fun s' hs' => ?_
    rw [wp_bind]
    refine wp_backLoop hb hs' rfl (by omega) fun s' hs' => ?_
    rw [wp_bind]
    refine wp_peek (one_sub (x := .semi)) hb hs' fun s' hs' => ?_
    rw [if_pos (show peeks [';'.toUInt8] _ = true from rfl), wp_bind]
    refine wp_gettoken_sym hs' fun w s' hs' => ?_
    rw [wp_bind]
    refine ihl hd.2 hs' hf (by omega) fun s' hs' => ?_
    exact wp_pure.mpr (h s' hs')

/-- A parser function that returns has read a derivation, and it does not run out of turns. -/
theorem wpe_parse (hb : 0 ∉ b) (x : NonTerm) (hl : Lexes b s ts) (ht : need x ts.length ≤ turns) :
    wpe (parse b x turns) (fun c s' => ∃ d : Deriv x, ∃ rest, d.Short ∧ ts = d.yield ++ rest ∧ c = d.tree ∧
      Lexes b s' rest) (· ≠ .turns) s := by
  induction turns using Nat.strong_induction_on generalizing x s ts with
  | _ turns ih =>
    obtain ⟨t, rfl⟩ := exists_turn ht
    cases x with
    | line =>
      simp only [need] at ht
      rw [parse, parseline]
      refine wpe.bind (ih t (by omega) .pipe hl (by simp only [need]; omega)) ?_
      rintro _ s' ⟨p, rest, hp, rfl, rfl, hs'⟩
      rw [List.length_append] at ht
      refine wpe.bind (wpe_backLoop hb hs' (by omega)) ?_
      rintro _ s' ⟨n, rest, rfl, rfl, hs'⟩
      refine wpe_bind (wp_peek (one_sub (x := .semi)) hb hs' fun s' hs' => ?_).wpe
      split
      · rename_i hpeek
        obtain ⟨rest, rfl⟩ := sym_of_peeks (x := .semi) (by decide) (by decide) hpeek
        refine wpe_bind (wp_gettoken_sym hs' fun w s' hs' => ?_).wpe
        simp only [List.length_append, List.length_cons] at ht
        refine wpe.bind (ih t (by omega) .line hs' (by simp only [need]; omega)) ?_
        rintro _ s' ⟨l, rest, hshort, rfl, rfl, hs'⟩
        refine (wp_pure.mpr ⟨.list p n l, rest, ⟨hp, hshort⟩, ?_, rfl, hs'⟩).wpe
        simp [Deriv.yield]
      · refine (wp_pure.mpr ⟨.line p n, rest, hp, ?_, rfl, hs'⟩).wpe
        simp [Deriv.yield]
    | pipe =>
      simp only [need] at ht
      rw [parse, parsepipe]
      refine wpe.bind (ih t (by omega) .exec hl (by simp only [need]; omega)) ?_
      rintro _ s' ⟨e, rest, he, rfl, rfl, hs'⟩
      refine wpe_bind (wp_peek (one_sub (x := .pipe)) hb hs' fun s' hs' => ?_).wpe
      split
      · rename_i hpeek
        obtain ⟨rest, rfl⟩ := sym_of_peeks (x := .pipe) (by decide) (by decide) hpeek
        refine wpe_bind (wp_gettoken_sym hs' fun w s' hs' => ?_).wpe
        simp only [List.length_append, List.length_cons] at ht
        refine wpe.bind (ih t (by omega) .pipe hs' (by simp only [need]; omega)) ?_
        rintro _ s' ⟨p, rest, hp, rfl, rfl, hs'⟩
        refine (wp_pure.mpr ⟨.pipe e p, rest, ⟨he, hp⟩, ?_, rfl, hs'⟩).wpe
        simp [Deriv.yield]
      · exact (wp_pure.mpr ⟨.single e, rest, he, rfl, rfl, hs'⟩).wpe
    | exec =>
      simp only [need] at ht
      rw [parse, parseexec]
      refine wpe_bind (wp_peek (one_sub (x := .lparen)) hb hl fun s' hs' => ?_).wpe
      split
      · rename_i hpeek
        obtain ⟨rest, rfl⟩ := sym_of_peeks (x := .lparen) (by decide) (by decide) hpeek
        simp only [List.length_cons] at ht
        obtain ⟨t, rfl⟩ : ∃ u, t = u + 1 := Nat.exists_eq_add_of_le' (by omega)
        rw [parseblock]
        refine wpe_bind (wp_peek (one_sub (x := .lparen)) hb hs' fun s' hs' => ?_).wpe
        rw [if_neg (by simp [peeks, Sym.first])]
        refine wpe_bind (wp_gettoken_sym hs' fun w s' hs' => ?_).wpe
        refine wpe.bind (ih t (by omega) .line hs' (by simp only [need]; omega)) ?_
        rintro _ s' ⟨l, rest, hshort, rfl, rfl, hs'⟩
        refine wpe_bind (wp_peek (one_sub (x := .rparen)) hb hs' fun s' hs' => ?_).wpe
        split
        · exact wpe_fail (by decide)
        · rename_i hpeek'
          obtain ⟨rest, rfl⟩ := sym_of_peeks (x := .rparen) (by decide) (by decide)
            (by simpa using hpeek')
          refine wpe_bind (wp_gettoken_sym hs' fun w s' hs' => ?_).wpe
          simp only [List.length_append, List.length_cons] at ht
          refine wpe.bind (wpe_parseredirs hb hs' (by omega)) ?_
          rintro _ s' ⟨rs, rest, rfl, rfl, hs'⟩
          refine (wp_pure.mpr ⟨.block l rs, rest, hshort, ?_, rfl, hs'⟩).wpe
          simp [Deriv.yield]
      · refine wpe.bind (wpe_parseredirs hb hs' (by omega)) ?_
        rintro _ s' ⟨rs, rest, rfl, rfl, hs'⟩
        rw [List.length_append] at ht
        refine wpe.bind (wpe_argLoop hb hs' (by omega) (by decide)) ?_
        rintro _ s' ⟨args, rest, rfl, rfl, hlen, hs'⟩
        refine (wp_pure.mpr ⟨.simple rs args, rest, ?_, ?_, rfl, hs'⟩).wpe
        · simp only [List.length_nil, MAXARGS] at hlen
          change args.length ≤ MAXARGS - 1
          simp only [MAXARGS]
          omega
        · simp [Deriv.yield]

end

end Shell

end Xv6
