import Xv6.Lib.Bytes
import Xv6.Lib.Prog

/-!
# The parser of the shell (`sh.c`)

The line is the bytes `b` with a NUL behind them; a pointer into it is an offset, and `es` is `b.length`. The parser works
on a cursor, `*ps`, which is the state of the program. `malloc` does not fail, so a command is a tree; the words in it are
given by their two pointers, as in `argv` and `eargv`. A redirection is wrapped around a command that is not complete yet
(`parseexec` goes on adding words to it); so `parseredirs` returns the redirections, to be wrapped in their order.

`turns` bounds the loops and the recursion.
-/

namespace Xv6

namespace Shell

def MAXARGS : Nat := 10

def O_RDONLY : Nat := 0x000
def O_WRONLY : Nat := 0x001
def O_CREATE : Nat := 0x200
def O_TRUNC : Nat := 0x400

/-- Why `parsecmd` does not return: `panic`, or a loop has used up its turns. -/
inductive ShPanic
  | parseblock
  /-- `syntax - missing )` -/
  | missingParen
  /-- `missing file for redirection` -/
  | missingFile
  /-- `too many args` -/
  | tooManyArgs
  /-- `syntax` in `parseexec` -/
  | unexpected
  /-- `syntax`, after `leftovers: ...` -/
  | leftovers
  | turns
deriving DecidableEq

abbrev Sh := Prog ShPanic Nat

/-- A word: from `q` up to `eq`. -/
structure Word where
  q : Nat
  eq : Nat
deriving DecidableEq

structure Redir where
  file : Word
  mode : Nat
  fd : Nat
deriving DecidableEq

inductive Cmd
  | exec (argv : List Word)
  | redir (cmd : Cmd) (r : Redir)
  | pipe (left right : Cmd)
  | list (left right : Cmd)
  | back (cmd : Cmd)
deriving DecidableEq

/-! ### Tokens -/

def whitespace : List UInt8 := [' '.toUInt8, '\t'.toUInt8, '\r'.toUInt8, '\n'.toUInt8, 0x0b]

def symbols : List UInt8 :=
  ['<'.toUInt8, '|'.toUInt8, '>'.toUInt8, '&'.toUInt8, ';'.toUInt8, '('.toUInt8, ')'.toUInt8]

/-- `strchr(cs, c) != 0`; the NUL at the end of `cs` is not looked at. -/
def strchr (cs : List UInt8) (c : UInt8) : Bool := cs.contains c

/-- `*s` -/
def byte (b : List UInt8) (s : Nat) : UInt8 := b.getD s 0

/-- `while(s < es && p(*s)) s++;` -/
def skip (b : List UInt8) (p : UInt8 → Bool) (s : Nat) : Nat :=
  if s < b.length ∧ p (byte b s) then skip b p (s + 1) else s
termination_by b.length - s

/-- What `gettoken` returns, with `*q` and `*eq`. -/
structure Gettoken where
  ret : UInt8
  word : Word
deriving DecidableEq

/-- The `switch` in `gettoken`: the value and the end of the token. -/
def scan (b : List UInt8) (s : Nat) : UInt8 × Nat :=
  let c := byte b s
  if c = 0 then
    (c, s)
  else if c = '|'.toUInt8 ∨ c = '('.toUInt8 ∨ c = ')'.toUInt8 ∨ c = ';'.toUInt8 ∨ c = '&'.toUInt8 ∨ c = '<'.toUInt8 then
    (c, s + 1)
  else if c = '>'.toUInt8 then
    if byte b (s + 1) = '>'.toUInt8 then ('+'.toUInt8, s + 2) else (c, s + 1)
  else
    ('a'.toUInt8, skip b (fun c => !strchr whitespace c && !strchr symbols c) s)

def gettoken (b : List UInt8) : Sh Gettoken := do
  let q := skip b (strchr whitespace) (← get)
  let (ret, eq) := scan b q
  set (skip b (strchr whitespace) eq)
  return ⟨ret, q, eq⟩

def peek (b : List UInt8) (toks : List UInt8) : Sh Bool := do
  let s := skip b (strchr whitespace) (← get)
  set s
  return byte b s ≠ 0 ∧ strchr toks (byte b s)

/-! ### Commands -/

/-- The `switch` in `parseredirs`. -/
def redircmd (tok : UInt8) (file : Word) : List Redir :=
  if tok = '<'.toUInt8 then [⟨file, O_RDONLY, 0⟩]
  else if tok = '>'.toUInt8 then [⟨file, O_WRONLY ||| O_CREATE ||| O_TRUNC, 1⟩]
  else if tok = '+'.toUInt8 then [⟨file, O_WRONLY ||| O_CREATE, 1⟩]
  else []

/-- The redirections, the innermost first. -/
def parseredirs (b : List UInt8) : (turns : Nat) → Sh (List Redir)
  | 0 => Prog.fail .turns
  | turns + 1 => do
    if ← peek b ['<'.toUInt8, '>'.toUInt8] then
      let tok ← gettoken b
      let file ← gettoken b
      if file.ret ≠ 'a'.toUInt8 then
        Prog.fail .missingFile
      else
        return redircmd tok.ret file.word ++ (← parseredirs b turns)
    else
      return []

/-- The redirections `rs` around a command. -/
def wrap (cmd : Cmd) (rs : List Redir) : Cmd := rs.foldl .redir cmd

/-- The loop of `parseexec`: the words, with those before, and the redirections between them. -/
def argLoop (b : List UInt8) : (turns : Nat) → List Word → Sh (List Word × List Redir)
  | 0, _ => Prog.fail .turns
  | turns + 1, argv => do
    if ← peek b ['|'.toUInt8, ')'.toUInt8, '&'.toUInt8, ';'.toUInt8] then
      return (argv, [])
    else
      let tok ← gettoken b
      if tok.ret = 0 then
        return (argv, [])
      else if tok.ret ≠ 'a'.toUInt8 then
        Prog.fail .unexpected
      else if argv.length + 1 ≥ MAXARGS then
        Prog.fail .tooManyArgs
      else
        let rs ← parseredirs b turns
        let (argv, rs') ← argLoop b turns (argv ++ [tok.word])
        return (argv, rs ++ rs')

/-- The loop of `parseline`. -/
def backLoop (b : List UInt8) : (turns : Nat) → Cmd → Sh Cmd
  | 0, _ => Prog.fail .turns
  | turns + 1, cmd => do
    if ← peek b ['&'.toUInt8] then
      let _ ← gettoken b
      backLoop b turns (.back cmd)
    else
      return cmd

mutual

def parseline (b : List UInt8) : (turns : Nat) → Sh Cmd
  | 0 => Prog.fail .turns
  | turns + 1 => do
    let cmd ← parsepipe b turns
    let cmd ← backLoop b turns cmd
    if ← peek b [';'.toUInt8] then
      let _ ← gettoken b
      return .list cmd (← parseline b turns)
    else
      return cmd

def parsepipe (b : List UInt8) : (turns : Nat) → Sh Cmd
  | 0 => Prog.fail .turns
  | turns + 1 => do
    let cmd ← parseexec b turns
    if ← peek b ['|'.toUInt8] then
      let _ ← gettoken b
      return .pipe cmd (← parsepipe b turns)
    else
      return cmd

def parseexec (b : List UInt8) : (turns : Nat) → Sh Cmd
  | 0 => Prog.fail .turns
  | turns + 1 => do
    if ← peek b ['('.toUInt8] then
      parseblock b turns
    else
      let rs ← parseredirs b turns
      let (argv, rs') ← argLoop b turns []
      return wrap (.exec argv) (rs ++ rs')

def parseblock (b : List UInt8) : (turns : Nat) → Sh Cmd
  | 0 => Prog.fail .turns
  | turns + 1 => do
    if !(← peek b ['('.toUInt8]) then
      Prog.fail .parseblock
    else
      let _ ← gettoken b
      let cmd ← parseline b turns
      if !(← peek b [')'.toUInt8]) then
        Prog.fail .missingParen
      else
        let _ ← gettoken b
        return wrap cmd (← parseredirs b turns)

end

/-- `for(i=0; argv[i]; i++) *eargv[i] = 0;` and the same for a file. -/
def nulterminate : Cmd → Bytes → Bytes
  | .exec argv, m => argv.foldl (fun m w => Function.update m w.eq 0) m
  | .redir cmd r, m => Function.update (nulterminate cmd m) r.file.eq 0
  | .pipe left right, m => nulterminate right (nulterminate left m)
  | .list left right, m => nulterminate right (nulterminate left m)
  | .back cmd, m => nulterminate cmd m

/-- Every call takes four turns at most for each token that is left, and four. -/
def maxTurns (b : List UInt8) : Nat := 4 * b.length + 4

/-- The tree, and the line when its words are terminated. -/
def parsecmd (b : List UInt8) : Sh (Cmd × Bytes) := do
  set 0
  let cmd ← parseline b (maxTurns b)
  let _ ← peek b []
  if (← get) ≠ b.length then
    Prog.fail .leftovers
  else
    return (cmd, nulterminate cmd (byte b))

/-! ### The grammar -/

inductive Sym
  | pipe
  | lparen
  | rparen
  | semi
  | amp
  | lt
  | gt
  | append
deriving DecidableEq

def Sym.text : Sym → List UInt8
  | .pipe => ['|'.toUInt8]
  | .lparen => ['('.toUInt8]
  | .rparen => [')'.toUInt8]
  | .semi => [';'.toUInt8]
  | .amp => ['&'.toUInt8]
  | .lt => ['<'.toUInt8]
  | .gt => ['>'.toUInt8]
  | .append => ['>'.toUInt8, '>'.toUInt8]

inductive Token
  | sym (x : Sym)
  | word (w : Word)
deriving DecidableEq

/-- A byte of a word. -/
def IsWord (c : UInt8) : Prop := c ∉ whitespace ∧ c ∉ symbols

/-- The tokens of the line from `i` on: words are maximal, and so is `>>`. -/
inductive Lexes (b : List UInt8) : Nat → List Token → Prop
  | nil : Lexes b b.length []
  | blank {i ts} (lt : i < b.length) (h : byte b i ∈ whitespace) (rest : Lexes b (i + 1) ts) : Lexes b i ts
  | sym {i ts} (x : Sym) (h : x.text <+: b.drop i)
      (max : x = .gt → byte b (i + 1) ≠ '>'.toUInt8) (rest : Lexes b (i + x.text.length) ts) : Lexes b i (.sym x :: ts)
  | word {i j ts} (lt : i < j) (le : j ≤ b.length) (h : ∀ k, i ≤ k → k < j → IsWord (byte b k))
      (max : j < b.length → ¬ IsWord (byte b j)) (rest : Lexes b j ts) : Lexes b i (.word ⟨i, j⟩ :: ts)

/-- `('<' | '>' | '>>') word` -/
structure RedirTok where
  /-- `<`, `>` or `>>` -/
  dir : Sym
  file : Word
  isDir : dir = .lt ∨ dir = .gt ∨ dir = .append

def RedirTok.toks (r : RedirTok) : List Token := [.sym r.dir, .word r.file]

def RedirTok.redir (r : RedirTok) : Redir :=
  match r.dir with
  | .lt => ⟨r.file, O_RDONLY, 0⟩
  | .gt => ⟨r.file, O_WRONLY ||| O_CREATE ||| O_TRUNC, 1⟩
  | _ => ⟨r.file, O_WRONLY ||| O_CREATE, 1⟩

inductive NonTerm
  | line
  | pipe
  | exec

/-- Derivations. -/
inductive Deriv : NonTerm → Type
  /-- `'(' line ')' redirs` -/
  | block (l : Deriv .line) (rs : List RedirTok) : Deriv .exec
  /-- `redirs (word redirs)*` -/
  | simple (rs : List RedirTok) (args : List (Word × List RedirTok)) : Deriv .exec
  | single (e : Deriv .exec) : Deriv .pipe
  /-- `exec '|' pipe` -/
  | pipe (e : Deriv .exec) (p : Deriv .pipe) : Deriv .pipe
  /-- `pipe '&'*` -/
  | line (p : Deriv .pipe) (n : Nat) : Deriv .line
  /-- `pipe '&'* ';' line` -/
  | list (p : Deriv .pipe) (n : Nat) (l : Deriv .line) : Deriv .line

namespace Deriv

def redirToks (rs : List RedirTok) : List Token := rs.flatMap RedirTok.toks

def argToks (args : List (Word × List RedirTok)) : List Token := args.flatMap fun a => .word a.1 :: redirToks a.2

/-- The tokens that are derived. -/
def yield : {x : NonTerm} → Deriv x → List Token
  | _, .block l rs => .sym .lparen :: (l.yield ++ .sym .rparen :: redirToks rs)
  | _, .simple rs args => redirToks rs ++ argToks args
  | _, .single e => e.yield
  | _, .pipe e p => e.yield ++ .sym .pipe :: p.yield
  | _, .line p n => p.yield ++ List.replicate n (.sym .amp)
  | _, .list p n l => p.yield ++ (List.replicate n (.sym .amp) ++ .sym .semi :: l.yield)

/-- The tree of a derivation. -/
def tree : {x : NonTerm} → Deriv x → Cmd
  | _, .block l rs => wrap l.tree (rs.map RedirTok.redir)
  | _, .simple rs args =>
    wrap (.exec (args.map Prod.fst)) (rs.map RedirTok.redir ++ args.flatMap fun a => a.2.map RedirTok.redir)
  | _, .single e => e.tree
  | _, .pipe e p => .pipe e.tree p.tree
  | _, .line p n => Cmd.back^[n] p.tree
  | _, .list p n l => .list (Cmd.back^[n] p.tree) l.tree

/-- At most `MAXARGS - 1` words in a command. -/
def Short : {x : NonTerm} → Deriv x → Prop
  | _, .block l _ => l.Short
  | _, .simple _ args => args.length ≤ MAXARGS - 1
  | _, .single e => e.Short
  | _, .pipe e p => e.Short ∧ p.Short
  | _, .line p _ => p.Short
  | _, .list p _ l => p.Short ∧ l.Short

end Deriv

/-- The words of a command: its arguments and files. -/
def Cmd.words : Cmd → List Word
  | .exec argv => argv
  | .redir cmd r => r.file :: cmd.words
  | .pipe left right => left.words ++ right.words
  | .list left right => left.words ++ right.words
  | .back cmd => cmd.words

/-- The C string at `q`. -/
def IsString (m : Bytes) (q : Nat) (text : List UInt8) : Prop :=
  (∀ i < text.length, m (q + i) = text.getD i 0 ∧ m (q + i) ≠ 0) ∧ m (q + text.length) = 0

/-- The text of a word in the line as it was. -/
def Word.text (b : List UInt8) (w : Word) : List UInt8 := (b.drop w.q).take (w.eq - w.q)

end Shell

end Xv6
