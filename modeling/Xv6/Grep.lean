import Mathlib

/-!
# `grep` (`grep.c`)

A C string is the list of its bytes, without the NUL behind them.
-/

namespace Xv6

namespace Grep

def star : UInt8 := '*'.toUInt8
def dot : UInt8 := '.'.toUInt8
def dollar : UInt8 := '$'.toUInt8
def caret : UInt8 := '^'.toUInt8
def newline : UInt8 := '\n'.toUInt8

/-! ### The matcher -/

/-- `here` is `matchhere` of the `re` behind the star. -/
def matchstar (c : UInt8) (here : List UInt8 → Bool) : (text : List UInt8) → Bool
  | [] => here []
  | t :: text => here (t :: text) || ((t = c || c = dot) && matchstar c here text)

def matchhere : (re text : List UInt8) → Bool
  | [], _ => true
  | [c], text =>
    if c = dollar then
      text.isEmpty
    else
      match text with
      | [] => false
      | t :: _ => c = dot || c = t
  | c :: d :: re, text =>
    if d = star then
      matchstar c (matchhere re) text
    else
      match text with
      | [] => false
      | t :: text => (c = dot || c = t) && matchhere (d :: re) text

/-- The loop of `match`. -/
def matchLoop (re : List UInt8) : (text : List UInt8) → Bool
  | [] => matchhere re []
  | t :: text => matchhere re (t :: text) || matchLoop re text

/-- `match(re, text)` -/
def matchRe (re text : List UInt8) : Bool :=
  if re.head? = some caret then matchhere re.tail text else matchLoop re text

/-! ### The loop over the input -/

/-- What is before and behind the first `c`, if there is one in the string. -/
def strchr (c : UInt8) : (s : List UInt8) → Option (List UInt8 × List UInt8)
  | [] => none
  | x :: s => if x = 0 then none else if x = c then some ([], s) else (strchr c s).map fun r => (x :: r.1, r.2)

theorem length_lt_of_strchr {c : UInt8} {s p q : List UInt8} (h : strchr c s = some (p, q)) : q.length < s.length := by
  induction s generalizing p with
  | nil => exact absurd h (by simp [strchr])
  | cons x s ih =>
    rw [strchr] at h
    split_ifs at h with h0 hx
    · obtain ⟨-, rfl⟩ := Prod.mk.inj (Option.some.inj h)
      exact Nat.lt_succ_self _
    · obtain ⟨r, hr, he⟩ := Option.map_eq_some_iff.mp h
      obtain ⟨-, rfl⟩ := Prod.mk.inj he
      exact (ih hr).trans (Nat.lt_succ_self _)

/-- The inner loop: what is written, and what is left in the buffer from `p` on. -/
def lineLoop (pattern p : List UInt8) : List UInt8 × List UInt8 :=
  match _h : strchr newline p with
  | none => ([], p)
  | some (text, rest) =>
    let r := lineLoop pattern rest
    ((if matchRe pattern text then text ++ [newline] else []) ++ r.1, r.2)
termination_by p.length
decreasing_by exact length_lt_of_strchr _h

/-- `sizeof(buf)` -/
def bufSize : Nat := 1024

/-- What `read` returns when `n` bytes are asked for and `left` are left; `k` says how the input is split. -/
def readLen (k n left : Nat) : Nat := min (max 1 k) (min n left)

/-- What is written. `buf` are the first `m` bytes of the buffer; call `i` of `read` takes its share from `split i`. -/
def grepLoop (pattern : List UInt8) (split : Nat → Nat) (i : Nat) (buf input : List UInt8) : List UInt8 :=
  let n := readLen (split i) (bufSize - buf.length - 1) input.length
  if _h : n > 0 then
    let r := lineLoop pattern (buf ++ input.take n)
    r.1 ++ grepLoop pattern split (i + 1) r.2 (input.drop n)
  else
    []
termination_by input.length
decreasing_by
  have hn : n ≤ input.length := (Nat.min_le_right ..).trans (Nat.min_le_right ..)
  rw [List.length_drop]
  omega

def grep (pattern : List UInt8) (split : Nat → Nat) (input : List UInt8) : List UInt8 := grepLoop pattern split 0 [] input

end Grep

end Xv6
