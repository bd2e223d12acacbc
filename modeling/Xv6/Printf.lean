import Xv6.Proc

/-!
# `printf` of the user library (`user/printf.c`), and `gettime`

What is put to the file descriptor is a list of bytes. An argument is a machine word, or a string (a null pointer is
`none`); `vprintf` returns `none` if it takes an argument that is not there, or if `printint` leaves its buffer.
-/

namespace Xv6

namespace Printf

def percent : UInt8 := '%'.toUInt8
def minus : UInt8 := '-'.toUInt8

def digits : List UInt8 := "0123456789ABCDEF".toList.map Char.toUInt8

inductive Arg
  | word (x : BitVec 64)
  | str (s : Option (List UInt8))

/-- `sizeof(buf)` in `printint` -/
def bufSize : Nat := 16

/-- The loop of `printint`, with room for `room` digits in `buf`; the last digit is the first. -/
def digitLoop (base : BitVec 32) : (room : Nat) → (x : BitVec 32) → Option (List UInt8)
  | 0, _ => none
  | room + 1, x =>
    let d := digits.getD (x % base).toNat 0
    if x / base ≠ 0 then (digitLoop base room (x / base)).map (d :: ·) else some [d]

def printint (xx : CInt) (base : BitVec 32) (sgn : Bool) : Option (List UInt8) := do
  let neg := sgn && decide (xx.toInt < 0)
  let x := if neg then -xx else xx
  let buf ← digitLoop base bufSize x
  if neg then
    if buf.length < bufSize then return (buf ++ [minus]).reverse else none
  else
    return buf.reverse

/-- The loop of `printptr`, with `n` rounds to go. -/
def ptrLoop : (n : Nat) → (x : BitVec 64) → List UInt8
  | 0, _ => []
  | n + 1, x => digits.getD (x >>> 60).toNat 0 :: ptrLoop n (x <<< 4)

def printptr (x : BitVec 64) : List UInt8 := '0'.toUInt8 :: 'x'.toUInt8 :: ptrLoop 16 x

/-- `va_arg` of a number. -/
def vaWord : (ap : List Arg) → Option (BitVec 64 × List Arg)
  | .word x :: ap => some (x, ap)
  | _ => none

/-- `va_arg(ap, char*)` -/
def vaStr : (ap : List Arg) → Option (Option (List UInt8) × List Arg)
  | .str s :: ap => some (s, ap)
  | _ => none

def null : List UInt8 := "(null)".toList.map Char.toUInt8

/-- What `vprintf` does at a character behind a `%`. -/
def convert (c : UInt8) (ap : List Arg) : Option (List UInt8 × List Arg) :=
  if c = 'd'.toUInt8 then do
    let (x, ap) ← vaWord ap
    return (← printint (x.setWidth 32) 10 true, ap)
  else if c = 'l'.toUInt8 then do
    let (x, ap) ← vaWord ap
    return (← printint (x.setWidth 32) 10 false, ap)
  else if c = 'x'.toUInt8 then do
    let (x, ap) ← vaWord ap
    return (← printint (x.setWidth 32) 16 false, ap)
  else if c = 'p'.toUInt8 then do
    let (x, ap) ← vaWord ap
    return (printptr x, ap)
  else if c = 's'.toUInt8 then do
    let (s, ap) ← vaStr ap
    return (s.getD null, ap)
  else if c = 'c'.toUInt8 then do
    let (x, ap) ← vaWord ap
    return ([.ofBitVec (x.setWidth 8)], ap)
  else if c = percent then
    some ([c], ap)
  else
    some ([percent, c], ap)

/-- `state` is whether a `%` has been read. -/
def vprintf : (fmt : List UInt8) → (state : Bool) → (ap : List Arg) → Option (List UInt8)
  | [], _, _ => some []
  | c :: fmt, false, ap => if c = percent then vprintf fmt true ap else (vprintf fmt false ap).map (c :: ·)
  | c :: fmt, true, ap => (convert c ap).bind fun r => (vprintf fmt false r.2).map (r.1 ++ ·)

/-! ### `gettime.c` -/

def gettimePrefix : List UInt8 := "Time in seconds since UNIX epoch: ".toList.map Char.toUInt8

/-- What `main` prints when `nanotime` returns `t`. -/
def gettime (t : BitVec 64) : Option (List UInt8) :=
  vprintf (gettimePrefix ++ [percent, 'd'.toUInt8, '\n'.toUInt8]) false [.word (t / 1000000000)]

end Printf

end Xv6
