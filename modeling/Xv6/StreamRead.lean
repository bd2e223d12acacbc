import Xv6.Lib.Trans
import Xv6.Pipe
import Xv6.SleepLoops

/-!
# Reading a stream (`piperead`, `consoleread`)

Any number of processes read from one pipe, or from the console, while bytes arrive. A step is one round of the loop
of `piperead` or `consoleread`, with the one-byte `copyout` in it, or the code up to the next lock operation. What
a device does in a round is its `turn`; the rest is the same for both.

The memory of a process is what its page table makes of it: a byte at every address that is mapped for the user, and
`none` elsewhere. `start`, `got`, `sent`, `typed`, `arrived`, `taken`, `delivered`, `faults` and `returned` are history.
-/

namespace Xv6

open Function (update)

/-- The memory that a process sees. -/
abbrev UserMem := Nat → Option UInt8

/-- `copyout`: byte by byte, up to the first address that is not mapped. -/
def UserMem.copyout : UserMem → Nat → List UInt8 → Bool × UserMem
  | m, _, [] => (true, m)
  | m, a, b :: bs => if (m a).isSome then copyout (update m a (some b)) (a + 1) bs else (false, m)

/-- A call of `piperead` or `consoleread`: the memory of the process at its start, the bytes it has taken from the stream,
and the bytes it has stored, from `addr` on. -/
structure ReadCall where
  addr : Nat
  n : CInt
  start : UserMem
  got : List UInt8
  sent : List UInt8

/-- What a round of the loop does. -/
inductive Turn (D : Type)
  /-- sleeps, or returns -1 if the process has been killed -/
  | block
  | go
  | stop
  /-- takes an end of file and leaves the loop -/
  | eof (ch : UInt8) (d : D)
  /-- takes a byte, and leaves the loop after it if it is the `last` -/
  | byte (ch : UInt8) (d : D) (last : Bool)

/-- A device: the rounds of its reader (`waiting` before the copying loop, `i` bytes done), and what may come in: the bytes
given to the device, and those that a reader can get from then on. -/
structure StreamDevice (D : Type) where
  turn : D → (waiting : Bool) → (n : CInt) → (i : Nat) → Turn D
  input : D → (typed arrived : List UInt8) → D → Prop

/-- Where a process is. In `loop` and `done` it holds the lock. -/
inductive ReadPc
  | out
  /-- before `acquire`, or on the way back from `sleep` -/
  | enter (c : ReadCall) (waiting : Bool) (i : Nat)
  | loop (c : ReadCall) (waiting : Bool) (i : Nat)
  /-- at `release` and `return r` -/
  | done (c : ReadCall) (r : Int)

structure StreamSys (P D : Type) where
  dev : D
  lock : Option P
  pc : P → ReadPc
  mem : P → UserMem
  typed : List UInt8
  arrived : List UInt8
  /-- the bytes taken from the stream; the flag marks an end of file -/
  taken : List (UInt8 × Bool)
  delivered : List UInt8
  /-- the number of bytes that were taken and could not be stored -/
  faults : Nat
  /-- calls that have returned, with the value and the memory at that time -/
  returned : List (ReadCall × Int × UserMem)

namespace StreamSys

variable {P D : Type} [DecidableEq P]

def goto (s : StreamSys P D) (p : P) (k : ReadPc) : StreamSys P D := { s with pc := update s.pc p k }

inductive Step (dev : StreamDevice D) (s : StreamSys P D) : StreamSys P D → Prop
  /-- `pipewrite` or `consoleintr`, which hold the lock meanwhile -/
  | input {cs bs d} (free : s.lock = none) (input : dev.input s.dev cs bs d) :
      Step dev s { s with dev := d, typed := s.typed ++ cs, arrived := s.arrived ++ bs }
  /-- a process that is not in the kernel writes to its memory, or has it grown or shrunk -/
  | user {p} (m : UserMem) (pc : s.pc p = .out) : Step dev s { s with mem := update s.mem p m }
  | call {p} (addr : Nat) (n : CInt) (pc : s.pc p = .out) :
      Step dev s (s.goto p (.enter ⟨addr, n, s.mem p, [], []⟩ true 0))
  | acquire {p c waiting i} (pc : s.pc p = .enter c waiting i)
      (free : s.lock = none) : Step dev s { s.goto p (.loop c waiting i) with lock := some p }
  | sleep {p c waiting i} (pc : s.pc p = .loop c waiting i)
      (turn : dev.turn s.dev waiting c.n i = .block) : Step dev s { s.goto p (.enter c waiting i) with lock := none }
  | killed {p c waiting i} (pc : s.pc p = .loop c waiting i)
      (turn : dev.turn s.dev waiting c.n i = .block) : Step dev s (s.goto p (.done c (-1)))
  | go {p c waiting i} (pc : s.pc p = .loop c waiting i)
      (turn : dev.turn s.dev waiting c.n i = .go) : Step dev s (s.goto p (.loop c false i))
  | stop {p c waiting i} (pc : s.pc p = .loop c waiting i)
      (turn : dev.turn s.dev waiting c.n i = .stop) : Step dev s (s.goto p (.done c i))
  | eof {p c waiting i ch d} (pc : s.pc p = .loop c waiting i) (turn : dev.turn s.dev waiting c.n i = .eof ch d) :
      Step dev s { s.goto p (.done { c with got := c.got ++ [ch] } i) with dev := d, taken := s.taken ++ [(ch, true)] }
  | byte {p c waiting i ch d last m} (pc : s.pc p = .loop c waiting i) (turn : dev.turn s.dev waiting c.n i = .byte ch d last)
      (copy : (s.mem p).copyout (c.addr + i) [ch] = (true, m)) :
      Step dev s { s.goto p (if last then .done { c with got := c.got ++ [ch], sent := c.sent ++ [ch] } (i + 1 : Nat)
          else .loop { c with got := c.got ++ [ch], sent := c.sent ++ [ch] } waiting (i + 1)) with
        dev := d, taken := s.taken ++ [(ch, false)], delivered := s.delivered ++ [ch], mem := update s.mem p m }
  /-- `copyout` fails, after the byte has been taken -/
  | fault {p c waiting i ch d last m} (pc : s.pc p = .loop c waiting i) (turn : dev.turn s.dev waiting c.n i = .byte ch d last)
      (copy : (s.mem p).copyout (c.addr + i) [ch] = (false, m)) :
      Step dev s { s.goto p (.done { c with got := c.got ++ [ch] } i) with
        dev := d, taken := s.taken ++ [(ch, false)], faults := s.faults + 1, mem := update s.mem p m }
  | ret {p c r} (pc : s.pc p = .done c r) :
      Step dev s { s.goto p .out with lock := none, returned := s.returned ++ [(c, r, s.mem p)] }

/-- Nobody reads, and nothing has arrived. -/
structure Init (d : D) (s : StreamSys P D) : Prop where
  dev : s.dev = d
  lock : s.lock = none
  pc : ∀ p, s.pc p = .out
  typed : s.typed = []
  arrived : s.arrived = []
  taken : s.taken = []
  delivered : s.delivered = []
  faults : s.faults = 0
  returned : s.returned = []

def Reachable (dev : StreamDevice D) (d : D) : StreamSys P D → Prop := Trans.Reach (Init d) (Step dev)

/-- A process that takes a byte in this step has a place for it: before the step, `addr + i` is mapped. -/
def Lands (dev : StreamDevice D) (s s' : StreamSys P D) : Prop :=
  ∀ p c waiting i ch d last, s.pc p = .loop c waiting i → s'.pc p ≠ s.pc p →
    dev.turn s.dev waiting c.n i = .byte ch d last → (s.mem p (c.addr + i)).isSome

end StreamSys

/-! ### The pipe -/

/-- A round of `piperead`, before its `for` loop and in it. -/
def pipereadTurn (pi : Pipe) (waiting : Bool) (n : CInt) (i : Nat) : Turn Pipe :=
  if waiting then
    if pi.empty && pi.writeopen then .block else .go
  else if (i : Int) < n.toInt then
    if pi.empty then .stop else .byte pi.front pi.pop false
  else .stop

/-- `pipewrite` puts a byte in, or an end is closed. -/
inductive PipeInput : Pipe → List UInt8 → List UInt8 → Pipe → Prop
  | write {pi} (ch : UInt8) (room : pi.full = false) : PipeInput pi [ch] [ch] (pi.push ch)
  | close {pi} (readopen writeopen : Bool) : PipeInput pi [] [] { pi with readopen := readopen, writeopen := writeopen }

def pipeDevice : StreamDevice Pipe := ⟨pipereadTurn, PipeInput⟩

/-! ### The console -/

/-- `C('D')` -/
def ctrlD : UInt8 := 0x04

/-- `'\n'` -/
def newline : UInt8 := 0x0a

/-- A round of `consoleread`: `n` of the source is `n - i`, and `target` is `n`. -/
def consolereadTurn (co : Cons) (_waiting : Bool) (n : CInt) (i : Nat) : Turn Cons :=
  if n.toInt - i > 0 then
    if co.r = co.w then .block
    else
      let c := co.get co.r
      let co' := { co with r := co.r + 1 }
      if c = ctrlD then
        -- `cons.r--`, if there have been bytes before
        if n.toInt - i < n.toInt then .stop else .eof c co'
      else .byte c co' (c = newline)
  else .stop

/-- The bytes that become readable: those from the old to the new `cons.w`. -/
def Cons.committed (co co' : Cons) : List UInt8 :=
  (List.range (co'.w - co.w).toNat).map fun k => co'.buf ((co.w.toNat + k) % INPUT_BUF_SIZE)

/-- `consoleintr` -/
inductive ConsInput : Cons → List UInt8 → List UInt8 → Cons → Prop
  | intr {co} (c : UInt8) : ConsInput co [c] (co.committed (co.intr c)) (co.intr c)

def consoleDevice : StreamDevice Cons := ⟨consolereadTurn, ConsInput⟩

/-! ### The console as a line editor -/

/-- The console as two lists: what has been committed and is not read yet, and the line that is edited. -/
structure Editor where
  committed : List UInt8
  edit : List UInt8

namespace Editor

/-- The bytes that are not read yet. -/
def unread (x : Editor) : Nat := x.committed.length + x.edit.length

/-- A byte goes to the end of the line. The line is committed by a newline, by control-D, and when there is no more room. -/
def add (x : Editor) (c : UInt8) : Editor :=
  if c = newline ∨ c = ctrlD ∨ x.unread + 1 = INPUT_BUF_SIZE then ⟨x.committed ++ (x.edit ++ [c]), []⟩
  else ⟨x.committed, x.edit ++ [c]⟩

/-- A byte is typed. -/
def type (x : Editor) (c : UInt8) : Editor :=
  if c = 0 ∨ c = 0x10 then x
  else if c = 0x15 then { x with edit := [] }
  else if c = 0x08 ∨ c = 0x7f then { x with edit := x.edit.dropLast }
  else if x.unread < INPUT_BUF_SIZE then x.add (if c = 0x0d then newline else c)
  else x

/-- A read takes a byte of what has been committed, or waits for one: at most `n`, up to a newline; in front of a control-D it
stops, and takes it if it is the first. -/
def turn (x : Editor) (_waiting : Bool) (n : CInt) (i : Nat) : Turn Editor :=
  if (i : Int) < n.toInt then
    match x.committed with
    | [] => .block
    | c :: l =>
      if c = ctrlD then
        if i = 0 then .eof c { x with committed := l } else .stop
      else .byte c { x with committed := l } (c = newline)
  else .stop

/-- What is committed by a byte is new at the end. -/
inductive Input : Editor → List UInt8 → List UInt8 → Editor → Prop
  | type {x} (c : UInt8) {bs} (new : (x.type c).committed = x.committed ++ bs) : Input x [c] bs (x.type c)

def device : StreamDevice Editor := ⟨turn, Input⟩

end Editor

end Xv6
