import Xv6.Param
import Xv6.Shell

/-!
# Redirections (`runcmd` in `sh.c`)

What a process of the shell does with a simple command, up to `exec`; the commands that `fork` are left out. The type `I`
is that of inodes, and `ino` says which of them a word of the line names. The world is the files and the descriptors of the process.
-/

namespace Xv6

open Function (update)

namespace Shell

inductive Node
  | file (data : List UInt8)
  | dir
  | device

/-- An open file. -/
structure Desc (I : Type) where
  ino : I
  off : Nat

structure World (I : Type) where
  node : I → Option Node
  fd : Nat → Option (Desc I)

namespace World

variable {I : Type} [DecidableEq I]

def close (w : World I) (fd : Nat) : World I := { w with fd := update w.fd fd none }

/-- `fdalloc` -/
def fdalloc (w : World I) : Option Nat := (List.range NOFILE).find? fun k => (w.fd k).isNone

/-- The file that `sys_open` finds or creates, and truncates. -/
def openNode (mode : Nat) : Option Node → Option Node
  | none => if mode &&& O_CREATE ≠ 0 then some (.file []) else none
  | some (.file data) => some (.file (if mode &&& O_TRUNC ≠ 0 then [] else data))
  | some .dir => if mode = O_RDONLY then some .dir else none
  | some .device => some .device

/-- `open`; `none` is -1. -/
def openFile (w : World I) (i : I) (mode : Nat) : Option (World I) := do
  let n ← openNode mode (w.node i)
  let k ← w.fdalloc
  return { node := update w.node i (some n), fd := update w.fd k (some ⟨i, 0⟩) }

/-- `bytes` at offset `off`. -/
def patch (data : List UInt8) (off : Nat) (bytes : List UInt8) : List UInt8 :=
  data.take off ++ (bytes ++ data.drop (off + bytes.length))

/-- `write(fd, bytes)` to a file -/
def write (fd : Nat) (w : World I) (bytes : List UInt8) : World I :=
  match w.fd fd with
  | none => w
  | some d =>
    match w.node d.ino with
    | some (.file data) =>
      { node := update w.node d.ino (some (.file (patch data d.off bytes)))
        fd := update w.fd fd (some { d with off := d.off + bytes.length }) }
    | _ => w

end World

/-- The world when `runcmd` comes to `exec`. -/
def runcmd {I : Type} [DecidableEq I] (ino : Word → I) : Cmd → World I → Option (World I)
  | .exec argv, w => if argv = [] then none else some w
  | .redir cmd r, w => ((w.close r.fd).openFile (ino r.file) r.mode).bind (runcmd ino cmd)
  | _, _ => none

end Shell

end Xv6
