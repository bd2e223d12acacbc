import Xv6.Fs
import Xv6.StreamRead

/-!
# `fileread` (`file.c`)

For a pipe or the console the call is one of `Xv6.StreamRead`, and `stream` is what it returned and the memory it left; for
an inode it is `readi`. An open file has one of the three types, so `panic("fileread")` is not among them.
-/

namespace Xv6

def NDEV : Nat := 10

def CONSOLE : Nat := 1

/-- `f->type`, with `f->major` of a device. -/
inductive FileKind
  | pipe
  | device (major : Int)
  | inode
deriving DecidableEq

structure FileReader where
  fs : Fs
  off : Nat
  mem : UserMem

/-- How many of the `n` addresses from `a` on are mapped before the first that is not. -/
def UserMem.room (m : UserMem) : (a n : Nat) → Nat
  | _, 0 => 0
  | a, n + 1 => if (m a).isSome then m.room (a + 1) n + 1 else 0

namespace FileReader

/-- The branch for `FD_INODE`, with the inode locked. `readi` takes `n` as a `uint`. -/
def readInode (sb : Super) (ip : Inode) (addr : Nat) (n : CInt) : Prog FsPanic FileReader Int := do
  let w ← get
  let (r, out, _) ← Prog.zoom (·.fs) (fun t s => { s with fs := t })
    (Fs.readi sb ip (.user (w.mem.room addr n.toNat)) w.off n.toNat)
  modify fun s => { s with mem := (s.mem.copyout addr out).2 }
  if r > 0 then
    modify fun s => { s with off := (s.off + r.toNat) % 2 ^ 32 }
  return r

def fileread (sb : Super) (readable : Bool) (kind : FileKind) (ip : Inode) (stream : Int × UserMem) (addr : Nat) (n : CInt) :
    Prog FsPanic FileReader Int := do
  if readable = false then
    return -1
  else
    match kind with
    | .pipe =>
      modify fun s => { s with mem := stream.2 }
      return stream.1
    | .device major =>
      -- `devsw` has a `read` for the console only
      if major < 0 ∨ major ≥ NDEV ∨ major ≠ CONSOLE then
        return -1
      else
        modify fun s => { s with mem := stream.2 }
        return stream.1
    | .inode => readInode sb ip addr n

end FileReader

end Xv6
