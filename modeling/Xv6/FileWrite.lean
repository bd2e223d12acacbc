import Xv6.Fs

/-!
# `filewrite` (`file.c`)

The branch for `FD_INODE`: the write is cut into chunks, and each chunk is a transaction of its own. Between two chunks
`env` stands for what other processes do to the file system, the inode and the offset of the open file. Each transaction is
recorded in `ops`, with what it finds when it has locked the inode and the blocks it gives to `log_write`.
-/

namespace Xv6

/-- What a chunk finds. -/
structure World where
  data : Nat → Bytes
  ip : Inode
  off : Nat

structure Writer where
  world : World
  ops : List (World × List Nat)

namespace Writer

variable (sb : Super) (inum : Nat) (env : Nat → World → World) (pages : Nat → Option Bytes) (addr : Nat)

/-- `max` -/
def maxChunk : Nat := (MAXOPBLOCKS - 1 - 1 - 2) / 2 * BSIZE

/-- `writei` between `begin_op` and `end_op`. -/
def transact (i n1 : Nat) : Prog FsPanic Writer (Int × Inode) := do
  let w := (← get).world
  Prog.zoom (fun s => { data := s.world.data, logged := [] })
    (fun t s => { world := { s.world with data := t.data }, ops := s.ops ++ [(w, t.logged)] })
    (Fs.writei sb inum w.ip (.user pages (addr + i)) w.off n1)

/-- The body of the loop, with the value of `r`. -/
def chunk (i n1 : Nat) : Prog FsPanic Writer Int := do
  modify fun s => { s with world := env i s.world }
  let (r, ip) ← transact sb inum pages addr i n1
  modify fun s => { s with world := { s.world with ip := ip, off := if r > 0 then s.world.off + r.toNat else s.world.off } }
  return r

/-- The loop, for at most `turns` rounds; the value of `i` at its end. -/
def loop (n : Int) : (turns : Nat) → (i : Nat) → Prog FsPanic Writer Nat
  | 0, i => return i
  | turns + 1, i => do
    if i < n then
      let n1 := if n - i > maxChunk then maxChunk else (n - i).toNat
      let r ← chunk sb inum env pages addr i n1
      if r ≠ n1 then
        return i
      else
        loop n turns (i + n1)
    else
      return i

def filewrite (n : Int) : Prog FsPanic Writer Int := do
  let i ← loop sb inum env pages addr n n.toNat 0
  return if i = n then n else -1

end Writer

end Xv6
