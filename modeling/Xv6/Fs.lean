import Xv6.Lib.Bytes
import Xv6.Lib.Prog
import Xv6.Param
import Xv6.Riscv

/-!
# Blocks and inodes (`fs.c`)

The functions of the file system as they run in one transaction, on the blocks as `bread` returns them: `data b` is the
content of block `b` in the buffer cache, and `logged` the blocks given to `log_write`, the last one last. There is one
device. An inode is passed along: `bmap`, `readi`, `writei` and `itrunc` return it as they leave it. `printf` is left out.

A block has `BSIZE` bytes; `data b` has no end, and no function looks beyond.
-/

namespace Xv6

/-! ### `fs.h` -/

def BSIZE : Nat := 1024

def ROOTINO : Nat := 1

def NDIRECT : Nat := 12
def NINDIRECT : Nat := BSIZE / 4
def MAXFILE : Nat := NDIRECT + NINDIRECT

/-- `sizeof(struct dinode)`: four `short`s, the size and the block numbers. -/
def dinodeSize : Nat := 64

/-- Inodes per block. -/
def IPB : Nat := BSIZE / dinodeSize

/-- Bitmap bits per block. -/
def BPB : Nat := BSIZE * 8

def T_DIR : UInt16 := 1
def T_FILE : UInt16 := 2
def T_DEVICE : UInt16 := 3

/-- The super block: where the inode blocks, the bitmap and the data blocks are. `nmeta` is `size - nblocks`. Block numbers
fit into an `int`, the type of the counter in `balloc`. -/
structure Super where
  size : Nat
  ninodes : Nat
  inodestart : Nat
  bmapstart : Nat
  nmeta : Nat
  size_lt : size < 2 ^ 31
  inodes_le : inodestart + ninodes / IPB + 1 ≤ bmapstart
  bitmap_le : bmapstart + size / BPB + 1 ≤ nmeta
  nmeta_le : nmeta ≤ size

namespace Super

/-- The block with inode `i`. -/
def IBLOCK (sb : Super) (i : Nat) : Nat := i / IPB + sb.inodestart

/-- The block with the bit for block `b`. -/
def BBLOCK (sb : Super) (b : Nat) : Nat := b / BPB + sb.bmapstart

end Super

/-- The part of an inode that is on the disk. -/
structure Inode where
  type : UInt16
  major : UInt16
  minor : UInt16
  nlink : UInt16
  size : Nat
  addrs : Fin (NDIRECT + 1) → Nat

namespace Inode

/-- The index of the indirect block in `addrs`. -/
def indirect : Fin (NDIRECT + 1) := Fin.last NDIRECT

/-- The dinode at offset `a` of a block. -/
def get (m : Bytes) (a : Nat) : Inode where
  type := UInt16.ofNat (m.load a 2)
  major := UInt16.ofNat (m.load (a + 2) 2)
  minor := UInt16.ofNat (m.load (a + 4) 2)
  nlink := UInt16.ofNat (m.load (a + 6) 2)
  size := m.load (a + 8) 4
  addrs := fun j => m.load (a + 12 + 4 * j.val) 4

/-- `memmove(dip->addrs, ip->addrs, sizeof(ip->addrs))` -/
def putAddrs (m : Bytes) (a : Nat) (addrs : Fin (NDIRECT + 1) → Nat) : Bytes :=
  (List.finRange (NDIRECT + 1)).foldl (fun m j => m.store (a + 4 * j.val) 4 (addrs j)) m

def put (m : Bytes) (a : Nat) (ip : Inode) : Bytes :=
  putAddrs (((((m.store a 2 ip.type.toNat).store (a + 2) 2 ip.major.toNat).store (a + 4) 2 ip.minor.toNat).store (a + 6) 2
    ip.nlink.toNat).store (a + 8) 4 ip.size) (a + 12) ip.addrs

def setAddr (ip : Inode) (j : Fin (NDIRECT + 1)) (b : Nat) : Inode := { ip with addrs := Function.update ip.addrs j b }

end Inode

structure Fs where
  data : Nat → Bytes
  logged : List Nat

inductive FsPanic
  | freeingFreeBlock
  | bmapOutOfRange
deriving DecidableEq

abbrev FsM := Prog FsPanic Fs

namespace Fs

variable (sb : Super)

/-- The bytes of a buffer are changed. -/
def setBlock (b : Nat) (m : Bytes) : FsM Unit := modify fun s => { s with data := Function.update s.data b m }

def logWrite (b : Nat) : FsM Unit := modify fun s => { s with logged := s.logged ++ [b] }

/-! ### Blocks -/

def bzero (bno : Nat) : FsM Unit := do
  setBlock bno (((← get).data bno).fill 0 BSIZE 0)
  logWrite bno

/-- `m = 1 << (bi % 8)` -/
def bitMask (bi : Nat) : UInt8 := 1 <<< UInt8.ofNat (bi % 8)

/-- The inner loop of `balloc`: the first bit from `bi` on that is not set, among `n`. -/
def ballocScan (m : Bytes) (b size : Nat) : (n bi : Nat) → Option Nat
  | 0, _ => none
  | n + 1, bi =>
    if b + bi < size then
      if m (bi / 8) &&& bitMask bi = 0 then some bi else ballocScan m b size n (bi + 1)
    else
      none

/-- The outer loop of `balloc`, for at most `n` rounds. -/
def ballocLoop : (n b : Nat) → FsM Nat
  | 0, _ => return 0
  | n + 1, b => do
    if b < sb.size then
      let m := (← get).data (sb.BBLOCK b)
      match ballocScan m b sb.size BPB 0 with
      | some bi =>
        setBlock (sb.BBLOCK b) (Function.update m (bi / 8) (m (bi / 8) ||| bitMask bi))
        logWrite (sb.BBLOCK b)
        bzero (b + bi)
        return b + bi
      | none => ballocLoop n (b + BPB)
    else
      return 0

/-- A zeroed block, or 0 if there is none. -/
def balloc : FsM Nat := ballocLoop sb (sb.size / BPB + 1) 0

def bfree (b : Nat) : FsM Unit := do
  let m := (← get).data (sb.BBLOCK b)
  let bi := b % BPB
  if m (bi / 8) &&& bitMask bi = 0 then
    Prog.fail .freeingFreeBlock
  else
    setBlock (sb.BBLOCK b) (Function.update m (bi / 8) (m (bi / 8) &&& ~~~bitMask bi))
    logWrite (sb.BBLOCK b)

/-! ### Inodes -/

/-- Inode `i` as it is on the disk. -/
def dinode (data : Nat → Bytes) (i : Nat) : Inode := Inode.get (data (sb.IBLOCK i)) (i % IPB * dinodeSize)

def iupdate (inum : Nat) (ip : Inode) : FsM Unit := do
  let m := (← get).data (sb.IBLOCK inum)
  setBlock (sb.IBLOCK inum) (ip.put m (inum % IPB * dinodeSize))
  logWrite (sb.IBLOCK inum)

/-- `ialloc` from `inum` on; `memset` and the type write what `iupdate` does. -/
def ialloc (type : UInt16) : (n inum : Nat) → FsM (Option Nat)
  | 0, _ => return none
  | n + 1, inum => do
    if (dinode sb (← get).data inum).type = 0 then
      iupdate sb inum ⟨type, 0, 0, 0, 0, fun _ => 0⟩
      return some inum
    else
      ialloc type n (inum + 1)

/-- The block of `ip` with number `bn`, which is allocated if there is none; 0 if that fails. -/
def bmap (ip : Inode) (bn : Nat) : FsM (Nat × Inode) := do
  if h : bn < NDIRECT then
    let j : Fin (NDIRECT + 1) := ⟨bn, Nat.lt_succ_of_lt h⟩
    if ip.addrs j = 0 then
      let addr ← balloc sb
      if addr = 0 then
        return (0, ip)
      else
        return (addr, ip.setAddr j addr)
    else
      return (ip.addrs j, ip)
  else if bn - NDIRECT < NINDIRECT then
    -- load the indirect block, allocating if necessary
    let blk ← if ip.addrs Inode.indirect = 0 then balloc sb else pure (ip.addrs Inode.indirect)
    if blk = 0 then
      return (0, ip)
    else
      let ip := ip.setAddr Inode.indirect blk
      let a := ((← get).data blk).load (4 * (bn - NDIRECT)) 4
      if a = 0 then
        let addr ← balloc sb
        if addr = 0 then
          return (0, ip)
        else
          setBlock blk (((← get).data blk).store (4 * (bn - NDIRECT)) 4 addr)
          logWrite blk
          return (addr, ip)
      else
        return (a, ip)
  else
    Prog.fail .bmapOutOfRange

/-- The loop over the direct blocks in `itrunc`. -/
def itruncDirect (ip : Inode) : FsM Inode :=
  (List.finRange NDIRECT).foldlM (fun ip i => do
    if ip.addrs i.castSucc ≠ 0 then
      bfree sb (ip.addrs i.castSucc)
      return ip.setAddr i.castSucc 0
    else
      return ip) ip

/-- The loop over the entries of the indirect block. -/
def itruncIndirect (blk : Nat) : FsM Unit :=
  (List.range NINDIRECT).foldlM (fun _ j => do
    let a := ((← get).data blk).load (4 * j) 4
    if a ≠ 0 then
      bfree sb a) ()

def itrunc (inum : Nat) (ip : Inode) : FsM Inode := do
  let ip ← itruncDirect sb ip
  let ip ← if ip.addrs Inode.indirect ≠ 0 then do
      itruncIndirect sb (ip.addrs Inode.indirect)
      bfree sb (ip.addrs Inode.indirect)
      pure (ip.setAddr Inode.indirect 0)
    else
      pure ip
  let ip := { ip with size := 0 }
  iupdate sb inum ip
  return ip

end Fs

/-! ### Copying -/

/-- The source of `writei`: memory of the kernel, or user memory, page by page; a page that `walkaddr` does not find is
`none`. -/
inductive Src
  | kernel (m : Bytes) (a : Nat)
  | user (pages : Nat → Option Bytes) (va : Nat)

/-- A byte of user memory. -/
def pageByte (pages : Nat → Option Bytes) (a : Nat) : Option UInt8 := (pages (a / PGSIZE)).map fun page => page (a % PGSIZE)

/-- `copyin`, to offset `dst` of `m`: whether it succeeds, and `m` as it leaves it. `n` bounds the number of rounds. -/
def copyinPages (pages : Nat → Option Bytes) : (n : Nat) → (m : Bytes) → (dst srcva len : Nat) → Bool × Bytes
  | 0, m, _, _, _ => (true, m)
  | n + 1, m, dst, srcva, len =>
    if len = 0 then
      (true, m)
    else
      let va0 := PGROUNDDOWN srcva
      match pages (va0 / PGSIZE) with
      | none => (false, m)
      | some page =>
        let k := min (PGSIZE - (srcva - va0)) len
        copyinPages pages n (m.copy dst page (srcva - va0) k) (dst + k) (va0 + PGSIZE) (len - k)

/-- `either_copyin(m + dst, user_src, src + tot, len)` -/
def eitherCopyin (src : Src) (tot : Nat) (m : Bytes) (dst len : Nat) : Bool × Bytes :=
  match src with
  | .kernel k a => (true, m.copy dst k (a + tot) len)
  | .user pages va => copyinPages pages len m dst (va + tot) len

/-- The destination of `readi`: memory of the kernel, or user memory of which the first `room` bytes can be written. -/
inductive Dst
  | kernel
  | user (room : Nat)

/-- `either_copyout(user_dst, dst + tot, .., len)`: whether it succeeds, and how many bytes it copies. -/
def eitherCopyout (dst : Dst) (tot len : Nat) : Bool × Nat :=
  match dst with
  | .kernel => (true, len)
  | .user room => if tot + len ≤ room then (true, len) else (false, room - tot)

namespace Fs

variable (sb : Super)

/-- The `n` bytes of a block at offset `a`. -/
def slice (m : Bytes) (a n : Nat) : List UInt8 := (List.range n).map fun i => m (a + i)

/-- The loop of `readi`: the result, and the bytes that have been copied. -/
def readLoop (dst : Dst) (n : Nat) : (turns : Nat) → Inode → (tot off : Nat) → List UInt8 → FsM (Int × List UInt8 × Inode)
  | 0, ip, tot, _, out => return (tot, out, ip)
  | turns + 1, ip, tot, off, out => do
    if tot < n then
      let (addr, ip) ← bmap sb ip (off / BSIZE)
      if addr = 0 then
        return (tot, out, ip)
      else
        let m := min (n - tot) (BSIZE - off % BSIZE)
        let (ok, k) := eitherCopyout dst tot m
        let out := out ++ slice ((← get).data addr) (off % BSIZE) k
        if ok then
          readLoop dst n turns ip (tot + m) (off + m) out
        else
          return (-1, out, ip)
    else
      return (tot, out, ip)

/-- `readi(ip, user_dst, dst, off, n)` -/
def readi (ip : Inode) (dst : Dst) (off n : Nat) : FsM (Int × List UInt8 × Inode) := do
  if off > ip.size ∨ (off + n) % 2 ^ 32 < off then
    return (0, [], ip)
  else
    let n := if off + n > ip.size then ip.size - off else n
    readLoop sb dst n n ip 0 off []

/-- The loop of `writei`: `tot`, `off` and the inode at its end. -/
def writeLoop (src : Src) (n : Nat) : (turns : Nat) → Inode → (tot off : Nat) → FsM (Nat × Nat × Inode)
  | 0, ip, tot, off => return (tot, off, ip)
  | turns + 1, ip, tot, off => do
    if tot < n then
      let (addr, ip) ← bmap sb ip (off / BSIZE)
      if addr = 0 then
        return (tot, off, ip)
      else
        let m := min (n - tot) (BSIZE - off % BSIZE)
        let (ok, blk) := eitherCopyin src tot ((← get).data addr) (off % BSIZE) m
        setBlock addr blk
        if ok then
          logWrite addr
          writeLoop src n turns ip (tot + m) (off + m)
        else
          return (tot, off, ip)
    else
      return (tot, off, ip)

/-- `writei(ip, user_src, src, off, n)` -/
def writei (inum : Nat) (ip : Inode) (src : Src) (off n : Nat) : FsM (Int × Inode) := do
  if off > ip.size ∨ (off + n) % 2 ^ 32 < off then
    return (-1, ip)
  else if (off + n) % 2 ^ 32 > MAXFILE * BSIZE then
    return (-1, ip)
  else
    let (tot, off, ip) ← writeLoop sb src n n ip 0 off
    let ip := if off > ip.size then { ip with size := off } else ip
    iupdate sb inum ip
    return (tot, ip)

/-- What is done to an inode that is locked and so is in memory as it is on the disk. -/
inductive FileOp
  | writei (src : Src) (off n : BitVec 32)
  | itrunc
  | iupdate (major minor nlink : UInt16)
  /-- the last `iput` of an inode without links -/
  | iput

def FileOp.run (inum : Nat) (op : FileOp) : FsM Unit := do
  let ip := dinode sb (← get).data inum
  match op with
  | writei src off n => let _ ← Fs.writei sb inum ip src off.toNat n.toNat
  | itrunc => let _ ← Fs.itrunc sb inum ip
  | iupdate major minor nlink => Fs.iupdate sb inum { ip with major := major, minor := minor, nlink := nlink }
  | iput =>
    let ip ← Fs.itrunc sb inum ip
    Fs.iupdate sb inum { ip with type := 0 }

end Fs

end Xv6
