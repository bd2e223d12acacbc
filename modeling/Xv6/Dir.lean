import Xv6.Fs

/-!
# Directories (`fs.c`)

`dirlookup` and `dirlink` on the blocks of `Xv6.Fs`. A name is what a `char *` points to: its bytes from there on.
The directory `dp` is passed along like any inode. `iget` and `iput` of the inode that is found are left out here: it is
its number that is returned, with the offset of the entry.
-/

namespace Xv6

def DIRSIZ : Nat := 14

/-- `sizeof(struct dirent)`: a `ushort` and the name. -/
def direntSize : Nat := 2 + DIRSIZ

/-- `strncmp(p, q, n)`, from byte `i` on -/
def strncmp (p q : Bytes) : (n i : Nat) → Int
  | 0, _ => 0
  | n + 1, i => if p i ≠ 0 ∧ p i = q i then strncmp p q n (i + 1) else (p i).toNat - (q i).toNat

/-- What `strncpy` writes: the bytes of `t` from `i` on up to a NUL, and from there NULs, `n` in all. -/
def strncpy (t : Bytes) : (n i : Nat) → List UInt8
  | 0, _ => []
  | n + 1, i => if t i = 0 then List.replicate (n + 1) 0 else t i :: strncpy t n (i + 1)

def namecmp (s t : Bytes) : Int := strncmp s t DIRSIZ 0

structure Dirent where
  inum : Nat
  name : Bytes

namespace Dirent

/-- The entry at `m`. -/
def get (m : Bytes) : Dirent := ⟨m.load 0 2, fun k => m (2 + k)⟩

/-- The bytes of an entry. -/
def put (inum : Nat) (name : List UInt8) : Bytes :=
  fun k => if k < 2 then Bytes.store (fun _ => 0) 0 2 inum k else name.getD (k - 2) 0

end Dirent

inductive DirPanic
  | fs (e : FsPanic)
  | dirlookupNotDir
  | dirlookupRead
  | dirlinkRead
  | unlinkWritei
deriving DecidableEq

abbrev DirM := Prog DirPanic Fs

namespace Fs

variable (sb : Super)

/-- `readi(dp, 0, &de, off, sizeof(de))`, with `panic` if it is not all of it -/
def readDirent (panic : DirPanic) (dp : Inode) (off : Nat) : DirM (Dirent × Inode) := do
  let (r, out, dp) ← Prog.mapError .fs (readi sb dp .kernel off direntSize)
  if r ≠ direntSize then
    Prog.fail panic
  else
    return (Dirent.get fun k => out.getD k 0, dp)

/-- The loop of `dirlookup`, for at most `turns` rounds: number and offset of the entry. -/
def dirlookupLoop (name : Bytes) : (turns : Nat) → Inode → (off : Nat) → DirM (Option (Nat × Nat) × Inode)
  | 0, dp, _ => return (none, dp)
  | turns + 1, dp, off => do
    if off < dp.size then
      let (de, dp) ← readDirent sb .dirlookupRead dp off
      if de.inum = 0 then
        dirlookupLoop name turns dp (off + direntSize)
      else if namecmp name de.name = 0 then
        return (some (de.inum, off), dp)
      else
        dirlookupLoop name turns dp (off + direntSize)
    else
      return (none, dp)

def dirlookup (dp : Inode) (name : Bytes) : DirM (Option (Nat × Nat) × Inode) := do
  if dp.type ≠ T_DIR then
    Prog.fail .dirlookupNotDir
  else
    dirlookupLoop sb name dp.size dp 0

/-- The loop of `dirlink` that looks for an empty entry: the offset at its end. -/
def dirlinkLoop : (turns : Nat) → Inode → (off : Nat) → DirM (Nat × Inode)
  | 0, dp, off => return (off, dp)
  | turns + 1, dp, off => do
    if off < dp.size then
      let (de, dp) ← readDirent sb .dirlinkRead dp off
      if de.inum = 0 then
        return (off, dp)
      else
        dirlinkLoop turns dp (off + direntSize)
    else
      return (off, dp)

/-- `dirlink(dp, name, inum)`, for the directory with number `dnum` -/
def dirlink (dnum : Nat) (dp : Inode) (name : Bytes) (inum : Nat) : DirM (Int × Inode) := do
  let (found, dp) ← dirlookup sb dp name
  if found.isSome then
    return (-1, dp)
  else
    let (off, dp) ← dirlinkLoop sb dp.size dp 0
    let (r, dp) ← Prog.mapError .fs (writei sb dnum dp (.kernel (Dirent.put inum (strncpy name DIRSIZ 0)) 0) off direntSize)
    if r ≠ direntSize then
      return (-1, dp)
    else
      return (0, dp)

/-- The part of `sys_unlink` that removes an entry: `false` if there is none. -/
def removeEntry (dnum : Nat) (dp : Inode) (name : Bytes) : DirM (Bool × Inode) := do
  let (found, dp) ← dirlookup sb dp name
  match found with
  | none => return (false, dp)
  | some (_, off) =>
    let (r, dp) ← Prog.mapError .fs (writei sb dnum dp (.kernel (fun _ => 0) 0) off direntSize)
    if r ≠ direntSize then
      Prog.fail .unlinkWritei
    else
      return (true, dp)

end Fs

end Xv6
