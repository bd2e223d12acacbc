import Xv6.Dir

/-!
# The inode table and path lookup (`fs.c`)

`iget`, `idup`, `ilock`, `iunlock`, `iput` and, over them and `dirlookup`, `namex`, as one process runs them in a transaction:
a sleep lock that is held stays held (`deadlock`). There is one device.

A path is the list of the bytes of the string, without its NUL; a pointer into it is the list from there on. `name` is the
buffer of the caller, with whatever was in it before.
-/

namespace Xv6

/-- An entry of the inode table. -/
structure Incore where
  inum : Nat
  ref : Nat
  valid : Bool
  locked : Bool
  ip : Inode

structure Itable where
  fs : Fs
  inode : Fin NINODE → Incore

inductive NamePanic
  | dir (e : DirPanic)
  | igetNoInodes
  | ilock
  | ilockNoType
  | iunlock
  | deadlock
deriving DecidableEq

abbrev NameM := Prog NamePanic Itable

namespace Itable

variable (sb : Super)

def set (s : Itable) (i : Fin NINODE) (x : Incore) : Itable := { s with inode := Function.update s.inode i x }

/-- Runs a function of `fs.c` on the blocks. -/
def onFs {α : Type} (x : DirM α) : NameM α :=
  Prog.zoom (·.fs) (fun t s => { s with fs := t }) (Prog.mapError .dir x)

/-- The loop of `iget` over the entries `is`: the entry for `inum`, or the first empty one. -/
def igetLoop (inode : Fin NINODE → Incore) (inum : Nat) :
    (is : List (Fin NINODE)) → (empty : Option (Fin NINODE)) → Option (Fin NINODE) × Option (Fin NINODE)
  | [], empty => (none, empty)
  | i :: is, empty =>
    if (inode i).ref > 0 ∧ (inode i).inum = inum then (some i, empty)
    else igetLoop inode inum is (if empty.isNone ∧ (inode i).ref = 0 then some i else empty)

def iget (inum : Nat) : NameM (Fin NINODE) := do
  let s ← get
  match igetLoop s.inode inum (List.finRange NINODE) none with
  | (some i, _) =>
    modify fun s => s.set i { s.inode i with ref := (s.inode i).ref + 1 }
    return i
  | (none, some i) =>
    modify fun s => s.set i { s.inode i with inum := inum, ref := 1, valid := false }
    return i
  | (none, none) => Prog.fail .igetNoInodes

def idup (i : Fin NINODE) : NameM (Fin NINODE) := do
  modify fun s => s.set i { s.inode i with ref := (s.inode i).ref + 1 }
  return i

def ilock (i : Fin NINODE) : NameM Unit := do
  let x := (← get).inode i
  if x.ref < 1 then
    Prog.fail .ilock
  else if x.locked then
    Prog.fail .deadlock
  else if x.valid then
    modify fun s => s.set i { s.inode i with locked := true }
  else
    let ip := Inode.get ((← get).fs.data (sb.IBLOCK x.inum)) (x.inum % IPB * dinodeSize)
    modify fun s => s.set i { s.inode i with locked := true, ip := ip, valid := true }
    if ip.type = 0 then
      Prog.fail .ilockNoType

def iunlock (i : Fin NINODE) : NameM Unit := do
  let x := (← get).inode i
  if x.locked = false ∨ x.ref < 1 then
    Prog.fail .iunlock
  else
    modify fun s => s.set i { s.inode i with locked := false }

def iput (i : Fin NINODE) : NameM Unit := do
  let x := (← get).inode i
  if x.ref = 1 ∧ x.valid ∧ x.ip.nlink = 0 then
    if x.locked then
      Prog.fail .deadlock
    else
      let ip ← onFs (Prog.mapError .fs (Fs.itrunc sb x.inum x.ip))
      let ip := { ip with type := 0 }
      onFs (Prog.mapError .fs (Fs.iupdate sb x.inum ip))
      modify fun s => s.set i { s.inode i with ip := ip, valid := false }
  modify fun s => s.set i { s.inode i with ref := (s.inode i).ref - 1 }

def iunlockput (i : Fin NINODE) : NameM Unit := do
  iunlock i
  iput sb i

end Itable

/-! ### Paths -/

/-- `'/'` -/
def slash : UInt8 := 0x2f

/-- `while(*path == '/') path++` -/
def skipSlashes (path : List UInt8) : List UInt8 := path.dropWhile (· = slash)

/-- `memmove(name, s, ..)` of the `len` bytes of an element, with the NUL of a short one -/
def copyElem (name : Bytes) (elem : List UInt8) : Bytes :=
  if elem.length ≥ DIRSIZ then fun k => if k < DIRSIZ then elem.getD k 0 else name k
  else fun k => if k < elem.length then elem.getD k 0 else if k = elem.length then 0 else name k

/-- `skipelem(path, name)`: the rest of the path and `name`, or nothing. -/
def skipelem (path : List UInt8) (name : Bytes) : Option (List UInt8 × Bytes) :=
  let s := skipSlashes path
  if s = [] then none
  else some (skipSlashes (s.dropWhile (· ≠ slash)), copyElem name (s.takeWhile (· ≠ slash)))

namespace Itable

variable (sb : Super)

/-- The loop of `namex`, for at most `turns` rounds: what `namex` returns, and `name`. -/
def namexLoop (nameiparent : Bool) : (turns : Nat) → (ip : Fin NINODE) → (path : List UInt8) → (name : Bytes) →
    NameM (Option (Fin NINODE) × Bytes)
  | 0, _, _, name => return (none, name)
  | turns + 1, ip, path, name => do
    match skipelem path name with
    | none =>
      if nameiparent then
        iput sb ip
        return (none, name)
      else
        return (some ip, name)
    | some (path, name) =>
      ilock sb ip
      if ((← get).inode ip).ip.type ≠ T_DIR then
        iunlockput sb ip
        return (none, name)
      else if nameiparent && path.isEmpty then
        iunlock ip
        return (some ip, name)
      else
        let (found, dp) ← onFs (Fs.dirlookup sb ((← get).inode ip).ip name)
        modify fun s => s.set ip { s.inode ip with ip := dp }
        match found with
        | none =>
          iunlockput sb ip
          return (none, name)
        | some (inum, _) =>
          let next ← iget inum
          iunlockput sb ip
          namexLoop nameiparent turns next path name

def namex (cwd : Fin NINODE) (path : List UInt8) (nameiparent : Bool) (name : Bytes) : NameM (Option (Fin NINODE) × Bytes) := do
  let ip ← if path.head? = some slash then iget ROOTINO else idup cwd
  namexLoop sb nameiparent (path.length + 1) ip path name

/-- `namei(path)`; `name` is what its buffer holds -/
def namei (cwd : Fin NINODE) (path : List UInt8) (name : Bytes) : NameM (Option (Fin NINODE)) := do
  let (ip, _) ← namex sb cwd path false name
  return ip

def nameiparent (cwd : Fin NINODE) (path : List UInt8) (name : Bytes) : NameM (Option (Fin NINODE) × Bytes) :=
  namex sb cwd path true name

end Itable

end Xv6
