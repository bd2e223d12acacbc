import Mathlib

/-!
# Kernel parameters

The constants of `param.h`, `fs.h` and `mkfs.c` that the models below compute with.
-/

namespace Xv6

/-! ### `param.h` -/

def NPROC : Nat := 64
def NOFILE : Nat := 16
def NFILE : Nat := 100
def MAXARG : Nat := 32
def NINODE : Nat := 50
def ROOTDEV : Nat := 1
def MAXOPBLOCKS : Nat := 10
def LOGSIZE : Nat := MAXOPBLOCKS * 3
def NBUF : Nat := MAXOPBLOCKS * 3

/-! ### `mkfs.c` -/

/-- `nlog`: the number of log blocks `mkfs` puts into the super block, the header included. -/
def nlog : Nat := LOGSIZE

end Xv6
