import Xv6.Lib.Trans
import Xv6.Lib.Bytes
import Xv6.Lib.Count
import Xv6.Lib.DList
import Xv6.Lib.Extents
import Xv6.Lib.Exclusive
import Xv6.Lib.Prog
import Xv6.Lib.Refs
import Xv6.Lib.Ring
import Xv6.Lib.Ledger
import Xv6.Param
import Xv6.Riscv
import Xv6.Bio
import Xv6.BufCache
import Xv6.Log
import Xv6.LogReserve
import Xv6.LogDisk
import Xv6.Proc
import Xv6.Sleep
import Xv6.SleepLock
import Xv6.Kalloc
import Xv6.Memmove
import Xv6.Vm
import Xv6.ProcMem
import Xv6.Exec
import Xv6.Pipe
import Xv6.VirtioDisk
import Xv6.Sched
import Xv6.SleepLoops
import Xv6.Fs
import Xv6.FileWrite
import Xv6.SharedWrite
import Xv6.Dir
import Xv6.Namex
import Xv6.Grep
import Xv6.Printf
import Xv6.StreamRead
import Xv6.FileRead
import Xv6.Pipes
import Xv6.Interprocess
import Xv6.CirculateByte
import Xv6.Shell
import Xv6.ShellRun
import Xv6.Vmprint
import Xv6.Umalloc
import Xv6.Proofs.ProcThread
import Xv6.Proofs.ExitWait
import Xv6.Proofs.Kill
import Xv6.Proofs.NoLostWakeup
import Xv6.Proofs.SleepLock
import Xv6.Proofs.LogRecover
import Xv6.Proofs.LogCache
import Xv6.Proofs.LogCrash
import Xv6.Proofs.Pages
import Xv6.Proofs.VmSpec
import Xv6.Proofs.UvmSpec
import Xv6.Proofs.AddrSpace
import Xv6.Proofs.ExecSpec
import Xv6.Proofs.PipeSpec
import Xv6.Proofs.ProcMem
import Xv6.Proofs.SysCalls
import Xv6.Proofs.Boot
import Xv6.Proofs.PageOwner
import Xv6.Proofs.ExecFail
import Xv6.Proofs.ExecStack
import Xv6.Proofs.TableView
import Xv6.Proofs.ExecLoad
import Xv6.Proofs.Pipe
import Xv6.Proofs.Pipes
import Xv6.Proofs.Interprocess
import Xv6.Proofs.CirculateByte
import Xv6.Proofs.CirculateEnd
import Xv6.Proofs.VirtioDisk
import Xv6.Proofs.SchedInv
import Xv6.Proofs.SchedCpu
import Xv6.Proofs.Sched
import Xv6.Proofs.SchedContext
import Xv6.Proofs.SchedIntr
import Xv6.Proofs.SleepLoops
import Xv6.Proofs.SleepTicks
import Xv6.Proofs.BufCache
import Xv6.Proofs.Vmprint
import Xv6.Proofs.UmallocRing
import Xv6.Proofs.UmallocFree
import Xv6.Proofs.Umalloc
import Xv6.Proofs.ShellLex
import Xv6.Proofs.Shell
import Xv6.Proofs.ShellGrammar
import Xv6.Proofs.ShellRun
import Xv6.Proofs.FsBlocks
import Xv6.Proofs.FsOwn
import Xv6.Proofs.FsBmap
import Xv6.Proofs.FsBytes
import Xv6.Proofs.FsWrite
import Xv6.Proofs.FsInode
import Xv6.Proofs.FsTrunc
import Xv6.Proofs.FsFile
import Xv6.Proofs.FsFault
import Xv6.Proofs.FsRun
import Xv6.Proofs.FileWrite
import Xv6.Proofs.PageMap
import Xv6.Proofs.Mappages
import Xv6.Proofs.UserCopy
import Xv6.Proofs.UserCopySpec
import Xv6.Proofs.UserSpace
import Xv6.Proofs.Growproc
import Xv6.Proofs.Uvmcopy
import Xv6.Proofs.StreamRead
import Xv6.Proofs.Isolation
import Xv6.Proofs.Console
import Xv6.Proofs.FileRead
import Xv6.Proofs.SharedWrite
import Xv6.Proofs.Dir
import Xv6.Proofs.Namex
import Xv6.Proofs.Grep
import Xv6.Proofs.Printf
