import Ucore.Cow.Proc
import Ucore.Cow.Proofs.Accounting
import Ucore.Cow.Proofs.CopyRange
import Ucore.Cow.Proofs.Fault
import Ucore.Cow.Proofs.Fork
import Ucore.Cow.Proofs.Refinement
import Ucore.Cow.Proofs.Rounds
import Ucore.Cow.System
import Ucore.Cow.Vmm
import Ucore.Debug.Kmonitor
import Ucore.Debug.Proofs.Kmonitor
import Ucore.Driver.Console
import Ucore.Driver.Disk0
import Ucore.Driver.Proofs.Console
import Ucore.Exec.LoadIcode
import Ucore.Exec.Proofs.LoadIcode
import Ucore.Exec.Proofs.Pages
import Ucore.Exec.Proofs.Program
import Ucore.Exec.Proofs.Segment
import Ucore.Lib.Bytes
import Ucore.Lib.Call
import Ucore.Lib.Circle
import Ucore.Lib.Count
import Ucore.Lib.Dyadic
import Ucore.Lib.Exact
import Ucore.Lib.Extents
import Ucore.Lib.Family
import Ucore.Lib.Fifo
import Ucore.Lib.Ledger
import Ucore.Lib.Loop
import Ucore.Lib.Ring
import Ucore.Lib.RoundRobin
import Ucore.Lib.Run
import Ucore.Lib.Runs
import Ucore.Lib.Semaphore
import Ucore.Lib.SkewHeap
import Ucore.Lib.Trace
import Ucore.Libs.HeapRun
import Ucore.Libs.List
import Ucore.Libs.Printfmt
import Ucore.Libs.Proofs.ReadBack
import Ucore.Libs.Proofs.Scan
import Ucore.Libs.Proofs.String
import Ucore.Libs.SkewHeap
import Ucore.Libs.String
import Ucore.Mksfs.Host
import Ucore.Mksfs.Mksfs
import Ucore.Mksfs.Place
import Ucore.Mksfs.Proofs.Append
import Ucore.Mksfs.Proofs.Calls
import Ucore.Mksfs.Proofs.Close
import Ucore.Mksfs.Proofs.Entries
import Ucore.Mksfs.Proofs.Kernel
import Ucore.Mksfs.Proofs.Mount
import Ucore.Mksfs.Proofs.Mounted
import Ucore.Mksfs.Proofs.Owned
import Ucore.Mksfs.Proofs.Resolve
import Ucore.Mksfs.Proofs.Sound
import Ucore.Mksfs.Proofs.Stores
import Ucore.Mksfs.Proofs.Tree
import Ucore.Mksfs.Proofs.Walk
import Ucore.Mm.BestFitPmm
import Ucore.Mm.BuddyPmm
import Ucore.Mm.DefaultPmm
import Ucore.Mm.Kmalloc
import Ucore.Mm.Mmu
import Ucore.Mm.Pmm
import Ucore.Mm.Proofs.AddressSpace
import Ucore.Mm.Proofs.BestFitPmm
import Ucore.Mm.Proofs.BestFitSelect
import Ucore.Mm.Proofs.BuddyAgain
import Ucore.Mm.Proofs.BuddyCount
import Ucore.Mm.Proofs.BuddyPmm
import Ucore.Mm.Proofs.CopyRange
import Ucore.Mm.Proofs.CopyString
import Ucore.Mm.Proofs.DefaultPmm
import Ucore.Mm.Proofs.DefaultPmmRun
import Ucore.Mm.Proofs.GetPte
import Ucore.Mm.Proofs.Install
import Ucore.Mm.Proofs.Kmalloc
import Ucore.Mm.Proofs.KmallocSizes
import Ucore.Mm.Proofs.MmMap
import Ucore.Mm.Proofs.PageBlocks
import Ucore.Mm.Proofs.PageMap
import Ucore.Mm.Proofs.PageRef
import Ucore.Mm.Proofs.PageRefRun
import Ucore.Mm.Proofs.PageTable
import Ucore.Mm.Proofs.Slub
import Ucore.Mm.Proofs.VmaList
import Ucore.Mm.Proofs.Vmm
import Ucore.Mm.Slub
import Ucore.Mm.UserMem
import Ucore.Mm.Vmm
import Ucore.Process.Proc
import Ucore.Process.Proofs.Calls
import Ucore.Process.Proofs.Leak
import Ucore.Process.Proofs.Links
import Ucore.Process.Proofs.Pid
import Ucore.Process.Proofs.PidRun
import Ucore.Process.Proofs.Schedule
import Ucore.Process.Proofs.Status
import Ucore.Process.Proofs.System
import Ucore.Process.Proofs.Tables
import Ucore.Process.State
import Ucore.Process.System
import Ucore.Sched.DefaultSched
import Ucore.Sched.Proofs.RunPool
import Ucore.Sched.Proofs.RunQueue
import Ucore.Sched.Proofs.Stride
import Ucore.Sched.Proofs.Timer
import Ucore.Sched.Proofs.Unset
import Ucore.Sched.Schedule
import Ucore.Sched.System
import Ucore.Sched.Timer
import Ucore.Sfs.Account
import Ucore.Sfs.Bitmap
import Ucore.Sfs.Blockio
import Ucore.Sfs.Cache
import Ucore.Sfs.Dir
import Ucore.Sfs.File
import Ucore.Sfs.FreeSet
import Ucore.Sfs.Fs
import Ucore.Sfs.Inode
import Ucore.Sfs.Mount
import Ucore.Sfs.Proofs.Account
import Ucore.Sfs.Proofs.Agree
import Ucore.Sfs.Proofs.Bitmap
import Ucore.Sfs.Proofs.BlockMap
import Ucore.Sfs.Proofs.Blockio
import Ucore.Sfs.Proofs.Blocks
import Ucore.Sfs.Proofs.Cache
import Ucore.Sfs.Proofs.Content
import Ucore.Sfs.Proofs.Counts
import Ucore.Sfs.Proofs.Dir
import Ucore.Sfs.Proofs.Growth
import Ucore.Sfs.Proofs.Reclaim
import Ucore.Sfs.Proofs.Refs
import Ucore.Sfs.Proofs.Resize
import Ucore.Sfs.Proofs.Returns
import Ucore.Sfs.Proofs.Settled
import Ucore.Sfs.Proofs.Size
import Ucore.Sfs.Proofs.Sync
import Ucore.Sfs.Proofs.Targets
import Ucore.Sfs.Proofs.Truncate
import Ucore.Sfs.Size
import Ucore.Swap.Clock
import Ucore.Swap.Manager
import Ucore.Swap.Paging
import Ucore.Swap.Proofs.Alloc
import Ucore.Swap.Proofs.Clock
import Ucore.Swap.Proofs.Data
import Ucore.Swap.Proofs.Fault
import Ucore.Swap.Proofs.Invariant
import Ucore.Swap.Proofs.Lru
import Ucore.Swap.Proofs.Progress
import Ucore.Swap.Proofs.Queue
import Ucore.Swap.Proofs.Separate
import Ucore.Swap.Proofs.Tables
import Ucore.Swap.System
import Ucore.Swap.Vmm
import Ucore.Sync.CheckSync
import Ucore.Sync.Proofs.CheckSync
import Ucore.Sync.Proofs.Sem
import Ucore.Sync.Proofs.System
import Ucore.Sync.Proofs.Table
import Ucore.Sync.Sem
import Ucore.Sync.System
import Ucore.Sync.Table
import Ucore.Trap.Fault
import Ucore.Trap.Proofs.CowFault
import Ucore.Trap.Proofs.Fault
import Ucore.Trap.Proofs.Grant
import Ucore.User.Proofs.Sh
import Ucore.User.Sh
import Ucore.Vfs.Dirent
import Ucore.Vfs.File
import Ucore.Vfs.Lookup
import Ucore.Vfs.Open
import Ucore.Vfs.Procs
import Ucore.Vfs.Proofs.Counts
import Ucore.Vfs.Proofs.Dirent
import Ucore.Vfs.Proofs.File
import Ucore.Vfs.Proofs.Open
import Ucore.Vfs.Proofs.Path
import Ucore.Vfs.Proofs.Procs
import Ucore.Vfs.Proofs.Shared
import Ucore.Vfs.Proofs.Shares
import Ucore.Vfs.Proofs.Stdin
import Ucore.Vfs.Proofs.Sysfile
import Ucore.Vfs.Shared
import Ucore.Vfs.Stdin
import Ucore.Vfs.Sysfile
