import Xv6.Dev.Completions
import Xv6.Dev.DiskRuns
import Xv6.Dev.LineDiscipline
import Xv6.Dev.Lru
import Xv6.Dev.Transmit
import Xv6.Fs.Append
import Xv6.Fs.Blocks
import Xv6.Fs.Booted
import Xv6.Fs.Built
import Xv6.Fs.ByteArray
import Xv6.Fs.Contents
import Xv6.Fs.Create
import Xv6.Fs.DirMap
import Xv6.Fs.Directory
import Xv6.Fs.Files
import Xv6.Fs.InodeTable
import Xv6.Fs.Layout
import Xv6.Fs.Link
import Xv6.Fs.Logs
import Xv6.Fs.NameLookup
import Xv6.Fs.NamesFail
import Xv6.Fs.OpenFails
import Xv6.Fs.OpenFiles
import Xv6.Fs.Owners
import Xv6.Fs.PartialWrite
import Xv6.Fs.Refs
import Xv6.Fs.Reservation
import Xv6.Fs.Resolve
import Xv6.Fs.SharedOffset
import Xv6.Fs.Walk
import Xv6.Grep.Lines
import Xv6.Grep.Match
import Xv6.Kernel.Bcache
import Xv6.Kernel.Bio
import Xv6.Kernel.Clock
import Xv6.Kernel.Console
import Xv6.Kernel.Cow
import Xv6.Kernel.Dir
import Xv6.Kernel.Exec
import Xv6.Kernel.ExecFile
import Xv6.Kernel.File
import Xv6.Kernel.FileCache
import Xv6.Kernel.FileIo
import Xv6.Kernel.Fs
import Xv6.Kernel.Inode
import Xv6.Kernel.InodeOps
import Xv6.Kernel.Intr
import Xv6.Kernel.Journal
import Xv6.Kernel.Kalloc
import Xv6.Kernel.Log
import Xv6.Kernel.Names
import Xv6.Kernel.Open
import Xv6.Kernel.Pipe
import Xv6.Kernel.PipeRead
import Xv6.Kernel.Proc
import Xv6.Kernel.Riscv
import Xv6.Kernel.Sched
import Xv6.Kernel.Scheduler
import Xv6.Kernel.String
import Xv6.Kernel.System
import Xv6.Kernel.Trap
import Xv6.Kernel.Uart
import Xv6.Kernel.VirtioDisk
import Xv6.Kernel.Vm
import Xv6.Lib.Bitmap
import Xv6.Lib.ByteCopy
import Xv6.Lib.ByteSeq
import Xv6.Lib.ByteStore
import Xv6.Lib.Chain
import Xv6.Lib.Dll
import Xv6.Lib.Letters
import Xv6.Lib.Lines
import Xv6.Lib.Paged
import Xv6.Lib.Paths
import Xv6.Lib.Radix
import Xv6.Lib.RefCount
import Xv6.Lib.Replay
import Xv6.Lib.Ring
import Xv6.Lib.Runs
import Xv6.Lib.Scan
import Xv6.Lib.SlotMap
import Xv6.Lib.Slots
import Xv6.Lib.Spans
import Xv6.Lib.SpinLock
import Xv6.Lib.Tiles
import Xv6.Log.Control
import Xv6.Log.CrashSafe
import Xv6.Log.Disk
import Xv6.Log.Recovery
import Xv6.Log.Reserve
import Xv6.Malloc.Blocks
import Xv6.Malloc.FreeList
import Xv6.Malloc.Heap
import Xv6.Malloc.Program
import Xv6.Malloc.Sbrk
import Xv6.Malloc.Take
import Xv6.Mem.Alloc
import Xv6.Mem.Contents
import Xv6.Mem.FlatMap
import Xv6.Mem.Fork
import Xv6.Mem.Heap
import Xv6.Mem.Image
import Xv6.Mem.Links
import Xv6.Mem.Memmove
import Xv6.Mem.PageTable
import Xv6.Mem.PipeLoss
import Xv6.Mem.Resize
import Xv6.Mem.Share
import Xv6.Mem.Space
import Xv6.Mem.Teardown
import Xv6.Mem.Transfer
import Xv6.Mem.UserAccess
import Xv6.Mem.UserStack
import Xv6.Mem.UserString
import Xv6.Mem.View
import Xv6.Mem.VmSpec
import Xv6.Proc.Calls
import Xv6.Proc.CleanSlot
import Xv6.Proc.Eager
import Xv6.Proc.Events
import Xv6.Proc.ExecArgs
import Xv6.Proc.ExecFail
import Xv6.Proc.ExecLoad
import Xv6.Proc.ForkLeak
import Xv6.Proc.Memory
import Xv6.Proc.NoLeak
import Xv6.Proc.Priority
import Xv6.Proc.Selection
import Xv6.Proc.StoreFault
import Xv6.Proc.Table
import Xv6.Proc.Updates
import Xv6.Proc.WaitxFail
import Xv6.Shell.Command
import Xv6.Shell.Grammar
import Xv6.Shell.Tokens
import Xv6.Sync.Deadlock
import Xv6.Sync.Effect
import Xv6.Sync.ExitWait
import Xv6.Sync.IntrOff
import Xv6.Sync.IntrRuns
import Xv6.Sync.Killed
import Xv6.Sync.Machine
import Xv6.Sync.OneCpu
import Xv6.Sync.PipeFifo
import Xv6.Sync.RunTime
import Xv6.Sync.Stack
import Xv6.Sync.Tree
import Xv6.Sync.Turn
import Xv6.Sync.Wakeup
import Xv6.User.Grep
import Xv6.User.Mkfs
import Xv6.User.Sbrk
import Xv6.User.Sh
import Xv6.User.Ulib
import Xv6.User.Umalloc
