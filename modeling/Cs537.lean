import Cs537.Lib.Machine
import Cs537.Lib.Threads
import Cs537.Lib.Linearizability
import Cs537.Lib.CInt
import Cs537.KvStore.Common
import Cs537.KvStore.Ring
import Cs537.KvStore.RingSafety
import Cs537.KvStore.Table
import Cs537.KvStore.TableInvariant
import Cs537.KvStore.TableSafety
import Cs537.KvStore.System
import Cs537.KvStore.Window
import Cs537.KvStore.WindowSafety
import Cs537.KvStore.Serial
import Cs537.Lib.Minimum
import Cs537.Xv6.Proc
import Cs537.Xv6.Scheduler
import Cs537.Xv6.SchedulerSafety
import Cs537.Xv6.Mutex
import Cs537.Xv6.MutexSafety
import Cs537.Lib.Bytes
import Cs537.Lib.Splice
import Cs537.Wfs.Disk
import Cs537.Wfs.Ops
import Cs537.Wfs.View
import Cs537.Wfs.Pointers
import Cs537.Wfs.FileStep
import Cs537.Wfs.Write
import Cs537.Wfs.Exits
import Cs537.Wfs.Lookup
import Cs537.Wfs.Read
import Cs537.Wfs.WellFormed
import Cs537.Wfs.RoundTrip
import Cs537.Wfs.Bounds
import Cs537.Wfs.Mkfs
import Cs537.Wfs.Directory
import Cs537.Wfs.Search
import Cs537.Wfs.Create
import Cs537.Wfs.Creation
import Cs537.Wfs.LongNames
import Cs537.Wfs.Consistent
import Cs537.Wfs.FileSystem
import Cs537.Wfs.Resolve
import Cs537.Wfs.Clear
import Cs537.Wfs.Failure
import Cs537.Wfs.Sparse
import Cs537.Wfs.Times
import Cs537.Wfs.Growth
import Cs537.Lib.LeastFree
import Cs537.Wfs.Bitmap
import Cs537.Lib.Stdio
import Cs537.KvStore.Client
import Cs537.KvStore.Split
import Cs537.Xv6.MutexCalls
import Cs537.Xv6.Nice
import Cs537.Xv6.Sleep
import Cs537.Xv6.LockBounds
import Cs537.Xv6.LockLists
import Cs537.Xv6.MutexExclusion
import Cs537.Wfs.Check
import Cs537.Wfs.Release
import Cs537.Wfs.Removal
import Cs537.Wfs.Unlink
import Cs537.Wfs.Restore
import Cs537.Wfs.Orderly
import Cs537.Wfs.Listing
import Cs537.Xv6.Vm
import Cs537.Xv6.RefCounts
import Cs537.Xv6.VmCalls
import Cs537.Xv6.RefCountsSafety
import Cs537.Xv6.Sizes
import Cs537.Lib.Pool
import Cs537.Wmap.Files
import Cs537.Wmap.Process
import Cs537.Wmap.Effects
import Cs537.Wmap.Trap
import Cs537.Wmap.Placement
import Cs537.Wmap.Search
import Cs537.Wmap.Resize
import Cs537.Wmap.Others
import Cs537.Wmap.Copy
import Cs537.Wmap.Bytes
import Cs537.Wmap.ZeroFill
import Cs537.Wmap.WriteBack
import Cs537.Wmap.LoadOnly
import Cs537.Wmap.Teardown
import Cs537.Wmap.ExitLoop
import Cs537.Wmap.System
import Cs537.Wmap.Books
import Cs537.Wmap.Ledger
import Cs537.Wmap.FileRefs
import Cs537.Wmap.Move
import Cs537.Wmap.MoveBack
import Cs537.Wmap.Unmap
import Cs537.Wmap.Frames
import Cs537.Wmap.NullFile
import Cs537.Wmap.Marking
import Cs537.Wmap.Fork
import Cs537.Wmap.Counts
import Cs537.Wmap.Offsets
import Cs537.Lib.RedoLog
import Cs537.Lib.Ownership
import Cs537.Lib.Circle
import Cs537.Lib.Fifo
import Cs537.Lib.Cycle
import Cs537.Fs.Log
import Cs537.Fs.LogRoom
import Cs537.Fs.LogSafety
import Cs537.Fs.LogRecovery
import Cs537.Fs.Inode
import Cs537.Fs.Blocks
import Cs537.Fs.Mapping
import Cs537.Fs.Content
import Cs537.Fs.Files
import Cs537.Fs.Truncate
import Cs537.Fs.Store
import Cs537.Fs.Bio
import Cs537.Fs.BioSafety
import Cs537.Fs.BioLog
import Cs537.Fs.Pipe
import Cs537.Fs.PipeSafety
import Cs537.Fs.Console
import Cs537.Sh.Parse
import Cs537.Sh.Tokens
import Cs537.Sh.Grammar
import Cs537.Sh.Accept
import Cs537.Sh.Print
import Cs537.Sh.Run
import Cs537.User.Malloc
import Cs537.User.FreeList
import Cs537.User.MallocSafety
import Cs537.Lib.Prefixes
import Cs537.User.Grep
import Cs537.User.GrepLines
import Cs537.Lib.Slots
import Cs537.Fs.Directory
import Cs537.Fs.Tree
import Cs537.Fs.Icache
import Cs537.Fs.Paths
