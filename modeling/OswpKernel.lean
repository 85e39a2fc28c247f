import OswpKernel.Base
import OswpKernel.Lib.Chain
import OswpKernel.Lib.SlotRing
import OswpKernel.Lib.Execution
import OswpKernel.Lib.Loop
import OswpKernel.Lib.Tiling
import OswpKernel.Lib.Sharing
import OswpKernel.Lib.Bytes
import OswpKernel.Lib.LocalArray
import OswpKernel.Lib.Budget
import OswpKernel.Allocator.Basic
import OswpKernel.Allocator.Refinement
import OswpKernel.Allocator.Runs
import OswpKernel.Allocator.History
import OswpKernel.Allocator.Boot
import OswpKernel.Allocator.AfterPaging
import OswpKernel.Scheduler.Basic
import OswpKernel.Scheduler.Table
import OswpKernel.Scheduler.Refinement
import OswpKernel.Scheduler.Validity
import OswpKernel.Scheduler.Runs
import OswpKernel.Scheduler.Wait
import OswpKernel.Scheduler.Wakeup
import OswpKernel.Scheduler.Conservation
import OswpKernel.Scheduler.Fairness
import OswpKernel.Scheduler.Kill
import OswpKernel.Scheduler.Steps
import OswpKernel.Scheduler.Slices
import OswpKernel.Scheduler.Foreground
import OswpKernel.Paging.Entry
import OswpKernel.Paging.Machine
import OswpKernel.Paging.Mapping
import OswpKernel.Paging.KernelMap
import OswpKernel.Paging.Boot
import OswpKernel.Paging.PageTables
import OswpKernel.Paging.Started
import OswpKernel.Paging.Process
import OswpKernel.Paging.Roles
import OswpKernel.Paging.UserTables
import OswpKernel.Paging.Pages
import OswpKernel.Paging.CopyPage
import OswpKernel.Paging.Teardown
import OswpKernel.Paging.Fault
import OswpKernel.Paging.Isolation
import OswpKernel.Paging.Unmap
import OswpKernel.Paging.MapRange
import OswpKernel.Paging.MapExact
import OswpKernel.Paging.CopyOnWrite
import OswpKernel.Paging.Duplicate
import OswpKernel.Paging.KernelHalf
import OswpKernel.Paging.UserPages
import OswpKernel.Paging.ForkedMemory
import OswpKernel.Terminal.Keyboard
import OswpKernel.Terminal.Lines
import OswpKernel.Terminal.Screen
import OswpKernel.Terminal.Numbers
import OswpKernel.Terminal.Typing
import OswpKernel.Terminal.Console
import OswpKernel.Timer.Clock
import OswpKernel.Timer.Sleep
import OswpKernel.Disk.Transfer
import OswpKernel.Files.Node
import OswpKernel.Files.Read
import OswpKernel.Files.Proc
import OswpKernel.Files.Archive
import OswpKernel.Files.Names
import OswpKernel.Files.Tree
import OswpKernel.Files.LoadTarfs
import OswpKernel.Files.FindFile
import OswpKernel.Files.Descriptors
import OswpKernel.Files.Lookup
import OswpKernel.Files.Sessions
import OswpKernel.Files.LoadedTree
import OswpKernel.UserHeap.Basic
import OswpKernel.UserHeap.Invariant
import OswpKernel.UserHeap.Runs
import OswpKernel.UserHeap.FreeList
import OswpKernel.Exec.ArgStack
import OswpKernel.Exec.Areas
import OswpKernel.Exec.Replace
import OswpKernel.Exec.ForkedAreas
import OswpKernel.Exec.Load
import OswpKernel.Exec.ElfImage
import OswpKernel.Libc.Printf
import OswpKernel.Libc.Fgets
import OswpKernel.Libc.Tokenize
import OswpKernel.Libc.Strings
import OswpKernel.Files.Block
import OswpKernel.Files.Unlink
import OswpKernel.Files.Splitters
import OswpKernel.Files.Boot
import OswpKernel.Files.Bounds
import OswpKernel.Files.Command
import OswpKernel.Shell.Turn
import OswpKernel.Shell.Session
import OswpKernel.Files.Cwd
import OswpKernel.Files.DirArray
import OswpKernel.Files.CloseDir
import OswpKernel.Files.Enumerate
import OswpKernel.Files.Leaks
import OswpKernel.Files.Write
import OswpKernel.Files.Repeated
import OswpKernel.Files.Unique
