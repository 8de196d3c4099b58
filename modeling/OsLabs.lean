import OsLabs.Lib.Bytes
import OsLabs.Lib.PointerTree
import OsLabs.Lib.TreeCost
import OsLabs.Lib.TreeDecode
import OsLabs.Inodes.PlaceFile
import OsLabs.Inodes.Allocation
import OsLabs.Inodes.FreeBlocks
import OsLabs.Inodes.PlacedTree
import OsLabs.Inodes.PlacedFile
import OsLabs.Inodes.Budget
import OsLabs.Inodes.IntRange
import OsLabs.Inodes.WalkInsert
import OsLabs.Inodes.Extract
import OsLabs.Inodes.WalkExtract
import OsLabs.Inodes.ImageBounds
import OsLabs.Inodes.StoredFile
import OsLabs.Inodes.ExtractStored
import OsLabs.Inodes.WalkStored
import OsLabs.Inodes.Commands
import OsLabs.Inodes.Layout
import OsLabs.Inodes.Sessions
import OsLabs.Inodes.InodeSlot
import OsLabs.Inodes.SessionRoom
import OsLabs.Inodes.RoundTrip
import OsLabs.Inodes.Encoding
import OsLabs.Inodes.Undisturbed
import OsLabs.Inodes.ImageFile
import OsLabs.Inodes.Uninitialised
import OsLabs.Inodes.UnusedBlocks
import OsLabs.Inodes.ExtractedFiles
import OsLabs.Inodes.ExtractTwice
import OsLabs.Inodes.FoundAgain
import OsLabs.Inodes.RebuildBounds
import OsLabs.Lib.Command
import OsLabs.Xv6.Machine
import OsLabs.Xv6.FreeList
import OsLabs.Lib.Gather
import OsLabs.Xv6.PageTable
import OsLabs.Xv6.Walk
import OsLabs.Xv6.Vm
import OsLabs.Xv6.Mapping
import OsLabs.Xv6.Teardown
import OsLabs.Xv6.KernelMap
import OsLabs.Xv6.Process
import OsLabs.Xv6.UserMap
import OsLabs.Xv6.Fault
import OsLabs.Xv6.Exhausted
import OsLabs.Xv6.UserSpace
import OsLabs.Xv6.EagerHeap
import OsLabs.Xv6.ExecSpace
import OsLabs.Xv6.DemandPaging
import OsLabs.Xv6.UserBreak
import OsLabs.Xv6.AboveBreak
import OsLabs.Xv6.CopyUvm
import OsLabs.Xv6.ProcTable
import OsLabs.Xv6.Ledger
import OsLabs.Xv6.ForkWait
import OsLabs.Xv6.FrameOwners
import OsLabs.Xv6.LazyFork
import OsLabs.Xv6.FaultMemory
import OsLabs.Xv6.AnyBreak
import OsLabs.Lib.Footprint
import OsLabs.Xv6.Estate
import OsLabs.Xv6.ForkStages
import OsLabs.Xv6.EstateOps
import OsLabs.Xv6.Exec
import OsLabs.Xv6.ExecBuild
import OsLabs.Xv6.Calm
import OsLabs.Xv6.FreeTable
import OsLabs.Xv6.AllocHistory
import OsLabs.Xv6.Concurrent
import OsLabs.Xv6.Inspect
import OsLabs.Xv6.InspectRuns
import OsLabs.Lib.Interleaving
import OsLabs.Lib.Barrier
import OsLabs.Life.Board
import OsLabs.Lib.CheckedInt
import OsLabs.Lib.Slices
import OsLabs.Life.WorkSplit
import OsLabs.Life.Threads
import OsLabs.Lib.TextInput
import OsLabs.Life.BoardText
import OsLabs.Life.Rle
import OsLabs.Life.RleDecode
import OsLabs.Life.MakeInput
import OsLabs.Life.Rounds
import OsLabs.Life.Parallel
import OsLabs.Life.Returns
import OsLabs.Life.Serial
import OsLabs.Life.Compose
import OsLabs.Xv6.Lottery
import OsLabs.Xv6.Tickets
import OsLabs.Lib.Schrage
import OsLabs.Xv6.Generator
import OsLabs.Xv6.RandomDraw
import OsLabs.Lib.Draw
import OsLabs.Xv6.Selection
import OsLabs.Xv6.Snapshot
import OsLabs.Lib.Descriptors
import OsLabs.Shell.Words
import OsLabs.Shell.Parse
import OsLabs.Shell.Runs
import OsLabs.Shell.Buffers
import OsLabs.Shell.ParsedLine
import OsLabs.Shell.Simulation
import OsLabs.Shell.Processes
import OsLabs.Shell.Malformed
import OsLabs.Shell.OneShell
import OsLabs.Shell.Plumbing
import OsLabs.Shell.Statuses
import OsLabs.Lib.Locks
import OsLabs.Lib.Handover
import OsLabs.Pool.ThreadPool
import OsLabs.Pool.Locking
import OsLabs.Pool.History
import OsLabs.Pool.RunOnce
import OsLabs.Pool.Wakeup
import OsLabs.Pool.Turns
import OsLabs.Pool.WaitForTask
import OsLabs.Lib.DoublyLinked
import OsLabs.Lib.NodeHeap
import OsLabs.Tutorial.LinkedList
import OsLabs.Tutorial.ListShape
import OsLabs.Tutorial.Queue
import OsLabs.Lib.RedoLog
import OsLabs.Fs.Block
import OsLabs.Fs.Log
import OsLabs.Lib.Totals
import OsLabs.Fs.LogSpace
import OsLabs.Fs.LogOverflow
import OsLabs.Lib.Ring
import OsLabs.Fs.BufferCache
import OsLabs.Fs.BufferRing
import OsLabs.Fs.BufferUses
import OsLabs.Lib.WrappingRing
import OsLabs.Fs.Pipe
import OsLabs.Fs.PipeRuns
import OsLabs.User.Grep
import OsLabs.User.GrepFile
import OsLabs.Fs.LogCrash
import OsLabs.Lib.Cycle
import OsLabs.Lib.Spans
import OsLabs.User.Malloc
import OsLabs.User.MallocBlocks
import OsLabs.User.MallocLoop
import OsLabs.User.MallocRuns
import OsLabs.Fs.FileTable
import OsLabs.Fs.FileProcs
import OsLabs.Fs.FileRefs
import OsLabs.Fs.FileSteps
import OsLabs.Fs.FileRuns
import OsLabs.Fs.Console
import OsLabs.Fs.ConsoleRuns
import OsLabs.Fs.Path
import OsLabs.Fs.PathWalk
