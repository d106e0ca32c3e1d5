import LizardOs.Lib.Prog
import LizardOs.Lib.Bytes
import LizardOs.Lib.Chain
import LizardOs.Lib.FoldStop
import LizardOs.Lib.Steps
import LizardOs.Lib.Blocks
import LizardOs.Lib.Rotation
import LizardOs.Lib.ForLoop
import LizardOs.Lib.InsertionSort
import LizardOs.Dev.Framebuffer
import LizardOs.Dev.Blit
import LizardOs.Lib.Memmove
import LizardOs.Dev.Pic
import LizardOs.Dev.Interrupts
import LizardOs.Dev.Scroll
import LizardOs.Fat.Types
import LizardOs.Fat.Names
import LizardOs.Fat.FatTable
import LizardOs.Fat.Directory
import LizardOs.Fat.Files
import LizardOs.Fat.Namespace
import LizardOs.Fat.Slots
import LizardOs.Fat.Readdir
import LizardOs.Fat.ScansAgree
import LizardOs.Fat.Layout
import LizardOs.Fat.Extend
import LizardOs.Fat.FileBytes
import LizardOs.Fat.DirOps
import LizardOs.Fat.FileWrites
import LizardOs.Fat.Faults
import LizardOs.Fat.Mount
import LizardOs.Fat.TableRuns
import LizardOs.Fat.ChainFree
import LizardOs.Fat.WriteThenRead
import LizardOs.Fat.FailedWrite
import LizardOs.Fat.WriteFaults
import LizardOs.Fat.FailedCreate
import LizardOs.Fat.LookOnly
import LizardOs.Fat.WalkEnds
import LizardOs.Fat.ClusterRanges
import LizardOs.Lib.Built
import LizardOs.Fat.Confined
import LizardOs.Fat.ChainInside
import LizardOs.Fat.StrayChain
import LizardOs.Fat.Tree
import LizardOs.Fat.NameForm
import LizardOs.Fat.Ownership
import LizardOs.Fat.SlotChange
import LizardOs.Fat.OpSpecs
import LizardOs.Fat.ByteArray
import LizardOs.Fat.ChainSafety
import LizardOs.Fat.UniqueNames
import LizardOs.Fat.CreateFind
import LizardOs.Block.Cache
import LizardOs.Block.PartialWrite
import LizardOs.Block.Partition
import LizardOs.Block.Manager
import LizardOs.Block.AtaDisk
import LizardOs.Lib.RadixTree
import LizardOs.Lib.RingBuffer
import LizardOs.Mm.Buddy
import LizardOs.Mm.BuddySafety
import LizardOs.Mm.BuddyBoot
import LizardOs.Mm.Slab
import LizardOs.Mm.SlabSafety
import LizardOs.Mm.Heap
import LizardOs.Mm.SlabBooks
import LizardOs.Mm.PageTable
import LizardOs.Mm.PageMap
import LizardOs.Mm.PageFree
import LizardOs.Mm.PageUnmap
import LizardOs.Mm.KernelSpace
import LizardOs.Proc.Loader
import LizardOs.Proc.LoadSafety
import LizardOs.Proc.UserMemory
import LizardOs.Proc.StartupStack
import LizardOs.Proc.LoadImage
import LizardOs.Proc.Spawn
import LizardOs.Vfs.Dentry
import LizardOs.Sched.Task
import LizardOs.Sched.System
import LizardOs.Sched.Scheduler
import LizardOs.Sched.RoundRobin
import LizardOs.Sched.NoStarvation
import LizardOs.Sched.Yield
import LizardOs.Sched.ProcessTree
import LizardOs.Sched.Wait
import LizardOs.Sched.Effects
import LizardOs.Sched.WakeUp
import LizardOs.Tty.Stdin
import LizardOs.Tty.Readers
import LizardOs.Tty.ReadLine
import LizardOs.Tty.Cursor
import LizardOs.Tty.Display
import LizardOs.Tty.InputRings
import LizardOs.Nolibc.DecimalOutput
import LizardOs.Lib.LinkedRing
import LizardOs.Nolibc.ListHead
import LizardOs.Sched.TaskLinks
import LizardOs.Lib.SpinLock
import LizardOs.Vfs.FsRegistry
import LizardOs.Sched.Context
import LizardOs.Lib.BlockChain
import LizardOs.User.Malloc
import LizardOs.User.MallocSafety
import LizardOs.User.MallocSize
import LizardOs.User.HeapBytes
import LizardOs.User.HeapHeaders
import LizardOs.User.ReallocData
import LizardOs.User.Printf
import LizardOs.User.PrintfSink
import LizardOs.User.PrintfDirective
import LizardOs.User.PrintfInteger
import LizardOs.User.PrintfLength
import LizardOs.User.StdioFile
import LizardOs.User.Scanf
import LizardOs.User.ScanRead
import LizardOs.User.ScanPrint
import LizardOs.User.Strtol
import LizardOs.User.Qsort
import LizardOs.Vfs.RefCounts
import LizardOs.Vfs.FatVolume
import LizardOs.Vfs.Sessions
import LizardOs.Vfs.WalkersAgree
import LizardOs.Vfs.Handles
import LizardOs.Vfs.PathFolding
import LizardOs.Vfs.ResolveInto
import LizardOs.Vfs.ShortNames
import LizardOs.Sched.Alive
import LizardOs.Syscall.Sleep
import LizardOs.Syscall.TaskDeath
import LizardOs.Syscall.WorkingDir
import LizardOs.User.StreamPosition
import LizardOs.Time.Calendar
import LizardOs.Time.Clocks
import LizardOs.Time.DosTime
import LizardOs.Boot.Head
import LizardOs.Boot.BootTables
import LizardOs.Boot.MemoryMap
import LizardOs.Boot.KernelSwitch
import LizardOs.Boot.LoadKernel
import LizardOs.Lib.Words
import LizardOs.Lib.Paper
import LizardOs.User.Shell
import LizardOs.User.Lines
import LizardOs.Proc.Arguments
