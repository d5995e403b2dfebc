import SimpleOS2.Lib.Run
import SimpleOS2.Lib.Ring
import SimpleOS2.Lib.IntrusiveList
import SimpleOS2.Klib.Memory
import SimpleOS2.Klib.String
import SimpleOS2.Ktl.FreeList
import SimpleOS2.Fs.PipeFS
import SimpleOS2.Memory.KernelHeap
import SimpleOS2.Scheduler.Kill
import SimpleOS2.Memory.PageSystem
import SimpleOS2.Memory.Fork
import SimpleOS2.Scheduler.DescriptorTables
import SimpleOS2.Scheduler.DescriptorRaces
import SimpleOS2.Fs.TempFS
import SimpleOS2.Fs.MountRaces
import SimpleOS2.Fs.MountCounts
import SimpleOS2.Fs.DeleteRaces
import SimpleOS2.Fs.CreateRaces
import SimpleOS2.Fs.WriteProtection
import SimpleOS2.Fs.Directory
import SimpleOS2.Fs.LinkTargets
import SimpleOS2.Fs.Traversal
import SimpleOS2.Syscalls.Users
import SimpleOS2.Locks.QueueLock
import SimpleOS2.Devices.DevFS
import SimpleOS2.Devices.CacheRaces
import SimpleOS2.Klib.Printf
import SimpleOS2.Terminal.Terminal
import SimpleOS2.Libsimpleos2.FreeList
import SimpleOS2.Libsimpleos2.Malloc
import SimpleOS2.Fs.FilePositions
import SimpleOS2.Scheduler.KillHandler
import SimpleOS2.Scheduler.Clone
import SimpleOS2.Fs.NodeCache
import SimpleOS2.Fs.SymLinks
import SimpleOS2.Scheduler.Reclamation
import SimpleOS2.Scheduler.GhostThreads
import SimpleOS2.Scheduler.Sleep
import SimpleOS2.Scheduler.DescriptorCopies
import SimpleOS2.Lib.Progress
import SimpleOS2.Fs.LinkLoops
import SimpleOS2.Fs.Ext2
import SimpleOS2.Lib.Buffer
import SimpleOS2.Klib.BoundedMemory
import SimpleOS2.Fs.PathBuffer
import SimpleOS2.Fs.PathStack
import SimpleOS2.Scheduler.ExitSteps
import SimpleOS2.Scheduler.ExitLoop
import SimpleOS2.Fs.LoneWalk
import SimpleOS2.Fs.FailedOpen
import SimpleOS2.Fs.FileData
import SimpleOS2.Fs.Seek
import SimpleOS2.Lib.Tally
import SimpleOS2.Fs.PipeSlots
import SimpleOS2.Devices.BlockRange
import SimpleOS2.Fs.IndirectBlocks
import SimpleOS2.Fs.Ext2Directory
import SimpleOS2.Fs.MountReach
import SimpleOS2.Fs.NodeCounts
import SimpleOS2.Fs.EntryNames
import SimpleOS2.Fs.DeadNodes
import SimpleOS2.Fs.NodeLifetime
import SimpleOS2.Fs.NewArrays
import SimpleOS2.Memory.UserPages
import SimpleOS2.Memory.PageRuns
import SimpleOS2.Memory.UserRanges
import SimpleOS2.Bootloader.PhysicalMap
import SimpleOS2.Memory.NewNodes
import SimpleOS2.Memory.OutOfMemory
import SimpleOS2.Exec.ELF
import SimpleOS2.Exec.LoadedImage
import SimpleOS2.Devices.PCI
import SimpleOS2.Scheduler.RoundRobin
import SimpleOS2.Lib.Numerals
import SimpleOS2.Klib.NumberFormat
import SimpleOS2.Klib.FormatScan
import SimpleOS2.Fs.FaultingReads
import SimpleOS2.Scheduler.MemSpaces
import SimpleOS2.Exec.ArgumentBlock
import SimpleOS2.Lib.ByteString
import SimpleOS2.Exec.ArgumentStrings
import SimpleOS2.Lib.WordMemory
import SimpleOS2.Devices.PCIConfig
import SimpleOS2.Acpi.Jobs
import SimpleOS2.Acpi.ResourceWalk
import SimpleOS2.Multicore.SMP
import SimpleOS2.Programs.ShellTokens
import SimpleOS2.Programs.ShellEditor
import SimpleOS2.Ktl.AnchorList
import SimpleOS2.Klib.Memmove
import SimpleOS2.Memory.PageSync
import SimpleOS2.Locks.StickyLock
import SimpleOS2.Lib.Fifo
import SimpleOS2.Devices.PS2
import SimpleOS2.Devices.VConsole
import SimpleOS2.Bootloader.Paging
import SimpleOS2.Memory.KernelSpace
import SimpleOS2.Lib.Window
import SimpleOS2.Bootloader.PrepareELF
import SimpleOS2.Syscalls.SyscallGate
import SimpleOS2.Fs.OthersFiles
import SimpleOS2.Interrupts.Vectors
import SimpleOS2.Multicore.StartCores
import SimpleOS2.Programs.Login
