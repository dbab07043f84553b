import Borrrdex.Boot.CommandLine
import Borrrdex.Boot.Madt
import Borrrdex.Boot.PciScan
import Borrrdex.Boot.Smp
import Borrrdex.Boot.Symbols
import Borrrdex.Devices.KernelLog
import Borrrdex.Devices.Keyboard
import Borrrdex.Devices.LogFormat
import Borrrdex.Devices.Pty
import Borrrdex.Devices.PtyRead
import Borrrdex.Devices.PtyWrite
import Borrrdex.Fs.BlockCache
import Borrrdex.Fs.BlockMap
import Borrrdex.Fs.DevFs
import Borrrdex.Fs.DirBounds
import Borrrdex.Fs.DotNames
import Borrrdex.Fs.Ext2Mount
import Borrrdex.Fs.Ext2Nodes
import Borrrdex.Fs.Ext2Read
import Borrrdex.Fs.FindDir
import Borrrdex.Fs.InodeTable
import Borrrdex.Fs.NodeLock
import Borrrdex.Fs.PathBytes
import Borrrdex.Fs.Pipe
import Borrrdex.Fs.PipeSleep
import Borrrdex.Fs.ReadDescriptor
import Borrrdex.Fs.ReadDir
import Borrrdex.Fs.ReadFile
import Borrrdex.Fs.RelativePath
import Borrrdex.Fs.Symlinks
import Borrrdex.Fs.TarDirs
import Borrrdex.Fs.TarFlat
import Borrrdex.Fs.TarRead
import Borrrdex.Fs.TarSafety
import Borrrdex.Fs.TarWalk
import Borrrdex.Fterm.Cursor
import Borrrdex.Fterm.Escape
import Borrrdex.Gfx.DrawRect
import Borrrdex.Gfx.MemcpyOptimized
import Borrrdex.Kstd.CharBuffer
import Borrrdex.Kstd.CharLines
import Borrrdex.Kstd.CharQueue
import Borrrdex.Kstd.Itoa
import Borrrdex.Kstd.LruOrder
import Borrrdex.Kstd.ReadWriteLock
import Borrrdex.Kstd.RefCounted
import Borrrdex.Kstd.Semaphore
import Borrrdex.Kstd.Strncpy
import Borrrdex.Lib.AreaRows
import Borrrdex.Lib.ArrayHeap
import Borrrdex.Lib.Assembly
import Borrrdex.Lib.BoundedQueue
import Borrrdex.Lib.CounterLoop
import Borrrdex.Lib.DoubleLinks
import Borrrdex.Lib.FlatMemory
import Borrrdex.Lib.LeastPool
import Borrrdex.Lib.Lines
import Borrrdex.Lib.LinkedWalk
import Borrrdex.Lib.OwnContexts
import Borrrdex.Lib.Prefixes
import Borrrdex.Lib.RingLog
import Borrrdex.Lib.StoredRecords
import Borrrdex.Memory.BoundaryTags
import Borrrdex.Memory.HeapLayout
import Borrrdex.Memory.HighFrames
import Borrrdex.Memory.KernelHalf
import Borrrdex.Memory.KernelMalloc
import Borrrdex.Memory.Liballoc
import Borrrdex.Memory.Malloc
import Borrrdex.Memory.MallocRuns
import Borrrdex.Memory.MemoryMap
import Borrrdex.Memory.PageMapLife
import Borrrdex.Memory.Windows
import Borrrdex.Mm.AddressSpaceRuns
import Borrrdex.Mm.Clone
import Borrrdex.Mm.DemandPaging
import Borrrdex.Mm.Teardown
import Borrrdex.Proc.ElfSegments
import Borrrdex.Proc.ElfStack
import Borrrdex.Proc.ElfStrings
import Borrrdex.Proc.StackTrace
import Borrrdex.Sched.AnotherTimer
import Borrrdex.Sched.Block
import Borrrdex.Sched.EarlyExpiry
import Borrrdex.Sched.Gc
import Borrrdex.Sched.QueueBalance
import Borrrdex.Sched.RemoveThreads
import Borrrdex.Sched.RoundRobin
import Borrrdex.Sched.RunQueues
import Borrrdex.Sched.TimerCancel
import Borrrdex.Sched.TimerPair
import Borrrdex.Sched.TimerWait
import Borrrdex.Storage.AhciCalls
import Borrrdex.Storage.AhciCommands
import Borrrdex.Storage.Device
import Borrrdex.Storage.Gpt
import Borrrdex.Storage.Prdt
import Borrrdex.Syscalls.HandleAccounting
import Borrrdex.Syscalls.Privileges
import Borrrdex.Syscalls.Seek
import Borrrdex.Fterm.Console
