import RiscvKernel.Lib.Transducer
import RiscvKernel.Lib.Bytes
import RiscvKernel.Lib.LinkedList
import RiscvKernel.Lib.PointerTree
import RiscvKernel.Lib.FifoQueue
import RiscvKernel.Io
import RiscvKernel.TermOutput
import RiscvKernel.TermInput
import RiscvKernel.SleepLock
import RiscvKernel.FlatDisk
import RiscvKernel.Vioblk
import RiscvKernel.Kfs
import RiscvKernel.KfsFile
import RiscvKernel.KfsRun
import RiscvKernel.KfsSlots
import RiscvKernel.Mkfs
import RiscvKernel.RoundTrip
import RiscvKernel.Memory
import RiscvKernel.PageTree
import RiscvKernel.AddressSpace
import RiscvKernel.MapPage
import RiscvKernel.SpaceClone
import RiscvKernel.DeepCopy
import RiscvKernel.MemoryInit
import RiscvKernel.Unmap
import RiscvKernel.PageOwnership
import RiscvKernel.Thread
import RiscvKernel.Scheduler
import RiscvKernel.SchedulerInv
import RiscvKernel.ThreadTree
import RiscvKernel.StepFrame
import RiscvKernel.LockExclusion
import RiscvKernel.DriverView
import RiscvKernel.Lib.RingBuffer
import RiscvKernel.Uart
import RiscvKernel.Alarm
import RiscvKernel.DiskDriver
import RiscvKernel.RequestProtocol
import RiscvKernel.LockBalance
import RiscvKernel.CallReturn
import RiscvKernel.InterruptState
import RiscvKernel.UserSpace
import RiscvKernel.Lib.Rv64
import RiscvKernel.TrapEntry
import RiscvKernel.LineEndings
import RiscvKernel.TermWrite
import RiscvKernel.TermLine
import RiscvKernel.KfsRounds
import RiscvKernel.Literal
import RiscvKernel.TransferBounds
import RiscvKernel.TransferFailure
import RiscvKernel.Uninitialised
import RiscvKernel.VirtualMemory
import RiscvKernel.ElfLoad
import RiscvKernel.ElfScan
import RiscvKernel.ExecFailure
import RiscvKernel.Lib.PathLookup
import RiscvKernel.UserImage
import RiscvKernel.UserRange
import RiscvKernel.ElfSegments
import RiscvKernel.SegmentOverlap
import RiscvKernel.ElfBounds
import RiscvKernel.RangeCoverage
import RiscvKernel.ElfImage
import RiscvKernel.SleepTime
import RiscvKernel.TimerCompare
import RiscvKernel.VirtioFeatures
import RiscvKernel.EzHeap
import RiscvKernel.BlockSize
import RiscvKernel.IoTable
import RiscvKernel.UserIoctl
import RiscvKernel.KfsLookup
import RiscvKernel.RoundRobin
import RiscvKernel.ChildWait
import RiscvKernel.StackReturn
import RiscvKernel.PageAllocator
import RiscvKernel.UserUnmap
import RiscvKernel.SpaceReclaim
import RiscvKernel.PageFault
import RiscvKernel.PointUpdate
import RiscvKernel.FullTransfer
import RiscvKernel.LineBuffer
import RiscvKernel.DeviceTable
import RiscvKernel.FormatScan
import RiscvKernel.BootMap
import RiscvKernel.TrapReturn
import RiscvKernel.TrapThread
import RiscvKernel.Syscall
import RiscvKernel.Lib.References
import RiscvKernel.RefCount
import RiscvKernel.DiskView
import RiscvKernel.KfsStack
import RiscvKernel.FileSession
import RiscvKernel.StoredProgram
import RiscvKernel.ThreadSwitch
import RiscvKernel.KernelTrap
import RiscvKernel.Lib.Rv64Priv
import RiscvKernel.TimerTrap
import RiscvKernel.UserEntry
import RiscvKernel.Plic
import RiscvKernel.Interrupts
import RiscvKernel.KfsConcurrent
import RiscvKernel.UserIsolation
import RiscvKernel.FileCalls
import RiscvKernel.Lib.Vring
import RiscvKernel.VirtQueue
import RiscvKernel.FormattedOutput
