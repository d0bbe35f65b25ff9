import Ralix.Arch.BootCode
import Ralix.Arch.BootEntry
import Ralix.Arch.BootMmu
import Ralix.Arch.BootTables
import Ralix.Arch.Exception
import Ralix.Arch.Handover
import Ralix.Arch.Preemption
import Ralix.Drivers.Bounds
import Ralix.Drivers.Framebuffer
import Ralix.Drivers.Gic
import Ralix.Drivers.Keyboard
import Ralix.Drivers.Mailbox
import Ralix.Drivers.Pl011
import Ralix.Drivers.Property
import Ralix.Drivers.Screen
import Ralix.Dtb.Blob
import Ralix.Dtb.CellCounts
import Ralix.Dtb.DeepNodes
import Ralix.Dtb.Examined
import Ralix.Dtb.FourRanges
import Ralix.Dtb.LongPaths
import Ralix.Dtb.MemoryNodes
import Ralix.Dtb.Number
import Ralix.Dtb.OrderFree
import Ralix.Dtb.Parse
import Ralix.Dtb.ParseTree
import Ralix.Dtb.Reads
import Ralix.Dtb.RegTree
import Ralix.Dtb.Reorder
import Ralix.Dtb.Safety
import Ralix.Dtb.ScanTree
import Ralix.Dtb.SimpleFb
import Ralix.Dtb.SimpleFbTree
import Ralix.Dtb.Tree
import Ralix.Dtb.Uart
import Ralix.Dtb.UartOrder
import Ralix.Dtb.UartSpots
import Ralix.Dtb.UartTree
import Ralix.Dtb.Walker
import Ralix.Gfx.Font
import Ralix.Kernel.BringUp
import Ralix.Kernel.Calls
import Ralix.Kernel.Contexts
import Ralix.Kernel.Files
import Ralix.Kernel.GlobalAllocator
import Ralix.Kernel.Heap
import Ralix.Kernel.HeapRuns
import Ralix.Kernel.History
import Ralix.Kernel.Irq
import Ralix.Kernel.IrqSpec
import Ralix.Kernel.Lock
import Ralix.Kernel.Multicore
import Ralix.Kernel.Online
import Ralix.Kernel.PrivateFiles
import Ralix.Kernel.Process
import Ralix.Kernel.RoundRobin
import Ralix.Kernel.Runs
import Ralix.Kernel.Scheduler
import Ralix.Kernel.SchedulerSpec
import Ralix.Kernel.SetState
import Ralix.Kernel.Sleep
import Ralix.Kernel.Smp
import Ralix.Kernel.Syscall
import Ralix.Kernel.Ticks
import Ralix.Kernel.TicksSpec
import Ralix.Kernel.Vfs
import Ralix.Kernel.Write
import Ralix.Lib.AArch64
import Ralix.Lib.Along
import Ralix.Lib.Assembly
import Ralix.Lib.Bitmap
import Ralix.Lib.Exec
import Ralix.Lib.Extent
import Ralix.Lib.GlobalAlloc
import Ralix.Lib.Keyed
import Ralix.Lib.Loop
import Ralix.Lib.Object
import Ralix.Lib.Ring
import Ralix.Lib.Stack
import Ralix.Lib.TaggedMessage
import Ralix.Lib.Trace
import Ralix.Lib.Translation
import Ralix.Lib.Word
import Ralix.Lib.Writes
import Ralix.Mm.Attributes
import Ralix.Mm.BootChunks
import Ralix.Mm.BootRange
import Ralix.Mm.Contiguous
import Ralix.Mm.Frame
import Ralix.Mm.FrameRuns
import Ralix.Mm.FrameSpec
import Ralix.Mm.Init
import Ralix.Mm.InitSpec
import Ralix.Mm.L2Pool
import Ralix.Mm.Layout
import Ralix.Mm.Managed
import Ralix.Mm.Mapping
import Ralix.Mm.NormalForm
import Ralix.Mm.Paging
import Ralix.Mm.PagingSpec
import Ralix.Mm.Region
import Ralix.Mm.RegionSpec
import Ralix.Mm.Spans
import Ralix.Platform.Board
import Ralix.User.Echo
import Ralix.User.Session
import Ralix.User.Shell
