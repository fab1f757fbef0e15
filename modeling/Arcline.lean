import Arcline.RbTree.Tree
import Arcline.RbTree.Heap
import Arcline.RbTree.Rotate
import Arcline.RbTree.Insert
import Arcline.RbTree.Delete
import Arcline.RbTree.Unlink
import Arcline.RbTree.Search
import Arcline.Run
import Arcline.Word
import Arcline.Mm.Pmm
import Arcline.Mm.Mmu
import Arcline.Mm.Vmm
import Arcline.Chain
import Arcline.Mm.VmaPool
import Arcline.Mm.AddressSpace
import Arcline.Mm.VmmRefine
import Arcline.Mm.PmmInit
import Arcline.Mm.PmmOwn
import Arcline.Mm.DeviceTree
import Arcline.Mm.Reserved
import Arcline.Mm.PmmRuns
import Arcline.Radix
import Arcline.Mm.PageTable
import Arcline.Mm.VmmMap
import Arcline.Mm.MapRuns
import Arcline.Mm.Vmalloc
import Arcline.Tiling
import Arcline.Mm.VmallocSpace
import Arcline.Arch.Arm
import Arcline.Arch.Irq
import Arcline.Arch.Context
import Arcline.RbTree.Queue
import Arcline.Sched.Eevdf
import Arcline.Sched.RunQueue
import Arcline.Sched.QueueRuns
import Arcline.Sched.QueueTree
import Arcline.Sched.Load
import Arcline.Sched.Task
import Arcline.Sched.Lifecycle
import Arcline.Sched.Runs
import Arcline.Sched.Admission
import Arcline.Sched.Pids
import Arcline.Sched.Fairness
import Arcline.Sched.Trace
import Arcline.Sched.Resume
import Arcline.Mm.Backing
import Arcline.Mm.VmallocBounds
import Arcline.Mm.PageMap
import Arcline.Mm.Edits
import Arcline.Mm.Boot
import Arcline.Mm.Window
import Arcline.Mm.Protect
import Arcline.Circular
import Arcline.Kernel.Log
import Arcline.Kernel.LogFifo
import Arcline.Mm.Populate
import Arcline.Mm.KmemRuns
import Arcline.Mm.VmallocPages
import Arcline.Mm.LinearMap
import Arcline.Mm.Coalesce
import Arcline.Sched.Accounting
import Arcline.Dtb.Gic
import Arcline.Dtb.Ram
import Arcline.Dtb.Stdout
import Arcline.Dtb.StdoutTokens
import Arcline.Dtb.NodeSearch
import Arcline.Dtb.Uart
import Arcline.Dtb.Resolve
import Arcline.Dtb.UartNode
import Arcline.Kernel.LogDrain
import Arcline.Kernel.Printk
import Arcline.Kernel.PrintkNumeral
import Arcline.Kernel.PrintkFormat
import Arcline.Kernel.SysWrite
import Arcline.Mm.BestFit
import Arcline.Mm.ReserveRange
import Arcline.Dtb.Nesting
import Arcline.Mm.VmmWrap
import Arcline.Fuel
import Arcline.Dtb.Cursor
import Arcline.Bytes
import Arcline.Lib.String
import Arcline.Exclusive
import Arcline.Kernel.Spinlock
import Arcline.Kernel.PidLock
import Arcline.Sched.Waiting
import Arcline.Tlb
import Arcline.Mm.TlbRuns
import Arcline.Kernel.IrqSave
import Arcline.Sched.FirstRun
import Arcline.Kernel.Syscall
import Arcline.Arch.Gic
import Arcline.Kernel.Gic
import Arcline.Kernel.Interrupt
import Arcline.Arch.Uart
import Arcline.Kernel.Serial
import Arcline.Arch.Switches
