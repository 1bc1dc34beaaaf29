import Unidos.Lib.Memory
import Unidos.Lib.Bitmap
import Unidos.Lib.Scan
import Unidos.Machine
import Unidos.Pmm.Basic
import Unidos.Pmm.Bits
import Unidos.Pmm.Regions
import Unidos.Lib.Run
import Unidos.Pmm.Alloc
import Unidos.Pmm.Invariant
import Unidos.Pmm.Init
import Unidos.Pmm.Coverage
import Unidos.Pmm.Seq
import Unidos.Paging.Boot
import Unidos.MemInit
import Unidos.Lib.PageTable
import Unidos.Lib.Ledger
import Unidos.Pmm.Frames
import Unidos.Lib.Chain
import Unidos.Paging.Map
import Unidos.Mm.Basic
import Unidos.Mm.Frames
import Unidos.Mm.Create
import Unidos.Mm.Regions
import Unidos.Mm.Destroy
import Unidos.Mm.Fill
import Unidos.Mm.MapRegion
import Unidos.Mm.Clone
import Unidos.Mm.Runs
import Unidos.Mm.Isolation
import Unidos.Io.Basic
import Unidos.Sched.Basic
import Unidos.Sched.Frame
import Unidos.Sched.States
import Unidos.Sched.Ring
import Unidos.Paging.Query
import Unidos.Sched.Exec
import Unidos.Sched.Runs
import Unidos.Sched.RunQueue
import Unidos.Sched.Sleep
import Unidos.Lib.Lists
import Unidos.Sched.Processes
import Unidos.Sched.Threads
import Unidos.Sched.Live
import Unidos.Sched.Wait
import Unidos.Sched.Tree
import Unidos.Sched.Waitpid
import Unidos.Sched.Deliver
import Unidos.Lib.RefCount
import Unidos.Io.Refs
import Unidos.Lib.Errors
import Unidos.Mm.Traps
import Unidos.Sched.Traps
import Unidos.Sched.Files
import Unidos.Pmm.Coalesce
import Unidos.Pmm.Window
import Unidos.Lib.Translate
import Unidos.Paging.PageMap
import Unidos.Paging.NewTable
import Unidos.Mm.Limits
import Unidos.Mm.Load
import Unidos.Dpage.Basic
import Unidos.Dpage.Frames
import Unidos.Dpage.Element
import Unidos.Dpage.Clean
import Unidos.Dpage.Elements
import Unidos.Dpage.Owners
import Unidos.Lib.Crc
import Unidos.Boot.Crc
import Unidos.Boot.Loader
import Unidos.Boot.MemorySize
import Unidos.Lib.CStrings
import Unidos.Kva.Registry
import Unidos.Kva.MapRegion
import Unidos.Sched.Deadline
import Unidos.Sched.RoundRobin
import Unidos.Uaccess.Copy
import Unidos.Sched.SysWait
import Unidos.Sched.SysWrite
import Unidos.Paging.BootMap
import Unidos.Startup
import Unidos.Remap
import Unidos.Sched.UserBuffers
import Unidos.Boot.Fat12
import Unidos.Pmm.NextFit
import Unidos.Mm.VmaList
import Unidos.Io.Blkdev
import Unidos.Lib.LittleEndian
import Unidos.Boot.E820
import Unidos.Console.Vga
import Unidos.BootReturns
import Unidos.KernelLayout
import Unidos.RemapReturns
import Unidos.Allocatable
import Unidos.Lib.Stack
import Unidos.Isr.Entry
