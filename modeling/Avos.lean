import Avos.Bootloader.AddressTag
import Avos.Bootloader.ConsolePrintNum
import Avos.Bootloader.DiskBounds
import Avos.Bootloader.DiskIO
import Avos.Bootloader.E820
import Avos.Bootloader.Elf
import Avos.Bootloader.FindBlock
import Avos.Bootloader.Header
import Avos.Bootloader.LoadKernel
import Avos.Bootloader.LoadKernelFile
import Avos.Bootloader.LoadModules
import Avos.Bootloader.MemoryMap
import Avos.Bootloader.ModeSearch
import Avos.Bootloader.Outcomes
import Avos.Bootloader.PageAligned
import Avos.Bootloader.PreferredMode
import Avos.Bootloader.ReadCommand
import Avos.Bootloader.Record
import Avos.Bootloader.RecordRuns
import Avos.Bootloader.Relocate
import Avos.Bootloader.RsdpSearch
import Avos.Bootloader.SaveInfo
import Avos.Bootloader.Saved
import Avos.Bootloader.Savers
import Avos.Bootloader.SectionRequests
import Avos.Bootloader.SectionTag
import Avos.Bootloader.SegmentLoad
import Avos.Bootloader.Services
import Avos.Bootloader.TagOrder
import Avos.Bootloader.Vbr
import Avos.Clib.Memchr
import Avos.Clib.String
import Avos.Devices.Apic
import Avos.Devices.ApicTables
import Avos.Devices.Console
import Avos.Devices.IoApic
import Avos.Devices.Keyboard
import Avos.Devices.Print
import Avos.Devices.PrintNum
import Avos.Devices.Routing
import Avos.Devices.Terminal
import Avos.Devices.Typing
import Avos.Initialize.Gates
import Avos.Initialize.StartUp
import Avos.Library.Buddy
import Avos.Library.ByteMemory
import Avos.Library.Chains
import Avos.Library.Holder
import Avos.Library.Intervals
import Avos.Library.Links
import Avos.Library.Loops
import Avos.Library.Numerals
import Avos.Library.Search
import Avos.Library.SearchLoop
import Avos.Library.Seqlock
import Avos.Library.Transition
import Avos.Library.Walk
import Avos.Memory.Boot
import Avos.Memory.Calls
import Avos.Memory.Handover
import Avos.Memory.Invariant
import Avos.Memory.KernelImage
import Avos.Memory.PageLock
import Avos.Memory.PageMaps
import Avos.Memory.PhysMem
import Avos.Memory.Refinement
import Avos.Memory.Safety
import Avos.Paging.Clone
import Avos.Paging.Copy
import Avos.Paging.EndPoint
import Avos.Paging.Entries
import Avos.Paging.Flags
import Avos.Paging.Isolation
import Avos.Paging.Ownership
import Avos.Paging.Paging
import Avos.Paging.Protection
import Avos.Paging.Ranges
import Avos.Paging.Spaces
import Avos.Paging.Terminate
import Avos.Paging.Translate
import Avos.Paging.UserMap
import Avos.Synch.IRQLock
import Avos.Synch.Timer
import Avos.Tasking.AddressSpace
import Avos.Tasking.Context
import Avos.Tasking.Machine
import Avos.Tasking.Return
import Avos.Taskmaster.Fork
import Avos.Taskmaster.ForkFails
import Avos.Taskmaster.Handoff
import Avos.Taskmaster.Lookup
import Avos.Taskmaster.OneCpu
import Avos.Taskmaster.ProcessTable
import Avos.Taskmaster.ProcessTree
import Avos.Taskmaster.RoundRobin
import Avos.Taskmaster.SleepLock
import Avos.Taskmaster.TaskCode
import Avos.Taskmaster.TaskSteps
import Avos.Taskmaster.Tasks
import Avos.Taskmaster.Vetos
import Avos.Taskmaster.Wait
import Avos.Taskmaster.Wakeup
