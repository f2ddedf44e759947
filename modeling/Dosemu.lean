import Dosemu.Lib.MachineInt
import Dosemu.Lib.Page
import Dosemu.Lib.Zipper
import Dosemu.Lib.Tiling
import Dosemu.Lib.Run
import Dosemu.Lib.Outcome
import Dosemu.Lib.Table
import Dosemu.Lib.RunMarks
import Dosemu.Lib.ByteCopy
import Dosemu.Lib.CopySeq
import Dosemu.Lib.BitWords
import Dosemu.Lib.KeyedList
import Dosemu.Smalloc.Model
import Dosemu.Smalloc.Layout
import Dosemu.Smalloc.Spec
import Dosemu.Smalloc.Alloc
import Dosemu.Smalloc.Invariant
import Dosemu.Smalloc.Atomicity
import Dosemu.Smalloc.Commit
import Dosemu.Smalloc.Search
import Dosemu.Smalloc.Aligned
import Dosemu.Smalloc.Contents
import Dosemu.Smalloc.AlignedContents
import Dosemu.Pgalloc.Model
import Dosemu.Pgalloc.Runs
import Dosemu.Pgalloc.Calls
import Dosemu.Xms.Model
import Dosemu.Xms.A20
import Dosemu.Xms.Accounting
import Dosemu.Xms.Windows
import Dosemu.Ems.Model
import Dosemu.Ems.Bookkeeping
import Dosemu.Ems.Steps
import Dosemu.Ems.Aliasing
import Dosemu.Ems.RoundTrip
import Dosemu.Ems.Handles
import Dosemu.Simx86.LazyFlags
import Dosemu.Simx86.Direction
import Dosemu.Simx86.BitString
import Dosemu.Simx86.Divide
import Dosemu.Simx86.FarTransfer
import Dosemu.Lib.DoWhile
import Dosemu.Simx86.StringOps
import Dosemu.Lib.CarryChain
import Dosemu.Simx86.AluFlags
import Dosemu.Simx86.Alu
import Dosemu.Simx86.CodeMarks
import Dosemu.Simx86.QueryMark
import Dosemu.Simx86.PageProtect
import Dosemu.Simx86.QueryProtect
import Dosemu.Simx86.Nodes
import Dosemu.Simx86.Links
import Dosemu.Simx86.NodeSearch
import Dosemu.Simx86.FindNode
import Dosemu.Simx86.Invalidate
import Dosemu.Lib.Circular
import Dosemu.Queues.Spscq
import Dosemu.Lib.Deque
import Dosemu.Queues.Ring
import Dosemu.Lib.Memory
import Dosemu.Lib.MruMap
import Dosemu.Queues.Seqbuf
import Dosemu.Lib.LockOrder
import Dosemu.Mfs.Exlocks
import Dosemu.Mfs.ShareModes
import Dosemu.Mfs.Paths
import Dosemu.Mfs.Redirect
import Dosemu.Mfs.RegionLocks
import Dosemu.Mfs.Positions
import Dosemu.Mfs.Truename
import Dosemu.Mfs.Canonical
import Dosemu.Mfs.Searches
import Dosemu.Mfs.PathCache
import Dosemu.Mfs.Normalize
import Dosemu.Mfs.WildMatch
import Dosemu.Mfs.WildDelete
import Dosemu.Lib.BitFields
import Dosemu.Dpmi.Ldt
import Dosemu.Dpmi.Selectors
import Dosemu.Dpmi.Switch
import Dosemu.Dpmi.Ownership
import Dosemu.Dpmi.ShmLock
import Dosemu.Dpmi.ClientSwitch
import Dosemu.Disks.Model
import Dosemu.Disks.Sectors
import Dosemu.Lib.BitRuns
import Dosemu.Dpmi.LdtMonitor
import Dosemu.Dpmi.DosMemory
import Dosemu.Dpmi.DosBlocks
import Dosemu.Lib.PushDown
import Dosemu.Dpmi.Frames
import Dosemu.Dpmi.FrameReturns
import Dosemu.Lib.BitStream
import Dosemu.Lib.WordMem
import Dosemu.Disks.FatTable
import Dosemu.Lib.Stacks
import Dosemu.Lib.PathWalk
import Dosemu.Core.Hlt
import Dosemu.Lib.HeadedList
import Dosemu.Core.Fhmap
import Dosemu.Core.Charset
import Dosemu.Core.Cpi
import Dosemu.Core.Pit
import Dosemu.Core.Rtc
import Dosemu.Coopth.Model
import Dosemu.Coopth.Accounting
import Dosemu.Coopth.Bodies
import Dosemu.Coopth.Scheduler
import Dosemu.Coopth.Cancel
import Dosemu.Msdos.MemMap
import Dosemu.Msdos.XmsMove
import Dosemu.Msdos.InstrLen
import Dosemu.Lib.Shadow
import Dosemu.Mapping.Model
import Dosemu.Mapping.Records
import Dosemu.Mapping.Translate
import Dosemu.Mapping.FindHole
import Dosemu.Mapping.MapFile
import Dosemu.Dpmi.HwRam
import Dosemu.Dpmi.PmBlocks
import Dosemu.Dpmi.PmAccounting
import Dosemu.Pic.Model
import Dosemu.Pic.Cascade
import Dosemu.Pic.Nesting
import Dosemu.Pic.Service
import Dosemu.Pic.Lines
import Dosemu.Pic.Virq
import Dosemu.Pic.Vtmr
import Dosemu.Pic.VtmrRequests
import Dosemu.Pic.VtmrTicks
import Dosemu.Lib.Fifo
import Dosemu.Lib.Wildcard
import Dosemu.Lib.Calendar
import Dosemu.Serial.Model
import Dosemu.Serial.RxFifo
import Dosemu.Serial.Interrupts
import Dosemu.Dma.Model
import Dosemu.Dma.Service
import Dosemu.Dma.Pulses
import Dosemu.Vga.Access
import Dosemu.Vga.DosCopy
import Dosemu.Vga.BulkMemory
import Dosemu.Xms.Move
import Dosemu.Ems.Transfer
import Dosemu.Msdos.SegCopy
