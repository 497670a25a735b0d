import PTEditor.Demos.Example
import PTEditor.Demos.MapPageTable
import PTEditor.Demos.MemoryMap
import PTEditor.Demos.VirtToPhys
import PTEditor.Interface.Entry
import PTEditor.Interface.Layouts
import PTEditor.Library.AddressBits
import PTEditor.Library.EntryFields
import PTEditor.Library.Implementations
import PTEditor.Library.MemoryTypeLookup
import PTEditor.Library.MemoryTypeRuns
import PTEditor.Library.MemoryTypes
import PTEditor.Library.PageMap
import PTEditor.Library.Printing
import PTEditor.Library.Slots
import PTEditor.Library.System
import PTEditor.Library.Walk
import PTEditor.Library.WriteBack
import PTEditor.Library.X86Walk
import PTEditor.Linux.Agreement
import PTEditor.Linux.Clients
import PTEditor.Linux.DataFrames
import PTEditor.Linux.Edits
import PTEditor.Linux.KernelEdits
import PTEditor.Linux.LargePages
import PTEditor.Linux.LevelBits
import PTEditor.Linux.LostUpdate
import PTEditor.Linux.MappedWalk
import PTEditor.Linux.MissingProcess
import PTEditor.Linux.MixedRuns
import PTEditor.Linux.MmapLock
import PTEditor.Linux.Mmu
import PTEditor.Linux.PageOffsets
import PTEditor.Linux.PagingRoot
import PTEditor.Linux.PfnViews
import PTEditor.Linux.PhysicalPages
import PTEditor.Linux.Programs
import PTEditor.Linux.Registers
import PTEditor.Linux.Sessions
import PTEditor.Linux.TlbFlush
import PTEditor.Linux.TlbRuns
import PTEditor.Linux.UserBits
import PTEditor.Linux.ValidMask
import PTEditor.Module.Device
import PTEditor.Module.FourLevel
import PTEditor.Module.Invalidation
import PTEditor.Module.Lifecycle
import PTEditor.Module.Locks
import PTEditor.Module.Machine
import PTEditor.Module.Pointers
import PTEditor.Module.Walk
import PTEditor.Theory.ByteMemory
import PTEditor.Theory.CachedReads
import PTEditor.Theory.Columns
import PTEditor.Theory.Enumeration
import PTEditor.Theory.LastWrite
import PTEditor.Theory.OwnedUpdates
import PTEditor.Theory.RadixTree
import PTEditor.Theory.Runs
import PTEditor.Theory.Statements
import PTEditor.Theory.Traces
import PTEditor.Theory.WordFields
import PTEditor.Windows.Driver
import PTEditor.Windows.PageTables
import PTEditor.Windows.Protocol
