import FrostyOS.HeapReclaim
import FrostyOS.HeapAccounting
import FrostyOS.UserHeapSafety
import FrostyOS.FrameStartup
import FrostyOS.EffectivePermissions
import FrostyOS.SignalNesting
import FrostyOS.RecursiveDelete
import FrostyOS.Unmounting
import FrostyOS.AccessRule
import FrostyOS.StreamBookkeeping
import FrostyOS.BoundedBypass
import FrostyOS.ThreadCount
import FrostyOS.Semaphore
import FrostyOS.AVLDelete
import FrostyOS.LiveAllocations
import FrostyOS.PS2Keyboard
import FrostyOS.KeyboardInput
import FrostyOS.SymbolTable
import FrostyOS.IntegerConformance
import FrostyOS.MessageSafety
import FrostyOS.ELFSegments
import FrostyOS.ArchiveLoading
import FrostyOS.FrameCounter
import FrostyOS.FrameInterleaving
import FrostyOS.PageCounters
import FrostyOS.SpaceReuse
import FrostyOS.TableReturn
import FrostyOS.Calendar
import FrostyOS.Console
import FrostyOS.ELFAddressSpace
import FrostyOS.LockDiscipline
import FrostyOS.FileStreams
import FrostyOS.UserTables
import FrostyOS.MADT
import FrostyOS.ArchiveWalk
import FrostyOS.IRQ
import FrostyOS.EternalHeap
import FrostyOS.FileObjects
import FrostyOS.Spinlock
