import Jatuli.Lib.ByteMem
import Jatuli.Lib.FreeList
import Jatuli.Lib.Radix
import Jatuli.Machine
import Jatuli.PageTable
import Jatuli.Ownership
import Jatuli.Spaces
import Jatuli.Loading
import Jatuli.Boot
import Jatuli.Effects
import Jatuli.Isolation
import Jatuli.Lifecycle
import Jatuli.Confinement
import Jatuli.FrameUse
import Jatuli.Polling
import Jatuli.Scheduling
import Jatuli.Tables
import Jatuli.Moves
import Jatuli.Control
import Jatuli.Trace
import Jatuli.Roots
import Jatuli.Races
import Jatuli.Reclaim
import Jatuli.Placement
import Jatuli.Progress
import Jatuli.Residue
import Jatuli.Lib.Spsc
import Jatuli.Uring
import Jatuli.Lib.Aarch64
import Jatuli.Vectors
import Jatuli.Context
import Jatuli.Simd
import Jatuli.EnterUser
import Jatuli.Console
import Jatuli.Heap
import Jatuli.FramePool
import Jatuli.Lib.Cyclic
import Jatuli.SchedRuns
import Jatuli.DrainLength
import Jatuli.Mapping
import Jatuli.Built
import Jatuli.Image
import Jatuli.Serving
import Jatuli.UserRange
import Jatuli.Delivery
import Jatuli.Lib.Parked
import Jatuli.Reading
import Jatuli.Stream
import Jatuli.Submitting
import Jatuli.ReadOrder
import Jatuli.Lib.Stash
import Jatuli.Reap
import Jatuli.Decimal
import Jatuli.Memory
import Jatuli.MemoryRuns
import Jatuli.Stranded
import Jatuli.Bystanders
import Jatuli.Wakeup
import Jatuli.Family
import Jatuli.RingStores
import Jatuli.Ledger
import Jatuli.Accounts
import Jatuli.Bookings
import Jatuli.Counts
import Jatuli.Conservation
import Jatuli.Waits
import Jatuli.Handshake
import Jatuli.Lib.Spinlock
import Jatuli.Locks
import Jatuli.Fairness
import Jatuli.Integrity
