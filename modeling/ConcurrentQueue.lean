import ConcurrentQueue.Lib.Interleaving
import ConcurrentQueue.Lib.Linked
import ConcurrentQueue.Lib.Wrap
import ConcurrentQueue.Lib.Ownership
import ConcurrentQueue.Lib.Probing
import ConcurrentQueue.Lib.Fuel
import ConcurrentQueue.Lib.Custody
import ConcurrentQueue.Semaphore
import ConcurrentQueue.SemaphoreSound
import ConcurrentQueue.Blocking
import ConcurrentQueue.Claim
import ConcurrentQueue.ClaimSound
import ConcurrentQueue.FreeList
import ConcurrentQueue.FreeListSound
import ConcurrentQueue.Details
import ConcurrentQueue.Block
import ConcurrentQueue.Pool
import ConcurrentQueue.Elements
import ConcurrentQueue.BlockWalk
import ConcurrentQueue.Held
import ConcurrentQueue.Ledger
import ConcurrentQueue.Oversize
import ConcurrentQueue.Budget
import ConcurrentQueue.Fifo
import ConcurrentQueue.Explicit
import ConcurrentQueue.ExplicitRing
import ConcurrentQueue.ExplicitIndex
import ConcurrentQueue.ExplicitInv
import ConcurrentQueue.ExplicitEnqueue
import ConcurrentQueue.ExplicitBulk
import ConcurrentQueue.ExplicitDequeue
import ConcurrentQueue.ExplicitDestroy
import ConcurrentQueue.ExplicitSound
import ConcurrentQueue.Producers
import ConcurrentQueue.ThreadExit
import ConcurrentQueue.ThreadExitSound
import ConcurrentQueue.ImplicitHash
import ConcurrentQueue.ImplicitHashKeys
import ConcurrentQueue.ImplicitHashSound
import ConcurrentQueue.ImplicitMap
import ConcurrentQueue.ImplicitMapSound
import ConcurrentQueue.Search
import ConcurrentQueue.SearchSound
import ConcurrentQueue.SearchBulk
import ConcurrentQueue.SearchFinds
import ConcurrentQueue.BlockingThrow
import ConcurrentQueue.Implicit
import ConcurrentQueue.ImplicitIndex
import ConcurrentQueue.ImplicitInv
import ConcurrentQueue.ImplicitEnqueue
import ConcurrentQueue.ImplicitBulk
import ConcurrentQueue.ImplicitDequeue
import ConcurrentQueue.ImplicitDestroy
import ConcurrentQueue.ImplicitSound
import ConcurrentQueue.BulkCount
import ConcurrentQueue.BulkSingles
import ConcurrentQueue.Leftovers
import ConcurrentQueue.NarrowIndex
import ConcurrentQueue.Consumed
import ConcurrentQueue.Rotation
import ConcurrentQueue.Quota
import ConcurrentQueue.Objects
import ConcurrentQueue.Swap
import ConcurrentQueue.Emptiness
import ConcurrentQueue.Tokens
import ConcurrentQueue.Widths
import ConcurrentQueue.HalfRange
import ConcurrentQueue.Lib.Cycle
import ConcurrentQueue.ExplicitCustody
import ConcurrentQueue.Queue
import ConcurrentQueue.QueueBlocks
import ConcurrentQueue.Capacity
import ConcurrentQueue.Preallocation
import ConcurrentQueue.Lib.Outstanding
import ConcurrentQueue.Lib.Circular
import ConcurrentQueue.ImplicitRace
import ConcurrentQueue.ImplicitRaceInv
import ConcurrentQueue.ImplicitRaceIndex
import ConcurrentQueue.ImplicitRaceStock
import ConcurrentQueue.ImplicitRaceFrame
import ConcurrentQueue.ImplicitRaceCustody
import ConcurrentQueue.ImplicitRaceReaders
import ConcurrentQueue.ImplicitRaceOwner
import ConcurrentQueue.ImplicitRaceSystem
import ConcurrentQueue.ImplicitRaceSound
import ConcurrentQueue.ImplicitRaceRecycling
import ConcurrentQueue.ImplicitRaceZero
