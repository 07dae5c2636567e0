import Multicore.Runs.Program
import Multicore.Runs.Cyclic
import Multicore.Runs.Linearizable
import Multicore.Runs.Custody
import Multicore.Runs.Totals
import Multicore.Runs.Progress
import Multicore.Runs.Sequential
import Multicore.Runs.Mutex
import Multicore.Runs.Counting
import Multicore.Runs.Client
import Multicore.Locks.TestAndSet
import Multicore.Locks.Holder
import Multicore.Locks.Backoff
import Multicore.Locks.ALock
import Multicore.Locks.Starvation
import Multicore.Locks.Rollover
import Multicore.Locks.Worker
import Multicore.Locks.Args
import Multicore.Locks.SimpleTest
import Multicore.Locks.SecondTest
import Multicore.Counters.LostUpdate
import Multicore.Counters.Exact
import Multicore.Queues.Fifo
import Multicore.Queues.LockQueue
import Multicore.Queues.Wakeups
import Multicore.Queues.LockFreeQueue
import Multicore.Queues.Termination
import Multicore.Exchange.Rendezvous
import Multicore.Exchange.Exchanger
import Multicore.Exchange.Deadline
import Multicore.Exchange.Timed
import Multicore.Exchange.Reset
import Multicore.Stacks.Treiber
import Multicore.Stacks.LockStack
import Multicore.Stacks.LockStackOrder
import Multicore.Stacks.LockFreeStack
import Multicore.Stacks.BackoffLimit
import Multicore.Stacks.Contention
import Multicore.Stacks.LockFreedom
import Multicore.Stacks.Ownership
import Multicore.Stacks.Balance
import Multicore.Stacks.EliminationStack
import Multicore.Stacks.EliminationCustody
import Multicore.Stacks.EliminationOrder
import Multicore.Stacks.EliminationRange
import Multicore.Stacks.EliminationAlone
import Multicore.Stacks.EliminationPush
import Multicore.Stacks.Sequential
import Multicore.Stacks.TestOne
import Multicore.Stacks.TestOneEnds
import Multicore.Stacks.TestOneOver
import Multicore.Stacks.TestOneProgress
import Multicore.Stacks.TestOneStacks
import Multicore.Reclaim.CircularBuffer
import Multicore.Reclaim.Ring
import Multicore.Reclaim.GarbageCollector
import Multicore.Reclaim.Shield
import Multicore.Reclaim.GracePeriod
import Multicore.Reclaim.Recycling
import Multicore.Reclaim.Accounting
import Multicore.Reclaim.Client
import Multicore.Reclaim.Deregister
import Multicore.Reclaim.Cleanup
import Multicore.Reclaim.TestTwo
import Multicore.Reclaim.TestTwoTotals
import Multicore.Reclaim.TestTwoMain
