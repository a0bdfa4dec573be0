import TagMessaging.Lib.Transition
import TagMessaging.Lib.Atomic
import TagMessaging.Lib.Effect
import TagMessaging.Lib.TwoRuns
import TagMessaging.Lib.Segment
import TagMessaging.Lib.FirstMatch
import TagMessaging.Lib.Tally
import TagMessaging.Lib.RwLock
import TagMessaging.Lib.Transfer
import TagMessaging.Model.Kernel
import TagMessaging.Model.RcuList
import TagMessaging.Model.Links
import TagMessaging.Model.Service
import TagMessaging.Model.Calls
import TagMessaging.Model.Status
import TagMessaging.Model.CharDev
import TagMessaging.Serial.Rules
import TagMessaging.Serial.ListOps
import TagMessaging.Serial.ListRoutines
import TagMessaging.Serial.ListCalls
import TagMessaging.Serial.ListRuns
import TagMessaging.Serial.Table
import TagMessaging.Serial.Registry
import TagMessaging.Serial.Representation
import TagMessaging.Serial.Refinement
import TagMessaging.Serial.Runs
import TagMessaging.Serial.Store
import TagMessaging.Serial.Control
import TagMessaging.Serial.Discipline
import TagMessaging.Serial.Sleeping
import TagMessaging.Serial.Heap
import TagMessaging.Serial.Change
import TagMessaging.Serial.Execution
import TagMessaging.Serial.Levels
import TagMessaging.Serial.Near
import TagMessaging.Serial.Blind
import TagMessaging.Serial.Closed
import TagMessaging.Serial.Leaks
import TagMessaging.Rcu.Steps
import TagMessaging.Rcu.Counters
import TagMessaging.Rcu.Invariant
import TagMessaging.Rcu.GracePeriod
import TagMessaging.Rcu.ReaderCount
import TagMessaging.Rcu.Receive
import TagMessaging.Rcu.Delivered
import TagMessaging.Rcu.Edits
import TagMessaging.Rcu.AtomicList
import TagMessaging.Rcu.Searches
import TagMessaging.Rcu.Progress
import TagMessaging.Rcu.Spinning
import TagMessaging.Rcu.HalfLinked
import TagMessaging.Rcu.Linear
import TagMessaging.Waiters.Steps
import TagMessaging.Waiters.Phases
import TagMessaging.Waiters.Exact
import TagMessaging.Wakeup.Steps
import TagMessaging.Wakeup.LostWakeup
import TagMessaging.Wakeup.Elements
import TagMessaging.Wakeup.Delivery
import TagMessaging.Discovery.SysCalls
import TagMessaging.Discovery.Restore
import TagMessaging.Discovery.Vtpmo
import TagMessaging.Discovery.Mapped
import TagMessaging.Discovery.Finder
import TagMessaging.Device.Snapshot
import TagMessaging.Serial.FreshMemory
import TagMessaging.Device.CopyLoops
import TagMessaging.Device.Reads
import TagMessaging.Lib.Numeral
import TagMessaging.Device.Report
import TagMessaging.Irq.Steps
import TagMessaging.Irq.Restore
import TagMessaging.Table.Steps
import TagMessaging.Table.Lifetime
import TagMessaging.Table.Moves
import TagMessaging.Table.Exclusion
import TagMessaging.Table.Placement
import TagMessaging.Table.Capacity
import TagMessaging.Table.Leftover
import TagMessaging.Table.Ledger
import TagMessaging.Table.Atomic
import TagMessaging.Table.Logged
import TagMessaging.Table.Linear
