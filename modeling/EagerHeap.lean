import EagerHeap.Action.Allocate
import EagerHeap.Action.Basic
import EagerHeap.Action.Cycle
import EagerHeap.Action.Records
import EagerHeap.Action.Scope
import EagerHeap.Action.Worker
import EagerHeap.AddressTable
import EagerHeap.Arena.Basic
import EagerHeap.Arena.Block
import EagerHeap.Arena.Header
import EagerHeap.Arena.Memory
import EagerHeap.Arena.Pages
import EagerHeap.Collector
import EagerHeap.Config
import EagerHeap.Event
import EagerHeap.Failure
import EagerHeap.Heap.Basic
import EagerHeap.Heap.Cycle
import EagerHeap.Heap.EagerFree
import EagerHeap.Heap.Marking
import EagerHeap.Heap.Records
import EagerHeap.Heap.Scopes
import EagerHeap.Heap.Supply
import EagerHeap.Heap.Sweeping
import EagerHeap.Heap.Update
import EagerHeap.Heap.Words
import EagerHeap.Heap.Workers
import EagerHeap.Phase
import EagerHeap.Session.Command
import EagerHeap.Session.Cycles
import EagerHeap.Session.Objects
import EagerHeap.Session.Records
import EagerHeap.Session.Reply
import EagerHeap.Session.Roots
import EagerHeap.Session.Run
import EagerHeap.Session.Scopes
import EagerHeap.Session.State
import EagerHeap.Session.Views
import EagerHeap.Session.Workers
import EagerHeap.SideRecord
import EagerHeap.Size.Capacity
import EagerHeap.Size.Class
import EagerHeap.Tally
import EagerHeap.Tracking
import EagerHeap.Word
import EagerHeap.Worker
import EagerHeap.Proofs.Arena.Cells
import EagerHeap.Proofs.Arena.Layout
import EagerHeap.Proofs.Arena.Carving
import EagerHeap.Proofs.Arena.Words
import EagerHeap.Proofs.Arena.Colors
import EagerHeap.Proofs.Heap.Frees
import EagerHeap.Proofs.Heap.Births
import EagerHeap.Proofs.Heap.Finalizers
import EagerHeap.Proofs.Run.Acts
import EagerHeap.Proofs.Run.Objects
import EagerHeap.Proofs.Run.Retention
import EagerHeap.Proofs.Run.Store
import EagerHeap.Proofs.Run.Batches
import EagerHeap.Proofs.Run.Finalizers
import EagerHeap.Proofs.Actions
import EagerHeap.Proofs.Cycle.Collected
import EagerHeap.Proofs.Run.Partition
import EagerHeap.Proofs.Run.Barrier
import EagerHeap.Proofs.Run.Dropped
import EagerHeap.Proofs.Run.Recorded
import EagerHeap.Proofs.Run.Cached
import EagerHeap.Proofs.Run.Consulted
import EagerHeap.Proofs.Run.Supplied
import EagerHeap.Proofs.Run.Registered
import EagerHeap.Proofs.Run.Awaited
import EagerHeap.Proofs.Run.Places
import EagerHeap.Proofs.Run.Garbage
import EagerHeap.Proofs.Cycle.Stepwise
import EagerHeap.Proofs.Run.Failures
import EagerHeap.Proofs.Run.Balance
import EagerHeap.Proofs.Run.Reconciled
import EagerHeap.Proofs.Marking.Turns
import EagerHeap.Proofs.Run.Turns
import EagerHeap.Proofs.Run.Staffed
import EagerHeap.Proofs.Run.Growth
import EagerHeap.Proofs.Run.Appending
import EagerHeap.Proofs.Run.Tails
import EagerHeap.Proofs.Size.Reserved
import EagerHeap.Proofs.Size.Policy
import EagerHeap.Proofs.Interrupted
import EagerHeap.Proofs.Run.Capacities
import EagerHeap.Proofs.Run.Accepted
import EagerHeap.Proofs.Heap.Shelf
import EagerHeap.Proofs.Run.Aside
import EagerHeap.Proofs.Run.Recycled
import EagerHeap.Proofs.Run.Peak
import EagerHeap.Proofs.Arena.Deals
import EagerHeap.Proofs.Run.Requests
import EagerHeap.Proofs.Cycle.Loops
import EagerHeap.Proofs.Run.Reentry
import EagerHeap.Proofs.Run.Resolution
import EagerHeap.Proofs.Run.Searches
import EagerHeap.Proofs.Session.Runs
