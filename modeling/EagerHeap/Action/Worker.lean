import EagerHeap.Action.Basic
import EagerHeap.Heap.Workers
/-!
# The end of a worker

The client may act after the cells of the worker went back to their blocks and before the heap
forgets the worker.
-/

namespace EagerHeap.Action

variable {σ : Type} (k : Hooks σ)

/-- Ends a worker: its cells and blocks go back, and what it counted is kept. -/
def dropWorker (id : Nat) : Action σ Unit := do
  let flushed ← change (·.flushWorker id)
  emit k (.workerFlushed id flushed)
  let retired ← view (·.retireWorker id)
  match retired with
  | .ok heap => adjust fun _ => heap
  | .error e => throw (.overflow e)

end EagerHeap.Action
