import EagerHeap.Action.Basic
import EagerHeap.Heap.Records
/-!
# Running side records

The queued side records run as one batch, outside of the heap. Records that are queued while the
batch runs wait for the next one, and the objects of the finalizers of the batch stay alive until it
has run to its end.
-/

namespace EagerHeap.Action

variable {σ : Type} (k : Hooks σ)

/-- Runs the queued side records as one batch. Gives their number. If one of them fails, those after
it are lost. -/
def runPending : Action σ Nat := do
  let batch ← change Heap.startBatch
  batch.forM fun p => k.onRecord p.record p.addr
  adjust (·.endBatch batch)
  return batch.length

end EagerHeap.Action
