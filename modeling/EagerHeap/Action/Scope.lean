import EagerHeap.Action.Allocate
import EagerHeap.Heap.Scopes
/-!
# Allocation in scopes

An object that is allocated in a scope is written into a slot of the scope after its allocation, in
which the client may have acted. If a sweep began meanwhile, the object may be gone already and is
not written down.
-/

namespace EagerHeap.Action

variable {σ : Type} (k : Hooks σ)

/-- Allocates an object whose life ends with a scope. -/
def allocateTracked (c : Nat) (s : Span) : Action σ Nat := do
  let id ← view fun h => (h.scopes[c]?.map Scope.worker).getD 0
  let allocatedAt ← view Heap.epoch
  let addr ← allocate k id s
  adjust (·.count id .trackedAllocations 1)
  update (Heap.recordTracked c addr allocatedAt)
  return addr

/-- Ends a scope because its body was abandoned. -/
def abandonScope (c : Nat) : Action σ Unit := do
  let _ ← change (·.drainScope c)
  throw .scopeAbandoned

end EagerHeap.Action
