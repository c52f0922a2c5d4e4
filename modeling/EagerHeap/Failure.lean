import EagerHeap.Word
/-!
# Why an operation stops

An operation either completes or ends in a `Failure`. What it changed before it failed stays
changed, so a failure is reported beside the state that was reached and never instead of it.
-/

namespace EagerHeap

/-- A condition that the heap checks on itself or on its caller. -/
inductive Assertion where
  /-- A buffer has elements of no bytes. -/
  | elementSize
  /-- More elements are appended than the buffer shall hold. -/
  | appendedCount
  /-- A step of a collection cycle was asked for in another phase than its own. -/
  | phase
  /-- An entry of a free list names a cell that is not cached. -/
  | cached
  /-- A block was carved for one span and holds cells of another. -/
  | spanOfBlock
  /-- A run of blocks starts in a block of small cells. -/
  | headOfRun
  /-- A run of blocks is carved while its head is in use. -/
  | freeRun
deriving DecidableEq, Repr

/-- Why an operation stopped. -/
inductive Failure where
  /-- Checked arithmetic left the range of machine words. -/
  | overflow (cause : Overflow)
  /-- A buffer would exceed the greatest size of a buffer. -/
  | capacityOverflow
  /-- The arena has no room; `bytes` is the size that is reported for the request. -/
  | outOfMemory (bytes : Nat)
  /-- A condition does not hold that the heap relies on. -/
  | assertion (condition : Assertion)
  /-- The heap has a collector already. -/
  | collectorAttached
  /-- The slots back a scope already. -/
  | slotsInUse
  /-- Every slot of a scope is taken. -/
  | trackingFull (capacity : Nat)
  /-- The body of a scope was abandoned. -/
  | scopeAbandoned
  /-- A finalizer or cleanup failed with a text of its own. -/
  | recordFailed (text : String)
  /-- A loop of the operation never ends. Nothing reports this failure: it stands for an operation that
  goes on for ever. -/
  | endless
deriving DecidableEq, Repr

namespace Failure

/-- The text that tells a person what happened. -/
def text : Failure → String
  | overflow .sum => "attempt to add with overflow"
  | overflow .product => "attempt to multiply with overflow"
  | capacityOverflow => "capacity overflow"
  | outOfMemory bytes => toString bytes
  | assertion _ => "assertion failed"
  | collectorAttached => "heap already has a collector"
  | slotsInUse => "tracking slots already back a live scope"
  | trackingFull capacity => "tracking capacity " ++ toString capacity ++ " exceeded"
  | scopeAbandoned => "scope body failed"
  | recordFailed text => text
  | endless => "operation does not end"

end Failure

end EagerHeap
