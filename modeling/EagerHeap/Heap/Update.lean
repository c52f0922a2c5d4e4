import EagerHeap.Failure
import EagerHeap.Heap.Basic
/-!
# Uninterrupted changes of a heap

An `Update` changes a heap and gives a result or fails; what it changed before it failed stays
changed. Nothing outside of the heap can act while it runs.
-/

namespace EagerHeap

/-- A change of a heap with a result. -/
abbrev Update (α : Type) := ExceptT Failure (StateM Heap) α

namespace Update

/-- Fails with an assertion unless a condition on the heap holds. -/
def require (holds : Heap → Bool) (condition : Assertion) : Update Unit := do
  if holds (← get) then return () else throw (.assertion condition)

/-- Goes on with the value of checked arithmetic. -/
def checked {α : Type} : Except Overflow α → Update α
  | .ok a => return a
  | .error e => throw (.overflow e)

end Update

end EagerHeap
