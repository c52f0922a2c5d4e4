import EagerHeap.Event
import EagerHeap.Heap.Update
/-!
# Interruptible operations

An operation on a heap is an `Action` on a world that holds the heap beside the state of its client.
At certain moments in the middle of an operation the client acts, and may well operate on the same
heap: when an event is reported, when a transition is announced to an observer, and when a side
record runs. `Hooks` says what the client does then. A failure of an action keeps the world that
was reached.
-/

namespace EagerHeap

/-- A heap and the state of its client. -/
structure World (σ : Type) where
  /-- The heap. -/
  heap : Heap
  /-- The state of the client. -/
  client : σ

/-- An operation that gives a result or fails. -/
abbrev Action (σ α : Type) := ExceptT Failure (StateM (World σ)) α

/-- What a client does in the middle of operations. -/
structure Hooks (σ : Type) where
  /-- Acts on an event. -/
  onEvent : Event → World σ → World σ
  /-- Acts on a transition as the observer with a number. -/
  onTransition : Nat → Transition → World σ → World σ
  /-- Runs a side record; a finalizer gets the address of its object. -/
  onRecord : SideRecord → Nat → Action σ Unit

namespace Action

variable {σ α : Type}

/-- An uninterrupted change of the heap. -/
def change (f : Heap → α × Heap) : Action σ α :=
  modifyGet fun w =>
    let (a, heap) := f w.heap
    (a, { w with heap })

/-- An uninterrupted change of the heap without a result. -/
def adjust (f : Heap → Heap) : Action σ Unit := modify fun w => { w with heap := f w.heap }

/-- A look at the heap. -/
def view (f : Heap → α) : Action σ α := return f (← get).heap

/-- An uninterrupted change of the heap that may fail. -/
def update (u : Update α) : Action σ α :=
  ExceptT.mk fun w =>
    let (result, heap) := u.run w.heap
    (result, { w with heap })

/-- Fails with an assertion unless a condition on the heap holds. -/
def require (holds : Heap → Bool) (condition : Assertion) : Action σ Unit :=
  update (Update.require holds condition)

/-- Goes on with the value of checked arithmetic. -/
def checked (r : Except Overflow α) : Action σ α := update (Update.checked r)

/-- Reports an event. -/
def emit (k : Hooks σ) (e : Event) : Action σ Unit := modify (k.onEvent e)

/-- Announces a transition to the first `n` observers of the client, one after the other. -/
def announce (k : Hooks σ) (t : Transition) (n : Nat) : Action σ Unit :=
  modify fun w => (List.range n).foldl (fun w i => k.onTransition i t w) w

end Action

end EagerHeap
