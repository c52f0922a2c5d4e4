import EagerHeap.Phase
import EagerHeap.Size.Class
import EagerHeap.Tally
/-!
# Events

The heap reports what it does as events. An event has a level, a message and named fields. Events
mark the moments at which the world outside of the heap can act in the middle of an operation.
-/

namespace EagerHeap

/-- How much an event matters. -/
inductive Level where
  /-- Every single operation. -/
  | trace
  /-- Internal steps. -/
  | debug
  /-- Completed work. -/
  | info
  /-- Failures. -/
  | error
deriving DecidableEq, Repr

/-- The name of the level. -/
def Level.name : Level → String
  | trace => "TRACE"
  | debug => "DEBUG"
  | info => "INFO"
  | error => "ERROR"

/-- The value of a field of an event. -/
inductive FieldValue where
  /-- A count or a size. -/
  | number (n : Nat)
  /-- A name. -/
  | text (s : String)
  /-- A truth value. -/
  | flag (b : Bool)
deriving DecidableEq, Repr

/-- Something that the heap did. -/
inductive Event where
  /-- A heap was created. -/
  | heapCreated (arenaSize blocks : Nat) (eagerFree : Bool)
  /-- An allocation obtained a block that has free cells. -/
  | refilled (block : Nat) (span : Span)
  /-- An allocation obtained a new block. -/
  | carved (block : Nat) (span : Span)
  /-- The arena has no room for a request. -/
  | exhausted (requested arenaSize : Nat)
  /-- Eager free left an object to the collector. -/
  | declined (addr size : Nat) (reason : Rejection)
  /-- A worker ended and gave its free cells back. -/
  | workerFlushed (worker cells : Nat)
  /-- The phase has changed. -/
  | phaseChanged (transition : Transition)
  /-- A cycle has shaded its roots. -/
  | cycleStarted (epoch gray : Nat)
  /-- Unreached objects with finalizers were marked. -/
  | resurrected (objects : Nat)
  /-- The slots of unreached objects were zeroed. -/
  | slotsInvalidated (epoch registries zeroed : Nat)
  /-- A cycle has ended. -/
  | cycleCompleted (collection marked freed bytes zeroed : Nat)
deriving DecidableEq, Repr

/-- The hexadecimal text of an address. -/
def addressText (addr : Nat) : String := "0x" ++ String.ofList (Nat.toDigits 16 addr)

namespace Event

/-- How much the event matters. -/
def level : Event → Level
  | exhausted .. => .error
  | declined .. => .trace
  | cycleCompleted .. => .info
  | heapCreated .. | refilled .. | carved .. | workerFlushed .. | phaseChanged ..
  | cycleStarted .. | resurrected .. | slotsInvalidated .. => .debug

/-- The message of the event. -/
def message : Event → String
  | heapCreated .. => "heap created"
  | refilled .. => "refilled from partial list"
  | carved .. => "carved block"
  | exhausted .. => "arena exhausted"
  | declined .. => "eager free declined"
  | workerFlushed .. => "worker flushed"
  | phaseChanged .. => "collector phase transition"
  | cycleStarted .. => "GC cycle starting"
  | resurrected .. => "finalizable objects resurrected"
  | slotsInvalidated .. => "tracked slots invalidated"
  | cycleCompleted .. => "GC cycle complete"

/-- The named fields of the event. -/
def fields : Event → List (String × FieldValue)
  | heapCreated arenaSize blocks eagerFree =>
    [("arena_size", .number arenaSize), ("blocks", .number blocks), ("eager_free", .flag eagerFree)]
  | refilled block span | carved block span =>
    [("block", .number block), ("size", .number span.cellSize), ("shape", .text span.shape.name)]
  | exhausted requested arenaSize =>
    [("requested", .number requested), ("arena_size", .number arenaSize)]
  | declined addr size reason =>
    [("addr", .text (addressText addr)), ("size", .number size), ("reason", .text reason.label)]
  | workerFlushed worker cells => [("worker", .number worker), ("flushed", .number cells)]
  | phaseChanged t =>
    [("from", .text t.before.name), ("to", .text t.after.name), ("epoch", .number t.epoch)]
  | cycleStarted epoch gray => [("epoch", .number epoch), ("gray", .number gray)]
  | resurrected objects => [("resurrected", .number objects)]
  | slotsInvalidated epoch registries zeroed =>
    [("epoch", .number epoch), ("registries", .number registries), ("zeroed", .number zeroed)]
  | cycleCompleted collection marked freed bytes zeroed =>
    [("collection", .number collection), ("marked", .number marked),
      ("freed_objects", .number freed), ("reclaimed_bytes", .number bytes),
      ("slots_zeroed", .number zeroed)]

end Event

end EagerHeap
