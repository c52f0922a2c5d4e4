import EagerHeap.Heap.Basic
/-!
# Side records of a heap

An object with an attached side record is flagged, which keeps it from being freed eagerly. Before
the sweep the finalizers of unreached objects are queued, and the collector marks those objects.
-/

namespace EagerHeap.Heap

/-- Attaches a side record to the object at an address, if there is one. Gives the number of the
record. -/
def attachRecord (h : Heap) (addr : Nat) (kind : RecordKind) : Option Nat × Heap :=
  if h.arena.isAllocated addr then
    let (id, records) := h.records.attach addr kind
    (some id,
      { h with
        records
        arena := h.arena.modifyHeaderAt addr (·.setFlag Header.sideRecord) })
  else (none, h)

/-- Queues the finalizers of the object at an address, and removes its flag if no record is left. -/
def resurrect (h : Heap) (addr : Nat) : Heap :=
  let (attached, records) := h.records.queueFinalizers addr
  let queued := { h with records }
  if attached then queued
  else { queued with arena := queued.arena.modifyHeaderAt addr (·.clearFlag Header.sideRecord) }

/-- The unreached objects that have finalizers, in ascending order. -/
def resurrectable (h : Heap) : List Nat :=
  h.records.finalizable fun addr => !h.arena.isReached addr

/-- Takes the queue of side records as a batch that is being run. -/
def startBatch (h : Heap) : List PendingRecord × Heap :=
  let (batch, records) := h.records.startBatch
  (batch, { h with records })

/-- Ends a batch that has run to its end. -/
def endBatch (h : Heap) (batch : List PendingRecord) : Heap :=
  { h with records := h.records.endBatch batch }

end EagerHeap.Heap
