import EagerHeap.Heap.Supply
/-!
# Workers of a heap

When a worker ends, the cells of its free lists become free cells of their blocks again, and every
block that has free cells is offered to the other workers.
-/

namespace EagerHeap.Heap

/-- Adds a worker and gives its number. -/
def addWorker (h : Heap) : Nat × Heap :=
  (h.nextWorker,
    { h with workers := h.workers ++ [{ id := h.nextWorker }], nextWorker := h.nextWorker + 1 })

/-- Makes a cached cell free, and offers its block. Says whether the cell was cached. -/
def uncache (h : Heap) (e : FreeEntry) : Bool × Heap :=
  if (h.arena.header? e.block e.cell).any (·.state = .cached) then
    let freed := { h with arena := h.arena.modifyHeader e.block e.cell (·.withState .free) }
    (true, freed.offer e.block)
  else (false, h)

/-- Makes cached cells free, and counts them. -/
def uncacheAll (h : Heap) : List FreeEntry → Nat × Heap
  | [] => (0, h)
  | e :: rest =>
    let (freed, h) := h.uncache e
    let (more, h) := h.uncacheAll rest
    (if freed then more + 1 else more, h)

/-- Offers a block if it has free cells. -/
def offerIfFree (h : Heap) (i : Nat) : Heap :=
  if h.arena.blocks[i]?.any Block.hasFree then h.offer i else h

/-- Gives the cells and blocks of a worker back. Gives the number of cells that were cached. -/
def flushWorker (h : Heap) (id : Nat) : Nat × Heap :=
  match h.worker? id with
  | none => (0, h)
  | some w =>
    let cursors := w.cursors.toList.filterMap fun c => c.map Cursor.block
    let (flushed, h) := h.uncacheAll w.freeEntries
    let offered := cursors.foldl offerIfFree h
    (flushed,
      offered.modifyWorker id fun w =>
        { w with
          freeLists := .fill []
          cursors := .fill none
          tally := w.tally.add .flushed flushed })

/-- Removes a worker and keeps what it counted. -/
def retireWorker (h : Heap) (id : Nat) : Except Overflow Heap :=
  match h.worker? id with
  | none => .ok h
  | some w => do
    let retired ← h.retired.plus w.tally
    return { h with workers := h.workers.filter (·.id ≠ id), retired }

end EagerHeap.Heap
