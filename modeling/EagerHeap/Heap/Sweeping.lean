import EagerHeap.Heap.Supply
/-!
# Sweeping

Sweeping a block frees its unreached objects. The side records of an unreached object decide first:
a finalizer keeps the object for another cycle and is queued, cleanups are queued and the object is
freed. A block of small cells that gained free cells is offered to all workers, and the blocks of a
freed run are released.
-/

namespace EagerHeap

/-- What sweeping has freed. -/
structure Swept where
  /-- Objects. -/
  objects : Nat := 0
  /-- Bytes. -/
  bytes : Nat := 0
deriving DecidableEq, Repr

namespace Heap

/-- Queues the side records of an unreached object. Says whether the object has to be kept. -/
def consultRecords (h : Heap) (addr : Nat) : Bool × Heap :=
  if h.records.hasFinalizer addr then
    let (attached, records) := h.records.queueFinalizers addr
    let queued := { h with records }
    (true,
      if attached then queued
      else
        { queued with
          arena := queued.arena.modifyHeaderAt addr (·.clearFlag Header.sideRecord) })
  else
    (false,
      { h with
        records := h.records.queueCleanups addr
        arena := h.arena.modifyHeaderAt addr (·.clearFlag Header.sideRecord) })

/-- Decides whether the unreached object at an address is freed. -/
def isDoomed (h : Heap) (header : Header) (addr : Nat) : Bool × Heap :=
  if header.hasFlag Header.sideRecord then
    let (keep, h) := h.consultRecords addr
    (!keep, h)
  else (true, h)

/-- Frees small cell `i` of a block if its object is unreached. Says whether it did. -/
def sweepCell (h : Heap) (block i size : Nat) : Bool × Heap :=
  match h.arena.header? block i with
  | some header =>
    if header.isUnreached then
      let (doomed, h) := h.isDoomed header (Arena.blockBase block + i * size)
      if doomed then (true, { h with arena := h.arena.modifyHeader block i (·.withState .free) })
      else (false, h)
    else (false, h)
  | none => (false, h)

/-- Sweeps `n` small cells of a block from cell `i` on. Counts the freed ones. -/
def sweepCells (h : Heap) (block size i : Nat) : Nat → Nat × Heap
  | 0 => (0, h)
  | n + 1 =>
    let (freed, h) := h.sweepCell block i size
    let (more, h) := h.sweepCells block size (i + 1) n
    (if freed then more + 1 else more, h)

/-- Frees the large object of the run that a block heads if it is unreached. -/
def sweepRun (h : Heap) (block : Nat) (header : Header) (run : Nat) : Swept × Heap :=
  if 0 < run ∧ header.isUnreached then
    let (doomed, h) := h.isDoomed header (Arena.blockBase block)
    if doomed then
      ({ objects := 1, bytes := run * blockSize },
        { h with
          arena := (h.arena.modifyHeader block 0 (·.withState .free)).releaseRun block run })
    else ({}, h)
  else ({}, h)

/-- Sweeps a block. -/
def sweepBlock (h : Heap) (block : Nat) : Swept × Heap :=
  match h.arena.blocks[block]? with
  | some (.small s cells _) =>
    let (freed, h) := h.sweepCells block s.cellSize 0 cells.size
    ({ objects := freed, bytes := freed * s.cellSize }, if 0 < freed then h.offer block else h)
  | some (.large header run _) => h.sweepRun block header run
  | none => ({}, h)

end Heap

end EagerHeap
