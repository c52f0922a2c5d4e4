/-!
# The state of a collector

A collector keeps the gray objects that it still has to read, how far it has swept, and what it
counted in this cycle and in all cycles.
-/

namespace EagerHeap

/-- What the completed cycles of a collector amount to. -/
structure CycleTotals where
  /-- Completed cycles. -/
  cycles : Nat := 0
  /-- Objects blackened. -/
  objectsMarked : Nat := 0
  /-- Objects freed. -/
  objectsSwept : Nat := 0
  /-- Bytes freed. -/
  bytesSwept : Nat := 0
  /-- Bytes freed by the latest cycle. -/
  lastReclaimed : Nat := 0
  /-- Slots of scopes zeroed. -/
  slotsZeroed : Nat := 0
deriving DecidableEq, Repr

/-- A collector between two of its steps. -/
structure Collector where
  /-- The addresses of the gray objects, the latest first. -/
  gray : List Nat := []
  /-- The next block to sweep. -/
  sweepNext : Nat := 0
  /-- The number of blocks to sweep. -/
  sweepLimit : Nat := 0
  /-- Objects blackened in this cycle. -/
  marked : Nat := 0
  /-- Objects freed in this cycle. -/
  swept : Nat := 0
  /-- Bytes freed in this cycle. -/
  bytes : Nat := 0
  /-- Slots of the heap that were zeroed before this cycle. -/
  zeroedBefore : Nat := 0
  /-- What the completed cycles amount to. -/
  totals : CycleTotals := {}
deriving DecidableEq, Repr

namespace CycleTotals

/-- The totals of a collector that completed no cycle, as a record with named fields. -/
def describeFresh : String :=
  "CollectorStats \x7b cycles: 0, objects_marked: 0, objects_swept: 0, bytes_swept: 0, " ++
    "last_reclaimed: 0, slots_zeroed: 0, last_cycle: 0ns, total_time: 0ns \x7d"

end CycleTotals

end EagerHeap
