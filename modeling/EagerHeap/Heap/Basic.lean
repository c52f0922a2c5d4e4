import EagerHeap.Arena.Basic
import EagerHeap.Collector
import EagerHeap.Config
import EagerHeap.Phase
import EagerHeap.SideRecord
import EagerHeap.Tracking
import EagerHeap.Worker
/-!
# Heaps

A `Heap` is the arena together with everything that decides who may use which cell of it: the lists
of blocks with free cells, the workers with their free lists and cursors, the scopes, the side
records, the phase of the collection cycle and the state of the collector. This module holds the
type, the creation of a heap, and the views that change nothing.
-/

namespace EagerHeap

/-- The whole state of a heap. -/
structure Heap where
  /-- The parameters of the heap. -/
  config : Config
  /-- Blocks, headers and words. -/
  arena : Arena
  /-- For every span the blocks with free cells that no worker claims from, the latest first. -/
  central : SpanTable (List Nat) := .fill []
  /-- Where the collector stands in its cycle. -/
  phase : Phase := .idle
  /-- The number of transitions so far. -/
  epoch : Nat := 0
  /-- The epoch of the latest transition into the sweeping phase, or zero. -/
  lastSweep : Nat := 0
  /-- The number of observers that were added from outside. -/
  observers : Nat := 0
  /-- Finalizers and cleanups. -/
  records : SideRecords := {}
  /-- The addresses that were stored since the marker last looked, oldest first. -/
  barrier : Array Nat := #[]
  /-- The live workers, oldest first. -/
  workers : List Worker := []
  /-- Every registry of slots that was made. -/
  registries : Array Registry := #[]
  /-- Every scope that was entered. -/
  scopes : Array Scope := #[]
  /-- The collector, if one is attached. -/
  collector : Option Collector := none
  /-- What the ended workers counted. -/
  retired : Tally := {}
  /-- The number of the next worker. -/
  nextWorker : Nat := 0
  /-- The bytes of slow allocation since the latest cycle. -/
  bytesSinceCycle : Nat := 0
  /-- The slots that the collector zeroed. -/
  slotsZeroed : Nat := 0

/-- Why a heap cannot be created. -/
inductive CreationError where
  /-- The configuration is refused. -/
  | config (e : ConfigError)
  /-- There is not as much memory. -/
  | outOfMemory (bytes : Nat)
deriving DecidableEq, Repr

/-- The occupancy of a heap. -/
structure Census where
  /-- Carved blocks. -/
  blocksCarved : Nat := 0
  /-- Blocks of small cells. -/
  smallBlocks : Nat := 0
  /-- Small cells by state. -/
  cells : CellCount := {}
  /-- Live large objects. -/
  largeObjects : Nat := 0
  /-- The bytes of the live large objects. -/
  largeBytes : Nat := 0
  /-- Blocks in released runs. -/
  freeLargeBlocks : Nat := 0
deriving DecidableEq, Repr

namespace Census

/-- Counts one more block. -/
def count (n : Census) (b : Block) : Census :=
  match b with
  | .small _ cells _ =>
    { n with smallBlocks := n.smallBlocks + 1, cells := cells.foldl CellCount.count n.cells }
  | .large h run _ =>
    if 0 < run ∧ h.state = .allocated then
      { n with largeObjects := n.largeObjects + 1, largeBytes := n.largeBytes + run * blockSize }
    else n

end Census

namespace Heap

/-- A heap in which nothing was allocated. -/
def empty (c : Config) : Heap := { config := c, arena := Arena.empty c.arenaBlocks }

/-- Creates a heap for a configuration on a host that has `memory` bytes for the arena. -/
def create (memory : Nat) (c : Config) : Except CreationError Heap :=
  match c.check with
  | .error e => .error (.config e)
  | .ok () =>
    if Config.greatestArena < c.arenaSize then
      .error (.config (.arenaSize c.arenaSize blockSize))
    else if memory < c.arenaSize then .error (.outOfMemory c.arenaSize)
    else .ok (empty c)

/-- The worker with a number. -/
def worker? (h : Heap) (id : Nat) : Option Worker := h.workers.find? (·.id = id)

/-- Changes the worker with a number. -/
def modifyWorker (h : Heap) (id : Nat) (f : Worker → Worker) : Heap :=
  { h with workers := h.workers.map fun w => if w.id = id then f w else w }

/-- Adds to a counter of a worker. -/
def count (h : Heap) (id : Nat) (c : Counter) (n : Nat) : Heap :=
  h.modifyWorker id fun w => { w with tally := w.tally.add c n }

/-- Whether enough was allocated since the latest cycle for another one. -/
def shouldCollect (h : Heap) : Bool := h.config.triggerBytes ≤ h.bytesSinceCycle

/-- The number of observers; the heap itself is one, as it zeroes slots. -/
def observerCount (h : Heap) : Nat := h.observers + 1

/-- The counters of all workers, those that ended included. -/
def stats (h : Heap) : Except Overflow Tally :=
  h.workers.foldlM (fun sum w => sum.plus w.tally) h.retired

/-- The occupancy of the heap. -/
def census (h : Heap) : Census :=
  h.arena.blocks.foldl Census.count
    { blocksCarved := h.arena.pages.next, freeLargeBlocks := h.arena.pages.releasedBlocks }

/-- The phase of the heap as a record with named fields. -/
def describeState (h : Heap) : String :=
  "CollectorState \x7b phase: " ++ h.phase.name ++ ", epoch: " ++ toString h.epoch ++
    ", observers: " ++ toString h.observerCount ++ " \x7d"

/-- The heap as a record with named fields. -/
def describe (h : Heap) : String :=
  "Heap \x7b arena_size: " ++ toString h.config.arenaSize ++
    ", blocks_carved: " ++ toString h.arena.pages.next ++ ", state: " ++ h.describeState ++
    ", side_records: SideTable \x7b objects: " ++ toString h.records.attached.size ++
    ", pending: " ++ toString h.records.pending.length ++ " \x7d \x7d"

/-- A collector of the heap that completed no cycle, as a record with named fields. -/
def describeCollector (h : Heap) (c : Collector) : String :=
  "Collector \x7b phase: " ++ h.phase.name ++ ", gray: " ++ toString c.gray.length ++
    ", stats: " ++ CycleTotals.describeFresh ++ " \x7d"

end Heap

end EagerHeap
