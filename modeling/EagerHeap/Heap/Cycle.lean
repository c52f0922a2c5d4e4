import EagerHeap.Heap.Marking
import EagerHeap.Heap.Records
import EagerHeap.Heap.Sweeping
/-!
# Collection cycles of a heap

The uninterrupted parts of a cycle: the change of phase, the start of a cycle, the loops that mark
and sweep in steps of a budget, and the account of a completed cycle.
-/

namespace EagerHeap.Heap

/-- Changes the state of the attached collector. -/
def modifyCollector (h : Heap) (f : Collector → Collector) : Heap :=
  { h with collector := h.collector.map f }

/-- Moves to the next phase. -/
def nextPhase (h : Heap) : Transition × Heap :=
  let t : Transition := ⟨h.phase, h.phase.next, h.epoch + 1⟩
  (t,
    { h with
      phase := t.after
      epoch := t.epoch
      lastSweep := if t.after = .sweep then t.epoch else h.lastSweep })

/-- Forgets the counts and the colors of the previous cycle. -/
def resetCycle (h : Heap) : Heap :=
  { h with arena := h.arena.resetColors }.modifyCollector fun c =>
    { c with marked := 0, swept := 0, bytes := 0, zeroedBefore := h.slotsZeroed }

/-- Whether the attached collector has gray objects on its list. -/
def hasGray (h : Heap) : Bool := h.collector.any fun c => !c.gray.isEmpty

/-- A number of marking steps that empties the gray list. -/
def markingWork (h : Heap) : Nat :=
  h.grayCount + h.barrier.size + Marker.unreachedCount h.arena + 1

/-- Marks in steps of a budget until no object is gray, in at most `n` steps. -/
def markSteps (budget : Nat) : Nat → Heap → Heap
  | 0, h => h
  | n + 1, h =>
    let h := h.markStep budget
    if h.hasGray then markSteps budget n h else h

/-- Marks in steps of a budget until no object is gray. -/
def markLoop (h : Heap) (budget : Nat) : Heap := markSteps budget h.markingWork h

/-- Queues the finalizers of all unreached objects and marks these objects. Gives their number. -/
def resurrectAll (h : Heap) : Nat × Heap :=
  let dead := h.resurrectable
  if dead.isEmpty then (0, h)
  else (dead.length, ((dead.foldl resurrect h).marking (·.shadeAll dead)).markAll)

/-- Prepares to sweep every carved block. -/
def startSweep (h : Heap) : Heap :=
  h.modifyCollector fun c => { c with sweepNext := 0, sweepLimit := h.arena.pages.next }

/-- Sweeps `n` blocks from a block on. -/
def sweepBlocks (h : Heap) (block : Nat) : Nat → Swept × Heap
  | 0 => ({}, h)
  | n + 1 =>
    let (s, h) := h.sweepBlock block
    let (more, h) := h.sweepBlocks (block + 1) n
    ({ objects := s.objects + more.objects, bytes := s.bytes + more.bytes }, h)

/-- Whether the attached collector has blocks to sweep. -/
def hasUnswept (h : Heap) : Bool := h.collector.any fun c => c.sweepNext < c.sweepLimit

/-- Sweeps up to `n` blocks. -/
def sweepStep (h : Heap) (n : Nat) : Heap :=
  match h.collector with
  | none => h
  | some c =>
    let count := min n (c.sweepLimit - c.sweepNext)
    let (s, h) := h.sweepBlocks c.sweepNext count
    h.modifyCollector fun c =>
      { c with
        sweepNext := c.sweepNext + count
        swept := c.swept + s.objects
        bytes := c.bytes + s.bytes }

/-- Sweeps in steps of a budget until every block is swept, in at most `n` steps. -/
def sweepSteps (budget : Nat) : Nat → Heap → Heap
  | 0, h => h
  | n + 1, h =>
    let h := h.sweepStep budget
    if h.hasUnswept then sweepSteps budget n h else h

/-- The number of blocks that the attached collector shall sweep. -/
def sweepLimit (h : Heap) : Nat := (h.collector.map Collector.sweepLimit).getD 0

/-- Sweeps in steps of a budget until every block is swept. -/
def sweepLoop (h : Heap) (budget : Nat) : Heap := sweepSteps budget (h.sweepLimit + 1) h

/-- Sweeps every block that is left. -/
def sweepAll (h : Heap) : Heap := h.sweepStep h.sweepLimit

/-- What a completed cycle amounts to. -/
structure CycleReport where
  /-- The number of the cycle among those of its collector. -/
  collection : Nat
  /-- Objects blackened. -/
  marked : Nat
  /-- Objects freed. -/
  freed : Nat
  /-- Bytes freed. -/
  bytes : Nat
  /-- Slots zeroed. -/
  zeroed : Nat
deriving DecidableEq, Repr

/-- Adds the cycle that ends to the totals of its collector. -/
def closeCycle (h : Heap) : Option CycleReport × Heap :=
  match h.collector with
  | none => (none, h)
  | some c =>
    let zeroed := h.slotsZeroed - c.zeroedBefore
    let t := c.totals
    let totals : CycleTotals :=
      { cycles := t.cycles + 1
        objectsMarked := t.objectsMarked + c.marked
        objectsSwept := t.objectsSwept + c.swept
        bytesSwept := t.bytesSwept + c.bytes
        lastReclaimed := c.bytes
        slotsZeroed := t.slotsZeroed + zeroed }
    (some ⟨totals.cycles, c.marked, c.swept, c.bytes, zeroed⟩,
      { h with bytesSinceCycle := 0, collector := some { c with totals } })

end EagerHeap.Heap
