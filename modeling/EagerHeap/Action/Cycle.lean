import EagerHeap.Action.Basic
import EagerHeap.Heap.Cycle
import EagerHeap.Heap.Scopes
/-!
# Collection cycles

A cycle is begun, marked in steps, marked to the end, swept in steps and finished. Each of these
operations insists on its phase, apart from the steps. A dropped collector finishes the cycle that
it has begun. Roots are asked for whenever they are shaded, so that they may change in a cycle.
-/

namespace EagerHeap.Action

variable {σ : Type} (k : Hooks σ)

/-- The root addresses as a client knows them. -/
abbrev Roots (σ : Type) := World σ → List Nat

/-- Moves to the next phase and lets every observer know, the heap itself first: on the way into the
sweeping phase it zeroes the slots of the objects that are about to be freed. -/
def advancePhase : Action σ Unit := do
  let t ← change Heap.nextPhase
  emit k (.phaseChanged t)
  let observers ← view Heap.observers
  if t.after = .sweep then
    let registries ← view fun h => h.knownRegistries.length
    let zeroed ← change Heap.invalidateSlots
    emit k (.slotsInvalidated t.epoch registries zeroed)
  announce k t observers

/-- Shades the roots. -/
def shadeRoots (roots : Roots σ) : Action σ Unit :=
  modify fun w =>
    let addrs := roots w
    { w with heap := w.heap.shadeRoots addrs }

/-- Attaches a collector; a heap has at most one. -/
def attachCollector : Action σ Unit := do
  if ← view fun h => h.collector.isSome then throw .collectorAttached
  adjust fun h => { h with collector := some {} }

/-- Begins a cycle. -/
def beginCycle (roots : Roots σ) : Action σ Unit := do
  require (·.phase = .idle) .phase
  adjust Heap.resetCycle
  advancePhase k
  shadeRoots roots
  emit k (.cycleStarted (← view Heap.epoch) (← view Heap.grayCount))

/-- Blackens up to `n` gray objects. Says whether gray objects are left. -/
def markStep (n : Nat) : Action σ Bool := do
  adjust (·.markStep n)
  view Heap.hasGray

/-- Shades the roots once more and marks until no object is gray. -/
def finishMarking (roots : Roots σ) : Action σ Unit := do
  require (·.phase = .mark) .phase
  advancePhase k
  shadeRoots roots
  adjust Heap.markAll

/-- Marks the unreached objects that have finalizers, and begins to sweep. -/
def beginSweep : Action σ Unit := do
  require (·.phase = .termination) .phase
  adjust Heap.markAll
  let resurrected ← change Heap.resurrectAll
  if resurrected ≠ 0 then emit k (.resurrected resurrected)
  advancePhase k
  adjust Heap.startSweep

/-- Sweeps up to `n` blocks. Says whether blocks are left. -/
def sweepStep (n : Nat) : Action σ Bool := do
  adjust (·.sweepStep n)
  view Heap.hasUnswept

/-- Finishes a cycle. Gives the number of bytes that it freed. -/
def finishCycle : Action σ Nat := do
  require (·.phase = .sweep) .phase
  advancePhase k
  match ← change Heap.closeCycle with
  | some r =>
    emit k (.cycleCompleted r.collection r.marked r.freed r.bytes r.zeroed)
    return r.bytes
  | none => return 0

/-- Runs a whole cycle in steps of the configured budgets. -/
def collect (roots : Roots σ) : Action σ Nat := do
  beginCycle k roots
  adjust fun h => h.markLoop h.config.markBudget
  finishMarking k roots
  beginSweep k
  adjust fun h => h.sweepLoop h.config.sweepBudget
  finishCycle k

/-- Finishes the cycle that is running, if any, without roots. -/
def completeCycle : Action σ Unit := do
  let phase ← view Heap.phase
  if phase = .mark then finishMarking k fun _ => []
  if phase = .mark ∨ phase = .termination then beginSweep k
  if phase ≠ .idle then
    adjust Heap.sweepAll
    let _ ← finishCycle k

/-- Finishes the cycle that is running and detaches the collector. -/
def dropCollector : Action σ Unit := do
  completeCycle k
  adjust fun h => { h with collector := none }

/-- Runs several cycles one after the other. -/
def collectTimes (roots : Roots σ) : Nat → Action σ Unit
  | 0 => return ()
  | n + 1 => do
    let _ ← collect k roots
    collectTimes roots n

/-- Lets a collector of its own work in the background until it is stopped: it runs a cycle if one
is due, and one for each request. Gives what its cycles amount to. -/
def collectInBackground (roots : Roots σ) (requests : Nat) : Action σ CycleTotals := do
  attachCollector
  let due ← view Heap.shouldCollect
  collectTimes k roots (if due then requests + 1 else requests)
  let totals ← view fun h => (h.collector.map Collector.totals).getD {}
  dropCollector k
  return totals

end EagerHeap.Action
