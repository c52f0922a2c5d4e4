import EagerHeap.Action.Cycle
import EagerHeap.Session.State
/-!
# Commands on the collector

The session has at most one collector of its own, whose operations do not nest. Words that denote
roots are resolved when the command is read; the root set is asked for whenever roots are shaded, so
that a script in the middle of the operation may still change it. A collector that is dropped is no
longer the session's while it finishes its cycle.
-/

namespace EagerHeap.Session

open Exec

/-- The root set of the session as it is when it is asked for. -/
def rootSet : Action.Roots Session := fun w => w.client.roots.keys

/-- The roots that a command denotes. -/
def resolveRoots (f : Field RootsRef) : Exec (Action.Roots Session) := do
  match ← need "roots" f with
  | .none => return fun _ => []
  | .rootSet => return rootSet
  | .words refs =>
    let addrs ← refs.mapM (word "roots")
    return fun _ => addrs

/-- Refuses the command unless the session has a collector that is not in the middle of an
operation. -/
def needCollector (ctx : Context) : Exec Unit := do
  refuseIf ctx.collectorBusy .collectorBusy
  refuseIf (!(← session Session.hasCollector)) .noCollector

/-- Performs a command on the collector. Its operations run with the hooks `kBusy`. A collector that
is dropped and one in the background run with the hooks `k`, since neither is the session's. -/
def performCycle (k kBusy : Hooks Session) (ctx : Context) : CycleCommand Script → Exec Reply
  | .attach => do
    act Action.attachCollector
    modifySession fun s => { s with hasCollector := true }
    return .done
  | .drop => do
    needCollector ctx
    modifySession fun s => { s with hasCollector := false }
    act (Action.dropCollector k)
    return .done
  | .begin roots => do
    let roots ← resolveRoots roots
    needCollector ctx
    act (Action.beginCycle kBusy roots)
    return .done
  | .mark n => do
    let n ← need "n" n
    needCollector ctx
    return .flag (← act (Action.markStep n))
  | .finishMarking roots => do
    let roots ← resolveRoots roots
    needCollector ctx
    act (Action.finishMarking kBusy roots)
    return .done
  | .beginSweep => do
    needCollector ctx
    act (Action.beginSweep kBusy)
    return .done
  | .sweep n => do
    let n ← need "n" n
    needCollector ctx
    return .flag (← act (Action.sweepStep n))
  | .finish => do
    needCollector ctx
    return .number (← act (Action.finishCycle kBusy))
  | .collect roots => do
    let roots ← resolveRoots roots
    needCollector ctx
    return .number (← act (Action.collect kBusy roots))
  | .stats => do
    needCollector ctx
    return .collector (← view Heap.phase) (← view Heap.epoch)
      (← view fun h => (h.collector.map Collector.totals).getD {})
  | .observe phase script => do
    let phase ← need "on" phase
    let script ← need "steps" script
    modifySession fun s => { s with observerScripts := s.observerScripts.push { phase, script } }
    adjust fun h => { h with observers := h.observers + 1 }
    return .number (← view Heap.observerCount)
  | .events => do
    let notes ← session Session.notes
    modifySession fun s => { s with notes := #[] }
    return .notes (notes.toList.map (·.2))
  | .background requests => do
    let requests ← need "requests" requests
    let scripted ← session fun s => s.observerScripts.any fun o => !o.script.isEmpty
    let untriggered ← view fun h => h.config.triggerBytes == 0
    refuseIf (scripted || untriggered) .backgroundRaces
    return .totals (← act (Action.collectInBackground k rootSet requests))

end EagerHeap.Session
