import EagerHeap.Session.Cycles
import EagerHeap.Session.Scopes
import EagerHeap.Session.Workers
/-!
# Commands that look at the heap

These commands change nothing. Workers, scopes and the collector are described under the same
conditions under which they can be used.
-/

namespace EagerHeap.Session

open Exec

/-- Performs a command that looks at the heap. -/
def performView (ctx : Context) : ViewCommand → Exec Reply
  | .state => return .state (← view Heap.state)
  | .census => return .census (← view Heap.census)
  | .config => return .config (← view Heap.config)
  | .stats => do tallyReply (← view Heap.stats)
  | .describe target => do
    match ← need "what" target with
    | .heap => return .text (some (← view Heap.describe))
    | .state => return .text (some (← view Heap.describeState))
    | .worker w =>
      let id ← worker w
      return .text (← view fun h => (h.worker? id).map Worker.describe)
    | .scope c =>
      let scope ← openScope ctx (← need "c" c)
      return .text (← view fun h => h.scopes[scope]?.map fun s =>
        s.describe (h.registryCapacity s.registry))
    | .collector =>
      needCollector ctx
      return .text (← view fun h => h.collector.bind fun c =>
        if c.totals.cycles = 0 then some (h.describeCollector c) else none)

end EagerHeap.Session
