import EagerHeap.Action.Records
import EagerHeap.Session.State
/-!
# Commands on side records

A batch of side records is reported with the records that ran in it, also when one of them failed. A
batch within a batch reports its own records only.
-/

namespace EagerHeap.Session

open Exec

/-- The side records of a stretch of finalizers are reported by ascending address. -/
def byAddress (r s : Fired Outcome) : Bool := r.addr ≤ s.addr

/-- The order in which side records are reported: that in which they ran, apart from stretches of
finalizers, whose order says nothing. -/
def reportOrder : List (Fired Outcome) → List (Fired Outcome) → List (Fired Outcome)
  | [], stretch => stretch.mergeSort byAddress
  | r :: rest, stretch =>
    match r.kind with
    | .finalizer => reportOrder rest (stretch ++ [r])
    | .cleanup => stretch.mergeSort byAddress ++ r :: reportOrder rest []

/-- Runs the queued side records and reports those that ran. -/
def runPending (k : Hooks Session) : Exec Reply := fun w =>
  let outer := w.client.fired
  let (result, w) :=
    (Action.runPending k).run { w with client := { w.client with fired := #[] } }
  let fired := reportOrder w.client.fired.toList []
  let w := { w with client := { w.client with fired := outer } }
  match result with
  | .ok ran => (.ok (.batch ran fired), w)
  | .error f => (.ok (.brokenBatch f fired), w)

/-- Performs a command on side records. -/
def performRecord (k : Hooks Session) : RecordCommand Script → Exec Reply
  | .attach kind addr label script failure => do
    let addr ← word "addr" addr
    let label ← need "id" label
    let script ← need "steps" script
    let failure ← need "panic" failure
    match ← change (·.attachRecord addr kind) with
    | some _ =>
      modifySession fun s =>
        { s with recordScripts := s.recordScripts.push { label, failure, script } }
      return .flag true
    | none => return .flag false
  | .runPending => runPending k
  | .pending => return .number (← view (·.records.pending.length))

end EagerHeap.Session
