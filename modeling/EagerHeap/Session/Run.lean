import EagerHeap.Session.Cycles
import EagerHeap.Session.Objects
import EagerHeap.Session.Records
import EagerHeap.Session.Roots
import EagerHeap.Session.Scopes
import EagerHeap.Session.Views
import EagerHeap.Session.Workers
/-!
# Running a session

The steps of a session run one after the other. Scripts run in the middle of steps: that of a side
record when it fires, that of an observer when a transition is announced, and that of a step when
the event for which it waits is reported. A script within scripts runs one level deeper, and there
are `depthLimit` levels.
-/

namespace EagerHeap

namespace Session

/-- How a script runs. -/
abbrev Runner := Context → Script → World Session → List Outcome × World Session

/-- Reports an event, and runs the script that waits for it. -/
def hearEvent (run : Runner) (ctx : Context) (e : Event) (w : World Session) : World Session :=
  let w := { w with client := { w.client with log := w.client.log.push e } }
  match w.client.armed with
  | none => w
  | some armed =>
    if armed.message = e.message then
      let w := { w with client := { w.client with armed := none } }
      let (results, w) := run { ctx with inDuring := true } armed.script w
      { w with client := { w.client with during := some results } }
    else w

/-- Adds results to the note with a serial number, if it was not taken yet. -/
def setNoteResults (serial : Nat) (results : List Outcome) (s : Session) : Session :=
  { s with
    notes := s.notes.map fun (i, note) =>
      (i, if i = serial then { note with results := some results } else note) }

/-- Notes a transition, and runs the script of the observer if the transition concerns it. -/
def hearTransition (run : Runner) (ctx : Context) (i : Nat) (t : Transition) (w : World Session) :
    World Session :=
  let serial := w.client.nextNote
  let note : Note Outcome := ⟨i, t, none⟩
  let w :=
    { w with
      client :=
        { w.client with notes := w.client.notes.push (serial, note), nextNote := serial + 1 } }
  match w.client.observerScripts[i]? with
  | none => w
  | some o =>
    if !o.script.isEmpty && o.phase.all (· = t.after.name) then
      let (results, w) := run ctx o.script w
      { w with client := setNoteResults serial results w.client }
    else w

/-- Adds results to the side record at a place of the current batch. -/
def setFiredResults (place : Nat) (results : List Outcome) (s : Session) : Session :=
  { s with fired := s.fired.modify place fun r => { r with results := some results } }

/-- Runs a side record: it is reported, then it fails or runs its script. -/
def fire (run : Runner) (ctx : Context) (r : SideRecord) (addr : Nat) : Action Session Unit := do
  let w ← get
  match w.client.recordScripts[r.id]? with
  | none => return ()
  | some record =>
    let place := w.client.fired.size
    let entry : Fired Outcome := ⟨r.kind, record.label, addr, none⟩
    modify fun w => { w with client := { w.client with fired := w.client.fired.push entry } }
    match record.failure with
    | some text => throw (.recordFailed text)
    | none =>
      if !record.script.isEmpty then
        modify fun w =>
          let (results, w) := run ctx record.script w
          { w with client := setFiredResults place results w.client }

/-- What the session does in the middle of operations. -/
def hooks (run : Runner) (ctx : Context) : Hooks Session where
  onEvent := hearEvent run ctx
  onTransition := hearTransition run ctx
  onRecord := fire run ctx

/-- Performs a command. -/
def perform (run : Runner) (ctx : Context) : Command → Exec Reply
  | .worker c => performWorker (hooks run ctx) ctx c
  | .object c => performObject c
  | .record c => performRecord (hooks run ctx) c
  | .root c => performRoot c
  | .scope c => performScope (hooks run { ctx with scopesBusy := true }) ctx c
  | .cycle c => performCycle (hooks run ctx) (hooks run { ctx with collectorBusy := true }) ctx c
  | .view c => performView ctx c
  | .unknown => throw (.malformed "op")

/-- Performs commands one after the other. -/
def performAll (run : Runner) (ctx : Context) :
    Script → World Session → List Outcome × World Session
  | [], w => ([], w)
  | c :: rest, w =>
    let (outcome, w) := (perform run ctx c).run w
    let (outcomes, w) := performAll run ctx rest w
    (outcome :: outcomes, w)

/-- Runs a script with a number of levels left. -/
def runScript : Nat → Runner
  | 0 => fun _ script w => (script.map fun _ => .error .tooDeep, w)
  | depth + 1 => performAll (runScript depth)

/-- The number of levels of scripts within scripts. -/
def depthLimit : Nat := 1024

/-- The counts of a heap that are watched. -/
structure Watch where
  /-- The phase and the counts. -/
  state : HeapState
  /-- The occupancy. -/
  census : Census
  /-- The number of queued side records. -/
  pending : Nat
deriving DecidableEq, Repr

/-- The counts of a heap as they are now. -/
def watch (h : Heap) : Watch := ⟨h.state, h.census, h.records.pending.length⟩

/-- What a step gave. -/
structure StepResult where
  /-- What became of the command. -/
  outcome : Outcome
  /-- The counts of the heap after the step, if they are watched. -/
  watch : Option Watch
  /-- The events of the step. -/
  log : List Event
  /-- What the script that waited for an event gave, if it ran. -/
  during : Option (List Outcome)

/-- Arms the script of a step and performs its command. -/
def performStep (s : Step) : Exec Reply := do
  Exec.arm s.during
  perform (runScript depthLimit) {} s.command

/-- Runs a step. -/
def runStep (watched : Bool) (s : Step) (w : World Session) : StepResult × World Session :=
  let w := { w with client := { w.client with log := #[], armed := none, during := none } }
  let (outcome, w) := (performStep s).run w
  ({ outcome
     watch := if watched then some (Session.watch w.heap) else none
     log := w.client.log.toList
     during := w.client.during }, w)

/-- Runs steps one after the other. -/
def runSteps (watched : Bool) : List Step → World Session → List StepResult × World Session
  | [], w => ([], w)
  | s :: rest, w =>
    let (result, w) := runStep watched s w
    let (results, w) := runSteps watched rest w
    (result :: results, w)

/-- What a session gave. -/
structure Result where
  /-- The events of the creation of the heap. -/
  log : List Event
  /-- What the steps gave. -/
  steps : List StepResult

/-- The event that reports the creation of a heap. -/
def creation (c : Config) : Event := .heapCreated c.arenaSize c.arenaBlocks c.eagerFree

/-- The memory of the host on which sessions run, unless something else is said: 256 MiB. -/
def hostMemory : Nat := 268435456

/-- Runs a session on a new heap. -/
def run (c : Config) (watched : Bool) (steps : List Step) (memory : Nat := hostMemory) :
    Except CreationError Result :=
  (Heap.create memory c).map fun heap =>
    ⟨[creation c], (runSteps watched steps ⟨heap, {}⟩).1⟩

end Session

end EagerHeap
