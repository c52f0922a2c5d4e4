import EagerHeap.Action.Basic
import EagerHeap.Session.Reply
/-!
# The state of a session

Beside its heap a session has the names that its commands gave, one root set, the scripts of its
side records and observers, and what these reported.
-/

namespace EagerHeap

/-- A named address. A buffer has a capacity, any other address has capacity zero. -/
structure NamedWord where
  /-- The address. -/
  addr : Nat
  /-- The capacity. -/
  capacity : Nat
deriving DecidableEq, Repr

/-- Named slots. -/
structure NamedSlots where
  /-- The registry. -/
  registry : Nat
  /-- Whether another worker tried to enter a scope while the slots were in use. Then a worker may
  know them for good. -/
  contested : Bool := false
deriving DecidableEq, Repr

/-- What a side record does when it runs. -/
structure RecordScript where
  /-- The label of the record. -/
  label : RecordLabel
  /-- The text with which the record fails, if it does. -/
  failure : Option String
  /-- The commands that it runs otherwise. -/
  script : Script

/-- What an observer does on a transition. -/
structure ObserverScript where
  /-- The name of the phase into which the transition has to lead, if it matters. A name that no
  phase has keeps the script from running at all. -/
  phase : Option String
  /-- The commands. -/
  script : Script

/-- A script that waits for an event. -/
structure ArmedScript where
  /-- The message of the event. -/
  message : String
  /-- The commands. -/
  script : Script

/-- The state of a session apart from its heap. -/
structure Session where
  /-- The workers by name. -/
  workers : List (String × Nat) := []
  /-- The slots by name. -/
  slots : List (String × NamedSlots) := []
  /-- The scopes by name that did not end. -/
  scopes : List (String × Nat) := []
  /-- The addresses by name, the latest first. -/
  words : List (String × NamedWord) := []
  /-- The references to each root. -/
  roots : AddressTable Nat := {}
  /-- The scripts of the side records, at the numbers of the records. -/
  recordScripts : Array RecordScript := #[]
  /-- The scripts of the observers, in the order in which they were added. -/
  observerScripts : Array ObserverScript := #[]
  /-- The transitions that were noted, with serial numbers. -/
  notes : Array (Nat × Note Outcome) := #[]
  /-- The next serial number. -/
  nextNote : Nat := 0
  /-- The side records that ran in the current batch. -/
  fired : Array (Fired Outcome) := #[]
  /-- The script that waits for an event. -/
  armed : Option ArmedScript := none
  /-- What the script that waited for an event gave. -/
  during : Option (List Outcome) := none
  /-- The events of the current step. -/
  log : Array Event := #[]
  /-- Whether the session has a collector. -/
  hasCollector : Bool := false

/-- What a command is nested in. -/
structure Context where
  /-- The script of an event runs, as another thread would. -/
  inDuring : Bool := false
  /-- The collector is in the middle of an operation. -/
  collectorBusy : Bool := false
  /-- A scope is in the middle of an allocation. -/
  scopesBusy : Bool := false
deriving DecidableEq, Repr

/-- A computation of a session. -/
abbrev Exec (α : Type) := ExceptT Trouble (StateM (World Session)) α

namespace Exec

variable {α : Type}

/-- An operation on the heap. -/
def act (a : Action Session α) : Exec α :=
  ExceptT.mk fun w =>
    let (result, w) := a.run w
    (result.mapError .failure, w)

/-- A look at the heap. -/
def view (f : Heap → α) : Exec α := return f (← get).heap

/-- An uninterrupted change of the heap. -/
def change (f : Heap → α × Heap) : Exec α := act (Action.change f)

/-- An uninterrupted change of the heap without a result. -/
def adjust (f : Heap → Heap) : Exec Unit := act (Action.adjust f)

/-- A look at the session. -/
def session (f : Session → α) : Exec α := return f (← get).client

/-- A change of the session. -/
def modifySession (f : Session → Session) : Exec Unit :=
  modify fun w => { w with client := f w.client }

/-- Refuses the command. -/
def refuse (r : Refusal) : Exec α := throw (.refused r)

/-- Refuses the command if a condition holds. -/
def refuseIf (b : Bool) (r : Refusal) : Exec Unit := if b then refuse r else return ()

/-- The value of a field, or the refusal that names the field. -/
def need (name : String) : Field α → Exec α
  | some a => return a
  | none => throw (.malformed name)

/-- The value that belongs to a name, or the refusal for want of one. -/
def named (table : Session → List (String × α)) (name : String) (r : Refusal) : Exec α := do
  match ← session fun s => (table s).lookup name with
  | some a => return a
  | none => refuse r

/-- The worker of a command. -/
def worker (w : Field String) : Exec Nat := do
  named Session.workers (← need "w" w) .noSuchWorker

/-- What a name was given to. -/
def namedWord (name : String) : Exec NamedWord := named Session.words name .unboundName

/-- The name of the start of the arena. A command that gives it to another address changes its
capacity only. -/
def arenaName : String := "@"

/-- The address that a name stands for. -/
def namedAddress (name : String) : Exec Nat := do
  if name = arenaName then return Arena.start
  return (← namedWord name).addr

/-- The word that a reference denotes. -/
def resolve : WordRef → Exec Nat
  | .literal n => return n
  | .name s => namedAddress s
  | .offset base plus => do
    let base ← need "of" base
    let plus ← need "plus" plus
    return Word.wrappingAdd (← namedAddress base) plus

/-- The word of a field. -/
def word (name : String) (f : Field WordRef) : Exec Nat := do
  resolve (← need name f)

/-- The capacity of a field. -/
def capacity (name : String) (f : Field CapacityRef) : Exec Nat := do
  match ← need name f with
  | .literal n => return n
  | .name s => return (← namedWord s).capacity

/-- Arms the script that runs in the middle of a step. -/
def arm (f : Field (Option Interruption)) : Exec Unit := do
  if let some i ← need "during" f then
    let message ← need "at" i.message
    let script ← need "steps" i.script
    modifySession fun s => { s with armed := some ⟨message, script⟩ }

/-- The span of a command. -/
def span (f : SpanFields) : Exec Span := do
  let c ← need "class" f.sizeClass
  let a ← need "shape" f.shape
  return ⟨c, a⟩

/-- Gives an address a name, if there is one to give. -/
def bindWord (target : Option String) (addr capacity : Nat) : Exec Unit :=
  match target with
  | some name => modifySession fun s => { s with words := (name, ⟨addr, capacity⟩) :: s.words }
  | none => return ()

end Exec

end EagerHeap
