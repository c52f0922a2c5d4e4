import EagerHeap.Failure
import EagerHeap.Heap.Basic
import EagerHeap.Session.Command
/-!
# Replies

A command gives a reply or runs into trouble: the heap fails, or the session refuses the command
before it reaches the heap.
-/

namespace EagerHeap

/-- Why a session refuses a command whose fields are all well-formed. -/
inductive Refusal where
  /-- No worker has the name. -/
  | noSuchWorker
  /-- A worker has the name already. -/
  | workerExists
  /-- The worker may be in the middle of an operation. -/
  | workerBusy
  /-- The worker has scopes that did not end. -/
  | workerHasScopes
  /-- The address is not that of an object with room for the buffer. -/
  | notLiveBuffer
  /-- The address is not that of an object with these words. -/
  | notLiveWord
  /-- No address has the name. -/
  | unboundName
  /-- Slots have the name already. -/
  | slotsExist
  /-- No slots have the name. -/
  | noSuchSlots
  /-- The slots back a scope that did not end. -/
  | slotsBackScope
  /-- A worker still knows the slots. -/
  | slotsRegistered
  /-- A scope has the name already. -/
  | scopeExists
  /-- No scope has the name. -/
  | noSuchScope
  /-- A scope is in the middle of an allocation. -/
  | scopesBusy
  /-- The session has no collector. -/
  | noCollector
  /-- The collector is in the middle of an operation. -/
  | collectorBusy
  /-- What happens in the background would depend on time. -/
  | backgroundRaces
deriving DecidableEq, Repr

/-- The words of a refusal. -/
def Refusal.text : Refusal → String
  | noSuchWorker => "no such worker"
  | workerExists => "worker exists"
  | workerBusy => "worker may be busy"
  | workerHasScopes => "worker has open scopes"
  | notLiveBuffer => "not a live buffer"
  | notLiveWord => "not a live word"
  | unboundName => "unbound name"
  | slotsExist => "slots exist"
  | noSuchSlots => "no such slots"
  | slotsBackScope => "slots back an open scope"
  | slotsRegistered => "slots are still registered"
  | scopeExists => "scope exists"
  | noSuchScope => "no such scope"
  | scopesBusy => "scopes are busy"
  | noCollector => "no collector"
  | collectorBusy => "collector is busy"
  | backgroundRaces => "background would race"

/-- Why a command has no reply. -/
inductive Trouble where
  /-- The heap failed. -/
  | failure (f : Failure)
  /-- The session refuses the command. -/
  | refused (r : Refusal)
  /-- A field is missing or malformed. -/
  | malformed (field : String)
  /-- Scripts run within scripts without end. -/
  | tooDeep
deriving DecidableEq, Repr

/-- A side record that ran; `ρ` is the type of the results of its script. -/
structure Fired (ρ : Type) where
  /-- The kind of the record. -/
  kind : RecordKind
  /-- The label of the record. -/
  label : RecordLabel
  /-- The address of the object of a finalizer. -/
  addr : Nat
  /-- What the script of the record gave, if it has one. -/
  results : Option (List ρ)
deriving Repr

/-- A transition that an observer noted; `ρ` is the type of the results of its script. -/
structure Note (ρ : Type) where
  /-- The number of the observer. -/
  observer : Nat
  /-- The transition. -/
  transition : Transition
  /-- What the script of the observer gave, if it ran. -/
  results : Option (List ρ)
deriving Repr

/-- One growth of a buffer. -/
structure Growth where
  /-- The number of elements that made the buffer grow. -/
  length : Nat
  /-- The new buffer. -/
  addr : Nat
  /-- The new capacity. -/
  capacity : Nat
deriving DecidableEq, Repr

/-- The phase and the counts of a heap. -/
structure HeapState where
  /-- The phase. -/
  phase : Phase
  /-- The number of transitions. -/
  epoch : Nat
  /-- The epoch of the latest transition into the sweeping phase. -/
  lastSweep : Nat
  /-- The number of observers. -/
  observers : Nat
  /-- The number of workers. -/
  workers : Nat
  /-- The bytes of slow allocation since the latest cycle. -/
  bytesSinceCycle : Nat
  /-- Whether a cycle is due. -/
  shouldCollect : Bool
  /-- The slots that the collector zeroed. -/
  slotsZeroed : Nat
deriving DecidableEq, Repr

/-- The phase and the counts of a heap as they are now. -/
def Heap.state (h : Heap) : HeapState where
  phase := h.phase
  epoch := h.epoch
  lastSweep := h.lastSweep
  observers := h.observerCount
  workers := h.workers.length
  bytesSinceCycle := h.bytesSinceCycle
  shouldCollect := h.shouldCollect
  slotsZeroed := h.slotsZeroed

/-- What a command answers. -/
inductive Reply where
  /-- Nothing but that it was done. -/
  | done
  /-- A truth value. -/
  | flag (b : Bool)
  /-- A number. -/
  | number (n : Nat)
  /-- Several numbers. -/
  | numbers (ns : List Nat)
  /-- A text, or none. -/
  | text (s : Option String)
  /-- A grown buffer. -/
  | buffer (addr capacity : Nat)
  /-- The growths of a buffer. -/
  | growths (gs : List Growth)
  /-- The number of accepted frees and the addresses that were allocated. -/
  | churned (accepted : Nat) (addrs : List Nat)
  /-- What is known of an object. -/
  | object (c : Option Cell)
  /-- Counters, and the number of all declined frees. -/
  | tally (t : Tally) (rejections : Nat)
  /-- The results of changes of the root set; an added root has none. -/
  | rootEdits (results : List (Option Bool))
  /-- The roots. -/
  | roots (addrs : List Nat)
  /-- The slots of a registry. -/
  | slots (slots : List Slot)
  /-- The used slots and the capacity of a new scope. -/
  | entered (used capacity : Nat)
  /-- The used slots and the capacity of a scope, and the addresses that it tracks. -/
  | scope (used capacity : Nat) (addrs : List Nat)
  /-- The phase, the epoch and what the cycles of the collector amount to. -/
  | collector (phase : Phase) (epoch : Nat) (totals : CycleTotals)
  /-- What the cycles of a collector amount to. -/
  | totals (totals : CycleTotals)
  /-- The phase and the counts of the heap. -/
  | state (s : HeapState)
  /-- The occupancy of the heap. -/
  | census (c : Census)
  /-- The configuration of the heap. -/
  | config (c : Config)
  /-- The side records that ran. -/
  | batch (ran : Nat) (fired : List (Fired (Except Trouble Reply)))
  /-- The side records that ran until one of them failed. -/
  | brokenBatch (failure : Failure) (fired : List (Fired (Except Trouble Reply)))
  /-- The noted transitions. -/
  | notes (notes : List (Note (Except Trouble Reply)))

/-- What became of a command. -/
abbrev Outcome := Except Trouble Reply

end EagerHeap
