import EagerHeap.Arena.Basic
import EagerHeap.SideRecord
/-!
# Commands

A session drives one heap by commands, which speak of workers, slots, scopes and words by name. A
field of a command that is missing or cannot be read is refused when its turn comes, and not before,
so a command keeps what was read of each field. Some commands carry a script of further commands,
which run later, in the middle of other operations. The items of a list are fields, too: each one is
refused when its turn comes.
-/

namespace EagerHeap

/-- What was read of a field; nothing if it is missing or malformed. -/
abbrev Field (α : Type) := Option α

/-- How a command denotes a machine word. -/
inductive WordRef where
  /-- The word itself. -/
  | literal (n : Nat)
  /-- An address that an earlier command named. -/
  | name (s : String)
  /-- A named address plus a number. -/
  | offset (base : Field String) (plus : Field Nat)
deriving DecidableEq, Repr

/-- How a command denotes the capacity of a buffer. -/
inductive CapacityRef where
  /-- The capacity itself. -/
  | literal (n : Nat)
  /-- The capacity of a named buffer. -/
  | name (s : String)
deriving DecidableEq, Repr

/-- How a command denotes the roots of a cycle. -/
inductive RootsRef where
  /-- No roots. -/
  | none
  /-- The root set of the session. -/
  | rootSet
  /-- The given words. -/
  | words (refs : List (Field WordRef))
deriving DecidableEq, Repr

/-- How a command denotes a span. -/
structure SpanFields where
  /-- The size class. -/
  sizeClass : Field SizeClass
  /-- The shape. -/
  shape : Field Shape
deriving DecidableEq, Repr

/-- The label of a side record in reports. -/
inductive RecordLabel where
  /-- A number. -/
  | number (n : Nat)
  /-- A text. -/
  | text (s : String)
deriving DecidableEq, Repr

/-- Commands on workers. -/
inductive WorkerCommand where
  /-- Makes a worker. -/
  | create (w : Field String)
  /-- Ends a worker. -/
  | drop (w : Field String)
  /-- Allocates an object of a size class. -/
  | allocate (w : Field String) (span : SpanFields) (target : Option String)
  /-- Allocates a number of bytes. -/
  | allocateBytes (w : Field String) (size : Field Nat) (shape : Field Shape)
      (target : Option String)
  /-- Allocates `n` objects. -/
  | fill (w : Field String) (span : SpanFields) (n : Field Nat) (target : Option String)
  /-- Allocates and frees `n` times. -/
  | churn (w : Field String) (span : SpanFields) (size n : Field Nat)
  /-- Frees an object eagerly. -/
  | free (w : Field String) (addr : Field WordRef) (size : Field Nat) (shape : Field Shape)
  /-- Grows a buffer. -/
  | grow (w : Field String) (addr : Field WordRef) (capacity : Field CapacityRef)
      (length elementSize : Field Nat) (shape : Field Shape) (extra : Field Nat)
      (target : Option String)
  /-- Appends elements to an empty buffer one by one, growing it as needed. -/
  | growLoop (w : Field String) (elementSize : Field Nat) (shape : Field Shape) (count : Field Nat)
      (target : Option String)
  /-- The length of all free lists, or of that of one span. -/
  | freeListLength (w : Field String) (span : Option SpanFields)
  /-- The counters of a worker. -/
  | stats (w : Field String)
deriving DecidableEq, Repr

/-- Commands on words and objects. -/
inductive ObjectCommand where
  /-- Writes a word of an object. -/
  | write (w : Field String) (obj : Field WordRef) (i : Field Nat) (v : Field WordRef)
  /-- Reads `n` words of an object. -/
  | read (obj : Field WordRef) (i n : Field Nat)
  /-- What is known of the object at an address. -/
  | info (addr : Field WordRef)
  /-- Whether an address lies in the arena. -/
  | contains (addr : Field WordRef)
deriving DecidableEq, Repr

/-- Commands on side records; `σ` is the type of scripts. -/
inductive RecordCommand (σ : Type) where
  /-- Attaches a side record that runs a script, or fails with a text. -/
  | attach (kind : RecordKind) (addr : Field WordRef) (label : Field RecordLabel)
      (script : Option σ) (failure : Field (Option String))
  /-- Runs the queued side records. -/
  | runPending
  /-- The number of queued side records. -/
  | pending
deriving DecidableEq, Repr

/-- One change of a root set. -/
inductive RootEdit where
  /-- Adds one reference to an address. -/
  | add (addr : Field WordRef)
  /-- Removes one reference to an address. -/
  | remove (addr : Field WordRef)
deriving DecidableEq, Repr

/-- Commands on the root set of the session. -/
inductive RootCommand where
  /-- Adds one reference to an address. -/
  | add (addr : Field WordRef)
  /-- Removes one reference to an address. -/
  | remove (addr : Field WordRef)
  /-- Whether an address is a root. -/
  | contains (addr : Field WordRef)
  /-- All roots. -/
  | list
  /-- Several changes at once. -/
  | batch (edits : Field (List (Field RootEdit)))
deriving DecidableEq, Repr

/-- Commands on slots and scopes. -/
inductive ScopeCommand where
  /-- Makes slots. -/
  | createSlots (s : Field String) (n : Field Nat)
  /-- Drops slots. -/
  | dropSlots (s : Field String)
  /-- What the slots hold. -/
  | viewSlots (s : Field String)
  /-- Enters a scope. -/
  | enter (w s c : Field String)
  /-- Allocates an object in a scope. -/
  | track (c : Field String) (span : SpanFields) (target : Option String)
  /-- What a scope tracks. -/
  | view (c : Field String)
  /-- Ends a scope and says how many objects it freed. -/
  | exit (c : Field String)
  /-- Ends a scope. -/
  | drop (c : Field String)
  /-- Abandons the body of a scope. -/
  | unwind (c : Field String)
  /-- Gives a scope up without ending it. -/
  | leak (c : Field String)
deriving DecidableEq, Repr

/-- Commands on phases and the collector; `σ` is the type of scripts. -/
inductive CycleCommand (σ : Type) where
  /-- Attaches a collector. -/
  | attach
  /-- Drops the collector. -/
  | drop
  /-- Begins a cycle. -/
  | begin (roots : Field RootsRef)
  /-- Marks up to `n` objects. -/
  | mark (n : Field Nat)
  /-- Marks to the end. -/
  | finishMarking (roots : Field RootsRef)
  /-- Begins to sweep. -/
  | beginSweep
  /-- Sweeps up to `n` blocks. -/
  | sweep (n : Field Nat)
  /-- Finishes a cycle. -/
  | finish
  /-- Runs a whole cycle. -/
  | collect (roots : Field RootsRef)
  /-- What the cycles of the collector amount to. -/
  | stats
  /-- Adds an observer that runs a script on transitions, or on those into the phase of a name. -/
  | observe (phase : Field (Option String)) (script : Option σ)
  /-- The transitions that the observers noted since the last such command. -/
  | events
  /-- Collects in the background. -/
  | background (requests : Field Nat)
deriving DecidableEq, Repr

/-- What a command describes by a text. -/
inductive DescribeTarget where
  /-- The heap. -/
  | heap
  /-- The phase of the heap. -/
  | state
  /-- A worker. -/
  | worker (w : Field String)
  /-- A scope. -/
  | scope (c : Field String)
  /-- The collector. -/
  | collector
deriving DecidableEq, Repr

/-- Commands that look at the heap. -/
inductive ViewCommand where
  /-- The phase and the counts of the heap. -/
  | state
  /-- The occupancy of the heap. -/
  | census
  /-- The configuration. -/
  | config
  /-- The counters of all workers. -/
  | stats
  /-- A text that describes something. -/
  | describe (target : Field DescribeTarget)
deriving DecidableEq, Repr

/-- A command of a session. -/
inductive Command where
  /-- A command on workers. -/
  | worker (c : WorkerCommand)
  /-- A command on objects. -/
  | object (c : ObjectCommand)
  /-- A command on side records. -/
  | record (c : RecordCommand (List Command))
  /-- A command on roots. -/
  | root (c : RootCommand)
  /-- A command on scopes. -/
  | scope (c : ScopeCommand)
  /-- A command on the collector. -/
  | cycle (c : CycleCommand (List Command))
  /-- A command that looks at the heap. -/
  | view (c : ViewCommand)
  /-- A command that nobody knows. -/
  | unknown

instance : Inhabited Command := ⟨.unknown⟩

/-- Commands that run one after the other. -/
abbrev Script := List Command

/-- A script that runs in the middle of a step, at the first event of some message. -/
structure Interruption where
  /-- The message of the event. -/
  message : Field String
  /-- The commands. -/
  script : Field Script

/-- A command that a session was given, and the script that runs in the middle of it, if any. -/
structure Step where
  /-- The command. -/
  command : Command
  /-- The script. -/
  during : Field (Option Interruption) := some none

end EagerHeap
