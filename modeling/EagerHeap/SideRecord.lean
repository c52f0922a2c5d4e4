import EagerHeap.AddressTable
/-!
# Side records

A finalizer or cleanup that is attached to an object is a side record. It is first attached under
the address of its object, then it waits in the queue, then it is part of a batch that is being run.
A finalizer is queued once its object is found unreached, and keeps it alive until it ran; a cleanup
is queued when its object is freed.
-/

namespace EagerHeap

/-- What kind of work a side record is. -/
inductive RecordKind where
  /-- Runs with the address of its object, which it keeps alive until then. -/
  | finalizer
  /-- Runs once its object was freed. -/
  | cleanup
deriving DecidableEq, Repr

/-- A finalizer or cleanup. -/
structure SideRecord where
  /-- The number of the record; no two records have the same. -/
  id : Nat
  /-- The kind of its work. -/
  kind : RecordKind
deriving DecidableEq, Repr

/-- Whether the record is a finalizer. -/
def SideRecord.isFinalizer (r : SideRecord) : Bool := r.kind = .finalizer

/-- A record that waits to be run. -/
structure PendingRecord where
  /-- The address of the object of a finalizer; zero for a cleanup. -/
  addr : Nat
  /-- The record. -/
  record : SideRecord
deriving DecidableEq, Repr

/-- The side records of a heap that did not run yet. -/
structure SideRecords where
  /-- The attached records of each object, oldest first. -/
  attached : AddressTable (List SideRecord) := {}
  /-- The queue. -/
  pending : List PendingRecord := []
  /-- The objects of the finalizers of the batches that are being run. -/
  running : List Nat := []
  /-- The number of the next record. -/
  next : Nat := 0

/-- Removes the first occurrence of an element and puts the last element into its place. -/
def removeFirst (a : Nat) (l : List Nat) : List Nat :=
  match l.idxOf? a, l.getLast? with
  | some i, some last => (l.set i last).dropLast
  | _, _ => l

namespace SideRecords

/-- Attaches a new record of a kind to the object at an address. -/
def attach (t : SideRecords) (addr : Nat) (kind : RecordKind) : Nat × SideRecords :=
  (t.next,
    { t with
      attached := t.attached.alter addr fun old => some (old.getD [] ++ [⟨t.next, kind⟩])
      next := t.next + 1 })

/-- Queues the finalizers of the object at an address and leaves its cleanups attached. Says whether
some are. -/
def queueFinalizers (t : SideRecords) (addr : Nat) : Bool × SideRecords :=
  let (finalizers, cleanups) := ((t.attached.find? addr).getD []).partition SideRecord.isFinalizer
  (!cleanups.isEmpty,
    { t with
      attached := t.attached.alter addr fun _ => if cleanups.isEmpty then none else some cleanups
      pending := t.pending ++ finalizers.map (⟨addr, ·⟩) })

/-- Queues the cleanups of an object that is being freed. -/
def queueCleanups (t : SideRecords) (addr : Nat) : SideRecords :=
  { t with
    attached := t.attached.alter addr fun _ => none
    pending := t.pending ++ ((t.attached.find? addr).getD []).map (⟨0, ·⟩) }

/-- Whether a finalizer is attached to the object at an address. -/
def hasFinalizer (t : SideRecords) (addr : Nat) : Bool :=
  ((t.attached.find? addr).getD []).any SideRecord.isFinalizer

/-- The objects with a finalizer of which a condition holds, in ascending order. -/
def finalizable (t : SideRecords) (p : Nat → Bool) : List Nat :=
  t.attached.keys.filter fun addr => t.hasFinalizer addr && p addr

/-- The objects of the finalizers of a batch, in its order. -/
def targets (batch : List PendingRecord) : List Nat :=
  (batch.map PendingRecord.addr).filter (· ≠ 0)

/-- The objects that stay alive because their finalizers are queued or being run. -/
def roots (t : SideRecords) : List Nat := targets t.pending ++ t.running

/-- Takes the whole queue as a batch that is being run. -/
def startBatch (t : SideRecords) : List PendingRecord × SideRecords :=
  (t.pending, { t with pending := [], running := t.running ++ targets t.pending })

/-- Ends a batch that has run to its end. -/
def endBatch (t : SideRecords) (batch : List PendingRecord) : SideRecords :=
  { t with
    running := (targets batch).foldl (fun running addr => removeFirst addr running) t.running }

end SideRecords

end EagerHeap
