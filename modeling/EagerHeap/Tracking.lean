/-!
# Tracking scopes

A scope remembers the objects that were allocated in it and frees them when it ends. It remembers
them in the slots of a registry, which the caller owns and which backs one scope at a time. A slot
does not keep its object alive: when the collector is about to free the object, the slot is zeroed.
-/

namespace EagerHeap

/-- A weak reference to a tracked object. -/
structure Slot where
  /-- The address of the object, or zero. -/
  addr : Nat := 0
  /-- The epoch in which the object was tracked. -/
  epoch : Nat := 0
deriving DecidableEq, Repr, Inhabited

/-- A fixed number of slots. -/
structure Registry where
  /-- The slots. -/
  slots : Array Slot
  /-- The worker that entered the scope that the slots back. -/
  owner : Option Nat := none
deriving DecidableEq, Repr

/-- What became of a scope. -/
inductive ScopeStatus where
  /-- The scope tracks allocations. -/
  | active
  /-- The scope has ended and its objects were freed. -/
  | closed
  /-- The scope was given up and will never free its objects. -/
  | leaked
deriving DecidableEq, Repr

/-- A scope of one worker. -/
structure Scope where
  /-- The worker whose allocations are tracked. -/
  worker : Nat
  /-- The registry that backs the scope. -/
  registry : Nat
  /-- The number of slots that are used. -/
  used : Nat := 0
  /-- What became of the scope. -/
  status : ScopeStatus := .active
deriving DecidableEq, Repr

/-- A scope with a capacity as a record with named fields. -/
def Scope.describe (s : Scope) (capacity : Nat) : String :=
  "TrackScope \x7b len: " ++ toString s.used ++ ", capacity: " ++ toString capacity ++ " \x7d"

namespace Registry

/-- A registry of `n` empty slots. -/
def empty (n : Nat) : Registry := { slots := Array.replicate n {} }

/-- Zeroes the slots whose address fails a condition, and counts them. -/
def zeroUnless (r : Registry) (keep : Nat → Bool) : Nat × Registry :=
  let dead (s : Slot) : Bool := s.addr != 0 && !keep s.addr
  (r.slots.countP dead,
    { r with slots := r.slots.map fun s => if dead s then { s with addr := 0 } else s })

/-- Writes slot `i`. -/
def setSlot (r : Registry) (i : Nat) (s : Slot) : Registry :=
  { r with slots := r.slots.setIfInBounds i s }

/-- Zeroes the addresses of the first `n` slots. -/
def clearSlots (r : Registry) (n : Nat) : Registry :=
  { r with slots := r.slots.mapIdx fun i s => if i < n then { s with addr := 0 } else s }

/-- The addresses in the first `n` slots. -/
def addresses (r : Registry) (n : Nat) : List Nat := (r.slots.toList.take n).map Slot.addr

end Registry

end EagerHeap
