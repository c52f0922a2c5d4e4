import EagerHeap.Heap.EagerFree
/-!
# Scopes of a heap

A worker knows the registries of its scopes, so that the collector finds the slots of the objects
that it is about to free. A registry knows the worker that entered the scope that it backs.
-/

namespace EagerHeap.Heap

/-- Makes a registry of `n` slots. -/
def makeRegistry (h : Heap) (n : Nat) : Nat × Heap :=
  (h.registries.size, { h with registries := h.registries.push (Registry.empty n) })

/-- Changes a registry. -/
def modifyRegistry (h : Heap) (r : Nat) (f : Registry → Registry) : Heap :=
  { h with registries := h.registries.modify r f }

/-- Changes a scope. -/
def modifyScope (h : Heap) (c : Nat) (f : Scope → Scope) : Heap :=
  { h with scopes := h.scopes.modify c f }

/-- Makes the slots of a registry known to a worker. -/
def register (h : Heap) (id r : Nat) : Heap :=
  h.modifyWorker id fun w => { w with registries := r :: w.registries }

/-- Makes a worker forget the slots of a registry that it came to know last. -/
def deregister (h : Heap) (id r : Nat) : Heap :=
  h.modifyWorker id fun w => { w with registries := w.registries.erase r }

/-- The worker that a registry names as its owner. -/
def ownerOf (h : Heap) (r : Nat) : Option Nat := h.registries[r]?.bind Registry.owner

/-- Makes a worker the owner of a registry. -/
def setOwner (h : Heap) (r : Nat) (owner : Option Nat) : Heap :=
  h.modifyRegistry r fun registry => { registry with owner }

/-- Enters a scope of a worker that is backed by a registry. The registry names the worker as its
owner even if the slots are in use already. -/
def enterScope (id r : Nat) : Update Nat := do
  let owner ← modifyGet fun h => (h.ownerOf r, h.setOwner r (some id))
  if owner.isSome then throw .slotsInUse
  modifyGet fun h =>
    (h.scopes.size,
      { h.register id r with scopes := h.scopes.push { worker := id, registry := r } })

/-- The number of slots of a registry. -/
def registryCapacity (h : Heap) (r : Nat) : Nat :=
  (h.registries[r]?.map fun registry => registry.slots.size).getD 0

/-- Writes the address of a new object into the next slot of a scope, unless a sweep began since the
object was allocated. -/
def recordTracked (c addr allocatedAt : Nat) : Update Unit := do
  let h ← get
  match h.scopes[c]? with
  | none => return ()
  | some scope =>
    let capacity := h.registryCapacity scope.registry
    if capacity ≤ scope.used then
      modify (·.count scope.worker .trackOverflow 1)
      throw (.trackingFull capacity)
    else if allocatedAt < h.lastSweep then
      modify (·.count scope.worker .trackedSkipped 1)
    else
      modify fun h =>
        let written := h.modifyRegistry scope.registry (·.setSlot scope.used ⟨addr, h.epoch⟩)
        written.modifyScope c fun scope => { scope with used := scope.used + 1 }

/-- Frees the objects at the given addresses for a worker. Counts those that were freed and those
whose slots were zeroed. -/
def freeTracked (h : Heap) (id : Nat) : List Nat → (Nat × Nat) × Heap
  | [] => ((0, 0), h)
  | 0 :: rest =>
    let ((freed, skipped), h) := h.freeTracked id rest
    ((freed, skipped + 1), h)
  | addr :: rest =>
    let (reason, h) := h.freeOwned id addr
    let ((freed, skipped), h) := h.freeTracked id rest
    ((if reason.isNone then freed + 1 else freed, skipped), h)

/-- Frees every object that a scope tracks and makes its owner forget the slots. Gives the number of
the freed objects. -/
def drainScope (h : Heap) (c : Nat) : Nat × Heap :=
  match h.scopes[c]? with
  | none => (0, h)
  | some scope =>
    let ended := h.modifyScope c fun scope => { scope with used := 0, status := .closed }
    match ended.ownerOf scope.registry, ended.registries[scope.registry]? with
    | some owner, some registry =>
      let ((freed, skipped), h) :=
        (ended.modifyRegistry scope.registry fun registry =>
          { registry.clearSlots scope.used with owner := none }).freeTracked scope.worker
            (registry.addresses scope.used)
      (freed,
        (((h.deregister owner scope.registry).count scope.worker .trackedFrees freed).count
          scope.worker .trackedSkipped skipped))
    | _, _ => (0, ended)

/-- Gives a scope up: its objects stay tracked, and nobody will free them. -/
def leakScope (h : Heap) (c : Nat) : Heap :=
  h.modifyScope c fun scope => { scope with status := .leaked }

/-- Drops a registry; its owner, if there is one, forgets the slots. -/
def dropRegistry (h : Heap) (r : Nat) : Heap :=
  match h.ownerOf r with
  | some id => (h.setOwner r none).deregister id r
  | none => h

/-- Zeroes the slots of a registry whose objects are unreached, and counts them. -/
def zeroSlots (h : Heap) (r : Nat) : Nat × Heap :=
  match h.registries[r]? with
  | some registry =>
    let (zeroed, registry) := registry.zeroUnless h.arena.isReached
    (zeroed, { h with registries := h.registries.set! r registry })
  | none => (0, h)

/-- Zeroes the slots of several registries whose objects are unreached, and counts them. -/
def zeroSlotsOf (h : Heap) : List Nat → Nat × Heap
  | [] => (0, h)
  | r :: rest =>
    let (zeroed, h) := h.zeroSlots r
    let (more, h) := h.zeroSlotsOf rest
    (zeroed + more, h)

/-- The registries that the live workers know. -/
def knownRegistries (h : Heap) : List Nat := h.workers.flatMap Worker.registries

/-- Zeroes the slots of all objects that are about to be freed, and counts them. -/
def invalidateSlots (h : Heap) : Nat × Heap :=
  let (zeroed, h) := h.zeroSlotsOf h.knownRegistries
  (zeroed, { h with slotsZeroed := h.slotsZeroed + zeroed })

end EagerHeap.Heap
