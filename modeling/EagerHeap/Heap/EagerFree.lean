import EagerHeap.Heap.Supply
/-!
# Eager free

An object that its owner has proven dead goes straight to the free list of the worker. Every
condition that fails leaves the object to the collector and is counted: eager free is a hint.
-/

namespace EagerHeap.Heap

/-- Decides whether the object at an address can be freed by a caller who takes it for one of `size`
bytes, and of a shape if one is given. -/
def freeable (h : Heap) (addr size : Nat) (shape : Option Shape) :
    Except Rejection (Span × FreeEntry) :=
  if h.config.eagerFree = false then .error .disabled
  else if h.arena.contains addr = false then .error .notInHeap
  else if size < h.config.minFreeSize then .error .tooSmall
  else if h.config.maxFreeSize < size then .error .tooLarge
  else
    match h.arena.cell? addr with
    | none => .error .notInHeap
    | some c =>
      match h.arena.blocks[c.block]?.bind Block.span? with
      | none => .error .tooLarge
      | some s =>
        if c.size < size ∨ shape.any (· ≠ s.shape) then .error .mismatch
        else if c.header.hasFlag Header.sideRecord then .error .sideRecord
        else if c.header.state ≠ .allocated then .error .notAllocated
        else .ok (s, ⟨addr, c.block, c.index⟩)

/-- Moves an allocated cell to a free list of a worker. -/
def park (h : Heap) (id : Nat) (s : Span) (e : FreeEntry) : Heap :=
  { h with arena := h.arena.modifyHeader e.block e.cell (·.withState .cached) }.pushFree id s e

/-- Frees an object for a worker, or says why not. -/
def free (h : Heap) (id addr size : Nat) (shape : Option Shape) : Option Rejection × Heap :=
  match h.freeable addr size shape with
  | .ok (s, e) => (none, (h.park id s e).count id .freesAccepted 1)
  | .error reason => (some reason, h.count id (.rejected reason) 1)

/-- Frees an object that the worker allocated itself, with the size of its cell. -/
def freeOwned (h : Heap) (id addr : Nat) : Option Rejection × Heap :=
  h.free id addr (((h.arena.cell? addr).map Cell.size).getD 0) none

end EagerHeap.Heap
