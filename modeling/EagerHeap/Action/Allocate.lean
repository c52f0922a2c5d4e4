import EagerHeap.Action.Basic
import EagerHeap.Heap.EagerFree
import EagerHeap.Heap.Words
import EagerHeap.Repetition
/-!
# Allocation, eager free and growth

Allocation gives zeroed objects. Other work can happen at two places inside of it: after a block was
obtained and before a cell of it is claimed, and before the arena is reported to be exhausted.
-/

namespace EagerHeap.Action

variable {σ : Type} (k : Hooks σ)

/-- Fails for want of room. -/
def exhausted {α : Type} (bytes : Nat) : Action σ α := do
  let arenaSize ← view (·.config.arenaSize)
  emit k (.exhausted bytes arenaSize)
  throw (.outOfMemory (if Config.greatestArena < bytes then Word.bytes else bytes))

/-- Obtains a block with free cells: one that is offered to all workers, or else a new one. -/
def refill (s : Span) : Action σ Nat := do
  match ← change (·.takePartial s) with
  | some i =>
    emit k (.refilled i s)
    return i
  | none =>
    match ← update (Heap.carveBlock s) with
    | some i =>
      emit k (.carved i s)
      return i
    | none => exhausted k blockSize

/-- Claims a free cell of the block at the cursor of the worker. If this block is used up, the cursor moves
to a further block and nothing is claimed yet. -/
def claimOrMove (id : Nat) (s : Span) : Action σ (Option Nat) := do
  match ← change (·.claim id s) with
  | some addr => return some addr
  | none =>
    let i ← refill k s
    adjust (·.setCursor id s ⟨i, 0⟩)
    return none

/-- Looks for a free cell in one block after the other until one is claimed. -/
def search (id : Nat) (s : Span) : Action σ Nat := untilSome (claimOrMove k id s)

/-- Allocates a zeroed object of a span. -/
def allocate (id : Nat) (s : Span) : Action σ Nat := do
  match ← update (Heap.reuse id s) with
  | some addr => return addr
  | none => search k id s

/-- Allocates a zeroed large object. -/
def allocateLarge (size : Nat) (shape : Shape) : Action σ Nat := do
  let blocks := blocksFor (max size 1)
  match ← update (Heap.carveRun blocks shape) with
  | some addr => return addr
  | none => exhausted k (← checked (Word.mul blocks blockSize))

/-- Allocates at least `size` zeroed bytes. -/
def allocateBytes (id size : Nat) (shape : Shape) : Action σ Nat := do
  match SizeClass.forSize? size with
  | some c => allocate k id ⟨c, shape⟩
  | none =>
    adjust (·.count id .slowAllocations 1)
    allocateLarge k size shape

/-- Tries to free the object at an address, of which the caller is the only owner. -/
def tryFree (id addr size : Nat) (shape : Shape) : Action σ Bool := do
  match ← change (·.free id addr size (some shape)) with
  | none => return true
  | some reason =>
    emit k (.declined addr size reason)
    return false

/-- Grows a buffer of `oldCapacity` elements, of which the caller is the only owner, so that it
holds `length` elements, of which `extra` are about to be appended. Gives the new buffer and its
capacity; the old one is freed eagerly. -/
def growUnaliased (id oldAddr oldCapacity length elementSize : Nat) (shape : Shape)
    (extra : Nat) : Action σ (Nat × Nat) := do
  if elementSize = 0 then return (oldAddr, length)
  if length < extra then throw (.assertion .appendedCount)
  adjust (·.count id .growCalls 1)
  let capacity ← ExceptT.mk (pure (nextCapacity oldCapacity length elementSize))
  let addr ← allocateBytes k id (capacity * elementSize) shape
  let kept := min (length - extra) oldCapacity * elementSize
  if oldAddr ≠ 0 ∧ 0 < kept then adjust (·.copyBytes oldAddr addr kept shape)
  if oldAddr ≠ 0 ∧ oldAddr ≠ addr then
    if ← tryFree k id oldAddr (oldCapacity * elementSize) shape then
      adjust (·.count id .growFrees 1)
  return (addr, capacity)

end EagerHeap.Action
