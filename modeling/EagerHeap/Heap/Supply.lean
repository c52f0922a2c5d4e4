import EagerHeap.Heap.Update
/-!
# The supply of cells

An allocation of a small object takes the latest cell of the free list of its worker. If there is
none, it claims the next free cell of the block at the cursor of the worker; and if that block is
used up, the cursor moves to a block with free cells that no other worker claims from, or to a new
block. A large object gets a run of blocks.
-/

namespace EagerHeap.Heap

/-- Hands out a cell as a new object. -/
def publish (h : Heap) (block cell addr size : Nat) : Heap :=
  { h with arena := h.arena.publish block cell addr size h.phase.allocationColor }

/-- Counts bytes of slow allocation. -/
def noteAllocation (h : Heap) (bytes : Nat) : Heap :=
  { h with bytesSinceCycle := h.bytesSinceCycle + bytes }

/-- Takes the latest cell of a free list of a worker. -/
def popFree (h : Heap) (id : Nat) (s : Span) : Option FreeEntry × Heap :=
  match (h.worker? id).bind fun w => (w.freeLists.get s).head? with
  | some e =>
    (some e, h.modifyWorker id fun w => { w with freeLists := w.freeLists.modify s List.tail })
  | none => (none, h)

/-- Puts a cell into a free list of a worker. -/
def pushFree (h : Heap) (id : Nat) (s : Span) (e : FreeEntry) : Heap :=
  h.modifyWorker id fun w => { w with freeLists := w.freeLists.modify s (e :: ·) }

/-- Hands out the latest cell of a free list of a worker, if it has one. -/
def reuse (id : Nat) (s : Span) : Update (Option Nat) := do
  match ← modifyGet (popFree · id s) with
  | none => return none
  | some e =>
    Update.require (fun h => (h.arena.header? e.block e.cell).any (·.state = .cached)) .cached
    modify fun h =>
      (h.publish e.block e.cell e.addr s.cellSize).count id .freeListHits 1
    return some e.addr

/-- The next free cell for a worker in the block at its cursor: the block and the cell. -/
def claimable? (h : Heap) (id : Nat) (s : Span) : Option (Nat × Nat) := do
  let w ← h.worker? id
  let cursor ← w.cursors.get s
  let block ← h.arena.blocks[cursor.block]?
  let cell ← block.freeCell? cursor.cell
  return (cursor.block, cell)

/-- Moves the cursor of a worker. -/
def setCursor (h : Heap) (id : Nat) (s : Span) (c : Cursor) : Heap :=
  h.modifyWorker id fun w => { w with cursors := w.cursors.set s (some c) }

/-- Hands out the next free cell in the block at the cursor of a worker, if there is one. -/
def claim (h : Heap) (id : Nat) (s : Span) : Option Nat × Heap :=
  match h.claimable? id s with
  | some (block, cell) =>
    let addr := Arena.blockBase block + cell * s.cellSize
    let claimed := (h.setCursor id s ⟨block, cell + 1⟩).publish block cell addr s.cellSize
    (some addr, (claimed.noteAllocation s.cellSize).count id .slowAllocations 1)
  | none => (none, h)

/-- Takes the latest block with free cells that no worker claims from. -/
def takePartial (h : Heap) (s : Span) : Option Nat × Heap :=
  match h.central.get s with
  | i :: rest =>
    (some i,
      { h with
        central := h.central.set s rest
        arena := h.arena.modifyBlock i (Block.withQueued false) })
  | [] => (none, h)

/-- Offers a block of small cells to all workers, unless it is offered already. -/
def offer (h : Heap) (i : Nat) : Heap :=
  match h.arena.blocks[i]?.map fun b => (b.span?, b.isQueued) with
  | some (some s, false) =>
    { h with
      central := h.central.modify s (i :: ·)
      arena := h.arena.modifyBlock i (Block.withQueued true) }
  | _ => h

/-- Carves a block of small cells, if there is room. -/
def carveBlock (s : Span) : Update (Option Nat) := do
  let carved ← modifyGet fun h =>
    let (i, arena) := h.arena.carveBlock s
    (i, { h with arena })
  match carved with
  | some i =>
    Update.require (fun h => h.arena.blocks[i]?.any (·.span? = some s)) .spanOfBlock
    return some i
  | none => return none

/-- Hands out a run of `n` blocks as a new object, if there is room. -/
def carveRun (n : Nat) (shape : Shape) : Update (Option Nat) := do
  let carved ← modifyGet fun h =>
    let (i, arena) := h.arena.carveRun n
    (i, { h with arena })
  match carved with
  | some i =>
    Update.require (fun h => h.arena.blocks[i]?.any Block.isLarge) .headOfRun
    Update.require (fun h => (h.arena.header? i 0).any (·.state = .free)) .freeRun
    modify fun h =>
      let headed := { h with arena := h.arena.modifyBlock i (Block.withRun n shape) }
      (headed.publish i 0 (Arena.blockBase i) (n * blockSize)).noteAllocation (n * blockSize)
    return some (Arena.blockBase i)
  | none => return none

end EagerHeap.Heap
