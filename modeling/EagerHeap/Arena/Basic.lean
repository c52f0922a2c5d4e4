import EagerHeap.Arena.Block
import EagerHeap.Arena.Memory
import EagerHeap.Arena.Pages
/-!
# The arena

The arena is one range of addresses, divided into blocks. `Arena.cell?` resolves an address to the
cell that starts there; an address inside a cell, in the tail of a run, in the unused end of a block
or in a block that was never carved resolves to nothing. All other modules change headers and words
through the operations given here.
-/

namespace EagerHeap

/-- The blocks of a heap with their headers and words. -/
structure Arena where
  /-- Which blocks are carved and which are released. -/
  pages : Pages
  /-- The headers of the carved blocks. -/
  blocks : Array Block := #[]
  /-- The words of the arena. -/
  memory : Memory := {}

/-- A resolved address: the cell that starts there, as it was when it was resolved. -/
structure Cell where
  /-- The block that holds the cell. -/
  block : Nat
  /-- The position of the cell in its block. -/
  index : Nat
  /-- The address at which the cell starts. -/
  addr : Nat
  /-- The bytes of the cell. -/
  size : Nat
  /-- The shape of its objects. -/
  shape : Shape
  /-- Whether the cell is a run of blocks. -/
  isLarge : Bool
  /-- The header of the cell. -/
  header : Header
deriving DecidableEq, Repr

namespace Arena

/-- The address of the first byte of the arena. -/
def start : Nat := 68719476736

/-- The arena of `limit` blocks of which none is carved. -/
def empty (limit : Nat) : Arena := { pages := Pages.empty limit }

/-- The address after the last byte of the arena. -/
def stop (a : Arena) : Nat := start + a.pages.limit * blockSize

/-- Whether an address lies in the arena. -/
def contains (a : Arena) (addr : Nat) : Bool := start ≤ addr && addr < a.stop

/-- The address at which a block starts. -/
def blockBase (i : Nat) : Nat := start + i * blockSize

/-- The number of the word at an address. -/
def wordIndex (addr : Nat) : Nat := (addr - start) / Word.bytes

/-- The cell that starts at an address. -/
def cell? (a : Arena) (addr : Nat) : Option Cell :=
  if a.contains addr then do
    let i := (addr - start) / blockSize
    let b ← a.blocks[i]?
    let k ← b.cellAt? ((addr - start) % blockSize)
    let header ← b.header? k
    return { block := i, index := k, addr, size := b.objectSize, shape := b.shape,
             isLarge := b.isLarge, header }
  else none

/-- The header of a cell, given by its block and its position there. -/
def header? (a : Arena) (block cell : Nat) : Option Header := do
  let b ← a.blocks[block]?
  b.header? cell

/-- Changes one block. -/
def modifyBlock (a : Arena) (i : Nat) (f : Block → Block) : Arena :=
  { a with blocks := a.blocks.modify i f }

/-- Changes the header of a cell, given by its block and its position there. -/
def modifyHeader (a : Arena) (block cell : Nat) (f : Header → Header) : Arena :=
  a.modifyBlock block (Block.modifyHeader f cell)

/-- Changes the header of the cell that starts at an address, if one does. -/
def modifyHeaderAt (a : Arena) (addr : Nat) (f : Header → Header) : Arena :=
  match a.cell? addr with
  | some c => a.modifyHeader c.block c.index f
  | none => a

/-- The word at an address. -/
def read (a : Arena) (addr : Nat) : Nat := a.memory.read (wordIndex addr)

/-- Changes the words of the arena. -/
def withMemory (a : Arena) (f : Memory → Memory) : Arena := { a with memory := f a.memory }

/-- Writes the word at an address. -/
def write (a : Arena) (addr v : Nat) : Arena := a.withMemory (·.write (wordIndex addr) v)

/-- The `n` words from an address on. -/
def words (a : Arena) (addr n : Nat) : List Nat :=
  (List.range' (wordIndex addr) n).map a.memory.read

/-- Writes words from an address on. -/
def writeWords (a : Arena) (addr : Nat) (vs : List Nat) : Arena :=
  a.withMemory fun m => (vs.foldl (fun (m, i) v => (m.write i v, i + 1)) (m, wordIndex addr)).1

/-- Copies bytes from one address to another, whole words first and then the rest of them. -/
def copy (a : Arena) (source target bytes : Nat) : Arena :=
  let whole := bytes / Word.bytes
  let copied := a.writeWords target (a.words source whole)
  if bytes % Word.bytes = 0 then copied
  else
    copied.withMemory fun m =>
      m.writeLow (wordIndex target + whole) (bytes % Word.bytes) (m.read (wordIndex source + whole))

/-- The blocks with further ones at the end, so that there are `n`. -/
def padded (blocks : Array Block) (n : Nat) (b : Block) : Array Block :=
  blocks ++ Array.replicate (n - blocks.size) b

/-- Carves a block for small cells of a span. -/
def carveBlock (a : Arena) (s : Span) : Option Nat × Arena :=
  match a.pages.bump 1 with
  | some (i, pages) => (some i, { a with pages, blocks := padded a.blocks (i + 1) (.ofSpan s) })
  | none => (none, a)

/-- Carves a run of `n` blocks. -/
def carveRun (a : Arena) (n : Nat) : Option Nat × Arena :=
  match a.pages.carve n with
  | some (i, pages) => (some i, { a with pages, blocks := padded a.blocks (i + n) .spare })
  | none => (none, a)

/-- Releases the run of `n` blocks that a block heads. -/
def releaseRun (a : Arena) (i n : Nat) : Arena :=
  let released := a.modifyBlock i (Block.withRun 0 .noScan)
  { released with pages := released.pages.release ⟨i, n⟩ }

/-- Hands out the cell of `size` bytes at an address as a new object: its words are zero, it has no
flags, and it gets the given color. -/
def publish (a : Arena) (block cell addr size : Nat) (c : Color) : Arena :=
  (a.withMemory (·.clear (wordIndex addr) (size / Word.bytes))).modifyHeader block cell
    fun _ => Header.fresh c

/-- Makes every object unreached. -/
def resetColors (a : Arena) : Arena :=
  { a with blocks := a.blocks.map (Block.mapHeaders (·.withColor .white)) }

/-- The words of an object that are addresses inside the arena, in their order; an object that is
plain data has none. -/
def pointers (a : Arena) (c : Cell) : List Nat :=
  match c.shape with
  | .scan =>
    (a.memory.foldNonzero (fun found v => if a.contains v then v :: found else found)
      (wordIndex c.addr) (c.size / Word.bytes) []).reverse
  | .noScan => []

/-- Whether an address is that of an object that marking has reached. -/
def isReached (a : Arena) (addr : Nat) : Bool :=
  match a.cell? addr with
  | some c => c.header.isReached
  | none => false

/-- Whether an address is that of an allocated object. -/
def isAllocated (a : Arena) (addr : Nat) : Bool :=
  match a.cell? addr with
  | some c => c.header.state = .allocated
  | none => false

end Arena

end EagerHeap
