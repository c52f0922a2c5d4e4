import EagerHeap.Arena.Header
import EagerHeap.Size.Capacity
/-!
# Blocks

A block of the arena either holds small cells of one span for good, each with a header of its own,
or takes part in runs of blocks for large objects. The head of a live run knows how many blocks the
run has and what shape its object has; the other blocks of a run, and the blocks of a released run,
have run length zero.
-/

namespace EagerHeap

/-- The headers of one block. -/
inductive Block where
  /-- A block of small cells; `queued` says whether it waits in the list of its span. -/
  | small (span : Span) (cells : Array Header) (queued : Bool)
  /-- A block of runs; `run` is the length of the live run that it heads, or zero. -/
  | large (head : Header) (run : Nat) (shape : Shape)
deriving DecidableEq, Repr, Inhabited

/-- How many cells of a block are in use, parked in free lists, and free. -/
structure CellCount where
  /-- Cells that hold an object or are being claimed. -/
  allocated : Nat := 0
  /-- Cells in free lists. -/
  cached : Nat := 0
  /-- Free cells. -/
  free : Nat := 0
deriving DecidableEq, Repr

namespace CellCount

/-- Counts one more cell. -/
def count (n : CellCount) (h : Header) : CellCount :=
  match h.state with
  | .allocated | .init => { n with allocated := n.allocated + 1 }
  | .cached => { n with cached := n.cached + 1 }
  | .free => { n with free := n.free + 1 }

end CellCount

namespace Block

/-- The number of cells of a block of small cells. -/
def cellsPer (s : Span) : Nat := blockSize / s.cellSize

/-- A block of free small cells. -/
def ofSpan (s : Span) : Block := small s (Array.replicate (cellsPer s) {}) false

/-- A block of runs that heads none. -/
def spare : Block := large {} 0 .noScan

/-- The span that a block of small cells serves. -/
def span? : Block → Option Span
  | small s _ _ => some s
  | large .. => none

/-- Whether the block takes part in runs. -/
def isLarge : Block → Bool
  | small .. => false
  | large .. => true

/-- The length of the live run that the block heads, or zero. -/
def run : Block → Nat
  | small .. => 0
  | large _ n _ => n

/-- The bytes of an object that starts in the block. -/
def objectSize : Block → Nat
  | small s _ _ => s.cellSize
  | large _ n _ => n * blockSize

/-- The shape of the objects that start in the block. -/
def shape : Block → Shape
  | small s _ _ => s.shape
  | large _ _ a => a

/-- The header of cell `i`. -/
def header? : Block → Nat → Option Header
  | small _ cells _, i => cells[i]?
  | large h _ _, i => if i = 0 then some h else none

/-- Changes the header of cell `i`. -/
def modifyHeader (f : Header → Header) (i : Nat) : Block → Block
  | small s cells queued => small s (cells.modify i f) queued
  | large h n a => if i = 0 then large (f h) n a else large h n a

/-- Changes the header of every cell. -/
def mapHeaders (f : Header → Header) : Block → Block
  | small s cells queued => small s (cells.map f) queued
  | large h n a => large (f h) n a

/-- The cell that starts at a byte offset into the block, if one does. -/
def cellAt? (offset : Nat) : Block → Option Nat
  | small s cells _ =>
    if offset % s.cellSize = 0 ∧ offset / s.cellSize < cells.size then some (offset / s.cellSize)
    else none
  | large _ n _ => if offset = 0 ∧ 0 < n then some 0 else none

/-- Makes the block head a run of `n` blocks with an object of the given shape. -/
def withRun (n : Nat) (a : Shape) : Block → Block
  | large h _ _ => large h n a
  | b => b

/-- Whether a block of small cells waits in the list of its span. -/
def isQueued : Block → Bool
  | small _ _ queued => queued
  | large .. => false

/-- Notes whether the block waits in the list of its span. -/
def withQueued (queued : Bool) : Block → Block
  | small s cells _ => small s cells queued
  | b => b

/-- The first free cell among the `n` cells from cell `i` on. -/
def firstFree (cells : Array Header) (i : Nat) : Nat → Option Nat
  | 0 => none
  | n + 1 => if cells[i]?.any (·.state = .free) then some i else firstFree cells (i + 1) n

/-- The first free small cell at or after cell `i`. -/
def freeCell? (i : Nat) : Block → Option Nat
  | small _ cells _ => firstFree cells i (cells.size - i)
  | large .. => none

/-- Whether some cell of the block is free. -/
def hasFree : Block → Bool
  | small _ cells _ => cells.any (·.state = .free)
  | large h _ _ => h.state = .free

/-- Counts the small cells of the block by state. -/
def cellCount : Block → CellCount
  | small _ cells _ => cells.foldl CellCount.count {}
  | large .. => {}

/-- The number of unreached objects that start in the block. -/
def unreachedCount : Block → Nat
  | small _ cells _ => cells.countP Header.isUnreached
  | large h _ _ => if h.isUnreached then 1 else 0

theorem firstFree_eq_some {cells : Array Header} {i n j : Nat} (h : firstFree cells i n = some j) :
    i ≤ j ∧ j < i + n ∧ cells[j]?.any (·.state = .free) := by
  induction n generalizing i with
  | zero => cases h
  | succ n ih =>
    simp only [firstFree] at h
    split at h
    · next hf =>
      obtain rfl := Option.some.inj h
      exact ⟨Nat.le_refl _, by omega, hf⟩
    · obtain ⟨hle, hlt, hj⟩ := ih h
      exact ⟨by omega, by omega, hj⟩

/-- The search finds no cell exactly if none of the cells is free. -/
theorem firstFree_eq_none_iff {cells : Array Header} {i n : Nat} :
    firstFree cells i n = none ↔
      ∀ j, i ≤ j → j < i + n → cells[j]?.any (·.state = .free) = false := by
  induction n generalizing i with
  | zero =>
    simp only [firstFree, true_iff]
    intro j hij hj
    omega
  | succ n ih =>
    simp only [firstFree]
    split
    · next hf =>
      simp only [reduceCtorEq, false_iff]
      intro h
      rw [h i (Nat.le_refl _) (by omega)] at hf
      cases hf
    · next hf =>
      rw [ih]
      constructor
      · intro h j hij hj
        rcases Nat.eq_or_lt_of_le hij with rfl | hlt
        · exact Bool.not_eq_true _ ▸ hf
        · exact h j hlt (by omega)
      · exact fun h j hij hj => h j (by omega) (by omega)

end Block

end EagerHeap
