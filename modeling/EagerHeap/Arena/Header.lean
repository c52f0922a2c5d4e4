/-!
# Cell headers

Every cell of the arena has a header outside of it: the state of the cell in the life of its
objects, the color that marking gives it, and flags. States and colors also have byte codes; a byte
that is no code reads as the last state or color.
-/

namespace EagerHeap

/-- Where a cell stands in the life of its objects. -/
inductive CellState where
  /-- The slow path may claim the cell. -/
  | free
  /-- The cell is claimed and its object is not yet published. -/
  | init
  /-- The cell holds an object. -/
  | allocated
  /-- The cell was freed eagerly and lies in a free list of one worker. -/
  | cached
deriving DecidableEq, Repr, Inhabited

namespace CellState

/-- The state that a byte stands for. -/
def ofByte : UInt8 → CellState
  | 0 => free
  | 1 => init
  | 2 => allocated
  | _ => cached

/-- The name of the state. -/
def name : CellState → String
  | free => "Free"
  | init => "Init"
  | allocated => "Allocated"
  | cached => "Cached"

end CellState

/-- How far marking got with an object. -/
inductive Color where
  /-- Not reached. -/
  | white
  /-- Reached, and its words are still to be read. -/
  | gray
  /-- Reached and read, or handed out while a cycle runs. -/
  | black
deriving DecidableEq, Repr, Inhabited

namespace Color

/-- The color that a byte stands for. -/
def ofByte : UInt8 → Color
  | 0 => white
  | 1 => gray
  | _ => black

/-- The name of the color. -/
def name : Color → String
  | white => "White"
  | gray => "Gray"
  | black => "Black"

/-- How far a color is from white: marking only ever moves colors up. -/
def rank : Color → Nat
  | white => 0
  | gray => 1
  | black => 2

theorem rank_injective {c d : Color} (h : c.rank = d.rank) : c = d := by
  cases c <;> cases d <;> first | rfl | cases h

theorem ne_white_of_rank {c d : Color} (h : c.rank ≤ d.rank) (hc : c ≠ white) : d ≠ white := by
  rintro rfl
  exact hc (rank_injective (Nat.le_zero.1 h))

end Color

/-- The state, color and flags of a cell. -/
structure Header where
  /-- The state of the cell. -/
  state : CellState := .free
  /-- The color of its object. -/
  color : Color := .white
  /-- One bit per flag. -/
  flags : UInt8 := 0
deriving DecidableEq, Repr, Inhabited

namespace Header

/-- The flag of an object to which a finalizer or cleanup is attached. -/
def sideRecord : UInt8 := 1

/-- Whether one of the given flags is set. -/
def hasFlag (h : Header) (bits : UInt8) : Bool := h.flags &&& bits != 0

/-- Sets the given flags. -/
def setFlag (h : Header) (bits : UInt8) : Header := { h with flags := h.flags ||| bits }

/-- Clears the given flags. -/
def clearFlag (h : Header) (bits : UInt8) : Header := { h with flags := h.flags &&& ~~~bits }

/-- Gives the header a state, whatever it was. -/
def withState (h : Header) (s : CellState) : Header := { h with state := s }

/-- Gives the header a color, whatever it was. -/
def withColor (h : Header) (c : Color) : Header := { h with color := c }

/-- Moves the state from `old` to `new`, and does nothing if the state is not `old`. -/
def moveState (h : Header) (old new : CellState) : Bool × Header :=
  if h.state = old then (true, h.withState new) else (false, h)

/-- Moves the color from `old` to `new`, and does nothing if the color is not `old`. -/
def moveColor (h : Header) (old new : Color) : Bool × Header :=
  if h.color = old then (true, h.withColor new) else (false, h)

/-- The header of a newly handed out object: no flags and the given color. -/
def fresh (c : Color) : Header := { state := .allocated, color := c, flags := 0 }

/-- Whether the cell holds an object that marking has not reached. -/
def isUnreached (h : Header) : Bool := h.state = .allocated ∧ h.color = .white

/-- Whether the cell holds an object that marking has reached. -/
def isReached (h : Header) : Bool := h.state = .allocated ∧ h.color ≠ .white

end Header

/-- A change of a header, or a look at it. -/
inductive HeaderStep where
  /-- Moves the state if it is the first one. -/
  | moveState (old new : CellState)
  /-- Gives the header a color. -/
  | setColor (c : Color)
  /-- Moves the color if it is the first one. -/
  | moveColor (old new : Color)
  /-- Asks whether one of the flags is set. -/
  | hasFlag (bits : UInt8)
  /-- Sets flags. -/
  | setFlag (bits : UInt8)
  /-- Clears flags. -/
  | clearFlag (bits : UInt8)
deriving DecidableEq, Repr

namespace Header

/-- Takes a step. Gives what the step answers, if it answers anything. -/
def step (h : Header) : HeaderStep → Option Bool × Header
  | .moveState old new =>
    let (moved, h) := h.moveState old new
    (some moved, h)
  | .setColor c => (none, h.withColor c)
  | .moveColor old new =>
    let (moved, h) := h.moveColor old new
    (some moved, h)
  | .hasFlag bits => (some (h.hasFlag bits), h)
  | .setFlag bits => (none, h.setFlag bits)
  | .clearFlag bits => (none, h.clearFlag bits)

/-- Takes steps one after the other. Gives after each of them its answer and the header. -/
def trace (h : Header) : List HeaderStep → List (Option Bool × Header)
  | [] => []
  | s :: rest =>
    let (answer, h) := h.step s
    (answer, h) :: h.trace rest

@[simp] theorem state_withColor (h : Header) (c : Color) : (h.withColor c).state = h.state := rfl

@[simp] theorem color_withColor (h : Header) (c : Color) : (h.withColor c).color = c := rfl

@[simp] theorem flags_withColor (h : Header) (c : Color) : (h.withColor c).flags = h.flags := rfl

@[simp] theorem state_withState (h : Header) (s : CellState) : (h.withState s).state = s := rfl

@[simp] theorem color_withState (h : Header) (s : CellState) :
    (h.withState s).color = h.color := rfl

@[simp] theorem flags_withState (h : Header) (s : CellState) :
    (h.withState s).flags = h.flags := rfl

@[simp] theorem state_setFlag (h : Header) (bits : UInt8) : (h.setFlag bits).state = h.state := rfl

@[simp] theorem color_setFlag (h : Header) (bits : UInt8) : (h.setFlag bits).color = h.color := rfl

@[simp] theorem state_clearFlag (h : Header) (bits : UInt8) :
    (h.clearFlag bits).state = h.state := rfl

@[simp] theorem color_clearFlag (h : Header) (bits : UInt8) :
    (h.clearFlag bits).color = h.color := rfl

theorem hasFlag_congr {h k : Header} (e : k.flags = h.flags) (bits : UInt8) :
    k.hasFlag bits = h.hasFlag bits := by
  unfold hasFlag
  rw [e]

@[simp] theorem hasFlag_setFlag (h : Header) :
    (h.setFlag sideRecord).hasFlag sideRecord = true := by
  have hbits : (h.flags ||| 1) &&& 1 = (1 : UInt8) := by
    apply UInt8.toBitVec_inj.1
    ext i hi
    simp +contextual
  simp only [hasFlag, setFlag, sideRecord, hbits]
  rfl

@[simp] theorem hasFlag_clearFlag (h : Header) (bits : UInt8) :
    (h.clearFlag bits).hasFlag bits = false := by
  simp [hasFlag, clearFlag, UInt8.and_assoc]

@[simp] theorem hasFlag_fresh (c : Color) (bits : UInt8) : (fresh c).hasFlag bits = false := by
  simp [hasFlag, fresh]

theorem isUnreached_iff {h : Header} :
    h.isUnreached = true ↔ h.state = .allocated ∧ h.color = .white := by
  simp [isUnreached]

end Header

end EagerHeap
