import EagerHeap.Failure
import EagerHeap.Size.Class
/-!
# Reserved sizes and the growth of buffers

`reservedSize n` is the number of bytes that a request for `n` bytes occupies: the cell size of its
class, or whole blocks. `nextCapacity` is the growth policy of buffers. It doubles short buffers,
stretches long ones by about a quarter at a time, takes a larger demand as it is, and then uses up
the slack of the reserved size.
-/

namespace EagerHeap

/-- The bytes of a block of the arena. -/
def blockSize : Nat := 16384

/-- The binary logarithm of the block size. -/
def blockShift : Nat := 14

/-- The least number of blocks that hold `n` bytes. -/
def blocksFor (n : Nat) : Nat := (n + 16383) / 16384

/-- The bytes that a request for `n` bytes occupies. -/
def reservedSize (n : Nat) : Except Overflow Nat :=
  match SizeClass.forSize? n with
  | some c => .ok c.size
  | none => Word.mul (blocksFor n) blockSize

namespace Capacity

/-- Buffers of fewer elements than this are doubled. -/
def doublingLimit : Nat := 256

/-- One step of slow growth: about a quarter more, and a little extra that fades with size. -/
def widened (capacity : Nat) : Nat := capacity + (capacity + 3 * doublingLimit) / 4

theorem lt_widened (capacity : Nat) : capacity < widened capacity := by
  simp only [widened, doublingLimit]
  omega

/-- Widens a capacity until it reaches `needed`, in at most `n` steps. -/
def stretchWithin (needed : Nat) : Nat → Nat → Except Overflow Nat
  | 0, capacity => .ok capacity
  | n + 1, capacity =>
    if capacity < needed then
      if widened capacity < Word.bound then stretchWithin needed n (widened capacity)
      else .error .sum
    else .ok capacity

/-- Widens a capacity until it reaches `needed`; every step comes nearer by one at least. -/
def stretch (needed capacity : Nat) : Except Overflow Nat :=
  stretchWithin needed (needed - capacity) capacity

/-- More steps than are needed make no difference. -/
theorem stretchWithin_eq_of_le {needed n m capacity : Nat} (hn : needed - capacity ≤ n)
    (hm : needed - capacity ≤ m) :
    stretchWithin needed n capacity = stretchWithin needed m capacity := by
  induction n generalizing m capacity with
  | zero =>
    cases m with
    | zero => rfl
    | succ m =>
      have hle : ¬ capacity < needed := by omega
      simp [stretchWithin, hle]
  | succ n ih =>
    cases m with
    | zero =>
      have hle : ¬ capacity < needed := by omega
      simp [stretchWithin, hle]
    | succ m =>
      have hlt := lt_widened capacity
      simp only [stretchWithin]
      split
      · split
        · exact ih (by omega) (by omega)
        · rfl
      · rfl

/-- The rule by which a capacity is stretched, step by step. -/
theorem stretch_eq (needed capacity : Nat) :
    stretch needed capacity =
      if capacity < needed then
        if widened capacity < Word.bound then stretch needed (widened capacity) else .error .sum
      else .ok capacity := by
  have hlt := lt_widened capacity
  rw [stretch, stretchWithin_eq_of_le (Nat.le_refl _) (Nat.le_succ _)]
  simp only [stretchWithin]
  split
  · split
    · exact stretchWithin_eq_of_le (by omega) (by omega)
    · rfl
  · rfl

/-- The number of elements that the policy asks for, before the slack is used up. -/
def demanded (oldCapacity needed : Nat) : Except Overflow Nat :=
  let doubled := min (oldCapacity * 2) Word.greatest
  if doubled < needed then .ok needed
  else if oldCapacity < doublingLimit then .ok doubled
  else stretch needed oldCapacity

/-- The elements of `elementSize` bytes that fit into the space reserved for `count` of them. -/
def filled (count elementSize : Nat) : Except Failure Nat :=
  if count * elementSize ≤ Word.signedGreatest then
    match reservedSize (count * elementSize) with
    | .ok bytes => .ok (bytes / elementSize)
    | .error e => .error (.overflow e)
  else .error .capacityOverflow

end Capacity

/-- The capacity of a buffer that grows from `oldCapacity` to at least `needed` elements. -/
def nextCapacity (oldCapacity needed elementSize : Nat) : Except Failure Nat :=
  if elementSize = 0 then .error (.assertion .elementSize)
  else
    match Capacity.demanded oldCapacity needed with
    | .error e => .error (.overflow e)
    | .ok count => Capacity.filled (max (max count needed) 1) elementSize

end EagerHeap
