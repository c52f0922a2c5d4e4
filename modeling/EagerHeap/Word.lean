/-!
# Machine words

Addresses, byte counts and stored values are 64-bit machine words. They are kept as natural
numbers below `Word.bound`, so that address arithmetic is ordinary arithmetic; the additions and
multiplications that could leave the range are checked and say which of the two failed.
-/

namespace EagerHeap

/-- A checked operation whose exact result is no machine word. -/
inductive Overflow where
  /-- A sum is too large. -/
  | sum
  /-- A product is too large. -/
  | product
deriving DecidableEq, Repr

namespace Word

/-- The number of machine words. -/
def bound : Nat := 18446744073709551616

/-- The greatest machine word. -/
def greatest : Nat := bound - 1

/-- The greatest number of bytes that one buffer may span. -/
def signedGreatest : Nat := 9223372036854775807

/-- Bytes in a machine word. -/
def bytes : Nat := 8

/-- The sum of two words, if it is a word. -/
def add (a b : Nat) : Except Overflow Nat :=
  if a + b < bound then .ok (a + b) else .error .sum

/-- The product of two words, if it is a word. -/
def mul (a b : Nat) : Except Overflow Nat :=
  if a * b < bound then .ok (a * b) else .error .product

/-- The sum of two words around the end of the range. -/
def wrappingAdd (a b : Nat) : Nat := (a + b) % bound

theorem add_eq_ok_iff {a b c : Nat} : add a b = .ok c ↔ a + b < bound ∧ c = a + b := by
  unfold add
  split
  · simp_all [eq_comm]
  · simp only [reduceCtorEq, false_iff]
    exact fun h => absurd h.1 (by assumption)

theorem mul_eq_ok_iff {a b c : Nat} : mul a b = .ok c ↔ a * b < bound ∧ c = a * b := by
  unfold mul
  split
  · simp_all [eq_comm]
  · simp only [reduceCtorEq, false_iff]
    exact fun h => absurd h.1 (by assumption)

end Word

end EagerHeap
