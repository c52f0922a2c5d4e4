import EagerHeap.Failure
/-!
# Loops without a bound

An operation may take turns until one of them gives a value. Nothing bounds the number of turns, so what
such a loop does is defined where it ends. A loop that never ends gives `Failure.endless`.
-/

namespace EagerHeap

variable {S α : Type}

/-- From a state, takes turns until one gives a value or fails. Nothing if the turns never end. -/
def untilSome? (s : S) (t : ExceptT Failure (StateM S) (Option α)) : Option (Except Failure α × S) :=
  match ExceptT.run t s with
  | (.ok (some a), s) => some (.ok a, s)
  -- What goes on is the loop as a function of the state.
  | (.ok none, s) => (untilSome? (t := t)) s
  | (.error o, s) => some (.error o, s)
partial_fixpoint

/-- The same loop with its first `n` turns laid out, so that a loop of few turns reduces. -/
def untilSomeFrom (turn : ExceptT Failure (StateM S) (Option α)) :
    Nat → S → Option (Except Failure α × S)
  | 0, s => untilSome? s turn
  | n + 1, s =>
    match ExceptT.run turn s with
    | (.ok (some a), s) => some (.ok a, s)
    | (.ok none, s) => untilSomeFrom turn n s
    | (.error o, s) => some (.error o, s)

/-- Does an operation again and again until it gives a value or fails. -/
def untilSome (turn : ExceptT Failure (StateM S) (Option α)) : ExceptT Failure (StateM S) α :=
  ExceptT.mk fun s => (untilSomeFrom turn 16 s).getD (.error .endless, s)

end EagerHeap
