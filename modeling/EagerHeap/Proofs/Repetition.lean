import EagerHeap.Repetition
import EagerHeap.Proofs.Runs
/-!
# Loops without a bound and their turns

A loop that comes to an end does so after finitely many turns. The turns are a relation of their own, and
what holds of every end of a loop is proved by induction on them. That the first turns are laid out in the
definition of `untilSome` makes no difference.

Main results: `untilSome?_eq_some_iff` and `run_untilSome`.
-/

namespace EagerHeap

variable {S α : Type} {turn : ExceptT Failure (StateM S) (Option α)} {s s' t : S} {r : Except Failure α}

/-- The turns of a loop from one state to another one, with what the last turn gives. -/
inductive Turns (turn : ExceptT Failure (StateM S) (Option α)) : S → Except Failure α → S → Prop
  | gives {s s' : S} {a : α} (hturn : ExceptT.run turn s = (.ok (some a), s')) : Turns turn s (.ok a) s'
  | fails {s s' : S} {o : Failure} (hturn : ExceptT.run turn s = (.error o, s')) :
      Turns turn s (.error o) s'
  | goesOn {s t s' : S} {r : Except Failure α} (hturn : ExceptT.run turn s = (.ok none, t))
      (hrest : Turns turn t r s') : Turns turn s r s'

/-- A turn without a value makes no difference to where the loop ends. -/
theorem untilSome?_of_none
    (hturn : ExceptT.run turn s = (.ok none, t)) :
    untilSome? s turn = untilSome? t turn := by
  rw [untilSome?, hturn]

/-- A loop ends where finitely many turns lead. -/
theorem untilSome?_eq_some_iff :
    untilSome? s turn = some (r, s') ↔ Turns turn s r s' := by
  constructor
  · refine untilSome?.partial_correctness turn (fun s p => Turns turn s p.1 p.2) ?_ s (r, s')
    intro loop ih s p hloop
    rcases hturn : ExceptT.run turn s with ⟨o | _ | a, t⟩ <;> rw [hturn] at hloop
    · cases hloop
      exact .fails hturn
    · exact .goesOn hturn (ih t p hloop)
    · cases hloop
      exact .gives hturn
  · intro h
    induction h with
    | gives hturn | fails hturn => rw [untilSome?, hturn]
    | goesOn hturn _ ih => rw [untilSome?_of_none hturn, ih]

/-- It makes no difference how many turns are laid out. -/
theorem untilSomeFrom_eq (turn : ExceptT Failure (StateM S) (Option α)) (n : Nat) (s : S) :
    untilSomeFrom turn n s = untilSome? s turn := by
  induction n generalizing s with
  | zero => rfl
  | succ n ih =>
      rcases hturn : ExceptT.run turn s with ⟨o | _ | a, t⟩ <;> rw [untilSomeFrom, untilSome?, hturn]
      exact ih t

theorem run_untilSome (turn : ExceptT Failure (StateM S) (Option α)) (s : S) :
    ExceptT.run (untilSome turn) s = (untilSome? s turn).getD (.error .endless, s) := by
  rw [← untilSomeFrom_eq turn 16]
  rfl

theorem Turns.run_untilSome
    (h : Turns turn s r s') :
    ExceptT.run (untilSome turn) s = (r, s') := by
  rw [EagerHeap.run_untilSome, untilSome?_eq_some_iff.2 h]
  rfl

/-- What a loop gives is given by its turns, unless it never ends. -/
theorem turns_or_endless (turn : ExceptT Failure (StateM S) (Option α)) (s : S) :
    Turns turn s (ExceptT.run (untilSome turn) s).1 (ExceptT.run (untilSome turn) s).2 ∨
      untilSome? s turn = none ∧ ExceptT.run (untilSome turn) s = (.error .endless, s) := by
  rw [run_untilSome]
  rcases h : untilSome? s turn with _ | ⟨r, s'⟩
  · exact Or.inr ⟨rfl, rfl⟩
  · exact Or.inl (untilSome?_eq_some_iff.1 h)

/-- The value of a loop is that of its last turn. -/
theorem turns_of_run_untilSome
    {a : α}
    (h : ExceptT.run (untilSome turn) s = (.ok a, s')) :
    Turns turn s (.ok a) s' := by
  rcases turns_or_endless turn s with ht | ⟨-, ht⟩
  · rwa [h] at ht
  · cases h.symm.trans ht

end EagerHeap
