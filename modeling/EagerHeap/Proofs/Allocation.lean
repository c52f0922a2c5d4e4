import EagerHeap.Action.Allocate
import EagerHeap.Proofs.Actions
import EagerHeap.Proofs.Repetition
/-!
# Allocation that nothing interrupts

If a client leaves the heap alone when it is told of events, an action does to the heap what an
uninterrupted update does: the action follows the update. The update of an allocation is the allocation
without its events.

Main results: `Follows.untilSome` and `follows_allocate`.
-/

namespace EagerHeap

namespace Heap

/-- Obtains a block with free cells, telling nobody. -/
def refillAlone (s : Span) : Update Nat := do
  match ← modifyGet (takePartial · s) with
  | some i => return i
  | none =>
    match ← carveBlock s with
    | some i => return i
    | none => throw (.outOfMemory blockSize)

/-- Claims a free cell at the cursor or moves it to a further block, telling nobody. -/
def claimOrMoveAlone (id : Nat) (s : Span) : Update (Option Nat) := do
  match ← modifyGet (claim · id s) with
  | some addr => return some addr
  | none =>
    let i ← refillAlone s
    modify (·.setCursor id s ⟨i, 0⟩)
    return none

/-- Looks for a free cell, telling nobody. -/
def searchAlone (id : Nat) (s : Span) : Update Nat := untilSome (claimOrMoveAlone id s)

/-- Allocates an object of a span, telling nobody. -/
def allocateAlone (id : Nat) (s : Span) : Update Nat := do
  match ← reuse id s with
  | some addr => return addr
  | none => searchAlone id s

end Heap

namespace Action

variable {σ α β : Type} {k : Hooks σ} {x : Action σ α} {f : α → Action σ β} {u : Update α}
  {v : α → Update β} {h : Heap}

/-- On every world, the action gives what the update gives and does to the heap what it does. -/
def Follows (x : Action σ α) (u : Update α) : Prop :=
  ∀ w : World σ, ∃ w', ExceptT.run x w = ((ExceptT.run u w.heap).1, w') ∧
    w'.heap = (ExceptT.run u w.heap).2

theorem Follows.bind
    (hx : Follows x u)
    (hf : ∀ a, Follows (f a) (v a)) :
    Follows (x >>= f) (u >>= v) := by
  intro w
  obtain ⟨w', hrun, hheap⟩ := hx w
  rw [run_bind_operation, run_bind_operation, hrun]
  rcases hu : ExceptT.run u w.heap with ⟨o | a, g⟩
  · rw [hu] at hheap
    exact ⟨w', rfl, hheap⟩
  · rw [hu] at hheap
    obtain ⟨w'', hrun', hheap'⟩ := hf a w'
    rw [hheap] at hrun' hheap'
    exact ⟨w'', hrun', hheap'⟩

theorem follows_pure (a : α) : Follows (pure a : Action σ α) (pure a) := fun w => ⟨w, rfl, rfl⟩

theorem follows_throw (o : Failure) : Follows (throw o : Action σ α) (throw o) :=
  fun w => ⟨w, rfl, rfl⟩

theorem follows_change (f : Heap → α × Heap) :
    Follows (change f : Action σ α) (modifyGet f) :=
  fun _ => ⟨_, rfl, rfl⟩

theorem follows_adjust (f : Heap → Heap) : Follows (adjust f : Action σ Unit) (modify f) :=
  fun _ => ⟨_, rfl, rfl⟩

theorem follows_update (u : Update α) : Follows (update u : Action σ α) u :=
  fun _ => ⟨_, rfl, rfl⟩

/-- A look at the heap goes unnoticed. -/
theorem Follows.after_view
    {g : α → Action σ β} {u : Update β}
    (f : Heap → α)
    (hg : ∀ a, Follows (g a) u) :
    Follows (view f >>= g) u :=
  fun w => hg (f w.heap) w

/-- An event goes unnoticed. -/
theorem Follows.after_emit
    {g : Unit → Action σ β} {u : Update β}
    (hk : k.Silent)
    (e : Event)
    (hg : Follows (g ()) u) :
    Follows (emit k e >>= g) u := by
  intro w
  obtain ⟨w', hrun, hheap⟩ := hg (k.onEvent e w)
  rw [hk.event] at hrun hheap
  exact ⟨w', hrun, hheap⟩

/-! ### Loops -/

/-- The turns of the action are turns of the update. -/
theorem Follows.turns
    {turn : Action σ (Option α)} {alone : Update (Option α)} {r : Except Failure α} {w w' : World σ}
    (hx : Follows turn alone)
    (ht : Turns turn w r w') :
    Turns alone w.heap r w'.heap := by
  induction ht with
  | @gives w w' a hturn =>
      obtain ⟨v, hrun, hheap⟩ := hx w
      obtain ⟨hfirst, rfl⟩ := Prod.mk.inj (hturn.symm.trans hrun)
      exact .gives (Prod.ext hfirst.symm hheap.symm)
  | @fails w w' o hturn =>
      obtain ⟨v, hrun, hheap⟩ := hx w
      obtain ⟨hfirst, rfl⟩ := Prod.mk.inj (hturn.symm.trans hrun)
      exact .fails (Prod.ext hfirst.symm hheap.symm)
  | @goesOn w u w' r hturn _ ih =>
      obtain ⟨v, hrun, hheap⟩ := hx w
      obtain ⟨hfirst, rfl⟩ := Prod.mk.inj (hturn.symm.trans hrun)
      exact .goesOn (Prod.ext hfirst.symm hheap.symm) ih

/-- The turns of the update are taken by the action. -/
theorem Follows.exists_turns
    {turn : Action σ (Option α)} {alone : Update (Option α)} {r : Except Failure α} {g : Heap}
    (hx : Follows turn alone)
    (ht : Turns alone h r g)
    (w : World σ)
    (hw : w.heap = h) :
    ∃ w', Turns turn w r w' ∧ w'.heap = g := by
  induction ht generalizing w with
  | gives hturn =>
      obtain ⟨v, hrun, hheap⟩ := hx w
      rw [hw, hturn] at hrun hheap
      exact ⟨v, .gives hrun, hheap⟩
  | fails hturn =>
      obtain ⟨v, hrun, hheap⟩ := hx w
      rw [hw, hturn] at hrun hheap
      exact ⟨v, .fails hrun, hheap⟩
  | goesOn hturn _ ih =>
      obtain ⟨v, hrun, hheap⟩ := hx w
      rw [hw, hturn] at hrun hheap
      obtain ⟨w', hrest, hend⟩ := ih v hheap
      exact ⟨w', .goesOn hrun hrest, hend⟩

/-- A loop follows the loop of updates, and the one ends if the other does. -/
theorem Follows.untilSome
    {turn : Action σ (Option α)} {alone : Update (Option α)}
    (hx : Follows turn alone) :
    Follows (untilSome turn) (untilSome alone) := by
  intro w
  rcases turns_or_endless alone w.heap with ht | ⟨hnone, hrun⟩
  · obtain ⟨w', ht', hheap⟩ := hx.exists_turns ht w rfl
    exact ⟨w', ht'.run_untilSome, hheap⟩
  · rw [hrun]
    rcases turns_or_endless turn w with ht | ⟨-, hrun'⟩
    · rw [untilSome?_eq_some_iff.2 (hx.turns ht)] at hnone
      cases hnone
    · exact ⟨w, hrun', rfl⟩

/-! ### Allocation -/

theorem follows_exhausted
    (hk : k.Silent) :
    Follows (exhausted k blockSize : Action σ α) (throw (.outOfMemory blockSize)) := by
  rw [exhausted]
  refine Follows.after_view _ fun arenaSize => Follows.after_emit hk _ ?_
  rw [if_neg (by decide)]
  exact follows_throw _

theorem follows_refill
    (hk : k.Silent)
    (s : Span) :
    Follows (refill k s) (Heap.refillAlone s) := by
  rw [refill, Heap.refillAlone]
  refine (follows_change _).bind fun o => ?_
  cases o with
  | some i => exact Follows.after_emit hk _ (follows_pure i)
  | none =>
      refine (follows_update _).bind fun o => ?_
      cases o with
      | some i => exact Follows.after_emit hk _ (follows_pure i)
      | none => exact follows_exhausted hk

theorem follows_claimOrMove
    (hk : k.Silent)
    (id : Nat) (s : Span) :
    Follows (claimOrMove k id s) (Heap.claimOrMoveAlone id s) := by
  rw [claimOrMove, Heap.claimOrMoveAlone]
  refine (follows_change _).bind fun o => ?_
  cases o with
  | some addr => exact follows_pure _
  | none =>
      exact (follows_refill hk s).bind fun i => (follows_adjust _).bind fun _ => follows_pure _

theorem follows_search
    (hk : k.Silent)
    (id : Nat) (s : Span) :
    Follows (search k id s) (Heap.searchAlone id s) :=
  (follows_claimOrMove hk id s).untilSome

/-- An allocation follows its update. -/
theorem follows_allocate
    (hk : k.Silent)
    (id : Nat) (s : Span) :
    Follows (allocate k id s) (Heap.allocateAlone id s) := by
  rw [allocate, Heap.allocateAlone]
  refine (follows_update _).bind fun o => ?_
  cases o with
  | some addr => exact follows_pure addr
  | none => exact follows_search hk id s

end Action

end EagerHeap
