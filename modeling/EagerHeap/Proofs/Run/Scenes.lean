import EagerHeap.Proofs.Run.Errands
/-!
# Runs in which allocations are interrupted

An allocation that has obtained a block waits while the client is told of it, and after that the cursor
of its worker moves to the block. Meanwhile the client may do anything, and also allocate, so that
allocations wait on top of each other. A scene is a state of such a run.

Main definitions: `Permits` and `Legal`. Main results: `Legal.run_above`, `Legal.kept` and `Legal.steps`.
-/

namespace EagerHeap

/-- An allocation that has obtained a block and waits for the client. -/
structure Waiting where
  /-- The number of the worker. -/
  worker : Nat
  /-- The span of the allocation. -/
  span : Span
  /-- The block to which the cursor of the worker will move. -/
  block : Nat
deriving DecidableEq, Repr

/-- What an allocation that waits is about: a cursor of a worker. -/
def Waiting.key (w : Waiting) : Nat × Span := (w.worker, w.span)

/-- A piece of a run with windows. -/
inductive Segment where
  | move (y : Move)
  /-- An allocation obtains a block and waits, or it fails for want of a block. -/
  | refill (id : Nat) (s : Span)
  /-- The allocation that waits for the shortest time goes on. -/
  | resume
deriving DecidableEq, Repr

/-- The move is a piece of a refill. -/
def Move.OfRefill : Move → Prop
  | .takePartial _ | .carveBlock _ | .setCursor .. => True
  | _ => False

instance decidableOfRefill : (y : Move) → Decidable y.OfRefill
  | .takePartial _ | .carveBlock _ | .setCursor .. => .isTrue trivial
  | .reuse .. | .claim .. | .addWorker | .flushWorker _ | .retireWorker _ | .count .. | .carveRun ..
  | .free .. | .write .. | .copy .. | .attach .. | .startBatch | .fire | .endBatch | .breakBatch
  | .makeRegistry _ | .dropRegistry _ | .enterScope .. | .recordTracked .. | .drainScope _
  | .leakScope _ | .observe | .attachCollector | .detachCollector | .begin | .shadeRoots _
  | .markStep _ | .terminate | .finishMarking _ | .resurrect | .enterSweep | .zeroSlots | .startSweep
  | .sweepStep _ | .finish | .closeCycle => .isFalse id

/-- A machine on which allocations may wait. -/
structure Scene where
  /-- The machine. -/
  machine : Machine
  /-- The ends that have begun. -/
  ends : Ends := {}
  /-- The allocations that wait, the one that waits for the shortest time first. -/
  waiting : List Waiting := []

namespace Scene

/-- The heap of the scene. -/
@[reducible] def heap (S : Scene) : Heap := S.machine.heap

/-- The cursors for which allocations wait. -/
def busy (S : Scene) : List (Nat × Span) := S.waiting.map Waiting.key

/-- The scene after a segment. -/
def apply (S : Scene) : Segment → Scene
  | .move y => { S with machine := S.machine.apply y, ends := S.ends.after y }
  | .refill id s =>
    match ExceptT.run (Heap.refillAlone s) S.heap with
    | (.ok b, g) =>
      { S with machine := { S.machine with heap := g }, waiting := ⟨id, s, b⟩ :: S.waiting }
    | (.error _, g) => { S with machine := { S.machine with heap := g } }
  | .resume =>
    match S.waiting with
    | [] => S
    | w :: rest =>
      { S with machine := S.machine.apply (.setCursor w.worker w.span w.block), waiting := rest }

/-- The scene after several segments. -/
def run (S : Scene) (zs : List Segment) : Scene := zs.foldl apply S

/-- The segment can take place, and the owners keep to what they guarantee. The owner of a worker does
not begin its end while an allocation of the worker waits. -/
def Permits (S : Scene) : Segment → Prop
  | .move y =>
    ¬ y.OfRefill ∧ S.machine.Allows y ∧ S.machine.Heeds S.ends y ∧
      ∀ w ∈ S.waiting, y ≠ .flushWorker w.worker
  | .refill id s => S.machine.Serves S.ends id ∧ S.heap.claimable? id s = none
  | .resume => S.waiting ≠ []

/-- The segment is no refill for a cursor for which an allocation waits, nor for one of some others. -/
def Orderly (others : List (Nat × Span)) (S : Scene) : Segment → Prop
  | .refill id s => (id, s) ∉ others ++ S.busy
  | _ => True

instance decidablePermits (S : Scene) : (z : Segment) → Decidable (S.Permits z)
  | .move y =>
    inferInstanceAs (Decidable (¬ y.OfRefill ∧ S.machine.Allows y ∧ S.machine.Heeds S.ends y ∧
      ∀ w ∈ S.waiting, y ≠ .flushWorker w.worker))
  | .refill id s =>
    inferInstanceAs (Decidable (S.machine.Serves S.ends id ∧ S.heap.claimable? id s = none))
  | .resume => inferInstanceAs (Decidable (S.waiting ≠ []))

instance decidableOrderly (others : List (Nat × Span)) (S : Scene) :
    (z : Segment) → Decidable (Orderly others S z)
  | .refill id s => inferInstanceAs (Decidable ((id, s) ∉ others ++ S.busy))
  | .move _ | .resume => .isTrue trivial

/-- The run can take place, and each of its segments satisfies a condition. -/
def Legal (P : Scene → Segment → Prop) : Scene → List Segment → Prop
  | _, [] => True
  | S, z :: zs => S.Permits z ∧ P S z ∧ Legal P (S.apply z) zs

instance decidableLegal (P : Scene → Segment → Prop) [∀ S z, Decidable (P S z)] (S : Scene)
    (zs : List Segment) : Decidable (Legal P S zs) :=
  match zs with
  | [] => .isTrue trivial
  | z :: zs =>
    have := decidableLegal P (S.apply z) zs
    inferInstanceAs (Decidable (S.Permits z ∧ P S z ∧ Legal P (S.apply z) zs))

/-- A new heap on which nothing acts. -/
def start (h : Heap) : Scene := { machine := Machine.start h }

/-- The scene in which the client acts while a new allocation waits. Neither this allocation nor those
that waited before go on in a run from here. -/
def window (S : Scene) (id : Nat) (s : Span) : Scene :=
  { S.apply (.refill id s) with waiting := [] }

variable {P : Scene → Segment → Prop} {S : Scene} {z : Segment} {zs : List Segment}
  {id : Nat} {s : Span} {y : Move} {ws : List Waiting}

open Heap

/-! ### Refills -/

/-- A refill obtains a block, as one of two moves does, or nothing happens. -/
theorem apply_refill_cases
    (hs : S.heap.Sound)
    (id : Nat) (s : Span) :
    (∃ b g y, ExceptT.run (refillAlone s) S.heap = (.ok b, g) ∧ S.heap.Obtains s b g ∧
        (y = .takePartial s ∨ y = .carveBlock s) ∧ (S.machine.apply y).heap = g ∧
        S.apply (.refill id s) =
          ⟨S.machine.apply y, S.ends.after y, ⟨id, s, b⟩ :: S.waiting⟩) ∨
      (∃ o, ExceptT.run (refillAlone s) S.heap = (.error o, S.heap)) ∧
        S.apply (.refill id s) = S := by
  rw [apply]
  rcases refillAlone_cases hs s with ⟨b, rest, g, -, -, htake, hrun⟩ | ⟨-, b, a', hcarve, hrun⟩ |
    ⟨-, -, hrun⟩
  · have hheap : (S.machine.apply (.takePartial s)).heap = g := congrArg Prod.snd htake
    refine Or.inl ⟨b, g, .takePartial s, hrun, obtains_takePartial hs htake, Or.inl rfl, hheap, ?_⟩
    rw [hrun, ← hheap]
    rfl
  · have hheap : (S.machine.apply (.carveBlock s)).heap = { S.heap with arena := a' } := by
      change ((Heap.carveBlock s).run S.heap).2 = _
      rw [carveBlock_run, hcarve]
    refine Or.inl ⟨b, _, .carveBlock s, hrun, obtains_carveBlock hs hcarve, Or.inr rfl, hheap, ?_⟩
    rw [hrun, ← hheap]
    rfl
  · refine Or.inr ⟨⟨_, hrun⟩, ?_⟩
    rw [hrun]

/-- A refill that does not fail obtains the block that it gives. -/
theorem obtains_of_refill
    {b : Nat} {g : Heap}
    (hs : S.heap.Sound)
    (hget : ExceptT.run (refillAlone s) S.heap = (.ok b, g))
    (id : Nat) :
    S.heap.Obtains s b g ∧ (S.window id s).heap = g := by
  rcases apply_refill_cases hs id s with ⟨a, g', y, hrun, hob, -, rfl, happly⟩ | ⟨⟨o, hrun⟩, -⟩
  · rw [hget] at hrun
    cases hrun
    exact ⟨hob, by rw [window, happly]⟩
  · rw [hget] at hrun
    cases hrun

/-! ### Runs on top of allocations that wait -/

/-- The scene with more allocations that have waited before. -/
def above (S : Scene) (ws : List Waiting) : Scene := { S with waiting := S.waiting ++ ws }

theorem apply_above
    (hz : S.Permits z)
    (ws : List Waiting) :
    (S.above ws).apply z = (S.apply z).above ws := by
  cases z with
  | move y => rfl
  | refill id s =>
      rw [apply, apply, show (S.above ws).heap = S.heap from rfl]
      rcases ExceptT.run (refillAlone s) S.heap with ⟨o | b, g⟩
      · rfl
      · rfl
  | resume =>
      obtain ⟨w, rest, hwait⟩ := List.exists_cons_of_ne_nil hz
      rw [apply, apply, hwait, above, hwait]
      rfl

/-- What waits below a run stays as it is. -/
theorem Legal.run_above
    (hl : S.Legal P zs)
    (ws : List Waiting) :
    (S.above ws).run zs = (S.run zs).above ws := by
  induction zs generalizing S with
  | nil => rfl
  | cons z zs ih =>
      change ((S.above ws).apply z).run zs = _
      rw [apply_above hl.1]
      exact ih hl.2.2

/-! ### The invariant -/

/-- The invariant of runs with windows. -/
structure Kept (S : Scene) : Prop where
  proper : S.machine.Proper
  shelved : S.heap.Shelved
  manned : S.machine.Manned S.ends
  offers : S.heap.offers.Consistent
  waits : ∀ w ∈ S.waiting,
    S.machine.Serves S.ends w.worker ∧ S.heap.arena.HasSpan w.block w.span

/-- A move keeps the invariant, and allocations may cease to wait or begin to. -/
theorem Kept.move
    (hk : S.Kept)
    (hal : S.machine.Allows y)
    (hheeds : S.machine.Heeds S.ends y)
    (hends : ∀ w ∈ S.waiting, y ≠ .flushWorker w.worker)
    (hws : ∀ w ∈ ws, w ∈ S.waiting ∨
      ((S.machine.apply y).Serves (S.ends.after y) w.worker ∧
        (S.machine.apply y).heap.arena.HasSpan w.block w.span)) :
    Kept ⟨S.machine.apply y, S.ends.after y, ws⟩ where
  proper := hk.proper.apply hal
  shelved := hk.proper.shelved hk.shelved hal
  manned := hk.manned.apply hheeds
  offers := hk.proper.consistent hk.shelved hk.offers
  waits := by
    intro w hw
    rcases hws w hw with hbefore | hnew
    · obtain ⟨hserves, hspan⟩ := hk.waits w hbefore
      exact ⟨hheeds.serves hserves (hends w hbefore),
        (hk.proper.steps hal).hasSpan hk.proper.sound hspan⟩
    · exact hnew

theorem Kept.apply
    (hk : S.Kept)
    (hz : S.Permits z) :
    (S.apply z).Kept := by
  cases z with
  | move y =>
      obtain ⟨-, hal, hheeds, hends⟩ := hz
      exact hk.move hal hheeds hends fun w hw => Or.inl hw
  | refill id s =>
      rcases apply_refill_cases hk.proper.sound id s with
        ⟨b, g, y, -, hget, hy, rfl, happly⟩ | ⟨-, hsame⟩
      · have hquiet : S.machine.Allows y ∧ S.machine.Heeds S.ends y ∧ ∀ id, y ≠ .flushWorker id := by
          rcases hy with rfl | rfl <;> exact ⟨trivial, trivial, fun _ => Move.noConfusion⟩
        rw [happly]
        refine hk.move hquiet.1 hquiet.2.1 (fun w _ => hquiet.2.2 w.worker) fun w hw => ?_
        rcases List.mem_cons.1 hw with rfl | hw
        · exact Or.inr ⟨hquiet.2.1.serves hz.1 (hquiet.2.2 id), hget.hasSpan⟩
        · exact Or.inl hw
      · rwa [hsame]
  | resume =>
      rw [Scene.apply]
      split
      · exact hk
      · next w rest hwait =>
          obtain ⟨hserves, hspan⟩ := hk.waits w (hwait ▸ List.mem_cons_self ..)
          exact hk.move (y := .setCursor w.worker w.span w.block) hspan hserves
            (fun _ _ => Move.noConfusion) fun v hv => Or.inl (hwait ▸ List.mem_cons_of_mem _ hv)

theorem Legal.kept
    (hl : S.Legal P zs)
    (hk : S.Kept) :
    (S.run zs).Kept := by
  induction zs generalizing S with
  | nil => exact hk
  | cons z zs ih => exact ih hl.2.2 (hk.apply hl.1)

/-- What happens in a run are elementary changes of the heap. -/
theorem Kept.steps
    (hk : S.Kept)
    (hz : S.Permits z) :
    Steps (fun _ => True) S.heap (S.apply z).heap := by
  have hmove : ∀ y, S.machine.Allows y →
      Steps (fun _ => True) S.heap (S.machine.apply y).heap := fun y hal =>
    (hk.proper.steps hal).mono fun _ _ => trivial
  cases z with
  | move y => exact hmove y hz.2.1
  | refill id s =>
      rcases apply_refill_cases hk.proper.sound id s with ⟨b, g, y, -, -, hy, -, happly⟩ | ⟨-, hsame⟩
      · rw [happly]
        rcases hy with rfl | rfl
        · exact hmove (.takePartial s) trivial
        · exact hmove (.carveBlock s) trivial
      · rw [hsame]
        exact Steps.refl S.heap
  | resume =>
      rw [Scene.apply]
      split
      · exact Steps.refl S.heap
      · next w rest hwait =>
          obtain ⟨-, hspan⟩ := hk.waits w (hwait ▸ List.mem_cons_self ..)
          exact hmove (.setCursor w.worker w.span w.block) hspan

theorem Legal.steps
    (hl : S.Legal P zs)
    (hk : S.Kept) :
    Steps (fun _ => True) S.heap (S.run zs).heap := by
  induction zs generalizing S with
  | nil => exact Steps.refl S.heap
  | cons z zs ih => exact (hk.steps hl.1).trans (ih hl.2.2 (hk.apply hl.1))

theorem kept_start
    {memory : Nat} {c : Config} {h : Heap}
    (hc : Heap.create memory c = .ok h) :
    (start h).Kept := by
  have hk := Machine.kept_start hc
  exact ⟨hk.proper, hk.shelved, hk.manned, hk.supplied.offers, fun _ hw => nomatch hw⟩

theorem Kept.window
    (hk : S.Kept)
    (hz : S.Permits (.refill id s)) :
    (S.window id s).Kept := by
  have hafter := hk.apply hz
  exact ⟨hafter.proper, hafter.shelved, hafter.manned, hafter.offers, fun _ hw => nomatch hw⟩

end Scene

end EagerHeap
