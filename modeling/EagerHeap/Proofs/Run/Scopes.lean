import EagerHeap.Proofs.Heap.Outstanding
import EagerHeap.Proofs.Run.Balance
import EagerHeap.Proofs.Run.Registrations
/-!
# The use of scopes

A scope is drained when its guard is told to, or when the guard is dropped on any other way. A guard
that was told to drain its scope is dropped as well, and drains once more. Then the registry names no
owner, unless it backs another scope already, and the second drain finds nothing to do.

What the users of guards keep to depends on notes about the moves so far: on the ends that have
begun, and on the workers that have counted an allocation that is not recorded yet.

Main definitions: `Along` and `Upholds`. Main results: `Repeats.apply_eq` and `Heeds.scopes`.
-/

namespace EagerHeap

namespace Machine

/-- The move drains a scope that was drained before and whose registry names no owner. -/
def Repeats (m : Machine) : Move → Prop
  | .drainScope k =>
    ∃ s, m.heap.scopes[k]? = some s ∧ s.status = .closed ∧ m.heap.ownerOf s.registry = none
  | _ => False

instance decidableRepeats (m : Machine) (y : Move) : Decidable (m.Repeats y) :=
  match y with
  | .drainScope k =>
    inferInstanceAs (Decidable (∃ s, m.heap.scopes[k]? = some s ∧ s.status = .closed ∧
      m.heap.ownerOf s.registry = none))
  | .addWorker | .flushWorker _ | .retireWorker _ | .count .. | .reuse .. | .claim .. | .takePartial _
  | .carveBlock _ | .setCursor .. | .carveRun .. | .free .. | .write .. | .copy .. | .attach ..
  | .startBatch | .fire | .endBatch | .breakBatch | .makeRegistry _ | .dropRegistry _ | .enterScope ..
  | .recordTracked .. | .leakScope _ | .observe | .attachCollector | .detachCollector | .begin
  | .shadeRoots _ | .markStep _ | .terminate | .finishMarking _ | .resurrect | .enterSweep
  | .zeroSlots | .startSweep | .sweepStep _ | .finish | .closeCycle => .isFalse id

/-! ### Conditions on all moves of a run -/

section Notes

variable {σ : Type}

/-- The notes after a run. -/
def notes (next : σ → Machine → Move → σ) : Machine → σ → List Move → σ
  | _, a, [] => a
  | m, a, y :: ys => notes next (m.apply y) (next a m y) ys

/-- Every move of the run repeats a drain, or it satisfies a condition that depends on notes about the
moves before it. -/
def Along (P : Machine → σ → Move → Prop) (next : σ → Machine → Move → σ) :
    Machine → σ → List Move → Prop
  | _, _, [] => True
  | m, a, y :: ys => (m.Repeats y ∨ P m a y) ∧ Along P next (m.apply y) (next a m y) ys

instance decidableAlong
    (P : Machine → σ → Move → Prop) [∀ m a y, Decidable (P m a y)] (next : σ → Machine → Move → σ)
    (m : Machine) (a : σ) (ys : List Move) :
    Decidable (Along P next m a ys) :=
  match ys with
  | [] => .isTrue trivial
  | y :: ys =>
    have := decidableAlong P next (m.apply y) (next a m y) ys
    inferInstanceAs
      (Decidable ((m.Repeats y ∨ P m a y) ∧ Along P next (m.apply y) (next a m y) ys))

variable {P : Machine → σ → Move → Prop} {next : σ → Machine → Move → σ} {m : Machine} {a : σ}
  {ys zs : List Move}

theorem along_append :
    Along P next m a (ys ++ zs) ↔
      Along P next m a ys ∧ Along P next (m.run ys) (notes next m a ys) zs := by
  induction ys generalizing m a with
  | nil => simp [Along, notes]
  | cons y ys ih => rw [List.cons_append, Along, Along, ih, run_cons, notes, and_assoc]

end Notes

/-! ### What users of guards keep to -/

/-- What is to be known about a run so far when one asks whether the users of guards may go on in a
certain way. -/
structure Docket where
  /-- The ends that have begun. -/
  ends : Ends := {}
  /-- The workers that have counted an allocation in a scope and did not record it yet, as often as they
  have. -/
  owed : List Nat := []

/-- The docket after a move. -/
def Docket.after (a : Docket) (m : Machine) (y : Move) : Docket where
  ends := a.ends.after y
  owed :=
    match y with
    | .count id c _ => if c = .trackedAllocations then id :: a.owed else a.owed
    | .recordTracked k _ _ =>
      match m.heap.scopes[k]? with
      | some s => a.owed.erase s.worker
      | none => a.owed
    | _ => a.owed

/-- A live worker counts its own allocations and growths, and in a scope it records what it has
counted as an allocation. -/
def Counts (m : Machine) (owed : List Nat) : Move → Prop
  | .count id c n => (∃ w ∈ m.heap.workers, w.id = id) ∧ c.Apart ∧ n = 1
  | .recordTracked k _ _ => ∃ s, m.heap.scopes[k]? = some s ∧ s.worker ∈ owed
  | _ => True

instance decidableCounts (m : Machine) (owed : List Nat) : (y : Move) → Decidable (m.Counts owed y)
  | .count id c n =>
    inferInstanceAs (Decidable ((∃ w ∈ m.heap.workers, w.id = id) ∧ c.Apart ∧ n = 1))
  | .recordTracked k _ _ =>
    inferInstanceAs (Decidable (∃ s, m.heap.scopes[k]? = some s ∧ s.worker ∈ owed))
  | .addWorker | .flushWorker _ | .retireWorker _ | .reuse .. | .claim .. | .takePartial _
  | .carveBlock _ | .setCursor .. | .carveRun .. | .free .. | .write .. | .copy .. | .attach ..
  | .startBatch | .fire | .endBatch | .breakBatch | .makeRegistry _ | .dropRegistry _ | .enterScope ..
  | .drainScope _ | .leakScope _ | .observe | .attachCollector | .detachCollector | .begin
  | .shadeRoots _ | .markStep _ | .terminate | .finishMarking _ | .resurrect | .enterSweep
  | .zeroSlots | .startSweep | .sweepStep _ | .finish | .closeCycle => .isTrue trivial

/-- What the users of guards keep to: they heed the ends that have begun, and they count an allocation
before they record it. -/
def Upholds (m : Machine) (a : Docket) (y : Move) : Prop := m.Heeds a.ends y ∧ m.Counts a.owed y

instance decidableUpholds (m : Machine) (a : Docket) (y : Move) : Decidable (m.Upholds a y) :=
  inferInstanceAs (Decidable (m.Heeds a.ends y ∧ m.Counts a.owed y))

/-- The users of guards keep to it in every move of the run. -/
def Upheld (m : Machine) (ys : List Move) : Prop := Along Upholds Docket.after m {} ys

instance decidableUpheld (m : Machine) (ys : List Move) : Decidable (m.Upheld ys) :=
  decidableAlong Upholds Docket.after m {} ys

variable {m : Machine} {a : Docket} {e : Ends} {y : Move} {k : Nat} {s : Scope}

open Heap

/-- A drain that is repeated gives nothing and changes nothing. -/
theorem Repeats.drainScope_eq
    (hr : m.Repeats (.drainScope k))
    (hroom : m.heap.Roomy) :
    m.heap.drainScope k = (0, m.heap) := by
  obtain ⟨s, hs, hclosed, ho⟩ := hr
  exact hroom.drainScope_of_closed hs hclosed ho

theorem Repeats.apply_eq
    (hr : m.Repeats y)
    (hroom : m.heap.Roomy) :
    m.apply y = m := by
  cases y with
  | drainScope k =>
      have hheap : (m.apply (.drainScope k)).heap = m.heap :=
        congrArg Prod.snd (hr.drainScope_eq hroom)
      exact congrArg (fun h : Heap => { m with heap := h }) hheap
  | _ => cases hr

theorem Docket.after_of_repeats
    (hr : m.Repeats y) :
    a.after m y = a := by
  cases y with
  | drainScope k => rfl
  | _ => cases hr

/-- The scopes of a heap have room after a move that records in an open scope at most. -/
theorem roomy_apply
    (hr : m.heap.Roomy)
    (hopen : ∀ k x t, y = .recordTracked k x t → ∃ s, m.heap.Open k s) :
    (m.apply y).heap.Roomy := by
  by_cases hscopes : y.OfScopes
  · cases y with
    | retireWorker id =>
        refine apply_retireWorker (R := Heap.Roomy) hr fun g hg => ?_
        rcases retireWorker_cases hg with rfl | ⟨retired, rfl⟩
        · exact hr
        · exact hr.of_registries rfl rfl
    | makeRegistry n => exact hr.makeRegistry n
    | dropRegistry r => exact hr.dropRegistry r
    | enterScope id r => exact hr.enterScope id r
    | recordTracked k x t =>
        obtain ⟨s, hs⟩ := hopen k x t rfl
        exact hr.recordTracked hs x t
    | drainScope k => exact hr.drainScope k
    | leakScope k => exact hr.leakScope k
    | zeroSlots => exact hr.invalidateSlots
    | addWorker | begin | terminate | enterSweep | finish => exact hr.of_registries rfl rfl
    | _ => cases hscopes
  · have hsame := holdings_apply (m := m) hscopes
    exact hr.of_registries (congrArg Holdings.scopes hsame) (congrArg Holdings.registries hsame)

/-- The ends of workers and registries that are heeded keep scopes, registries and workers together.
-/
theorem Heeds.scopes
    (hy : m.Heeds e y)
    (hmanned : m.Manned e)
    (hf : m.heap.Scoped (· ∈ e.registries)) :
    (m.apply y).heap.Scoped (· ∈ (e.after y).registries) := by
  refine scopes_apply hf ?_ ?_ ?_ ?_ ?_
  · rintro r (hr | rfl)
    · cases y with
      | dropRegistry => exact List.mem_cons_of_mem _ hr
      | _ => exact hr
    · exact List.mem_cons_self ..
  · rintro id rfl k s hs rfl
    exact (hmanned.serving k _ hs.post?_eq rfl).2 hy
  · rintro r rfl k s hs
    exact hy.2.2 s hs.mem_openScopes
  · rintro id r rfl
    exact ⟨hy.1.1, hy.2⟩
  · rintro k (⟨x, t, rfl⟩ | rfl)
    · exact hy
    · exact hy

end Machine

end EagerHeap
