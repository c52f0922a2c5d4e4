import EagerHeap.Proofs.Heap.Scopes
import EagerHeap.Proofs.Run.Store
/-!
# What clients own in a run

Most moves leave the workers with their free lists, the registries and the scopes alone. In every
state of a run the entries of all free lists name different cached cells.

Main results: `clients_apply` and `Legal.shelved`.
-/

namespace EagerHeap

/-- The move changes what workers own, or the clock of the transitions. -/
def Move.OfClients : Move → Prop
  | .addWorker | .flushWorker _ | .retireWorker _ | .count .. | .reuse .. | .claim ..
  | .setCursor .. | .free .. | .makeRegistry _ | .dropRegistry _ | .enterScope .. | .recordTracked ..
  | .drainScope _ | .leakScope _ | .begin | .terminate | .enterSweep | .zeroSlots | .finish => True
  | _ => False

namespace Machine

variable {P : Machine → Move → Prop} {m : Machine} {y : Move} {ys : List Move} {memory : Nat} {c : Config}
  {h : Heap}

open Heap

/-- Marking, sweeping, stores and side records leave alone what clients own. -/
theorem clients_apply
    (hy : ¬ y.OfClients) :
    (m.apply y).heap.clients = m.heap.clients := by
  cases y with
  | takePartial s => exact clients_takePartial m.heap s
  | carveBlock s => exact clients_carveBlock m.heap s
  | carveRun n shape => exact clients_carveRun m.heap n shape
  | write obj i v => exact clients_writeWord m.heap obj i v
  | copy source target bytes shape => exact clients_copyBytes m.heap source target bytes shape
  | attach addr kind => exact clients_attachRecord m.heap addr kind
  | endBatch =>
      simp only [Machine.apply, Machine.heapAfter]
      split
      · rfl
      · exact clients_endBatch m.heap _
  | shadeRoots roots => exact clients_shadeRoots m.heap roots
  | markStep n => exact clients_markStep m.heap n
  | finishMarking roots =>
      exact (clients_markAll _).trans (clients_shadeRoots m.heap roots)
  | resurrect => exact (clients_resurrectAll _).trans (clients_markAll m.heap)
  | sweepStep n => exact clients_sweepStep m.heap n
  | closeCycle => exact clients_closeCycle m.heap
  | startBatch | fire | breakBatch | observe | attachCollector | detachCollector | startSweep => rfl
  | _ => exact absurd trivial hy

/-- A move that changes no worker keeps the free lists apart, if it hands out no cached cell. -/
theorem Proper.shelved_of_workers
    (hm : m.Proper)
    (hf : m.heap.Shelved)
    (hy : m.Allows y)
    (hworkers : (m.apply y).heap.workers = m.heap.workers)
    (hnext : (m.apply y).heap.nextWorker = m.heap.nextWorker)
    (hbirth : ∀ x, ¬ y.Does (.birth x))
    (huncache : ∀ x, ¬ y.Does (.uncache x)) :
    (m.apply y).heap.Shelved :=
  hf.frame hworkers hnext fun w hw s e he =>
    (hm.steps hy).cachedAt hm.sound (hf.cached w hw s e he) (hbirth _) (huncache _)

theorem Proper.shelved_of_clients
    (hm : m.Proper)
    (hf : m.heap.Shelved)
    (hy : m.Allows y)
    (hclients : ¬ y.OfClients)
    (hbirth : ∀ x, ¬ y.Does (.birth x))
    (huncache : ∀ x, ¬ y.Does (.uncache x)) :
    (m.apply y).heap.Shelved :=
  hm.shelved_of_workers hf hy (workers_of_clients (clients_apply hclients))
    (nextWorker_of_clients (clients_apply hclients)) hbirth huncache

theorem Proper.shelved_carveRun
    {n : Nat} {shape : Shape}
    (hm : m.Proper)
    (hf : m.heap.Shelved)
    (hn : 0 < n) :
    (m.apply (.carveRun n shape)).heap.Shelved := by
  have hclients := clients_apply (m := m) (y := .carveRun n shape) id
  refine hf.frame (workers_of_clients hclients) (nextWorker_of_clients hclients) ?_
  intro w hw s e he
  have hcached := hf.cached w hw s e he
  rcases carveRun_cases hm.sound hn shape with ⟨x, hx, ho⟩ | ⟨-, hsame⟩
  · refine ho.steps.cachedAt hm.sound hcached ?_ (by simp)
    rintro (hstill | hbirth)
    · cases hstill
    · obtain ⟨d, hd, -⟩ := hcached
      rw [Act.birth.inj hbirth, carveRun_eq_some hm.sound hn hx] at hd
      cases hd
  · have hsame' : (m.apply (.carveRun n shape)).heap = m.heap := hsame
    exact hsame' ▸ hcached

/-- Every move keeps the free lists apart. -/
theorem Proper.shelved
    (hm : m.Proper)
    (hf : m.heap.Shelved)
    (hy : m.Allows y) :
    (m.apply y).heap.Shelved := by
  have hs := hm.sound
  cases y with
  | addWorker => exact hf.addWorker
  | flushWorker id => exact hf.flushWorker hs id
  | retireWorker id =>
      exact apply_retireWorker (R := Heap.Shelved) hf fun g hr => hf.retireWorker hr
  | count id k n => exact hf.count id k n
  | reuse id s => exact hf.reuse hs id s
  | claim id s => exact hf.claim hs id s
  | setCursor id s block => exact hf.setCursor id s _
  | carveRun n shape => exact hm.shelved_carveRun hf hy
  | free id addr size shape => exact hf.free hs id addr size shape
  | makeRegistry n => exact hf.of_arena rfl rfl rfl
  | dropRegistry r => exact hf.dropRegistry r
  | enterScope id r => exact hf.enterScope id r
  | recordTracked k x e => exact hf.recordTracked k x e
  | drainScope k => exact hf.drainScope hs k
  | leakScope k => exact hf.modifyScope k _
  | begin | terminate | enterSweep | finish =>
      exact hm.shelved_of_workers hf hy rfl rfl (by simp [Move.Does]) (by simp [Move.Does])
  | zeroSlots =>
      have hzero := workers_invalidateSlots m.heap
      exact hm.shelved_of_workers hf hy hzero.1 hzero.2 (by simp [Move.Does]) (by simp [Move.Does])
  | _ => exact hm.shelved_of_clients hf hy id (by simp [Move.Does]) (by simp [Move.Does])

theorem shelved_start
    (hc : Heap.create memory c = .ok h) :
    (start h).heap.Shelved := by
  obtain ⟨-, rfl⟩ := create_eq_ok hc
  have hnone : ∀ w ∈ (Heap.empty c).workers, False := fun w hw => nomatch hw
  exact ⟨List.nodup_nil, fun w hw => (hnone w hw).elim, fun w hw => (hnone w hw).elim,
    fun w hw => (hnone w hw).elim, fun w hw => (hnone w hw).elim⟩

/-- In every state of a run the free lists name different cached cells. -/
theorem Legal.shelved
    (hl : Legal P m ys)
    (hm : m.Proper)
    (hf : m.heap.Shelved) :
    (m.run ys).heap.Shelved :=
  (hl.preserves (R := fun m => m.Proper ∧ m.heap.Shelved) ⟨hm, hf⟩
    fun _ _ hm hy _ => ⟨hm.1.apply hy, hm.1.shelved hm.2 hy⟩).2

end Machine

end EagerHeap
