import EagerHeap.Proofs.Arena.Partition
import EagerHeap.Proofs.Run.Clients
/-!
# The blocks of a heap in a run

In every state of a run the carved blocks are divided between small cells, live runs and released
runs, and whatever is handed out next lies apart from all objects. The conditions that an allocation
checks on the heap never fail.

Main result: `carved_blocks_divided`.
-/

namespace EagerHeap

namespace Heap

variable {h : Heap}

/-- A block is carved for the span that it was asked for. -/
theorem carveBlock_ne_error
    (hs : h.Sound)
    (s : Span) (o : Failure) :
    ((carveBlock s).run h).1 ≠ .error o := by
  rw [carveBlock_run]
  rcases hc : h.arena.carveBlock s with ⟨_ | i, a'⟩
  · simp
  · obtain ⟨-, -, -, -, hself, -⟩ := hs.layout.carveBlock hc
    simp [hself, Block.ofSpan, Block.span?]

/-- A run is carved from blocks of runs, and its head is free. -/
theorem carveRun_ne_error
    {n : Nat}
    (hs : h.Sound)
    (hn : 0 < n)
    (shape : Shape) (o : Failure) :
    ((carveRun n shape).run h).1 ≠ .error o := by
  rcases carveRun_cases hs hn shape with ⟨x, hx, -⟩ | ⟨hnone, -⟩
  · rw [hx]
    simp
  · rw [hnone]
    simp

end Heap

namespace Machine

variable {P : Machine → Move → Prop} {m : Machine} {y : Move} {ys : List Move} {x i : Nat}
  {s : Span} {memory : Nat} {c : Config} {h : Heap}

open Heap

/-- What is handed out lies apart from all objects, and the conditions that an allocation checks
hold: the cell that it takes off a free list is cached, the cell that it claims is free, a block that
it carves serves the span that was asked for, and a run that it carves has a free head. -/
structure SafeSupply (m : Machine) : Prop where
  apart : ∀ y x, m.Allows y → m.handsOut y = some x →
    ∃ k, (m.apply y).heap.arena.Object x k ∧
      ∀ z d, m.heap.arena.Object z d → x + k.size ≤ z ∨ z + d.size ≤ x
  reuse : ∀ id s o, ((Heap.reuse id s).run m.heap).1 ≠ .error o
  claim : ∀ id s b k, m.heap.claimable? id s = some (b, k) →
    ∃ hd, m.heap.arena.header? b k = some hd ∧ hd.state = .free
  carveBlock : ∀ s o, ((Heap.carveBlock s).run m.heap).1 ≠ .error o
  carveRun : ∀ n shape o, 0 < n → ((Heap.carveRun n shape).run m.heap).1 ≠ .error o

/-- A move that hands out an object frees none. -/
theorem not_does_of_handsOut
    (hx : m.handsOut y = some x)
    (z : Nat) :
    ¬ y.Does (.park z) ∧ ¬ y.Does (.reclaim z) := by
  cases y <;> simp [Move.Does, Machine.handsOut] at hx ⊢

/-- The object that a move hands out has no byte in common with the objects that were there
before. -/
theorem Proper.handsOut_apart
    (hm : m.Proper)
    (hy : m.Allows y)
    (hx : m.handsOut y = some x) :
    ∃ k, (m.apply y).heap.arena.Object x k ∧
      ∀ z d, m.heap.arena.Object z d → x + k.size ≤ z ∨ z + d.size ≤ x := by
  obtain ⟨hnone, k, hk, -⟩ := (hm.handsOut hy hx).fresh hm.sound
  refine ⟨k, hk, fun z d hz => ?_⟩
  obtain ⟨hpark, hreclaim⟩ := not_does_of_handsOut hx z
  obtain ⟨hd, hcell, -⟩ := (hm.steps hy).stays hm.sound hz.1 hz.2 hpark hreclaim
  have hne : x ≠ z := by
    rintro rfl
    rw [hz.isAllocated] at hnone
    cases hnone
  have hapart := (hm.apply hy).sound.layout.disjoint hk.1 hcell hne
  exact hapart

theorem Proper.safeSupply
    (hm : m.Proper)
    (hf : m.heap.Shelved) :
    m.SafeSupply where
  apart := fun _ _ hy hx => hm.handsOut_apart hy hx
  reuse := fun id s o => hf.reuse_ne_error hm.sound id s o
  claim := fun _ _ _ _ hc => (claimable?_cases hm.sound hc).2.2
  carveBlock := carveBlock_ne_error hm.sound
  carveRun := fun _ shape o hn => carveRun_ne_error hm.sound hn shape o

/-- Blocks of small cells serve their spans for good, and blocks of runs never hold small cells. -/
theorem Legal.blocks
    (hl : Legal P m ys)
    (hm : m.Proper) :
    (∀ i s, m.heap.arena.HasSpan i s → (m.run ys).heap.arena.HasSpan i s) ∧
      ∀ i, (∃ n, m.heap.arena.HasRun i n) → ∃ n, (m.run ys).heap.arena.HasRun i n := by
  induction ys generalizing m with
  | nil => exact ⟨fun _ _ hspan => hspan, fun _ hrun => hrun⟩
  | cons y ys ih =>
      obtain ⟨hspan, hrun⟩ := ih hl.2.2 (hm.apply hl.1)
      have hsteps := hm.steps hl.1
      exact ⟨fun i s hi => hspan i s (hsteps.hasSpan hm.sound hi),
        fun i hi => hrun i (hsteps.hasRun hm.sound hi)⟩

/-- The partition of the arena. In every state of a run the carved blocks are divided between small
cells, live runs and released runs, occupancy reports account for all of them, and allocations are
supplied safely; and blocks of small cells keep their spans for the rest of the run. -/
theorem carved_blocks_divided
    {before after : List Move}
    (hc : Heap.create memory c = .ok h)
    (hl : Legal P (start h) (before ++ after)) :
    let m := (start h).run before
    m.heap.arena.Divided ∧
      m.heap.census.blocksCarved = m.heap.census.smallBlocks +
        m.heap.census.largeBytes / blockSize + m.heap.census.freeLargeBlocks ∧
      m.SafeSupply ∧
      (∀ i s, m.heap.arena.HasSpan i s → (m.run after).heap.arena.HasSpan i s) ∧
      ∀ i, (∃ n, m.heap.arena.HasRun i n) → ∃ n, (m.run after).heap.arena.HasRun i n := by
  obtain ⟨hbefore, hafter⟩ := legal_append.1 hl
  have hm := hbefore.proper (proper_start hc)
  have hf := hbefore.shelved (proper_start hc) (shelved_start hc)
  exact ⟨hm.sound.layout.divided, census_blocksCarved hm.sound.layout, hm.safeSupply hf,
    hafter.blocks hm⟩

/-- A run of two blocks is swept and released, one of its blocks is taken for another run, and a
block of small cells is carved. -/
theorem carved_blocks_divided_split :
    let before : List Move :=
      [.addWorker, .carveRun 2 .scan, .attachCollector, .begin, .shadeRoots [], .terminate,
        .finishMarking [], .resurrect, .enterSweep, .zeroSlots, .startSweep, .sweepStep 2, .finish,
        .closeCycle, .carveRun 1 .noScan, .carveBlock quarterBlock, .setCursor 0 quarterBlock 2,
        .claim 0 quarterBlock]
    let after : List Move := [.free 0 (Arena.blockBase 2) 4096 none, .reuse 0 quarterBlock]
    let m := (start (.empty fourBlocks)).run before
    m.heap.arena.Divided ∧
      m.heap.census.blocksCarved = m.heap.census.smallBlocks +
        m.heap.census.largeBytes / blockSize + m.heap.census.freeLargeBlocks ∧
      m.SafeSupply ∧
      (∀ i s, m.heap.arena.HasSpan i s → (m.run after).heap.arena.HasSpan i s) ∧
      ∀ i, (∃ n, m.heap.arena.HasRun i n) → ∃ n, (m.run after).heap.arena.HasRun i n := by
  intro before after
  have hlegal : Legal (fun _ _ => True) (start (.empty fourBlocks)) (before ++ after) := by
    decide +kernel
  exact carved_blocks_divided create_fourBlocks hlegal

end Machine

end EagerHeap
