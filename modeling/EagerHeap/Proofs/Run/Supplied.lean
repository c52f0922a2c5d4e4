import EagerHeap.Proofs.Heap.Lone
import EagerHeap.Proofs.Run.Errands
/-!
# Free cells are found, and memory runs out only when it must

In every state between the errands of a run an allocation finds the free cells: their blocks are offered
to all workers, or cursors are on them. So an allocation fails only if it must, and a worker that is added
when there is no other one gets all free cells before it carves a block.

Main result: `free_cells_found`.
-/

namespace EagerHeap

namespace Heap

/-- No free cell is stranded: its block is offered to all workers, or the cursor of a live worker is on
the block and has not passed the cell. Only blocks of a span are offered for it, none of them twice, and
they are the blocks that are marked as offered. -/
structure NothingStranded (h : Heap) : Prop where
  found : ∀ s b i, h.FreeCell s b i →
    b ∈ h.central.get s ∨
      ∃ w ∈ h.workers, ∃ k, w.cursors.get s = some k ∧ k.block = b ∧ k.cell ≤ i
  nodup : ∀ s, (h.central.get s).Nodup
  apart : ∀ s t b, b ∈ h.central.get s → b ∈ h.central.get t → s = t
  marked : ∀ b block, h.arena.blocks[b]? = some block →
    (block.isQueued = true ↔ ∃ s, b ∈ h.central.get s)
  ofSpan : ∀ s b, b ∈ h.central.get s → h.arena.HasSpan b s

/-- An allocation of a worker has to fail: its free list is empty, all blocks are carved, and the cursors
of other workers are at or before all free cells. -/
structure MustRunOut (h : Heap) (id : Nat) (s : Span) : Prop where
  noEntry : ∀ w ∈ h.workers, w.id = id → w.freeLists.get s = []
  noBlock : h.arena.pages.next = h.arena.pages.limit
  taken : h.TakenByOthers id s

variable {h g : Heap} {id n : Nat} {s : Span} {σ : Type} {k : Hooks σ}

theorem Supplied.nothingStranded
    (hsup : h.Supplied)
    (hs : h.Sound) :
    h.NothingStranded where
  found := by
    intro s b i hc
    rcases hsup.found s b i hc with hb | ⟨id, k, ⟨u, hu, -, hk⟩, hblock, hle⟩
    · exact Or.inl hb
    · obtain ⟨w, hw, rfl⟩ := mem_stock_iff.1 hu
      exact Or.inr ⟨w, hw, k, hk, hblock, hle⟩
  nodup := hsup.offers.nodup
  apart := fun s t b hb hb' => (hs.stocked.central s b hb).unique (hs.stocked.central t b hb')
  marked := by
    intro b block hblock
    refine Iff.trans ?_ (hsup.offers.marked b)
    change _ ↔ h.arena.queued b = true
    rw [Arena.queued, hblock, Option.any_some]
  ofSpan := hs.stocked.central

/-- An allocation gives an object, or it has to fail. -/
theorem Tended.allocate_or_mustRunOut
    (ht : h.Tended id)
    (s : Span) :
    (∃ x, (ExceptT.run (allocateAlone id s) h).1 = .ok x) ∨
      (ExceptT.run (allocateAlone id s) h).1 = .error (.outOfMemory blockSize) ∧
        h.MustRunOut id s := by
  rcases ht.staffed.allocate_cases s with ⟨x, -, hx⟩ | ⟨hpop, hc⟩
  · exact Or.inl ⟨x, hx⟩
  · rcases hc.outcome ht with ⟨hok, -⟩ | ⟨htaken, ⟨hok, -⟩ | ⟨hout, hfull⟩⟩
    · exact Or.inl hok
    · exact Or.inl hok
    · exact Or.inr ⟨hout, (popFree_eq_none_iff ht.shelved).1 hpop, hfull, htaken⟩

/-- A worker that is alone allocates `n` different objects of a span while no block is carved, and the
allocation after that carves one or fails. -/
def Exhausts (h : Heap) (k : Hooks σ) (id : Nat) (s : Span) (n : Nat) : Prop :=
  ∃ xs g, (Action.allocateEach k id s n).Gives h xs g ∧ xs.length = n ∧ xs.Nodup ∧
    (∀ x ∈ xs, h.arena.isAllocated x = false ∧ g.arena.isAllocated x = true) ∧
    g.census.blocksCarved = h.census.blocksCarved ∧
    ((∃ x g', (Action.allocate k id s).Gives g x g' ∧
        g'.census.blocksCarved = g.census.blocksCarved + 1) ∨
      ∀ w : World σ, w.heap = g →
        (ExceptT.run (Action.allocate k id s) w).1 = .error (.outOfMemory blockSize))

theorem Lone.exhausts
    (hl : h.Lone id s)
    (hk : k.Silent) :
    h.Exhausts k id s (h.freeCells s) := by
  obtain ⟨xs, g, hgives, hlength, hnodup, hnew, -, hpages, hlone, hnone⟩ := hl.allocateEach hk rfl
  refine ⟨xs, g, hgives, hlength, hnodup, hnew, ?_, ?_⟩
  · rw [blocksCarved_census, blocksCarved_census, hpages]
  · rcases hlone.allocate_none hnone with ⟨x, g', hrun, hnext⟩ | hout
    · refine Or.inl ⟨x, g', gives_of_follows (Action.follows_allocate hk id s) hrun, ?_⟩
      rw [blocksCarved_census, blocksCarved_census, hnext]
    · refine Or.inr ?_
      rintro w rfl
      obtain ⟨w', hrun, -⟩ := Action.follows_allocate hk id s w
      rw [hrun]
      exact hout

end Heap

namespace Machine

variable {m : Machine} {e : Ends} {xs : List Errand} {memory : Nat} {c : Config} {h : Heap} {σ : Type}
  {k : Hooks σ}

open Heap

/-- A worker that is added to a heap without workers is alone, with empty free lists. -/
theorem Kept.lone_addWorker
    (hk : m.Kept e)
    (hnone : m.heap.workers = [])
    (s : Span) :
    m.heap.addWorker.2.Lone m.heap.nextWorker s := by
  have hadded : m.heap.addWorker.2.workers = [{ id := m.heap.nextWorker }] := by
    rw [addWorker, hnone]
    rfl
  have hafter := hk.apply (y := .addWorker) id trivial trivial
  refine ⟨hafter.tended ⟨_, hadded ▸ List.mem_singleton_self _, rfl⟩, fun w hw => ?_⟩
  rw [hadded] at hw
  rw [List.mem_singleton.1 hw]
  exact ⟨rfl, SpanTable.get_fill _ s⟩

/-- No free cell is stranded, and small allocation runs out only when it must. In every state between
the errands of a run an allocation of a live worker gives an object or has to fail; and once all workers
are gone, a new worker gets exactly the free cells of a span before a block is carved. -/
theorem free_cells_found
    (hk : k.Silent)
    (hc : Heap.create memory c = .ok h)
    (hw : (start h).Whole {} xs) :
    ((start h).performAll xs).heap.NothingStranded ∧
      (∀ id s (w : World σ), w.heap = ((start h).performAll xs).heap →
        (∃ v ∈ w.heap.workers, v.id = id) →
        (∃ x, (ExceptT.run (Action.allocate k id s) w).1 = .ok x) ∨
          (ExceptT.run (Action.allocate k id s) w).1 = .error (.outOfMemory blockSize) ∧
            w.heap.MustRunOut id s) ∧
      (((start h).performAll xs).heap.workers = [] → ∀ s,
        ((start h).performAll xs).heap.addWorker.2.Exhausts k
          ((start h).performAll xs).heap.nextWorker s
          (((start h).performAll xs).heap.freeCells s)) := by
  obtain ⟨e, hkept⟩ := (kept_start hc).performAll hw
  refine ⟨hkept.supplied.nothingStranded hkept.proper.sound, ?_, fun hnone s => ?_⟩
  · intro id s w hheap hid
    obtain ⟨w', hrun, -⟩ := Action.follows_allocate hk id s w
    rw [hrun, hheap]
    exact (hkept.tended (hheap ▸ hid)).allocate_or_mustRunOut s
  · exact (hkept.lone_addWorker hnone s).exhausts hk

/-- A worker cannot allocate, as the last free cells lie with another one. Then it frees an object, a
cycle sweeps others, both workers end, and a third one gets all free cells. -/
theorem free_cells_found_ended :
    let full : List Errand :=
      .move .addWorker :: .move .addWorker :: .allocate 1 quarterBlock ::
        List.replicate 12 (.allocate 0 quarterBlock)
    let ended : List Errand := full ++
      [.move (.free 0 (Arena.blockBase 2) 4096 none), .move .attachCollector, .move .begin,
        .move (.shadeRoots [Arena.blockBase 0, Arena.blockBase 1]), .move .terminate,
        .move (.finishMarking [Arena.blockBase 0, Arena.blockBase 1]), .move .resurrect,
        .move .enterSweep, .move .zeroSlots, .move .startSweep, .move (.sweepStep 2),
        .allocate 1 quarterBlock, .move (.flushWorker 0), .move (.retireWorker 0),
        .move (.sweepStep 2), .move .finish, .move .closeCycle, .move (.flushWorker 1),
        .move (.retireWorker 1)]
    ((start (.empty fourBlocks)).performAll full).heap.MustRunOut 0 quarterBlock ∧
      ((start (.empty fourBlocks)).performAll ended).heap.NothingStranded ∧
      ((start (.empty fourBlocks)).performAll ended).heap.addWorker.2.Exhausts idleClient
        ((start (.empty fourBlocks)).performAll ended).heap.nextWorker quarterBlock 13 := by
  intro full ended
  have hfull : (start (.empty fourBlocks)).Whole {} full := by
    decide +kernel
  have hended : (start (.empty fourBlocks)).Whole {} ended := by
    decide +kernel
  have hlives : ∃ v ∈ ((start (.empty fourBlocks)).performAll full).heap.workers, v.id = 0 := by
    decide +kernel
  have hout : (ExceptT.run (Action.allocate idleClient 0 quarterBlock)
      ⟨((start (.empty fourBlocks)).performAll full).heap, ()⟩).1 =
        .error (.outOfMemory blockSize) := by
    decide +kernel
  have hnone : ((start (.empty fourBlocks)).performAll ended).heap.workers.map Worker.id = [] := by
    decide +kernel
  have hcount : ((start (.empty fourBlocks)).performAll ended).heap.freeCells quarterBlock = 13 := by
    decide +kernel
  obtain ⟨hstranded, -, hexhausts⟩ := free_cells_found silent_idleClient create_fourBlocks hended
  have hall := hexhausts (List.map_eq_nil_iff.1 hnone) quarterBlock
  rw [hcount] at hall
  refine ⟨?_, hstranded, hall⟩
  obtain ⟨-, hcases, -⟩ := free_cells_found silent_idleClient create_fourBlocks hfull
  generalize (start (.empty fourBlocks)).performAll full = m at hcases hlives hout ⊢
  rcases hcases 0 quarterBlock ⟨m.heap, ()⟩ rfl hlives with ⟨x, hx⟩ | ⟨-, hmust⟩
  · rw [hout] at hx
    cases hx
  · exact hmust

end Machine

end EagerHeap
