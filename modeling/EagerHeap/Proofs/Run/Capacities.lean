import EagerHeap.Proofs.Cycle.Collected
import EagerHeap.Proofs.Heap.Obtaining
import EagerHeap.Proofs.Interrupted
/-!
# Capacities and the objects that hold them

The growth policy rounds as allocation does. In every state of a run, an allocation of the bytes of a
capacity gives an object that they fill up to less than one element, whatever the client does meanwhile.

Main results: `ensures_allocateBytes` and `capacity_fills_object`.
-/

namespace EagerHeap

namespace Action

variable {σ : Type} {k : Hooks σ} {size bytes : Nat}

/-- An allocation gives a cell of the span. -/
theorem ensures_allocate
    (hk : k.Stepwise)
    (id : Nat) (s : Span) :
    Ensures (allocate k id s) Heap.Sound fun x g =>
      ∃ d, g.arena.Object x d ∧ d.size = s.cellSize ∧ d.shape = s.shape := by
  rw [allocate]
  refine (ensures_update (Q := fun o g => g.Sound ∧ ∀ x, o = some x →
    ∃ d, g.arena.Object x d ∧ d.size = s.cellSize ∧ d.shape = s.shape) ?_).bind fun o => ?_
  · intro h o g hs hrun
    rcases Heap.reuse_cases hs id s with ⟨x, hx, ho⟩ | ⟨hnone, hsteps⟩
    · rw [hrun] at hx ho
      refine ⟨ho.steps.sound hs, fun y hy => ?_⟩
      obtain ⟨-, d, hobj, hsize, hshape, -⟩ := Heap.reuse_object hs (hy ▸ hrun)
      exact ⟨d, hobj, hsize, hshape⟩
    · rw [hrun] at hnone hsteps
      exact ⟨hsteps.sound hs, fun y hy => absurd (hy ▸ rfl) (hnone y)⟩
  · cases o with
    | some x => exact ensures_pure fun g hg => hg.2 x rfl
    | none =>
        intro w x w' hs hrun
        obtain ⟨h, hsound, hclaim⟩ := (lasting_sound hk id s).ensures_search w x w' hs.1 hrun
        obtain ⟨-, d, hobj, hsize, hshape, -⟩ := Heap.claim_object hsound hclaim
        exact ⟨d, hobj, hsize, hshape⟩

/-- An allocation of a large object gives whole blocks. -/
theorem ensures_allocateLarge (size : Nat) (sh : Shape) :
    Ensures (allocateLarge k size sh) Heap.Sound fun x g =>
      ∃ d, g.arena.Object x d ∧ d.size = blocksFor (max size 1) * blockSize ∧ d.shape = sh := by
  rw [allocateLarge]
  refine (ensures_update (Q := fun o g => ∀ x, o = some x →
    ∃ d, g.arena.Object x d ∧ d.size = blocksFor (max size 1) * blockSize ∧ d.shape = sh)
    ?_).bind fun o => ?_
  · rintro h o g hs hrun x rfl
    exact (Heap.carveRun_object hs (blocksFor_pos size) hrun).2
  · cases o with
    | some x => exact ensures_pure fun g hg => hg x rfl
    | none =>
        refine (ensures_update (Q := fun _ _ => True) fun _ _ _ _ _ => trivial).bind fun n => ?_
        exact ensures_exhausted n

/-- An allocation of bytes gives an object of the size that is reserved for them. -/
theorem ensures_allocateBytes
    (hk : k.Stepwise)
    (hbytes : reservedSize size = .ok bytes)
    (id : Nat) (sh : Shape) :
    Ensures (allocateBytes k id size sh) Heap.Sound fun x g =>
      ∃ d, g.arena.Object x d ∧ d.size = bytes ∧ d.shape = sh := by
  rw [reservedSize] at hbytes
  rw [allocateBytes]
  cases hc : SizeClass.forSize? size with
  | some c =>
      rw [hc] at hbytes
      cases hbytes
      exact ensures_allocate hk id ⟨c, sh⟩
  | none =>
      rw [hc] at hbytes
      obtain ⟨-, rfl⟩ := Word.mul_eq_ok_iff.1 hbytes
      have hlarge : max size 1 = size := by
        refine Nat.max_eq_left (Nat.pos_of_ne_zero ?_)
        rintro rfl
        cases hc
      have hgives := ensures_allocateLarge (k := k) size sh
      rw [hlarge] at hgives
      exact (ensures_adjust fun h hs =>
        (Heap.still_count h id .slowAllocations 1).steps.sound hs).bind fun _ => hgives

end Action

namespace Machine

open Heap

variable {ys : List Move} {old needed elementSize capacity : Nat} {memory : Nat} {c : Config} {h : Heap}

/-- A capacity suffices, and one that did not suffice before grows by a quarter at least. Its bytes are a
machine word; an object that is allocated for them has the size that is reserved for them, and
the capacity is the number of elements that fit into it. -/
theorem capacity_fills_object
    {σ : Type} {hooks : Hooks σ}
    (hk : hooks.Stepwise)
    (hc : Heap.create memory c = .ok h)
    (hl : Legal (fun _ _ => True) (start h) ys)
    (hold : old < Word.bound)
    (hneeded : needed < Word.bound)
    (hcapacity : nextCapacity old needed elementSize = .ok capacity)
    (id : Nat) (sh : Shape) (client : σ) :
    max (max needed old) 1 ≤ capacity ∧
      (old < needed → 5 * old ≤ 4 * capacity ∧ old < capacity) ∧
      capacity * elementSize < Word.bound ∧
      ∃ bytes, reservedSize (capacity * elementSize) = .ok bytes ∧ capacity = bytes / elementSize ∧
        ∀ x w, ExceptT.run (Action.allocateBytes hooks id (capacity * elementSize) sh)
            ⟨((start h).run ys).heap, client⟩ = (.ok x, w) →
          ∃ d, w.heap.arena.Object x d ∧ d.size = bytes ∧ d.shape = sh := by
  obtain ⟨-, count, bytes, hd, hcount, hfull, hbytes⟩ :=
    nextCapacity_fills hold hneeded hcapacity
  have hs := (hl.proper (proper_start hc)).sound
  refine ⟨hd.max_le.trans hcount, fun hlt => ?_, ?_, bytes, hbytes, hfull, fun x w hrun => ?_⟩
  · obtain ⟨hquarter, hmore⟩ := hd.grows hlt
    omega
  · exact (le_reservedSize hbytes).trans_lt (reservedSize_lt hbytes)
  · exact Action.ensures_allocateBytes hk hbytes id sh _ x w hs hrun

/-- A client that takes a block for itself whenever it is told of an event. -/
def greedyClient : Hooks Unit where
  onEvent _ w := { w with heap := ((Heap.carveRun 1 .scan).run w.heap).2 }
  onTransition _ _ w := w
  onRecord _ _ := pure ()

theorem stepwise_greedyClient : greedyClient.Stepwise := by
  intro e w hs
  rcases carveRun_cases hs Nat.one_pos .scan with ⟨x, -, ho⟩ | ⟨-, hsame⟩
  · exact ho.steps.mono fun _ _ => trivial
  · change Steps _ w.heap ((Heap.carveRun 1 .scan).run w.heap).2
    rw [hsame]
    exact Steps.refl w.heap

/-- The client takes the next block while a buffer of 512 elements is allocated. -/
theorem capacity_fills_object_interrupted :
    nextCapacity 256 400 16 = .ok 512 ∧
      ∃ x w d, ExceptT.run (Action.allocateBytes greedyClient 0 (512 * 16) .noScan)
          ⟨((start (.empty fourBlocks)).run [.addWorker]).heap, ()⟩ = (.ok x, w) ∧
        w.heap.arena.Object x d ∧ d.size = 8192 ∧ w.heap.arena.isAllocated (Arena.blockBase 1) := by
  have hlegal : Legal (fun _ _ => True) (start (.empty fourBlocks)) [.addWorker] := by
    decide +kernel
  have hcapacity : nextCapacity 256 400 16 = .ok 512 := by decide +kernel
  obtain ⟨-, -, -, bytes, hbytes, -, hobject⟩ := capacity_fills_object stepwise_greedyClient
    create_fourBlocks hlegal (show 256 < Word.bound by decide) (show 400 < Word.bound by decide)
    hcapacity 0 .noScan ()
  have hsize : reservedSize (512 * 16) = .ok 8192 := by decide +kernel
  obtain rfl : bytes = 8192 := Except.ok.inj (hbytes.symm.trans hsize)
  have hresult :
      let r := ExceptT.run (Action.allocateBytes greedyClient 0 (512 * 16) .noScan)
        ⟨((start (.empty fourBlocks)).run [.addWorker]).heap, ()⟩
      r.1 = .ok Arena.start ∧ r.2.heap.arena.isAllocated (Arena.blockBase 1) = true := by
    decide +kernel
  rcases hrun : ExceptT.run (Action.allocateBytes greedyClient 0 (512 * 16) .noScan)
    ⟨((start (.empty fourBlocks)).run [.addWorker]).heap, ()⟩ with ⟨r, w⟩
  rw [hrun] at hresult
  obtain ⟨rfl, htaken⟩ := hresult
  obtain ⟨d, hobj, hd, -⟩ := hobject Arena.start w hrun
  exact ⟨hcapacity, Arena.start, w, d, rfl, hobj, hd, htaken⟩

end Machine

end EagerHeap
