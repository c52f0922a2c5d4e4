import EagerHeap.Proofs.Heap.Finalizers
import EagerHeap.Proofs.Run.Objects
/-!
# Side records in a run

A finalizer that was attached waits: it is attached to its object, then queued, then a part of a
batch that is being run, until it runs. If a record before it in the batch fails it waits for ever.
While it waits outside of the table, the heap counts its object among the roots.

Main results: `Proper.batched` and `Batched.mem_roots`.
-/

namespace EagerHeap.Machine

variable {m : Machine} {y : Move} {x memory : Nat} {r : SideRecord} {c : Config} {h : Heap} {b : Batch}
  {rest : List Batch}

open Heap

theorem apply_fire
    (hbs : m.batches = b :: rest) :
    m.apply .fire = { m with batches := { b with left := b.left.tail } :: rest } := by
  simp [apply, heapAfter, stageAfter, batchesAfter, brokenAfter, hbs]

theorem apply_endBatch
    (hbs : m.batches = b :: rest) :
    m.apply .endBatch = { m with heap := m.heap.endBatch b.records, batches := rest } := by
  simp [apply, heapAfter, stageAfter, batchesAfter, brokenAfter, hbs]

/-- The objects of the batches that are being run are the ones that the heap keeps alive, and what is
left of a batch is a part of it. -/
structure Batched (m : Machine) : Prop where
  running : m.heap.records.running.Perm
    ((m.batches ++ m.broken).flatMap fun b => SideRecords.targets b.records)
  left : ∀ b ∈ m.batches ++ m.broken, b.left <:+ b.records

/-- The record is queued, or a part of a batch that did not come to it. -/
def Waits (m : Machine) (x : Nat) (r : SideRecord) : Prop :=
  ⟨x, r⟩ ∈ m.heap.records.pending ∨ ∃ b ∈ m.batches ++ m.broken, ⟨x, r⟩ ∈ b.left

/-- The record that runs next, if one does. -/
def firing (m : Machine) : Option PendingRecord := m.batches.head?.bind fun b => b.left.head?

theorem batched_start (hc : Heap.create memory c = .ok h) : (start h).Batched := by
  obtain ⟨-, rfl⟩ := Heap.create_eq_ok hc
  refine ⟨List.Perm.refl _, fun b hb => ?_⟩
  cases hb

/-- The object of a finalizer that waits is a root. -/
theorem Batched.mem_roots
    (hb : m.Batched)
    (hx : x ≠ 0)
    (hw : m.Waits x r) :
    x ∈ m.heap.records.roots := by
  rcases hw with hp | ⟨b, hmem, hl⟩
  · exact List.mem_append_left _ (SideRecords.mem_targets hx hp)
  · refine List.mem_append_right _ (hb.running.mem_iff.2 ?_)
    exact List.mem_flatMap.2
      ⟨b, hmem, SideRecords.mem_targets hx ((hb.left b hmem).subset hl)⟩

/-- Moves that take no batch and end none leave the batches alone. -/
theorem not_does_batch
    (hstart : y ≠ .startBatch)
    (hend : y ≠ .endBatch) :
    ¬ y.Does .batch := by
  cases y <;> simp [Move.Does] at hstart hend ⊢

/-- Every move keeps the account of the batches. -/
theorem Proper.batched
    (hm : m.Proper)
    (hy : m.Allows y)
    (hb : m.Batched) :
    (m.apply y).Batched := by
  have hkeep : ¬ y.Does .batch → m.batchesAfter y = m.batches → m.brokenAfter y = m.broken →
      (m.apply y).Batched := by
    intro hdoes hbatches hbroken
    have hrunning := (hm.steps hy).running hdoes
    refine ⟨?_, ?_⟩
    · rw [hrunning]
      change List.Perm _ ((m.batchesAfter y ++ m.brokenAfter y).flatMap _)
      rw [hbatches, hbroken]
      exact hb.running
    · change ∀ b ∈ m.batchesAfter y ++ m.brokenAfter y, _
      rw [hbatches, hbroken]
      exact hb.left
  cases y with
  | startBatch =>
      refine ⟨?_, fun b hmem => ?_⟩
      · exact List.perm_append_comm.trans (hb.running.append_left _)
      · rcases List.mem_cons.1 hmem with rfl | hmem
        · exact List.suffix_refl _
        · exact hb.left b hmem
  | fire =>
      obtain ⟨b, rest, hbs, -⟩ := hy
      obtain ⟨hrunning, hleft⟩ := hb
      rw [hbs] at hrunning hleft
      rw [apply_fire hbs]
      refine ⟨hrunning, fun d hmem => ?_⟩
      rcases List.mem_cons.1 hmem with rfl | hmem
      · exact (List.tail_suffix _).trans (hleft b (List.mem_cons_self ..))
      · exact hleft d (List.mem_cons_of_mem _ hmem)
  | endBatch =>
      obtain ⟨b, rest, hbs, -⟩ := hy
      obtain ⟨hrunning, hleft⟩ := hb
      rw [hbs] at hrunning hleft
      rw [apply_endBatch hbs]
      exact ⟨SideRecords.running_endBatch hrunning, fun d hmem =>
        hleft d (List.mem_cons_of_mem _ hmem)⟩
  | breakBatch =>
      obtain ⟨b, rest, hbs⟩ := List.exists_cons_of_ne_nil hy
      have hrunning := hb.running
      have hleft := hb.left
      have hperm : (m.batches ++ m.broken).Perm
          (m.batchesAfter .breakBatch ++ m.brokenAfter .breakBatch) := by
        unfold batchesAfter brokenAfter
        rw [hbs]
        exact List.perm_middle.symm
      refine ⟨?_, fun d hmem => ?_⟩
      · exact hrunning.trans (hperm.flatMap_right _)
      · exact hleft d (hperm.mem_iff.2 hmem)
  | _ => exact hkeep (not_does_batch (by simp) (by simp)) rfl rfl

theorem Legal.batched
    {P : Machine → Move → Prop} {ys : List Move}
    (hc : Heap.create memory c = .ok h)
    (hl : Legal P (start h) ys) :
    ((start h).run ys).Batched := by
  refine (hl.preserves (R := fun m => m.Proper ∧ m.Batched)
    ⟨proper_start hc, batched_start hc⟩ ?_).2
  rintro m y ⟨hm, hb⟩ hy -
  exact ⟨hm.apply hy, hm.batched hy hb⟩

end EagerHeap.Machine
