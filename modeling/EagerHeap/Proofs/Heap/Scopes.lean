import EagerHeap.Proofs.Heap.FreeLists
/-!
# Operations on scopes

What entering a scope and recording an object do, as equations, and that scopes leave free lists
alone.

Main results: `enterScope_run` and `recordTracked_run`.
-/

namespace EagerHeap.Heap

variable {h : Heap} {id r k x : Nat}

theorem enterScope_run (h : Heap) (id r : Nat) :
    (enterScope id r).run h =
      if (h.ownerOf r).isSome then (.error .slotsInUse, h.setOwner r (some id))
      else
        (.ok h.scopes.size,
          { (h.setOwner r (some id)).register id r with
            scopes := h.scopes.push { worker := id, registry := r } }) := by
  unfold enterScope
  by_cases hc : (h.ownerOf r).isSome = true
  · simp [hc]
  · simp only [hc]
    simp [hc]
    rfl

/-- The slot of a new object is written, and the scope uses one slot more. -/
def noteTracked (h : Heap) (k r i x : Nat) : Heap :=
  (h.modifyRegistry r (·.setSlot i ⟨x, h.epoch⟩)).modifyScope k
    fun scope => { scope with used := scope.used + 1 }

theorem recordTracked_run (h : Heap) (k x e : Nat) :
    (recordTracked k x e).run h =
      match h.scopes[k]? with
      | none => (.ok (), h)
      | some scope =>
        if h.registryCapacity scope.registry ≤ scope.used then
          (.error (.trackingFull (h.registryCapacity scope.registry)),
            h.count scope.worker .trackOverflow 1)
        else if e < h.lastSweep then (.ok (), h.count scope.worker .trackedSkipped 1)
        else (.ok (), h.noteTracked k scope.registry scope.used x) := by
  unfold recordTracked
  simp only [run_bind_operation, run_get_operation]
  cases hk : h.scopes[k]? with
  | none => rfl
  | some scope =>
      by_cases hfull : h.registryCapacity scope.registry ≤ scope.used
      · simp [hfull]
      · by_cases hlate : e < h.lastSweep
        · simp [hfull, hlate]
        · simp [hfull, hlate, noteTracked]

theorem Shelved.setOwner
    (hf : h.Shelved)
    (r : Nat) (owner : Option Nat) :
    (h.setOwner r owner).Shelved :=
  hf.modifyRegistry r _

theorem Shelved.register
    (hf : h.Shelved)
    (id r : Nat) :
    (h.register id r).Shelved :=
  hf.modifyWorker id (fun _ => rfl) fun _ _ => List.Sublist.refl _

theorem Shelved.deregister
    (hf : h.Shelved)
    (id r : Nat) :
    (h.deregister id r).Shelved :=
  hf.modifyWorker id (fun _ => rfl) fun _ _ => List.Sublist.refl _

theorem Shelved.dropRegistry
    (hf : h.Shelved)
    (r : Nat) :
    (h.dropRegistry r).Shelved := by
  unfold Heap.dropRegistry
  split
  · exact (hf.setOwner r none).deregister _ r
  · exact hf

theorem Shelved.enterScope
    (hf : h.Shelved)
    (id r : Nat) :
    ((Heap.enterScope id r).run h).2.Shelved := by
  rw [enterScope_run]
  split
  · exact hf.setOwner r _
  · exact ((hf.setOwner r _).register id r).of_arena rfl rfl rfl

theorem Shelved.recordTracked
    (hf : h.Shelved)
    (k x e : Nat) :
    ((Heap.recordTracked k x e).run h).2.Shelved := by
  rw [recordTracked_run]
  split
  · exact hf
  · split
    · exact hf.count _ _ _
    · split
      · exact hf.count _ _ _
      · exact (hf.modifyRegistry _ _).modifyScope k _

/-! ### The zeroing of slots -/

theorem workers_zeroSlotsOf (rs : List Nat) (h : Heap) :
    (h.zeroSlotsOf rs).2.workers = h.workers ∧ (h.zeroSlotsOf rs).2.nextWorker = h.nextWorker := by
  induction rs generalizing h with
  | nil => exact ⟨rfl, rfl⟩
  | cons r rs ih =>
      have hfirst : (h.zeroSlots r).2.workers = h.workers ∧
          (h.zeroSlots r).2.nextWorker = h.nextWorker := by
        unfold zeroSlots
        split <;> exact ⟨rfl, rfl⟩
      exact ⟨(ih _).1.trans hfirst.1, (ih _).2.trans hfirst.2⟩

theorem workers_invalidateSlots (h : Heap) :
    h.invalidateSlots.2.workers = h.workers ∧ h.invalidateSlots.2.nextWorker = h.nextWorker :=
  workers_zeroSlotsOf h.knownRegistries h

end EagerHeap.Heap
