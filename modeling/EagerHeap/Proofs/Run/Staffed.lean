import EagerHeap.Proofs.Run.Errands
/-!
# Workers in the middle of a run

However the pieces of operations are interleaved, no block is offered twice. So in every state of a
run the allocation of a worker that lives comes to an end.

Main result: `Legal.staffed`.
-/

namespace EagerHeap

namespace Machine

variable {P : Machine → Move → Prop} {m : Machine} {y : Move} {ys : List Move} {id : Nat}
  {memory : Nat} {c : Config} {h : Heap}

open Heap

/-- A worker goes on to be able to allocate unless it is retired. -/
theorem Proper.staffed
    (hm : m.Proper)
    (hr : m.heap.Staffed id)
    (hy : m.Allows y)
    (hne : y ≠ .retireWorker id) :
    (m.apply y).heap.Staffed id :=
  ⟨(hm.apply hy).sound, hm.shelved hr.shelved hy, hm.consistent hr.shelved hr.offers,
    lives_apply hr.lives hne⟩

/-- In every state of a run a worker that lives can allocate. -/
theorem Legal.staffed
    (hc : Heap.create memory c = .ok h)
    (hl : Legal P (start h) ys)
    (hid : ∃ w ∈ ((start h).run ys).heap.workers, w.id = id) :
    ((start h).run ys).heap.Staffed id := by
  have hkept := kept_start hc
  obtain ⟨hm, hf, ho⟩ := hl.preserves
    (R := fun m => m.Proper ∧ m.heap.Shelved ∧ m.heap.offers.Consistent)
    ⟨hkept.proper, hkept.shelved, hkept.supplied.offers⟩
    fun m y ⟨hm, hf, ho⟩ hy _ => ⟨hm.apply hy, hm.shelved hf hy, hm.consistent hf ho⟩
  exact ⟨hm.sound, hf, ho, hid⟩

end Machine

end EagerHeap
