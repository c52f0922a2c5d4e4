import EagerHeap.Proofs.Run.Acts
/-!
# The states of a run

A new heap is proper, and so is every state that a legal run reaches from it.

Main results: `proper_start` and `Legal.proper`.
-/

namespace EagerHeap

namespace Arena

theorem cell?_empty (limit x : Nat) : (empty limit).cell? x = none :=
  cell?_eq_none_of_block Array.getElem?_empty

theorem layout_empty (limit : Nat) : (empty limit).Layout := by
  have hblocks : ∀ i : Nat, (empty limit).blocks[i]? = none := fun _ => Array.getElem?_empty
  have hrun : ∀ i n, ¬ (empty limit).HasRun i n := fun i n => not_hasRun_of_none (hblocks i)
  refine ⟨rfl, Nat.zero_le _, Run.tidy_nil, ?_, ?_, ?_, ?_, ?_⟩
  · intro i s cells q h
    rw [hblocks] at h
    cases h
  · intro j hj
    exact absurd hj (Run.covers_nil j)
  · exact fun i n j h => absurd h (hrun i n)
  · exact fun j h => absurd h (hrun j 0)
  · exact fun i n h => absurd h (hrun i n)

end Arena

namespace Heap

variable {memory : Nat} {c : Config} {h : Heap}

/-- A heap is created for a configuration that was checked. -/
theorem create_eq_ok
    (hc : create memory c = .ok h) :
    c.check = .ok () ∧ h = empty c := by
  unfold create at hc
  split at hc
  · cases hc
  · next hcheck =>
      split at hc
      · cases hc
      split at hc
      · cases hc
      cases hc
      exact ⟨hcheck, rfl⟩

/-- The arena of a heap that was created is none of those that are too large to be asked for. -/
theorem arenaSize_le_of_create
    (hc : create memory c = .ok h) :
    c.arenaSize ≤ Config.greatestArena := by
  unfold create at hc
  split at hc
  · cases hc
  · split at hc
    · cases hc
    · next hle => exact Nat.le_of_not_lt hle

theorem sound_empty (c : Config) : (empty c).Sound := by
  refine ⟨Arena.layout_empty _, ⟨?_, ?_, ?_⟩, ⟨?_, ?_⟩⟩
  · intro w hw
    cases hw
  · intro w hw
    cases hw
  · intro s i hi
    rw [show (empty c).central.get s = [] from SpanTable.get_fill _ _] at hi
    cases hi
  · intro x k hx
    rw [show (empty c).arena.cell? x = none from Arena.cell?_empty _ _] at hx
    cases hx
  · intro x l hl
    cases hl

end Heap

namespace Machine

variable {P : Machine → Move → Prop} {m : Machine} {ys : List Move} {memory : Nat} {c : Config}
  {h : Heap}

/-- A heap of four blocks, for small runs. -/
def fourBlocks : Config := { Config.standard with arenaSize := 4 * blockSize }

theorem create_fourBlocks :
    Heap.create fourBlocks.arenaSize fourBlocks = .ok (.empty fourBlocks) :=
  rfl

/-- Objects that take a quarter of a block. -/
def quarterBlock : Span := ⟨⟨12, by decide⟩, .scan⟩

theorem proper_start
    (hc : Heap.create memory c = .ok h) :
    (start h).Proper := by
  obtain ⟨-, rfl⟩ := Heap.create_eq_ok hc
  exact ⟨Heap.sound_empty c, trivial, fun _ => ⟨rfl, rfl⟩⟩

theorem Legal.proper
    (hl : Legal P m ys)
    (hm : m.Proper) :
    (m.run ys).Proper :=
  hl.preserves hm fun _ _ hm hy _ => hm.apply hy

end Machine

end EagerHeap
