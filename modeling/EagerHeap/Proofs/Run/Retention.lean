import EagerHeap.Proofs.Run.Objects
/-!
# Reachable objects survive a cycle

While the collector marks, the tri-color invariant holds between any two moves. So everything that
can be reached when marking was finished is marked, and the sweeper of the same cycle does not free
it.

Main results: `Proper.marks` and `reachable_survives`.
-/

namespace EagerHeap

/-- Whether the move copies whole words only, if it copies into an object that may hold
addresses. -/
def Move.copiesWords : Move → Bool
  | .copy _ _ bytes .scan => bytes % Word.bytes = 0
  | _ => true

namespace Machine

/-- While the collector marks, objects that may hold addresses are copied in whole words. -/
def WholeWords (m : Machine) (y : Move) : Prop :=
  m.heap.phase.isMarking = true → y.copiesWords = true

instance decidableWholeWords (m : Machine) (y : Move) : Decidable (m.WholeWords y) :=
  inferInstanceAs (Decidable (m.heap.phase.isMarking = true → y.copiesWords = true))

/-- The tri-color invariant holds while the collector marks. -/
def Marks (m : Machine) : Prop := m.heap.phase.isMarking = true → m.heap.Tricolor

variable {m : Machine} {y : Move} {ys : List Move} {memory : Nat} {c : Config} {h : Heap} {x : Nat}

open Heap

theorem marks_start (hc : Heap.create memory c = .ok h) : (start h).Marks := by
  obtain ⟨-, rfl⟩ := Heap.create_eq_ok hc
  intro hm
  cases hm

/-- A move that is no part of marking respects the write barrier. -/
theorem Proper.marks_of_barred
    (hm : m.Proper)
    (hy : m.Allows y)
    (hbarred : m.heap.phase.isMarking = true → ∀ l, y.Does l → l.Barred)
    (hbegin : ¬ y.Does .begin)
    (hturn : ¬ y.Does .turn)
    (ht : m.Marks) :
    (m.apply y).Marks := by
  intro hmark
  rw [(hm.steps hy).phase hbegin hturn] at hmark
  exact (hm.steps hy).tricolor hm.sound (hbarred hmark) hmark (ht hmark)

/-- Every move keeps the tri-color invariant while the collector marks. -/
theorem Proper.marks
    (hm : m.Proper)
    (hy : m.Allows y)
    (hw : m.WholeWords y)
    (ht : m.Marks) :
    (m.apply y).Marks := by
  have hcollector : m.heap.phase.isMarking = true → m.heap.collector.isSome = true := by
    intro hmark
    refine hm.isSome_collector (Or.inr fun hidle => ?_)
    rw [hidle] at hmark
    cases hmark
  have hphase : (¬ y.Does .begin) → (¬ y.Does .turn) →
      (m.apply y).heap.phase = m.heap.phase := (hm.steps hy).phase
  cases y with
  | copy source target bytes shape =>
      refine hm.marks_of_barred hy (fun hmark l hl => ?_) (by simp [Move.Does])
        (by simp [Move.Does]) ht
      obtain rfl : l = .copy source target bytes shape := hl
      cases shape with
      | scan =>
          have hwhole : bytes % Word.bytes = 0 := by
            simpa [Move.copiesWords] using hw hmark
          exact hwhole
      | noScan => trivial
  | begin => exact fun _ => Arena.tricolor_resetColors m.heap.arena
  | shadeRoots roots =>
      intro hmark
      rw [hphase (by simp [Move.Does]) (by simp [Move.Does])] at hmark
      exact shadeRoots_tricolor (hcollector hmark) (ht hmark) roots
  | markStep n =>
      intro hmark
      rw [hphase (by simp [Move.Does]) (by simp [Move.Does])] at hmark
      exact markStep_tricolor hm.sound (hcollector hmark) (ht hmark) n
  | terminate =>
      have hmark : m.heap.phase.isMarking = true := by
        rw [hy.2]
        rfl
      exact fun _ => ht hmark
  | finishMarking roots =>
      intro hmark
      rw [hphase (by simp [Move.Does]) (by simp [Move.Does])] at hmark
      have hc := hcollector hmark
      exact tricolor_of_markAll ((shadeRoots_steps _ _).sound hm.sound)
        ((isSome_collector_marking _ _).trans hc) (shadeRoots_tricolor hc (ht hmark) roots)
  | resurrect =>
      intro hmark
      rw [hphase (by simp [Move.Does]) (by simp [Move.Does])] at hmark
      have hc := hcollector hmark
      have hall := tricolor_of_markAll hm.sound hc (ht hmark)
      refine resurrectAll_tricolor ((markAll_steps _).sound hm.sound)
        ((isSome_collector_markAll _).trans hc) ?_ hall
      rw [(markAll_steps m.heap).phase (by simp) (by simp)]
      exact hmark
  | enterSweep =>
      intro hmark
      have hfits := hm.stage
      rw [show m.stage = .resurrected from hy] at hfits
      have hsweep : (m.apply .enterSweep).heap.phase = .sweep := congrArg Phase.next hfits
      rw [hsweep] at hmark
      cases hmark
  | finish =>
      intro hmark
      have hidle : (m.apply .finish).heap.phase = .idle := congrArg Phase.next hy.2
      rw [hidle] at hmark
      cases hmark
  | sweepStep n =>
      refine hm.marks_of_barred hy (fun _ l hl => ?_) (by simp [Move.Does])
        (by simp [Move.Does]) ht
      rcases hl with rfl | rfl | ⟨x, rfl | rfl | rfl⟩ <;> trivial
  | closeCycle =>
      refine hm.marks_of_barred hy (fun _ l hl => ?_) (by simp [Move.Does])
        (by simp [Move.Does]) ht
      rcases hl with rfl | rfl <;> trivial
  | _ =>
      refine hm.marks_of_barred hy (fun _ l hl => ?_) (by simp [Move.Does])
        (by simp [Move.Does]) ht
      simp only [Move.Does] at hl
      rcases hl with rfl | ⟨x, rfl⟩ <;> trivial

/-- An object that can be reached when marking was finished is not freed by the sweeper: until the
next cycle begins it leaves the state in which it is allocated only by being freed eagerly. -/
theorem reachable_survives
    {before after : List Move} {roots : List Nat} {x : Nat}
    (hc : Heap.create memory c = .ok h)
    (hl : Legal WholeWords (start h) (before ++ .finishMarking roots :: after))
    (hbegin : .begin ∉ after)
    (hx : ((start h).run (before ++ [.finishMarking roots])).heap.Reachable roots x) :
    (∃ k hd, ((start h).run (before ++ [.finishMarking roots])).heap.arena.Object x k ∧
        ((start h).run (before ++ .finishMarking roots :: after)).heap.arena.Object x
          { k with header := hd }) ∨
      ((start h).run (before ++ [.finishMarking roots])).ParksIn after x := by
  obtain ⟨hbefore, hy, hw, hafter⟩ := legal_append.1 hl
  have hinv : ((start h).run before).Proper ∧ ((start h).run before).Marks := by
    refine hbefore.preserves (R := fun m => m.Proper ∧ m.Marks) ⟨proper_start hc, marks_start hc⟩ ?_
    rintro m y ⟨hm, ht⟩ hy hw
    exact ⟨hm.apply hy, hm.marks hy hw ht⟩
  rw [run_append, run_cons, run_nil] at hx ⊢
  rw [run_append, run_cons]
  generalize (start h).run before = m at hinv hy hafter hx
  obtain ⟨hm, ht⟩ := hinv
  have hfits := hm.stage
  rw [show m.stage = .finishing from hy] at hfits
  have hmark : m.heap.phase.isMarking = true := by
    rw [show m.heap.phase = .termination from hfits]
    rfl
  have hsome := hm.isSome_collector (Or.inl (by rw [hy]; exact Stage.noConfusion))
  have hreach : (m.apply (.finishMarking roots)).heap.arena.Reachable _ x := hx
  obtain ⟨k, hk⟩ := Arena.exists_object hreach.isAllocated
  have hcol := Reachable.marked hm.sound hsome (ht hmark) hx hk
  rcases hafter.stays_reached (hm.apply hy) hbegin hk hcol with ⟨hd, hobj, -⟩ | hparks
  · exact Or.inl ⟨k, hd, hk, hobj⟩
  · exact Or.inr hparks

/-- A cycle is begun with two objects, and the first one is read by the marker. Then the address of
the second one is stored in it. -/
def storedLate : List Move :=
  [.attachCollector, .carveRun 1 .scan, .carveRun 1 .noScan, .begin,
    .shadeRoots [Arena.blockBase 0], .markStep 1, .write (Arena.blockBase 0) 7 (Arena.blockBase 1),
    .terminate]

/-- The rest of the cycle, with an allocation while the blocks are swept. -/
def sweptApart : List Move :=
  [.resurrect, .enterSweep, .zeroSlots, .startSweep, .sweepStep 1, .carveRun 1 .scan,
    .sweepStep 2, .finish, .closeCycle]

theorem reachable_survives_stored_late :
    (∃ k hd,
        ((start (.empty fourBlocks)).run
          (storedLate ++ [.finishMarking [Arena.blockBase 0]])).heap.arena.Object
            (Arena.blockBase 1) k ∧
        ((start (.empty fourBlocks)).run
          (storedLate ++ .finishMarking [Arena.blockBase 0] :: sweptApart)).heap.arena.Object
            (Arena.blockBase 1) { k with header := hd }) ∨
      ((start (.empty fourBlocks)).run
        (storedLate ++ [.finishMarking [Arena.blockBase 0]])).ParksIn sweptApart
          (Arena.blockBase 1) := by
  refine reachable_survives create_fourBlocks (by decide +kernel) (by decide) ?_
  refine .word (.root (x := Arena.blockBase 0) (by decide +kernel) (Or.inl (by decide))) ?_
    (by decide +kernel)
  refine ⟨(((start (.empty fourBlocks)).run
    (storedLate ++ [.finishMarking [Arena.blockBase 0]])).heap.arena.cell?
      (Arena.blockBase 0)).get (by decide +kernel), ⟨?_, ?_⟩, ?_, 7, ?_, ?_⟩
  · exact (Option.some_get _).symm
  all_goals decide +kernel

end Machine

end EagerHeap
