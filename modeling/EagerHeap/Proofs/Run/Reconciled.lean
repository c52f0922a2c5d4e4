import EagerHeap.Proofs.Run.Undisturbed
/-!
# The fate of tracked allocations

Every allocation in a scope comes to exactly one end, which its worker counts: the scope had no slot
left, a sweep began before it was recorded, the collector came upon it, or it was freed with its
scope. An allocation that no counter shows is in a slot of a scope that has not ended or was given
up, or eager free declined it when its scope was drained. The latter does not happen to scopes that
are left alone.

Main result: `tracked_allocations_reconciled`.
-/

namespace EagerHeap

namespace Machine

variable {P : Machine → Move → Prop} {m : Machine} {a : Docket} {ys : List Move} {D N : Nat → Nat}
  {k : Nat} {memory : Nat} {c : Config} {h : Heap}

open Heap

/-- The account of every live worker is balanced. -/
theorem Reconciled.balance
    {w : Worker}
    (hm : m.Reconciled a D N)
    (hw : w ∈ m.heap.workers) :
    w.tally.get .trackedAllocations =
      w.tally.get .trackedFrees + w.tally.get .trackedSkipped + w.tally.get .trackOverflow +
        m.heap.slotsUsed w.id + D w.id + a.owed.count w.id := by
  have howed := hm.outstanding (w.id, w.tally.outstanding) (List.mem_map_of_mem hw)
  dsimp only [Tally.outstanding] at howed
  omega

/-- Draining a scope empties all slots of its registry the first time, and later on it does nothing.
-/
theorem Reconciled.drain
    (hm : m.Reconciled a D N)
    (hu : m.Repeats (.drainScope k) ∨ m.Upholds a (.drainScope k)) :
    (m.Drains k (.drainScope k) →
        ∃ s, m.heap.Open k s ∧ ∀ i, (m.apply (.drainScope k)).heap.addrAt s.registry i = 0) ∧
      (¬ m.Drains k (.drainScope k) → m.heap.drainScope k = (0, m.heap)) := by
  rcases hu with hr | hu
  · exact ⟨fun hdrains => absurd hdrains ((hr.nothing hm.roomy).2 k),
      fun _ => hr.drainScope_eq hm.roomy⟩
  · obtain ⟨s, hs⟩ := hu.1
    have howned := hm.scopes.owned k s hs
    refine ⟨fun _ => ⟨s, hs, fun i => ?_⟩, fun hnot => absurd ⟨rfl, s, hs.1, howned⟩ hnot⟩
    have hd : m.heap.Drained k s (m.apply (.drainScope k)).heap := drained_drainScope hs howned
    rcases Nat.lt_or_ge i s.used with hi | hi
    · exact hd.empty i hi
    · rw [hd.slots s.registry i (Or.inr hi)]
      exact hm.scopes.unused k s hs i hi

/-- Every tracked allocation is accounted for once. After any run, with cycles in between and with
scopes that end in whatever way, a live worker has counted as many tracked allocations as tracked
frees, skipped objects and overflows together with the slots that its open and leaked scopes use, the
objects whose frees were declined when its scopes were drained, and the allocations that are yet to
be recorded.

A scope has been drained once if it has ended, unless it was leaked, and never before. After it was
drained all slots of its registry are zero, and draining it again does nothing.

If eager free is on for all sizes of small cells, sweeps take place in their phase, and tracked
objects are left to their scopes and to the collector, then no free is declined when scopes are
drained, and draining a scope frees as many objects as the scope has recorded, less those whose slots
the collector has zeroed. -/
theorem tracked_allocations_reconciled
    (hc : Heap.create memory c = .ok h)
    (hl : Legal P (start h) ys)
    (hu : (start h).Upheld ys) :
    (∀ w ∈ ((start h).run ys).heap.workers,
        w.tally.get .trackedAllocations =
          w.tally.get .trackedFrees + w.tally.get .trackedSkipped + w.tally.get .trackOverflow +
            ((start h).run ys).heap.slotsUsed w.id + ((start h).declinedIn w.id ys).length +
              (notes Docket.after (start h) {} ys).owed.count w.id) ∧
      (∀ (k : Nat) (s : Scope), ((start h).run ys).heap.scopes[k]? = some s →
        (start h).drainsIn k ys = if s.status = .closed then 1 else 0) ∧
      (∀ before k after, ys = before ++ .drainScope k :: after →
        let m := (start h).run before
        (m.Drains k (.drainScope k) →
            ∃ s, m.heap.Open k s ∧ ∀ i, (m.apply (.drainScope k)).heap.addrAt s.registry i = 0) ∧
          (¬ m.Drains k (.drainScope k) → m.heap.drainScope k = (0, m.heap))) ∧
      (c.FreesSmall → Legal SweepsInPhase (start h) ys → (start h).Reserved ys →
        (∀ id, (start h).declinedIn id ys = []) ∧
          ∀ before k after s, ys = before ++ .drainScope k :: after →
            ((start h).run before).heap.Open k s →
              (((start h).run before).heap.drainScope k).1 + (start h).zeroedIn k before =
                s.used) := by
  have hstart := reconciled_start hc
  have hm := hstart.run hl hu
  refine ⟨fun w hw => ?_, fun k s hs => ?_, ?_, fun hfrees hsweeps hreserved => ?_⟩
  · have hbalance := hm.balance hw
    rwa [Nat.zero_add] at hbalance
  · have hdrained := hm.drained k
    rw [Nat.zero_add, post?_eq_some_iff.2 ⟨s, hs, rfl⟩] at hdrained
    simpa [Scope.post] using hdrained
  · rintro before k after rfl
    obtain ⟨hubefore, hudrain, -⟩ := along_append.1 hu
    exact (hstart.run (legal_append.1 hl).1 hubefore).drain hudrain
  · have hundisturbed := undisturbed_start hc
    obtain ⟨-, hempty⟩ := create_eq_ok hc
    have hconfig : (start h).heap.config.FreesSmall := by
      rw [hempty]
      exact hfrees
    refine ⟨hundisturbed.declinedIn_eq_nil hconfig hsweeps hreserved, ?_⟩
    rintro before k after s rfl hs
    have hbefore := (legal_append.1 hsweeps).1
    have hdrain := ((hundisturbed.run hbefore (along_append.1 hreserved).1).drain
      (hbefore.config (proper_start hc) ▸ hconfig) hs).2
    rwa [Nat.zero_add] at hdrain

/-- A scope records an object in a slot that the collector zeroes, fails to record one that a sweep
came upon before, and records a third one. Then an inner scope with one slot records an object, has
no slot for a second one, and is leaked. -/
def trackedFates : List Move :=
  [.addWorker, .attachCollector, .makeRegistry 3, .makeRegistry 1, .enterScope 0 0,
    .carveBlock quarterBlock, .setCursor 0 quarterBlock 0, .claim 0 quarterBlock,
    .count 0 .trackedAllocations 1, .recordTracked 0 (Arena.blockBase 0) 0, .claim 0 quarterBlock,
    .count 0 .trackedAllocations 1, .begin, .shadeRoots [], .terminate, .finishMarking [],
    .resurrect, .enterSweep, .zeroSlots, .startSweep, .sweepStep 1, .finish, .closeCycle,
    .recordTracked 0 (Arena.blockBase 0 + 4096) 0, .setCursor 0 quarterBlock 0,
    .claim 0 quarterBlock, .count 0 .trackedAllocations 1, .recordTracked 0 (Arena.blockBase 0) 4,
    .enterScope 0 1, .claim 0 quarterBlock, .count 0 .trackedAllocations 1,
    .recordTracked 1 (Arena.blockBase 0 + 4096) 4, .claim 0 quarterBlock,
    .count 0 .trackedAllocations 1, .recordTracked 1 (Arena.blockBase 0 + 8192) 4, .leakScope 1]

/-- The outer scope is drained twice, and frees one of its two objects. After that another scope is
drained that tracks an object with a side record. -/
theorem tracked_allocations_reconciled_fates :
    let m := start (.empty fourBlocks)
    let x := Arena.blockBase 0 + 12288
    let drained := trackedFates ++ [.drainScope 0, .drainScope 0]
    let ys := drained ++ [.enterScope 0 0, .claim 0 quarterBlock, .count 0 .trackedAllocations 1,
      .recordTracked 2 x 4, .attach x .cleanup, .drainScope 2]
    ((m.run trackedFates).heap.drainScope 0).1 + m.zeroedIn 0 trackedFates = 2 ∧
      m.zeroedIn 0 trackedFates = 1 ∧ m.drainsIn 0 ys = 1 ∧ m.drainsIn 1 ys = 0 ∧
      m.declinedIn 0 ys = [.sideRecord] ∧
      ∃ w ∈ (m.run ys).heap.workers, w.tally.get .trackedAllocations = 6 ∧
        w.tally.get .trackedFrees + w.tally.get .trackedSkipped + w.tally.get .trackOverflow = 4 := by
  intro m x drained ys
  have hdrained : Legal SweepsInPhase m drained := by
    decide +kernel
  have hlegal : Legal SweepsInPhase m ys := by
    decide +kernel
  have hupheld : m.Upheld drained ∧ m.Upheld ys := by
    decide +kernel
  have hreserved : m.Reserved drained := by
    decide +kernel
  have houter : (m.run trackedFates).heap.scopes[0]? = some ⟨0, 0, 2, .active⟩ := by
    decide +kernel
  have hzeroed : m.zeroedIn 0 trackedFates = 1 := by
    decide +kernel
  have hscopes : (m.run ys).heap.scopes[0]? = some ⟨0, 0, 0, .closed⟩ ∧
      (m.run ys).heap.scopes[1]? = some ⟨0, 1, 1, .leaked⟩ := by
    decide +kernel
  have hdeclined : m.declinedIn 0 ys = [.sideRecord] := by
    decide +kernel
  have hworker : ∃ w, (m.run ys).heap.workers.head? = some w ∧ w.id = 0 ∧
      w.tally.get .trackedAllocations = 6 := by
    decide +kernel
  have hslots : (m.run ys).heap.slotsUsed 0 = 1 ∧
      (notes Docket.after m {} ys).owed = [] := by
    decide +kernel
  obtain ⟨-, -, -, halone⟩ := tracked_allocations_reconciled create_fourBlocks hdrained hupheld.1
  obtain ⟨-, hfreed⟩ := halone ⟨rfl, by decide, rfl⟩ hdrained hreserved
  obtain ⟨hbalance, hdrains, -⟩ := tracked_allocations_reconciled create_fourBlocks hlegal hupheld.2
  obtain ⟨w, hw, hid, hallocations⟩ := hworker
  have hmem := List.mem_of_head? hw
  have hsum := hbalance w hmem
  rw [hid, hslots.1, hslots.2, hdeclined, hallocations] at hsum
  refine ⟨hfreed trackedFates 0 _ _ rfl ⟨houter, rfl⟩, hzeroed, hdrains 0 _ hscopes.1,
    hdrains 1 _ hscopes.2, hdeclined, w, hmem, hallocations, ?_⟩
  simp only [List.length_singleton, List.count_nil] at hsum
  omega

end Machine

end EagerHeap
