import EagerHeap.Proofs.Run.Batches
/-!
# The object of a finalizer

Until a finalizer was queued, the flag of its object keeps the object from being freed. The flag is
taken away when the finalizer is queued, and then only marks keep the object: a cycle that would free
it marks it as a root, and the cycle that queued the finalizer has marked it or has swept past it.
Nothing keeps it from an eager free.

Main results: `Proper.guards`, `finalizer_object` and `fires_on_freed_object`.
-/

namespace EagerHeap

namespace Heap

variable {h : Heap}

/-- Marking does not sweep. -/
theorem sweepNext_marking (h : Heap) (f : Marker → Marker) :
    (h.marking f).collector.map Collector.sweepNext = h.collector.map Collector.sweepNext := by
  unfold marking
  split
  · rfl
  · next k hk =>
      rw [hk]
      rfl

theorem sweepNext_markStep (h : Heap) (n : Nat) :
    (h.markStep n).collector.map Collector.sweepNext = h.collector.map Collector.sweepNext :=
  (sweepNext_marking _ _).trans (sweepNext_marking _ _)

end Heap

namespace Machine

variable {P : Machine → Move → Prop} {m : Machine} {y : Move} {ys : List Move} {x : Nat} {c : Cell}
  {r : SideRecord}

open Heap

/-- Blocks are swept in the sweeping phase only, as the course of a cycle has it. -/
def SweepsInPhase (m : Machine) : Move → Prop
  | .sweepStep _ => m.heap.phase = .sweep
  | _ => True

instance decidableSweepsInPhase (m : Machine) : (y : Move) → Decidable (m.SweepsInPhase y)
  | .sweepStep _ => inferInstanceAs (Decidable (m.heap.phase = .sweep))
  | .addWorker | .flushWorker _ | .retireWorker _ | .count .. | .reuse .. | .claim .. | .takePartial _
  | .carveBlock _ | .setCursor .. | .carveRun .. | .free .. | .write .. | .copy .. | .attach ..
  | .startBatch | .fire | .endBatch | .breakBatch | .makeRegistry _ | .dropRegistry _
  | .enterScope .. | .recordTracked .. | .drainScope _ | .leakScope _ | .observe
  | .attachCollector | .detachCollector | .begin | .shadeRoots _ | .markStep _ | .terminate
  | .finishMarking _ | .resurrect | .enterSweep | .zeroSlots | .startSweep | .finish
  | .closeCycle => .isTrue trivial

/-- The cycle that is going on will not free the object at an address: the object is marked once
marking was finished, or its block was swept. -/
structure Spares (m : Machine) (x : Nat) : Prop where
  marked : m.heap.phase = .termination → m.stage ≠ .finishing → m.heap.arena.isReached x = true
  swept : m.heap.phase = .sweep → m.heap.arena.isReached x = true ∨
    m.stage ≠ .entering ∧ ∃ k, m.heap.collector = some k ∧
      (x - Arena.start) / blockSize < k.sweepNext

/-- A record is attached to the object at an address, or waits while the collector spares the
object. -/
def Guards (m : Machine) (x : Nat) (r : SideRecord) : Prop :=
  m.heap.records.Attached x r ∨ m.Waits x r ∧ m.Spares x

/-! ### Records -/

theorem not_does_finalize
    (hresurrect : y ≠ .resurrect)
    (hsweep : ∀ n, y ≠ .sweepStep n)
    (x : Nat) :
    ¬ y.Does (.finalize x) := by
  cases y <;> simp [Move.Does] at hresurrect hsweep ⊢

/-- A record that waits goes on to wait until it runs. -/
theorem Proper.waits
    (hm : m.Proper)
    (hy : m.Allows y)
    (hfire : y = .fire → m.firing ≠ some ⟨x, r⟩)
    (hw : m.Waits x r) :
    (m.apply y).Waits x r := by
  have hkeep : ¬ y.Does .batch → m.batchesAfter y = m.batches → m.brokenAfter y = m.broken →
      (m.apply y).Waits x r := by
    intro hdoes hbatches hbroken
    rcases hw with hp | ⟨b, hb, hl⟩
    · exact Or.inl ((hm.steps hy).pending hdoes hp)
    · refine Or.inr ⟨b, ?_, hl⟩
      change b ∈ m.batchesAfter y ++ m.brokenAfter y
      rwa [hbatches, hbroken]
  cases y with
  | startBatch =>
      rcases hw with hp | ⟨b, hb, hl⟩
      · exact Or.inr ⟨_, List.mem_cons_self .., hp⟩
      · exact Or.inr ⟨b, List.mem_cons_of_mem _ hb, hl⟩
  | fire =>
      obtain ⟨b, rest, hbs, -⟩ := hy
      rcases hw with hp | ⟨d, hd, hl⟩
      · exact Or.inl hp
      right
      rw [hbs] at hd
      rw [apply_fire hbs]
      rcases List.mem_cons.1 hd with rfl | hd
      · refine ⟨_, List.mem_cons_self .., ?_⟩
        -- The record that runs is another one.
        have hnext := hfire rfl
        unfold firing at hnext
        rw [hbs] at hnext
        cases hleft : d.left with
        | nil =>
            rw [hleft] at hl
            cases hl
        | cons p left =>
            rw [hleft] at hl
            rcases List.mem_cons.1 hl with rfl | hl
            · exact absurd (by simp [hleft]) hnext
            · exact hl
      · exact ⟨d, List.mem_cons_of_mem _ hd, hl⟩
  | endBatch =>
      obtain ⟨b, rest, hbs, hnil⟩ := hy
      rw [apply_endBatch hbs]
      rcases hw with hp | ⟨d, hd, hl⟩
      · exact Or.inl hp
      · refine Or.inr ⟨d, ?_, hl⟩
        rw [hbs] at hd
        rcases List.mem_cons.1 hd with rfl | hd
        · rw [hnil] at hl
          cases hl
        · exact hd
  | breakBatch =>
      obtain ⟨b, rest, hbs⟩ := List.exists_cons_of_ne_nil hy
      rcases hw with hp | ⟨d, hd, hl⟩
      · exact Or.inl hp
      · refine Or.inr ⟨d, ?_, hl⟩
        change d ∈ m.batchesAfter .breakBatch ++ m.brokenAfter .breakBatch
        unfold batchesAfter brokenAfter
        rw [hbs] at hd ⊢
        exact List.perm_middle.mem_iff.2 hd
  | _ => exact hkeep (not_does_batch (by simp) (by simp)) rfl rfl

/-- A finalizer that is attached or waits is attached or waits until it runs. -/
theorem Proper.attached_or_waits
    (hm : m.Proper)
    (hy : m.Allows y)
    (hr : r.isFinalizer = true)
    (ha : m.heap.records.Attached x r) :
    (m.apply y).heap.records.Attached x r ∨ (m.apply y).Waits x r := by
  by_cases hbatch : y.Does .batch
  · refine Or.inl ((hm.steps hy).attached ?_ hr ha)
    refine not_does_finalize ?_ (fun n => ?_) x <;>
      · rintro rfl
        simp [Move.Does] at hbatch
  · exact ((hm.steps hy).finalizer hbatch hr (Or.inl ha)).imp_right Or.inl

/-! ### The collector -/

theorem Spares.of_phase
    (hphase : m.heap.phase = .idle ∨ m.heap.phase = .mark) :
    m.Spares x := by
  constructor <;>
    · intro h
      rcases hphase with e | e <;>
        · rw [e] at h
          cases h

/-- A reached object stays reached unless it is freed eagerly. -/
theorem Proper.reached
    (hm : m.Proper)
    (hy : m.Allows y)
    (hbegin : y ≠ .begin)
    (hpark : ¬ m.Parks y x)
    (hx : m.heap.arena.isReached x = true) :
    (m.apply y).heap.arena.isReached x = true := by
  obtain ⟨c, hcell, hst, hcol⟩ := Arena.isReached_iff.1 hx
  rcases hm.stays_reached hy hbegin ⟨hcell, hst⟩ hcol with ⟨hd, hobj, hne⟩ | hparks
  · exact Arena.isReached_iff.2 ⟨_, hobj.1, hobj.2, hne⟩
  · exact absurd hparks hpark

/-- A root is marked once marking was finished. -/
theorem Proper.reached_finishMarking
    {roots : List Nat}
    (hm : m.Proper)
    (hy : m.Allows (.finishMarking roots))
    (hx : m.heap.arena.Object x c)
    (hroot : x ∈ m.heap.records.roots) :
    (m.apply (.finishMarking roots)).heap.arena.isReached x = true := by
  have hc := hm.isSome_collector (Or.inl (by rw [hy]; exact Stage.noConfusion))
  have hsteps := shadeRoots_steps m.heap roots
  obtain ⟨hd, hcell, hst⟩ := hsteps.stays hm.sound hx.1 hx.2 (by simp) (by simp)
  have hcol := shadeRoots_marks hc (List.mem_append_right roots hroot) ⟨hcell, hst⟩
  obtain ⟨d, hd, hne⟩ := (markAll_steps _).painted (hsteps.sound hm.sound) ⟨hcell, hst⟩ hcol
  exact Arena.isReached_iff.2 ⟨d, hd.1, hd.2, hne⟩

/-- The collector goes on to spare an object one finalizer of which waits. -/
theorem Proper.spares
    (hm : m.Proper)
    (hb : m.Batched)
    (hy : m.Allows y)
    (hp : m.SweepsInPhase y)
    (hpark : ¬ m.Parks y x)
    (hx : m.heap.arena.Object x c)
    (hw : m.Waits x r)
    (hspares : m.Spares x) :
    (m.apply y).Spares x := by
  have hreached : y ≠ .begin → m.heap.arena.isReached x = true →
      (m.apply y).heap.arena.isReached x = true :=
    fun hbegin => hm.reached hy hbegin hpark
  have hphase : (¬ y.Does .begin) → (¬ y.Does .turn) →
      (m.apply y).heap.phase = m.heap.phase := (hm.steps hy).phase
  have hfits := hm.stage
  cases y with
  | attachCollector => exact .of_phase (Or.inl (hm.attached hy).2)
  | detachCollector => exact .of_phase (Or.inl hy.2)
  | begin => exact .of_phase (Or.inr (congrArg Phase.next hy.2.1))
  | shadeRoots roots =>
      refine .of_phase (Or.inr ?_)
      rw [hphase (by simp [Move.Does]) (by simp [Move.Does])]
      rwa [show m.stage = .beginning from hy] at hfits
  | markStep n =>
      have hsame := hphase (by simp [Move.Does]) (by simp [Move.Does])
      refine ⟨fun ht hne => ?_, fun hsw => ?_⟩
      · exact hreached (by simp) (hspares.marked (hsame ▸ ht) hne)
      · rcases hspares.swept (hsame ▸ hsw) with hreach | ⟨hne, k, hk, hlt⟩
        · exact Or.inl (hreached (by simp) hreach)
        · have hnext := sweepNext_markStep m.heap n
          rw [hk] at hnext
          obtain ⟨k', hk', heq⟩ := Option.map_eq_some_iff.1 hnext
          exact Or.inr ⟨hne, k', hk', heq ▸ hlt⟩
  | terminate =>
      refine ⟨fun _ hne => absurd rfl hne, fun hsw => ?_⟩
      rw [show (m.apply .terminate).heap.phase = .termination from congrArg Phase.next hy.2] at hsw
      cases hsw
  | finishMarking roots =>
      refine ⟨fun _ _ => ?_, fun hsw => ?_⟩
      · have hne := Arena.ne_zero_of_contains (Arena.contains_of_cell? hx.1)
        exact hm.reached_finishMarking hy hx (hb.mem_roots hne hw)
      · rw [hphase (by simp [Move.Does]) (by simp [Move.Does])] at hsw
        rw [show m.stage = .finishing from hy, hsw] at hfits
        cases hfits
  | resurrect =>
      have hsame := hphase (by simp [Move.Does]) (by simp [Move.Does])
      refine ⟨fun _ _ => hreached (by simp) (hspares.marked hy.2 ?_), fun hsw => ?_⟩
      · rw [hy.1]
        exact Stage.noConfusion
      · rw [hsame, hy.2] at hsw
        cases hsw
  | enterSweep =>
      have hst : m.stage = .resurrected := hy
      rw [hst] at hfits
      refine ⟨fun ht => ?_, fun _ => Or.inl (hreached (by simp) (hspares.marked hfits ?_))⟩
      · rw [show (m.apply .enterSweep).heap.phase = .sweep from congrArg Phase.next hfits] at ht
        cases ht
      · rw [hst]
        exact Stage.noConfusion
  | startSweep =>
      have hst : m.stage = .entering := hy
      rw [hst] at hfits
      have hsame := hphase (by simp [Move.Does]) (by simp [Move.Does])
      refine ⟨fun ht => ?_, fun _ => ?_⟩
      · rw [hsame, show m.heap.phase = .sweep from hfits] at ht
        cases ht
      · rcases hspares.swept hfits with hreach | ⟨hne, -⟩
        · exact Or.inl (hreached (by simp) hreach)
        · exact absurd hst hne
  | sweepStep n =>
      have hsame := hphase (by simp [Move.Does]) (by simp [Move.Does])
      refine ⟨fun ht => ?_, fun _ => ?_⟩
      · rw [hsame, show m.heap.phase = .sweep from hp] at ht
        cases ht
      · rcases hspares.swept hp with hreach | ⟨hne, k, hk, hlt⟩
        · exact Or.inl (hreached (by simp) hreach)
        · rcases sweepStep_cases hm.sound n with ⟨hnone, -⟩ | ⟨k', cs, g, hk', -, heq⟩
          · rw [hk] at hnone
            cases hnone
          · obtain rfl := Option.some.inj (hk.symm.trans hk')
            refine Or.inr ⟨hne, _, congrArg Heap.collector heq, ?_⟩
            exact Nat.lt_of_lt_of_le hlt (Nat.le_add_right ..)
  | finish => exact .of_phase (Or.inl (congrArg Phase.next hy.2))
  | closeCycle =>
      refine .of_phase (Or.inl ?_)
      rw [hphase (by simp [Move.Does]) (by simp [Move.Does])]
      rwa [show m.stage = .closing from hy] at hfits
  | _ =>
      have hcycle := (hm.steps hy).sameCycle (fun l hl => by
        simp only [Move.Does] at hl
        rcases hl with rfl | ⟨x, rfl⟩ <;> exact id)
      refine ⟨fun ht hne => ?_, fun hsw => ?_⟩
      · exact hreached (by simp) (hspares.marked (hcycle.phase ▸ ht) hne)
      · refine (hspares.swept (hcycle.phase ▸ hsw)).imp (hreached (by simp)) ?_
        rintro ⟨hne, k, hk, hlt⟩
        exact ⟨hne, k, hcycle.collector.trans hk, hlt⟩

/-- A finalizer that resurrection queues is guarded by the mark of its object. -/
theorem Proper.guards_resurrect
    (hm : m.Proper)
    (hy : m.Allows .resurrect)
    (hr : r.isFinalizer = true)
    (hx : m.heap.arena.Object x c)
    (ha : m.heap.records.Attached x r) :
    (m.apply .resurrect).Guards x r := by
  have hc := hm.isSome_collector (Or.inr (by rw [hy.2]; exact Phase.noConfusion))
  have hmarked := markAll_steps m.heap
  obtain ⟨hd, hobj⟩ := hmarked.stays hm.sound hx.1 hx.2 (by simp) (by simp)
  have hreach : (m.apply .resurrect).heap.arena.isReached x = true := by
    refine reached_resurrectAll (hmarked.sound hm.sound) ((isSome_collector_markAll _).trans hc) hr
      (Arena.isAllocated_iff.2 ⟨_, hobj⟩) ?_
    rwa [records_markAll]
  have hphase := (hm.steps hy).phase (by simp [Move.Does]) (by simp [Move.Does])
  refine (hm.attached_or_waits hy hr ha).imp_right fun hw => ⟨hw, fun _ _ => hreach, fun hsw => ?_⟩
  rw [hphase, hy.2] at hsw
  cases hsw

/-- The sweeper keeps an object one finalizer of which is attached or waits. -/
theorem Proper.guards_sweepStep
    {n : Nat}
    (hm : m.Proper)
    (hb : m.Batched)
    (hy : m.Allows (.sweepStep n))
    (hp : m.SweepsInPhase (.sweepStep n))
    (hr : r.isFinalizer = true)
    (hx : m.heap.arena.Object x c)
    (hg : m.Guards x r) :
    (∃ hd, (m.apply (.sweepStep n)).heap.arena.Object x { c with header := hd }) ∧
      (m.apply (.sweepStep n)).Guards x r := by
  have hphase := (hm.steps hy).phase (by simp [Move.Does]) (by simp [Move.Does])
  have hpark : ¬ m.Parks (.sweepStep n) x := fun h => h.1
  rcases sweepStep_cases hm.sound n with ⟨hnone, -⟩ | ⟨k, cs, g, hk, hv, heq⟩
  · have hphase := (hm.attached hnone).2
    rw [show m.heap.phase = .sweep from hp] at hphase
    cases hphase
  have hheap : (m.apply (.sweepStep n)).heap = _ := heq
  rcases hg with ha | ⟨hw, hspares⟩
  · obtain ⟨hlive, hway⟩ :=
      hv.finalizer hm.sound (Arena.nodup_cellsOf_range hm.sound.layout _ _) hr hx ha
    refine ⟨hheap ▸ hlive, ?_⟩
    rcases hway with ha | ⟨hq, hmem⟩
    · exact Or.inl (hheap ▸ ha)
    · refine Or.inr ⟨Or.inl (hheap ▸ hq), fun ht => ?_, fun _ => Or.inr ⟨?_, ?_⟩⟩
      · rw [hphase, show m.heap.phase = .sweep from hp] at ht
        cases ht
      · rw [show (m.apply (.sweepStep n)).stage = .resting from hy]
        exact Stage.noConfusion
      · obtain ⟨i, hi, hxi⟩ := List.mem_flatMap.1 hmem
        refine ⟨_, congrArg Heap.collector hheap, ?_⟩
        rw [Arena.block_of_mem_cellsOf hm.sound.layout hxi]
        exact (List.mem_range'_1.1 hi).2
  · have hleft := hm.spares hb hy hp hpark hx hw hspares
    refine ⟨?_, Or.inr ⟨hm.waits hy Move.noConfusion hw, hleft⟩⟩
    rcases hspares.swept hp with hreach | ⟨-, k', hk', hlt⟩
    · obtain ⟨d, hd, hst, hcol⟩ := Arena.isReached_iff.1 hreach
      obtain rfl := hx.unique ⟨hd, hst⟩
      rcases hm.stays_reached hy (by simp) hx hcol with ⟨hd, hobj, -⟩ | hparks
      · exact ⟨hd, hobj⟩
      · exact absurd hparks hpark
    · obtain rfl := Option.some.inj (hk.symm.trans hk')
      rw [hheap]
      refine hv.steps.passes hm.sound hx fun hmem => ?_
      obtain ⟨i, hi, hxi⟩ := List.mem_flatMap.1 hmem
      rw [Arena.block_of_mem_cellsOf hm.sound.layout hxi] at hlt
      have := (List.mem_range'_1.1 hi).1
      omega

/-- Until a finalizer runs its object stays and is guarded, unless the object is freed eagerly. -/
theorem Proper.guards
    (hm : m.Proper)
    (hb : m.Batched)
    (hy : m.Allows y)
    (hp : m.SweepsInPhase y)
    (hr : r.isFinalizer = true)
    (hfire : y = .fire → m.firing ≠ some ⟨x, r⟩)
    (hpark : ¬ m.Parks y x)
    (hx : m.heap.arena.Object x c)
    (hg : m.Guards x r) :
    (∃ hd, (m.apply y).heap.arena.Object x { c with header := hd }) ∧ (m.apply y).Guards x r := by
  by_cases hsweep : ∃ n, y = .sweepStep n
  · obtain ⟨n, rfl⟩ := hsweep
    exact hm.guards_sweepStep hb hy hp hr hx hg
  have hsweep : ∀ n, y ≠ .sweepStep n := fun n e => hsweep ⟨n, e⟩
  refine ⟨?_, ?_⟩
  · have hreclaim : ¬ y.Does (.reclaim x) := by
      cases y <;> simp [Move.Does] at hsweep ⊢
    exact (hm.stays hy hx hreclaim).resolve_right hpark
  · rcases hg with ha | ⟨hw, hspares⟩
    · by_cases hresurrect : y = .resurrect
      · subst hresurrect
        exact hm.guards_resurrect hy hr hx ha
      · exact Or.inl ((hm.steps hy).attached (not_does_finalize hresurrect hsweep x) hr ha)
    · exact Or.inr ⟨hm.waits hy hfire hw, hm.spares hb hy hp hpark hx hw hspares⟩

/-! ### Runs -/

/-- The record runs in the run. -/
def RunsIn (m : Machine) (ys : List Move) (p : PendingRecord) : Prop :=
  ∃ before after, ys = before ++ .fire :: after ∧ (m.run before).firing = some p

theorem RunsIn.cons
    {p : PendingRecord}
    (h : (m.apply y).RunsIn ys p) :
    m.RunsIn (y :: ys) p := by
  obtain ⟨before, after, rfl, hp⟩ := h
  exact ⟨y :: before, after, rfl, hp⟩

theorem RunsIn.of_prefix
    {p : PendingRecord} {zs : List Move}
    (h : m.RunsIn zs p)
    (hzs : zs <+: ys) :
    m.RunsIn ys p := by
  obtain ⟨before, after, rfl, hp⟩ := h
  obtain ⟨rest, rfl⟩ := hzs
  exact ⟨before, after ++ rest, by simp, hp⟩

/-- The object of a finalizer that does not run in a run stays, unless it is freed eagerly. -/
theorem Legal.finalizer
    (hl : Legal SweepsInPhase m ys)
    (hm : m.Proper)
    (hb : m.Batched)
    (hr : r.isFinalizer = true)
    (hrun : ¬ m.RunsIn ys ⟨x, r⟩)
    (hpark : ¬ m.ParksIn ys x)
    (hx : m.heap.arena.Object x c)
    (hg : m.Guards x r) :
    ∃ hd, (m.run ys).heap.arena.Object x { c with header := hd } := by
  induction ys generalizing m c with
  | nil => exact ⟨c.header, hx⟩
  | cons y ys ih =>
      have hfire : y = .fire → m.firing ≠ some ⟨x, r⟩ := by
        rintro rfl hfiring
        exact hrun ⟨[], ys, rfl, hfiring⟩
      have hparks : ¬ m.Parks y x := fun h => hpark ⟨[], y, ys, rfl, h⟩
      obtain ⟨⟨hd, hobj⟩, hguards⟩ := hm.guards hb hl.1 hl.2.1 hr hfire hparks hx hg
      exact ih (c := { c with header := hd }) hl.2.2 (hm.apply hl.1) (hm.batched hl.1 hb)
        (fun h => hrun h.cons) (fun h => hpark h.cons) hobj hguards

/-- A finalizer that does not run in a run is attached or waits at its end. -/
theorem Legal.attached_or_waits
    (hl : Legal P m ys)
    (hm : m.Proper)
    (hr : r.isFinalizer = true)
    (hrun : ¬ m.RunsIn ys ⟨x, r⟩)
    (hw : m.heap.records.Attached x r ∨ m.Waits x r) :
    (m.run ys).heap.records.Attached x r ∨ (m.run ys).Waits x r := by
  induction ys generalizing m with
  | nil => exact hw
  | cons y ys ih =>
      refine ih hl.2.2 (hm.apply hl.1) (fun h => hrun h.cons) ?_
      rcases hw with ha | hw
      · exact hm.attached_or_waits hl.1 hr ha
      · refine Or.inr (hm.waits hl.1 ?_ hw)
        rintro rfl hfiring
        exact hrun ⟨[], ys, rfl, hfiring⟩

/-- An object with an attached record is not freed eagerly. -/
theorem Proper.not_parks
    (hm : m.Proper)
    (ha : m.heap.records.Attached x r) :
    ¬ m.Parks y x := by
  rintro ⟨hfree, hal, c, hc, hst⟩
  obtain ⟨d, hd⟩ := Arena.exists_object hal
  have hcell := (hm.freesEagerly_steps hfree).flagged hm.sound hd.1 (hm.sound.flagged hd ha)
  obtain rfl := Option.some.inj (hcell.symm.trans hc)
  rw [hd.2] at hst
  cases hst

/-- What a new finalizer is from the moment that it is attached. -/
theorem Proper.attached_attach
    (hm : m.Proper)
    (hx : m.heap.arena.Object x c) :
    (∃ hd, (m.apply (.attach x .finalizer)).heap.arena.Object x { c with header := hd }) ∧
      (m.apply (.attach x .finalizer)).heap.records.Attached x
        ⟨m.heap.records.next, .finalizer⟩ := by
  have hal := hx.isAllocated
  refine ⟨?_, ?_⟩
  · have hstays := hm.stays (y := .attach x .finalizer) trivial hx (by simp [Move.Does])
    exact hstays.resolve_right fun h => h.1
  · unfold SideRecords.Attached
    change _ ∈ ((m.heap.attachRecord x .finalizer).2.records.attached.find? x).getD []
    rw [(attachRecord_eq .finalizer hal).2, SideRecords.attached_attach_self]
    exact List.mem_append_right _ (List.mem_singleton_self _)

/-- The object of a finalizer stays the same object until the finalizer runs exactly if it is not
freed eagerly, and that can happen only while the finalizer waits in the queue or in a batch. -/
theorem finalizer_object
    {before after : List Move} {memory : Nat} {cfg : Config} {h : Heap}
    (hc : Heap.create memory cfg = .ok h)
    (hl : Legal SweepsInPhase (start h) (before ++ .attach x .finalizer :: after))
    (hx : ((start h).run before).heap.arena.Object x c)
    (hrun : ¬ ((start h).run (before ++ [.attach x .finalizer])).RunsIn after
      ⟨x, ⟨((start h).run before).heap.records.next, .finalizer⟩⟩) :
    ((∀ zs, zs <+: after →
        ∃ hd, ((start h).run (before ++ .attach x .finalizer :: zs)).heap.arena.Object x
          { c with header := hd }) ↔
      ¬ ((start h).run (before ++ [.attach x .finalizer])).ParksIn after x) ∧
    ∀ zs y, zs ++ [y] <+: after →
      ((start h).run (before ++ .attach x .finalizer :: zs)).Parks y x →
      ((start h).run (before ++ .attach x .finalizer :: zs)).Waits x
        ⟨((start h).run before).heap.records.next, .finalizer⟩ := by
  obtain ⟨hbefore, -, -, hafter⟩ := legal_append.1 hl
  have hinv : ((start h).run before).Proper ∧ ((start h).run before).Batched := by
    refine hbefore.preserves (R := fun m => m.Proper ∧ m.Batched)
      ⟨proper_start hc, batched_start hc⟩ ?_
    rintro m y ⟨hm, hb⟩ hy -
    exact ⟨hm.apply hy, hm.batched hy hb⟩
  simp only [run_append, run_cons, run_nil] at hrun ⊢
  generalize (start h).run before = m at hinv hafter hx hrun
  obtain ⟨hm, hb⟩ := hinv
  obtain ⟨⟨hd, hobj⟩, ha⟩ := hm.attached_attach hx
  have hm' := hm.apply (y := .attach x .finalizer) trivial
  have hb' := hm.batched (y := .attach x .finalizer) trivial hb
  have hlegal : ∀ zs, zs <+: after → Legal SweepsInPhase (m.apply (.attach x .finalizer)) zs := by
    rintro zs ⟨rest, rfl⟩
    exact (legal_append.1 hafter).1
  refine ⟨⟨?_, ?_⟩, ?_⟩
  · rintro hstays ⟨zs, y, rest, rfl, -, -, d, hd, hcached⟩
    obtain ⟨hd', hobj'⟩ := hstays (zs ++ [y]) ⟨rest, by simp⟩
    rw [run_append, run_cons, run_nil] at hobj'
    obtain rfl := Option.some.inj (hd.symm.trans hobj'.1)
    rw [hobj'.2] at hcached
    cases hcached
  · intro hpark zs hzs
    refine (hlegal zs hzs).finalizer (c := { c with header := hd }) hm' hb' rfl
      (fun h => hrun (h.of_prefix hzs)) (fun h => hpark (h.of_prefix hzs)) hobj (Or.inl ha)
  · intro zs y hzs hparks
    have hpre : zs <+: after := (List.prefix_append zs [y]).trans hzs
    have hway := (hlegal zs hpre).attached_or_waits hm' rfl (fun h => hrun (h.of_prefix hpre))
      (Or.inl ha)
    exact hway.resolve_left fun ha => ((hlegal zs hpre).proper hm').not_parks ha hparks

/-- A worker allocates one object in a scope. -/
def trackedObject : List Move :=
  [.addWorker, .attachCollector, .makeRegistry 1, .enterScope 0 0, .carveBlock quarterBlock,
    .setCursor 0 quarterBlock 0, .claim 0 quarterBlock, .recordTracked 0 (Arena.blockBase 0) 0]

/-- A whole cycle without roots. -/
def emptyCycle : List Move :=
  [.begin, .shadeRoots [], .terminate, .finishMarking [], .resurrect, .enterSweep, .zeroSlots,
    .startSweep, .sweepStep 1, .finish, .closeCycle]

theorem finalizer_object_spared :
    ((∀ zs, zs <+: emptyCycle ++ [.startBatch] →
        ∃ hd, ((start (.empty fourBlocks)).run
          (trackedObject ++ .attach (Arena.blockBase 0) .finalizer :: zs)).heap.arena.Object
            (Arena.blockBase 0)
            ⟨0, 0, Arena.blockBase 0, 4096, .scan, false, hd⟩) ↔
      ¬ ((start (.empty fourBlocks)).run
        (trackedObject ++ [.attach (Arena.blockBase 0) .finalizer])).ParksIn
          (emptyCycle ++ [.startBatch]) (Arena.blockBase 0)) ∧
    ∀ zs y, zs ++ [y] <+: emptyCycle ++ [.startBatch] →
      ((start (.empty fourBlocks)).run
        (trackedObject ++ .attach (Arena.blockBase 0) .finalizer :: zs)).Parks y
          (Arena.blockBase 0) →
      ((start (.empty fourBlocks)).run
        (trackedObject ++ .attach (Arena.blockBase 0) .finalizer :: zs)).Waits (Arena.blockBase 0)
          ⟨((start (.empty fourBlocks)).run trackedObject).heap.records.next, .finalizer⟩ := by
  refine finalizer_object
    (c := ⟨0, 0, Arena.blockBase 0, 4096, .scan, false, Header.fresh .white⟩) create_fourBlocks
    (by decide +kernel) ⟨by decide +kernel, rfl⟩ ?_
  rintro ⟨before, after, h, -⟩
  have hmem : Move.fire ∈ emptyCycle ++ [.startBatch] := h ▸ by simp
  exact absurd hmem (by decide)

/-- The object is tracked by a scope, and a cycle queues its finalizer. Then the scope ends, and the
finalizer is about to run with the address of a freed object. -/
theorem fires_on_freed_object :
    Legal SweepsInPhase (start (.empty fourBlocks))
      (trackedObject ++ .attach (Arena.blockBase 0) .finalizer ::
        (emptyCycle ++ [.drainScope 0, .startBatch])) ∧
    ((start (.empty fourBlocks)).run
      (trackedObject ++ .attach (Arena.blockBase 0) .finalizer ::
        (emptyCycle ++ [.drainScope 0, .startBatch]))).firing =
      some ⟨Arena.blockBase 0, ⟨0, .finalizer⟩⟩ ∧
    ((start (.empty fourBlocks)).run
      (trackedObject ++ .attach (Arena.blockBase 0) .finalizer ::
        (emptyCycle ++ [.drainScope 0, .startBatch]))).heap.arena.isAllocated
          (Arena.blockBase 0) = false := by
  decide +kernel

end Machine

end EagerHeap
