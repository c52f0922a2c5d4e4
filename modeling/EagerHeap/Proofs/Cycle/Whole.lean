import EagerHeap.Proofs.Actions
import EagerHeap.Proofs.Cycle.Resurrected
import EagerHeap.Proofs.Cycle.Swept
import EagerHeap.Proofs.Run.Acts
/-!
# The pieces of a whole cycle

A cycle that nothing interrupts takes a heap through marking, resurrection and sweeping. This module
names the heaps in between and says what is known of each of them.

Main results: `gives_collect`, `marked_afterMarking`, `marked_afterResurrection` and
`frees_afterSweep`.
-/

namespace EagerHeap

namespace Heap

variable {h g g' : Heap} {roots : List Nat} {x : Nat} {c : Cell} {k : Collector}

/-- A cycle can begin: the heap is sound, its collector is between two cycles, and nothing was stored
since it last marked. -/
structure Ready (h : Heap) : Prop where
  sound : h.Sound
  idle : h.phase = .idle
  attached : h.collector.isSome = true
  drained : h.barrier = #[]

/-- The heap after marking in steps. -/
def afterMarkLoop (h : Heap) (roots : List Nat) : Heap :=
  let shaded := h.resetCycle.nextPhase.2.shadeRoots roots
  shaded.markLoop shaded.config.markBudget

/-- The heap after marking was finished. -/
def afterMarking (h : Heap) (roots : List Nat) : Heap :=
  ((h.afterMarkLoop roots).nextPhase.2.shadeRoots roots).markAll

/-- The heap after finalizers were queued and their objects marked. -/
def afterResurrection (h : Heap) (roots : List Nat) : Heap :=
  (h.afterMarking roots).markAll.resurrectAll.2

/-- The heap on which the sweeper starts. -/
def beforeSweep (h : Heap) (roots : List Nat) : Heap :=
  (h.afterResurrection roots).nextPhase.2.invalidateSlots.2.startSweep

/-- The heap after the sweep. -/
def afterSweep (h : Heap) (roots : List Nat) : Heap :=
  (h.beforeSweep roots).sweepLoop (h.beforeSweep roots).config.sweepBudget

/-- The heap after the cycle. -/
def afterCycle (h : Heap) (roots : List Nat) : Heap := (h.afterSweep roots).nextPhase.2.closeCycle.2

/-! ### Phases and elementary changes -/

theorem Steps.phase_of_paint (hsteps : Steps (· = .paint) h g) : g.phase = h.phase :=
  hsteps.phase Act.noConfusion Act.noConfusion

theorem phase_markLoop (h : Heap) (budget : Nat) : (h.markLoop budget).phase = h.phase :=
  (markSteps_steps budget _ h).phase_of_paint

theorem phase_shadeRoots (h : Heap) (roots : List Nat) : (h.shadeRoots roots).phase = h.phase :=
  (shadeRoots_steps h roots).phase_of_paint

theorem phase_markAll (h : Heap) : h.markAll.phase = h.phase := (markAll_steps h).phase_of_paint

theorem phase_resurrectAll (h : Heap) : h.resurrectAll.2.phase = h.phase := by
  refine (resurrectAll_steps h).phase ?_ ?_ <;> simp

theorem phase_afterMarkLoop
    (hphase : h.phase = .idle) :
    (h.afterMarkLoop roots).phase = .mark := by
  unfold afterMarkLoop
  simp only
  rw [phase_markLoop, phase_shadeRoots]
  change h.phase.next = _
  rw [hphase]
  rfl

theorem phase_afterMarking
    (hphase : h.phase = .idle) :
    (h.afterMarking roots).phase = .termination := by
  unfold afterMarking
  rw [phase_markAll, phase_shadeRoots]
  change (h.afterMarkLoop roots).phase.next = _
  rw [phase_afterMarkLoop hphase]
  rfl

theorem phase_afterResurrection
    (hphase : h.phase = .idle) :
    (h.afterResurrection roots).phase = .termination := by
  unfold afterResurrection
  rw [phase_resurrectAll, phase_markAll, phase_afterMarking hphase]

theorem Steps.any {P : Act → Prop} (hsteps : Steps P h g) : Steps (fun _ => True) h g :=
  hsteps.mono fun _ _ => trivial

theorem steps_afterMarkLoop (h : Heap) (roots : List Nat) :
    Steps (fun _ => True) h (h.afterMarkLoop roots) :=
  (Steps.single trivial (.begin h)).trans
    ((shadeRoots_steps _ roots).any.trans (markSteps_steps _ _ _).any)

theorem steps_afterMarking
    (hphase : h.phase = .idle) :
    Steps (fun _ => True) h (h.afterMarking roots) := by
  have hturn : Tick (h.afterMarkLoop roots) .turn (h.afterMarkLoop roots).nextPhase.2 := by
    refine .turn ?_
    rw [phase_afterMarkLoop hphase]
    exact Phase.noConfusion
  exact (steps_afterMarkLoop h roots).trans ((Steps.single trivial hturn).trans
    ((shadeRoots_steps _ roots).trans (markAll_steps _)).any)

theorem steps_afterResurrection
    (hphase : h.phase = .idle) :
    Steps (fun _ => True) h (h.afterResurrection roots) :=
  (steps_afterMarking hphase).trans ((markAll_steps _).any.trans (resurrectAll_steps _).any)

/-! ### Marking -/

/-- The objects that a cycle with the given roots keeps: they can be reached from the roots, from
objects whose finalizers are queued or being run, or from objects with finalizers. -/
def Live (h : Heap) (roots : List Nat) : Nat → Prop :=
  h.arena.Reachable fun y =>
    (y ∈ roots ∨ y ∈ h.records.roots) ∨ h.records.hasFinalizer y = true

/-- The objects whose finalizers a cycle with the given roots queues. -/
def finalized (h : Heap) (roots : List Nat) : List Nat :=
  (h.afterMarking roots).markAll.resurrectable

theorem painted_afterMarkLoop (h : Heap) (roots : List Nat) :
    Painted h.resetCycle.nextPhase.2 (h.afterMarkLoop roots) :=
  (painted_shadeRoots _ roots).trans (painted_markSteps _ _ _)

theorem painted_afterMarking (h : Heap) (roots : List Nat) :
    Painted h.resetCycle.nextPhase.2 (h.afterMarking roots).markAll :=
  ((painted_afterMarkLoop h roots).trans (painted_nextPhase _)).trans
    ((painted_shadeRoots _ roots).trans ((painted_markAll _).trans (painted_markAll _)))

theorem alike_of_painted
    (hp : Painted h.resetCycle.nextPhase.2 g) :
    Arena.Alike h.arena g.arena :=
  (Arena.alike_resetColors h.arena).trans hp.recolored.alike

theorem records_of_painted
    (hp : Painted h.resetCycle.nextPhase.2 g) :
    g.records = h.records :=
  hp.records

theorem reachable_of_painted
    (hp : Painted h.resetCycle.nextPhase.2 g)
    (roots : List Nat) :
    g.Reachable roots = h.Reachable roots := by
  unfold Reachable
  rw [records_of_painted hp, (alike_of_painted hp).reachable_eq]

/-- Once marking was finished, exactly what can be reached is black. -/
theorem marked_afterMarking
    (hr : h.Ready)
    (roots : List Nat) :
    (h.afterMarking roots).markAll.Marking (h.Reachable roots) ∧
      (h.afterMarking roots).markAll.arena.Marked (h.Reachable roots) := by
  have hbegun : h.resetCycle.nextPhase.2.Marking (h.Reachable roots) :=
    marking_begin hr.sound hr.attached hr.drained fun _ _ hx hp hal => .word hx hp hal
  have hshaded : (h.resetCycle.nextPhase.2.shadeRoots roots).Marking (h.Reachable roots) := by
    refine hbegun.shadeRoots fun x hx hal => .root ?_ (List.mem_append.1 hx)
    exact ((Arena.alike_resetColors h.arena).isAllocated x).symm.trans hal
  have hloop : (h.afterMarkLoop roots).nextPhase.2.Marking (h.Reachable roots) :=
    (hshaded.markSteps _ _).nextPhase
  have hp := (painted_afterMarkLoop h roots).trans (painted_nextPhase _)
  rw [← reachable_of_painted hp roots] at hloop ⊢
  obtain ⟨hm, hmarked⟩ := hloop.marked_shadeRoots
  have hp' := hp.trans ((painted_shadeRoots _ roots).trans (painted_markAll _))
  have heq := (reachable_of_painted hp' roots).trans (reachable_of_painted hp roots).symm
  rw [← heq] at hm hmarked ⊢
  refine ⟨hm.markAll, hm.marked_markAll fun x c hx ho hw => ?_⟩
  rcases hmarked x c ho with ⟨-, hblack⟩ | ⟨hnot, -⟩
  · rw [hw] at hblack
    cases hblack
  · exact hnot (.root ho.isAllocated hx)

/-! ### Resurrection -/

theorem sound_afterMarking
    (hr : h.Ready)
    (roots : List Nat) :
    (h.afterMarking roots).markAll.Sound :=
  (markAll_steps _).sound ((steps_afterMarking hr.idle).sound hr.sound)

theorem nodup_finalized (h : Heap) (roots : List Nat) : (h.finalized roots).Nodup :=
  nodup_resurrectable _

/-- The finalizers of exactly those objects are queued that can be reached neither from the roots
nor from an object whose finalizers are queued or being run. -/
theorem mem_finalized
    (hr : h.Ready) :
    x ∈ h.finalized roots ↔ h.records.hasFinalizer x = true ∧ ¬ h.Reachable roots x := by
  obtain ⟨-, hmarked⟩ := marked_afterMarking hr roots
  have hp := painted_afterMarking h roots
  have hrecords := records_of_painted hp
  unfold finalized
  rw [mem_resurrectable, hrecords]
  refine and_congr_right fun hf => ?_
  have hal : (h.afterMarking roots).markAll.arena.isAllocated x = true :=
    ((alike_of_painted hp).isAllocated x).trans (hr.sound.isAllocated_of_hasFinalizer hf)
  obtain ⟨c, ho⟩ := Arena.exists_object hal
  rw [← Bool.not_eq_true, Arena.isReached_iff]
  refine not_congr ⟨fun hreached => ?_, fun hx => ?_⟩
  · obtain ⟨d, hd, hst, hne⟩ := hreached
    rcases hmarked x d ⟨hd, hst⟩ with ⟨hx, -⟩ | ⟨-, hw⟩
    · exact hx
    · exact absurd hw hne
  · rcases hmarked x c ho with ⟨-, hblack⟩ | ⟨hnot, -⟩
    · exact ⟨c, ho.1, ho.2, by rw [hblack]; exact Color.noConfusion⟩
    · exact absurd hx hnot

/-- Exactly the objects that the cycle keeps are black. -/
theorem marked_afterResurrection
    (hr : h.Ready)
    (roots : List Nat) :
    (h.afterResurrection roots).Marking (h.Live roots) ∧
      (h.afterResurrection roots).arena.Marked (h.Live roots) := by
  obtain ⟨hm, hmarked⟩ := marked_afterMarking hr roots
  have hp := painted_afterMarking h roots
  have hrecords := records_of_painted hp
  have hgray : (h.afterMarking roots).markAll.grays = [] := by
    have hattached := hp.isSome_collector.trans (Option.isSome_map.trans hr.attached)
    rw [isSome_collector_markAll] at hattached
    exact grays_markAll hattached
  have halike := alike_of_painted hp
  have heq : h.Reachable roots = (h.afterMarking roots).markAll.arena.Reachable
      fun y => y ∈ roots ∨ y ∈ h.records.roots :=
    halike.reachable_eq.symm
  rw [heq] at hm hmarked
  have hres := marked_resurrectAll (sound_afterMarking hr roots) hm hgray hmarked
  rw [hrecords, halike.reachable_eq] at hres
  exact hres

/-- What is left of a heap when the sweep is about to begin. -/
structure Marks (h : Heap) (roots : List Nat) (g : Heap) : Prop where
  alike : Arena.Alike h.arena g.arena
  spare : ∀ x c, h.arena.cell? x = some c → c.header.state ≠ .allocated →
    g.arena.cell? x = some { c with header := c.header.withColor .white }
  marked : g.arena.Marked (h.Live roots)
  pending : g.records.pending = h.records.pending ++
    (h.finalized roots).flatMap fun x => (h.records.finalizers x).map (⟨x, ·⟩)
  running : g.records.running = h.records.running
  finalizers : ∀ x, g.records.finalizers x =
    if x ∈ h.finalized roots then [] else h.records.finalizers x
  cleanups : ∀ x, g.records.cleanups x = h.records.cleanups x
  workers : g.workers = h.workers
  account : ∀ k, h.collector = some k → ∃ l, g.collector = some l ∧
    l.marked = g.arena.blackCount ∧ l.swept = 0 ∧ l.bytes = 0 ∧ l.totals = k.totals

theorem Marks.of_same
    (hm : h.Marks roots g)
    (harena : g'.arena = g.arena)
    (hrecords : g'.records = g.records)
    (hworkers : g'.workers = g.workers)
    (haccount : ∀ l, g.collector = some l → ∃ l', g'.collector = some l' ∧
      l'.marked = l.marked ∧ l'.swept = l.swept ∧ l'.bytes = l.bytes ∧ l'.totals = l.totals) :
    h.Marks roots g' := by
  obtain ⟨h₁, h₂, h₃, h₄, h₅, h₆, h₇, h₈, h₉⟩ := hm
  rw [← harena] at h₁ h₂ h₃
  rw [← hrecords] at h₄ h₅ h₆ h₇
  refine ⟨h₁, h₂, h₃, h₄, h₅, h₆, h₇, hworkers.trans h₈, fun k hk => ?_⟩
  obtain ⟨l, hl, hmarked, hswept, hbytes, htotals⟩ := h₉ k hk
  obtain ⟨l', hl', hmarked', hswept', hbytes', htotals'⟩ := haccount l hl
  rw [← harena] at hmarked
  exact ⟨l', hl', hmarked'.trans hmarked, hswept'.trans hswept, hbytes'.trans hbytes,
    htotals'.trans htotals⟩

theorem marks_afterResurrection
    (hr : h.Ready)
    (roots : List Nat) :
    h.Marks roots (h.afterResurrection roots) := by
  obtain ⟨hm, hmarked⟩ := marked_afterResurrection hr roots
  have hp := painted_afterMarking h roots
  have hres := resurrects_resurrectAll (sound_afterMarking hr roots)
  have hrecords : (h.afterResurrection roots).records =
      (h.finalized roots).foldl (fun t x => (t.queueFinalizers x).2) h.records := by
    rw [← records_of_painted hp]
    exact hres.records
  obtain ⟨hpending, hrunning, hfinalizers, hcleanups⟩ :=
    SideRecords.foldl_queueFinalizers (nodup_finalized h roots) h.records
  rw [← hrecords] at hpending hrunning hfinalizers hcleanups
  refine ⟨(alike_of_painted hp).trans hres.alike, fun x c hx hst => ?_, hmarked, hpending, hrunning,
    hfinalizers, hcleanups, hres.workers.trans hp.workers, fun k hk => ?_⟩
  · refine hres.spare x _ (hp.recolored.cell?_spare ?_ hst) hst
    change h.arena.resetColors.cell? x = _
    rw [Arena.cell?_resetColors, hx]
    rfl
  · have haccount := hres.account.trans hp.account
    obtain ⟨l, hl⟩ := Option.isSome_iff_exists.1 hm.attached
    have hcounted := hm.exact.counted
    unfold marker at hcounted
    rw [show h.resetCycle.nextPhase.2.collector = h.collector.map _ from rfl, hk] at haccount
    rw [show (h.afterMarking roots).markAll.resurrectAll.2.collector = some l from hl] at haccount
    rw [hl] at hcounted
    have heq := Option.some.inj haccount
    have hswept := congrArg Collector.swept heq
    have hbytes := congrArg Collector.bytes heq
    have htotals := congrArg Collector.totals heq
    exact ⟨l, hl, hcounted, hswept, hbytes, htotals⟩

/-! ### Sweeping -/

theorem exists_zeroSlotsOf (rs : List Nat) (h : Heap) :
    ∃ registries, (h.zeroSlotsOf rs).2 = { h with registries } := by
  induction rs generalizing h with
  | nil => exact ⟨h.registries, rfl⟩
  | cons r rs ih =>
      have hfirst : ∃ registries, (h.zeroSlots r).2 = { h with registries } := by
        unfold zeroSlots
        split
        · exact ⟨_, rfl⟩
        · exact ⟨h.registries, rfl⟩
      obtain ⟨registries, hzero⟩ := hfirst
      obtain ⟨registries', hrest⟩ := ih (h.zeroSlots r).2
      refine ⟨registries', ?_⟩
      change ((h.zeroSlots r).2.zeroSlotsOf rs).2 = _
      rw [hrest, hzero]

/-- Slots are all that invalidating slots changes. -/
theorem exists_invalidateSlots (h : Heap) :
    ∃ registries slotsZeroed, h.invalidateSlots.2 = { h with registries, slotsZeroed } := by
  obtain ⟨registries, heq⟩ := exists_zeroSlotsOf h.knownRegistries h
  refine ⟨registries, h.slotsZeroed + (h.zeroSlotsOf h.knownRegistries).1, ?_⟩
  unfold invalidateSlots
  simp only [heq]

/-- Entering the sweeping phase leaves objects, records and workers alone. -/
theorem enterSweep_lists (g : Heap) :
    g.nextPhase.2.invalidateSlots.2.startSweep.arena = g.arena ∧
      g.nextPhase.2.invalidateSlots.2.startSweep.records = g.records ∧
      g.nextPhase.2.invalidateSlots.2.startSweep.workers = g.workers ∧
      g.nextPhase.2.invalidateSlots.2.startSweep.phase = g.phase.next ∧
      g.nextPhase.2.invalidateSlots.2.startSweep.collector =
        g.collector.map fun k => { k with sweepNext := 0, sweepLimit := g.arena.pages.next } := by
  obtain ⟨registries, slots, heq⟩ := exists_invalidateSlots g.nextPhase.2
  rw [heq]
  exact ⟨rfl, rfl, rfl, rfl, rfl⟩

theorem phase_beforeSweep
    (hphase : h.phase = .idle) :
    (h.beforeSweep roots).phase = .sweep := by
  obtain ⟨-, -, -, hnext, -⟩ := enterSweep_lists (h.afterResurrection roots)
  refine hnext.trans ?_
  rw [phase_afterResurrection hphase]
  rfl

theorem steps_beforeSweep
    (hphase : h.phase = .idle)
    (roots : List Nat) :
    Steps (fun _ => True) h (h.beforeSweep roots) := by
  have hturn : Tick (h.afterResurrection roots) .turn (h.afterResurrection roots).nextPhase.2 := by
    refine .turn ?_
    rw [phase_afterResurrection hphase]
    exact Phase.noConfusion
  have hsweep : (h.afterResurrection roots).nextPhase.2.invalidateSlots.2.phase = .sweep := by
    have hstill := Machine.invalidateSlots_steps (h.afterResurrection roots).nextPhase.2
    refine (hstill.phase Act.noConfusion Act.noConfusion).trans ?_
    change (h.afterResurrection roots).phase.next = _
    rw [phase_afterResurrection hphase]
    rfl
  have hzeroed := (Steps.single trivial hturn).trans (Machine.invalidateSlots_steps _).any
  refine (steps_afterResurrection hphase).trans (hzeroed.trans (Steps.single trivial (.account ?_)))
  intro hmarking
  rw [hsweep] at hmarking
  cases hmarking

theorem marks_beforeSweep
    (hr : h.Ready)
    (roots : List Nat) :
    h.Marks roots (h.beforeSweep roots) ∧
      ∃ l, (h.beforeSweep roots).collector = some l ∧ l.sweepNext = 0 ∧
        l.sweepLimit = (h.beforeSweep roots).arena.pages.next := by
  have hm := marks_afterResurrection hr roots
  obtain ⟨k, hk⟩ := Option.isSome_iff_exists.1 hr.attached
  obtain ⟨l, hl, -⟩ := hm.account k hk
  obtain ⟨harena, hrecords, hworkers, -, hcollector⟩ := enterSweep_lists (h.afterResurrection roots)
  rw [hl, Option.map_some] at hcollector
  refine ⟨hm.of_same harena hrecords hworkers fun l' hl' => ⟨_, hcollector, ?_⟩,
    _, hcollector, rfl, congrArg (fun a => a.pages.next) harena.symm⟩
  obtain rfl := Option.some.inj (hl.symm.trans hl')
  exact ⟨rfl, rfl, rfl, rfl⟩

/-- After marking no white object has finalizers. -/
theorem Marks.hasFinalizer_of_white
    (hm : h.Marks roots g)
    (hs : h.Sound)
    (ho : g.arena.Object x c)
    (hw : c.header.color = .white) :
    g.records.hasFinalizer x = false := by
  rw [SideRecords.hasFinalizer_eq, hm.finalizers]
  split
  · rfl
  · rw [← SideRecords.hasFinalizer_eq]
    refine Bool.not_eq_true _ ▸ fun hf => ?_
    rcases hm.marked x c ho with ⟨-, hblack⟩ | ⟨hnot, -⟩
    · rw [hw] at hblack
      cases hblack
    · exact hnot (.root (hs.isAllocated_of_hasFinalizer hf) (Or.inr hf))

/-- The sweep frees exactly the white objects. -/
theorem frees_afterSweep
    (hr : h.Ready)
    (hbudget : 0 < h.config.sweepBudget)
    (roots : List Nat) :
    ∃ cs g l, (h.beforeSweep roots).Frees cs g ∧
      (∀ c ∈ cs, (h.beforeSweep roots).arena.cell? c.addr = some c) ∧
      cs.map Cell.addr =
        (h.beforeSweep roots).arena.cells.filter (h.beforeSweep roots).arena.isUnreached ∧
      (h.beforeSweep roots).collector = some l ∧ g.phase = .sweep ∧
      ∃ n, h.afterSweep roots = { g with
        collector := some { l with
          sweepNext := n
          swept := l.swept + cs.length
          bytes := l.bytes + (cs.map Cell.size).sum } } := by
  obtain ⟨hm, l, hl, hnext, hlimit⟩ := marks_beforeSweep hr roots
  have hsteps := steps_beforeSweep hr.idle roots
  have hsound := hsteps.sound hr.sound
  have hsweepLimit : (h.beforeSweep roots).sweepLimit = l.sweepLimit := by
    unfold sweepLimit
    rw [hl]
    rfl
  rw [← hsteps.config] at hbudget
  obtain ⟨cs, g, hv, heq⟩ := sweepSteps_visits (n := l.sweepLimit + 1) hsound hbudget hl (by omega)
    (by omega)
  rw [hnext, Nat.sub_zero, hlimit] at hv
  obtain ⟨hfrees, hcells, hlist⟩ := hv.frees hsound (Arena.nodup_cells hsound.layout)
    fun x c ho hw => hm.hasFinalizer_of_white hr.sound ho hw
  refine ⟨cs, g, l, hfrees, hcells, hlist, hl, ?_, l.sweepLimit, ?_⟩
  · exact (hv.steps.sameCycle fun _ hl => hl.not_ofCycle).phase.trans (phase_beforeSweep hr.idle)
  · unfold afterSweep sweepLoop
    rw [hsweepLimit]
    exact heq

/-! ### The whole cycle -/

theorem gives_collect
    {σ : Type} {hooks : Hooks σ}
    (hk : hooks.Silent)
    (hphase : h.phase = .idle)
    (hsweep : (h.afterSweep roots).phase = .sweep)
    (hc : (h.afterSweep roots).collector = some k) :
    Action.Gives (Action.collect hooks fun _ => roots) h k.bytes (h.afterCycle roots) := by
  have htermination : (h.afterMarking roots).markAll.resurrectAll.2.phase = .termination :=
    phase_afterResurrection hphase
  unfold Action.collect
  refine (Action.gives_beginCycle hk roots hphase).bind ((Action.gives_adjust _ _).bind ?_)
  refine (Action.gives_finishMarking hk roots (phase_afterMarkLoop hphase)).bind ?_
  refine (Action.gives_beginSweep hk (phase_afterMarking hphase) htermination).bind ?_
  have hswept : Action.Gives
      (Action.adjust fun h => h.sweepLoop h.config.sweepBudget : Action σ Unit)
      (h.beforeSweep roots) () (h.afterSweep roots) :=
    Action.gives_adjust _ _
  exact hswept.bind (Action.gives_finishCycle hk hsweep hc)

end Heap

end EagerHeap
