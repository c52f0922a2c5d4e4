import EagerHeap.Proofs.Cycle.Collected
import EagerHeap.Proofs.Run.Barrier
/-!
# A collector that is dropped while it marks

A collector that is dropped finishes its cycle by itself, and it asks for no roots when it does. So
the cycle keeps what the collector has reached or remembered before, what has finalizers, and what
can be reached from there, and it frees everything else.

Main results: `marked_rescued` and `dropped_keeps`.
-/

namespace EagerHeap

namespace Heap

variable {h h' g : Heap} {f : Marker → Marker} {L : Nat → Prop} {roots : List Nat} {x : Nat}
  {c : Cell} {l : Collector}

/-! ### What marking does not reach -/

/-- Everything that marking has reached satisfies `L`, and so does what can be reached from there. -/
structure Bounded (h : Heap) (L : Nat → Prop) : Prop where
  closed : ∀ x y, L x → h.arena.Points x y → h.arena.isAllocated y = true → L y
  within : h.arena.Within L

theorem Bounded.of_alike
    (hb : h.Bounded L)
    (ha : Arena.Alike h.arena h'.arena)
    (hw : h'.arena.Within L) :
    h'.Bounded L :=
  ⟨fun x y hx hp hal => hb.closed x y hx (ha.points_iff.1 hp) ((ha.isAllocated y).symm.trans hal),
    hw⟩

theorem Bounded.marking
    (hb : h.Bounded L)
    (hc : h.collector.isSome = true)
    (hr : ∀ m : Marker, Arena.Recolored m.arena (f m).arena)
    (hw : (f h.marker).arena.Within L) :
    (h.marking f).Bounded L := by
  refine hb.of_alike (painted_marking hr h).recolored.alike ?_
  rwa [arena_marking hc]

theorem Bounded.shadeAll
    {xs : List Nat}
    (hb : h.Bounded L)
    (hc : h.collector.isSome = true)
    (hxs : ∀ x ∈ xs, h.arena.isAllocated x = true → L x) :
    (h.marking (·.shadeAll xs)).Bounded L :=
  hb.marking hc (fun m => Marker.recolored_shadeAll xs m)
    (Marker.within_shadeAll (m := h.marker) xs hb.within hxs)

theorem Bounded.drainBarrier
    (hb : h.Bounded L)
    (hc : h.collector.isSome = true)
    (hstored : ∀ x ∈ h.barrier, h.arena.isAllocated x = true → L x) :
    h.drainBarrier.Bounded L := by
  have hempty : ({ h with barrier := #[] } : Heap).Bounded L := ⟨hb.closed, hb.within⟩
  exact hempty.shadeAll hc fun x hx => hstored x (Array.mem_toList_iff.1 hx)

theorem Bounded.markStep
    (hb : h.Bounded L)
    (hs : h.Sound)
    (hc : h.collector.isSome = true)
    (hstored : ∀ x ∈ h.barrier, h.arena.isAllocated x = true → L x)
    (n : Nat) :
    (h.markStep n).Bounded L := by
  have hdrained := hb.drainBarrier hc hstored
  exact hdrained.marking ((isSome_collector_drainBarrier h).trans hc) (Marker.recolored_advance n)
    (Marker.within_advance n ((drainBarrier_steps h).sound hs).layout hdrained.closed
      hdrained.within)

theorem Bounded.markAll
    (hb : h.Bounded L)
    (hs : h.Sound)
    (hc : h.collector.isSome = true)
    (hstored : ∀ x ∈ h.barrier, h.arena.isAllocated x = true → L x) :
    h.markAll.Bounded L := by
  have hdrained := hb.drainBarrier hc hstored
  exact hdrained.marking ((isSome_collector_drainBarrier h).trans hc) Marker.recolored_complete
    (Marker.within_complete ((drainBarrier_steps h).sound hs).layout hdrained.closed
      hdrained.within)

theorem Bounded.resurrectAll
    (hb : h.Bounded L)
    (hs : h.Sound)
    (hc : h.collector.isSome = true)
    (hdrained : h.barrier = #[])
    (hfin : ∀ x, h.records.hasFinalizer x = true → L x) :
    h.resurrectAll.2.Bounded L := by
  rw [Heap.resurrectAll]
  split
  · exact hb
  · have hdead : ∀ x ∈ h.resurrectable, h.arena.isAllocated x = true :=
      fun x hx => hs.isAllocated_of_resurrectable hx
    have hmarks := sameMarks_resurrectEach hdead
    have hqueued : (h.resurrectable.foldl resurrect h).Bounded L := by
      refine hb.of_alike hmarks.alike fun x d hd hne => ?_
      obtain ⟨b, hob, hcol⟩ := hmarks.object hd
      exact hb.within x b hob (hcol ▸ hne)
    have hattached : (h.resurrectable.foldl resurrect h).collector.isSome = true := by
      rw [collector_resurrectEach]
      exact hc
    refine (hqueued.shadeAll hattached fun x hx _ => hfin x (mem_resurrectable.1 hx).1).markAll
      ?_ ((isSome_collector_marking _ _).trans hattached) fun x hx => ?_
    · exact (marking_steps (fun m => Marker.recolored_shadeAll _ m) _).sound
        ((resurrectEach_steps _ h).sound hs)
    · rw [barrier_marking, barrier_resurrectEach, hdrained] at hx
      exact absurd hx (Array.not_mem_empty x)

theorem grays_resurrectAll
    (hc : h.collector.isSome = true)
    (hgray : h.grays = []) :
    h.resurrectAll.2.grays = [] := by
  rw [Heap.resurrectAll]
  split
  · exact hgray
  · refine grays_markAll ((isSome_collector_marking _ _).trans ?_)
    rw [collector_resurrectEach]
    exact hc

/-- After a resurrection no object is gray, and no black object points to a white one. -/
theorem resurrected_tricolor
    (hs : h.Sound)
    (hc : h.collector.isSome = true)
    (hmark : h.phase.isMarking = true)
    (ht : h.Tricolor) :
    h.markAll.resurrectAll.2.arena.Tricolor [] fun _ => False := by
  have hattached := (isSome_collector_markAll h).trans hc
  have hresurrected : h.markAll.resurrectAll.2.Tricolor := by
    refine resurrectAll_tricolor ((markAll_steps _).sound hs) hattached ?_
      (tricolor_of_markAll hs hc ht)
    rwa [phase_markAll]
  have hgray : h.markAll.resurrectAll.2.grays = [] :=
    grays_resurrectAll hattached (grays_markAll hc)
  have hdrained : h.markAll.resurrectAll.2.barrier = #[] := barrier_resurrectAll (barrier_markAll _)
  rw [Heap.Tricolor, hgray, hdrained] at hresurrected
  exact hresurrected.mono fun y => Array.not_mem_empty y

/-! ### The rest of the marking -/

/-- What a collector keeps that is dropped while it marks: what it has reached or remembered, what
waits for its finalizers or has some, and what can be reached from there. -/
def Kept (h : Heap) : Nat → Prop :=
  h.arena.Reachable fun y =>
    h.arena.isReached y = true ∨ y ∈ h.barrier ∨ y ∈ h.records.roots ∨
      h.records.hasFinalizer y = true

/-- The collector marks: the heap is sound, and its colors are as they have to be between two steps
of the marker. -/
structure Underway (h : Heap) : Prop where
  sound : h.Sound
  phase : h.phase = .mark
  attached : h.collector.isSome = true
  tricolor : h.Tricolor

/-- The heap after marking was finished without roots. -/
def remarked (h : Heap) : Heap := (h.nextPhase.2.shadeRoots []).markAll

/-- The heap after finalizers were queued and their objects marked. -/
def rescued (h : Heap) : Heap := h.remarked.markAll.resurrectAll.2

theorem phase_remarked
    (hphase : h.phase = .mark) :
    h.remarked.phase = .termination := by
  rw [remarked, phase_markAll, phase_shadeRoots]
  change h.phase.next = _
  rw [hphase]
  rfl

theorem phase_rescued
    (hphase : h.phase = .mark) :
    h.rescued.phase = .termination := by
  rw [rescued, phase_resurrectAll, phase_markAll, phase_remarked hphase]

theorem painted_shaded (h : Heap) : Painted h (h.nextPhase.2.shadeRoots []) :=
  (painted_nextPhase h).trans (painted_shadeRoots _ [])

theorem painted_remarked (h : Heap) : Painted h h.remarked.markAll :=
  (painted_shaded h).trans ((painted_markAll _).trans (painted_markAll _))

/-- The rest of the marking phase consists of changes of the phase and of painting. -/
theorem remarked_steps
    (hphase : h.phase = .mark) :
    Steps (fun l => l = .turn ∨ l = .paint) h h.remarked := by
  have hturn : Tick h .turn h.nextPhase.2 := .turn (by rw [hphase]; exact Phase.noConfusion)
  exact (Steps.single (Or.inl rfl) hturn).trans
    (((shadeRoots_steps _ []).trans (markAll_steps _)).mono fun _ hl => Or.inr hl)

theorem rescued_steps
    (h : Heap) :
    Steps (fun l => l = .paint ∨ ∃ x, l = .finalize x) h.remarked h.rescued := by
  refine ((markAll_steps _).mono fun _ hl => Or.inl hl).trans ?_
  exact (resurrectAll_steps _).mono fun _ hl => hl.imp_right fun ⟨x, _, hx⟩ => ⟨x, hx⟩

theorem Underway.sound_shaded
    (hu : h.Underway) :
    (h.nextPhase.2.shadeRoots []).Sound := by
  have hturn : Tick h .turn h.nextPhase.2 := .turn (by rw [hu.phase]; exact Phase.noConfusion)
  exact (shadeRoots_steps _ []).sound (hturn.sound hu.sound)

theorem Underway.attached_shaded
    (hu : h.Underway) :
    (h.nextPhase.2.shadeRoots []).collector.isSome = true :=
  (painted_shaded h).isSome_collector.trans hu.attached

theorem Underway.sound_remarked
    (hu : h.Underway) :
    h.remarked.Sound :=
  (remarked_steps hu.phase).sound hu.sound

theorem Underway.attached_remarked
    (hu : h.Underway) :
    h.remarked.markAll.collector.isSome = true :=
  (painted_remarked h).isSome_collector.trans hu.attached

/-- No object but those that are kept is marked. -/
theorem Underway.bounded_rescued
    (hu : h.Underway) :
    h.rescued.Bounded h.Kept := by
  have hstart : h.nextPhase.2.Bounded h.Kept := by
    refine ⟨fun x y hx hp hal => .word hx hp hal, fun x c ho hne => ?_⟩
    exact .root ho.isAllocated (Or.inl (Arena.isReached_iff.2 ⟨c, ho.1, ho.2, hne⟩))
  have hshaded : (h.nextPhase.2.shadeRoots []).Bounded h.Kept :=
    hstart.shadeAll hu.attached fun x hx hal => .root hal (Or.inr (Or.inr (Or.inl hx)))
  have hmarked : h.remarked.Bounded h.Kept := by
    refine hshaded.markAll hu.sound_shaded hu.attached_shaded fun x hx hal =>
      .root ?_ (Or.inr (Or.inl ?_))
    · exact ((painted_shaded h).recolored.isAllocated x).symm.trans hal
    · rwa [shadeRoots, barrier_marking] at hx
  have hsound := hu.sound_remarked
  have hattached := hu.attached_remarked
  have hagain : h.remarked.markAll.Bounded h.Kept := by
    refine hmarked.markAll hsound ((isSome_collector_markAll _).symm.trans hattached) fun x hx => ?_
    rw [remarked, barrier_markAll] at hx
    exact absurd hx (Array.not_mem_empty x)
  refine hagain.resurrectAll ((markAll_steps _).sound hsound) hattached (barrier_markAll _) ?_
  intro x hx
  rw [(painted_remarked h).records] at hx
  exact .root (hu.sound.isAllocated_of_hasFinalizer hx) (Or.inr (Or.inr (Or.inr hx)))

/-- Every object is marked that the collector has reached or remembered, or that has to do with
finalizers. -/
theorem Underway.isReached_rescued
    (hu : h.Underway)
    (hal : h.arena.isAllocated x = true)
    (hx : h.arena.isReached x = true ∨ x ∈ h.barrier ∨ x ∈ h.records.roots ∨
      h.records.hasFinalizer x = true) :
    h.rescued.arena.isReached x = true := by
  have hsound := hu.sound_remarked
  have hrest : h.remarked.arena.isReached x = true → h.rescued.arena.isReached x = true :=
    fun hr => (rescued_steps h).isReached hsound hr (by simp) (by simp)
  rcases hx with hr | hb | hroot | hf
  · exact hrest ((remarked_steps hu.phase).isReached hu.sound hr (by simp) (by simp))
  · refine hrest (isReached_markAll hu.sound_shaded hu.attached_shaded ?_ ?_)
    · exact ((painted_shaded h).recolored.isAllocated x).trans hal
    · rwa [shadeRoots, barrier_marking]
  · refine hrest ((markAll_steps _).isReached hu.sound_shaded ?_ (by simp) (by simp))
    rw [shadeRoots, arena_marking (h := h.nextPhase.2) hu.attached]
    exact isReached_shadeAll hal hroot
  · obtain ⟨r, hr, hfin⟩ := List.any_eq_true.1 hf
    have hall := painted_remarked h
    refine reached_resurrectAll ((markAll_steps _).sound hsound) hu.attached_remarked hfin
      ((hall.recolored.isAllocated x).trans hal) ?_
    rw [SideRecords.Attached, hall.records]
    exact hr

theorem Underway.tricolor_rescued
    (hu : h.Underway) :
    h.rescued.arena.Tricolor [] fun _ => False := by
  have hmarked : h.remarked.Tricolor := by
    refine tricolor_of_markAll hu.sound_shaded hu.attached_shaded ?_
    exact shadeRoots_tricolor (h := h.nextPhase.2) hu.attached hu.tricolor []
  refine resurrected_tricolor hu.sound_remarked ?_ ?_ hmarked
  · exact (isSome_collector_markAll _).symm.trans hu.attached_remarked
  · rw [phase_remarked hu.phase]
    rfl

theorem Underway.alike_rescued
    (hu : h.Underway) :
    Arena.Alike h.arena h.rescued.arena := by
  have hsound := (markAll_steps _).sound hu.sound_remarked
  exact (painted_remarked h).recolored.alike.trans (resurrects_resurrectAll hsound).alike

/-- Exactly the objects that are kept are black. -/
theorem Underway.marked_rescued
    (hu : h.Underway) :
    h.rescued.arena.Marked h.Kept := by
  have ht := hu.tricolor_rescued
  have hbounded := hu.bounded_rescued
  have hkept : ∀ x, h.Kept x → ∀ c, h.rescued.arena.Object x c → c.header.color ≠ .white := by
    intro x hx
    refine ht.reached (fun y hy d hd => ?_) (hu.alike_rescued.reachable hx)
    have hal := (hu.alike_rescued.isAllocated y).symm.trans hd.isAllocated
    obtain ⟨c, hc, hst, hne⟩ := Arena.isReached_iff.1 (hu.isReached_rescued hal hy)
    exact hd.unique ⟨hc, hst⟩ ▸ hne
  intro x c ho
  cases hcol : c.header.color with
  | white => exact Or.inr ⟨fun hx => hkept x hx c ho hcol, rfl⟩
  | gray => exact absurd (ht.listed x c ho hcol) List.not_mem_nil
  | black =>
      refine Or.inl ⟨hbounded.within x c ho ?_, rfl⟩
      rw [hcol]
      exact Color.noConfusion

/-- No white object has finalizers. -/
theorem Underway.hasFinalizer_rescued
    (hu : h.Underway)
    (ho : h.rescued.arena.Object x c)
    (hw : c.header.color = .white) :
    h.rescued.records.hasFinalizer x = false := by
  have hsound := (markAll_steps _).sound hu.sound_remarked
  have hrecords := (resurrects_resurrectAll hsound).records
  obtain ⟨-, -, hfinalizers, -⟩ := SideRecords.foldl_queueFinalizers
    (nodup_resurrectable h.remarked.markAll) h.remarked.markAll.records
  rw [← hrecords] at hfinalizers
  rw [rescued, SideRecords.hasFinalizer_eq, hfinalizers]
  split
  · rfl
  · rw [← SideRecords.hasFinalizer_eq, (painted_remarked h).records]
    refine Bool.not_eq_true _ ▸ fun hf => ?_
    have hreached := hu.isReached_rescued
      ((hu.alike_rescued.isAllocated x).symm.trans ho.isAllocated) (Or.inr (Or.inr (Or.inr hf)))
    obtain ⟨d, hd, hst, hne⟩ := Arena.isReached_iff.1 hreached
    exact hne (ho.unique ⟨hd, hst⟩ ▸ hw)

/-! ### The sweep -/

/-- If no white object has finalizers, sweeping all blocks frees exactly the white objects. -/
theorem frees_sweepAll
    (hs : h.Sound)
    (hl : h.collector = some l)
    (hnext : l.sweepNext = 0)
    (hlimit : l.sweepLimit = h.arena.pages.next)
    (hfin : ∀ x c, h.arena.Object x c → c.header.color = .white →
      h.records.hasFinalizer x = false) :
    ∃ cs g k, h.Frees cs g ∧ cs.map Cell.addr = h.arena.cells.filter h.arena.isUnreached ∧
      g.phase = h.phase ∧ h.sweepAll = { g with collector := some k } := by
  have hall : h.sweepLimit = l.sweepLimit := by
    rw [sweepLimit, hl]
    rfl
  rcases sweepStep_cases hs h.sweepLimit with ⟨hnone, -⟩ | ⟨k, cs, g, hk, hv, heq⟩
  · rw [hl] at hnone
    cases hnone
  obtain rfl := Option.some.inj (hl.symm.trans hk)
  rw [hall, hnext, Nat.sub_zero, Nat.min_self, hlimit] at hv
  obtain ⟨hfrees, -, hlist⟩ := hv.frees hs (Arena.nodup_cells hs.layout) hfin
  refine ⟨cs, g, _, hfrees, hlist, ?_, heq⟩
  exact (hv.steps.sameCycle fun _ hl => hl.not_ofCycle).phase

/-! ### The dropped collector -/

/-- What dropping the collector makes of a heap that is being marked: it keeps exactly the objects
of `Kept`, and frees the others. -/
structure Dropped (h h' : Heap) : Prop where
  phase : h'.phase = .idle
  detached : h'.collector = none
  allocated : ∀ x, h'.arena.isAllocated x = true ↔ h.Kept x
  kept : ∀ x c, h.arena.Object x c → h.Kept x →
    ∃ hd, h'.arena.Object x { c with header := hd } ∧ hd.color = .black
  memory : h'.arena.memory = h.arena.memory
  workers : h'.workers = h.workers

/-- The heap on which the sweeper starts. -/
def cleared (h : Heap) : Heap := h.rescued.nextPhase.2.invalidateSlots.2.startSweep

/-- The heap after the cycle, when the collector was detached. -/
def dropped (h : Heap) : Heap :=
  { h.cleared.sweepAll.nextPhase.2.closeCycle.2 with collector := none }

theorem cleared_lists (h : Heap) :
    h.cleared.arena = h.rescued.arena ∧ h.cleared.records = h.rescued.records ∧
      h.cleared.workers = h.rescued.workers ∧ h.cleared.phase = h.rescued.phase.next ∧
      h.cleared.collector = h.rescued.collector.map fun k =>
        { k with sweepNext := 0, sweepLimit := h.rescued.arena.pages.next } :=
  enterSweep_lists h.rescued

theorem Underway.sound_cleared
    (hu : h.Underway) :
    h.cleared.Sound := by
  have hsound := (rescued_steps h).sound hu.sound_remarked
  have hphase := phase_rescued hu.phase
  have hturned : h.rescued.nextPhase.2.Sound :=
    Tick.sound hsound (.turn (by rw [hphase]; exact Phase.noConfusion))
  have hzeroed := Machine.invalidateSlots_steps h.rescued.nextPhase.2
  refine (Tick.account fun hmark => ?_).sound (hzeroed.sound hturned)
  have hsweep : h.rescued.nextPhase.2.phase = .sweep := by
    change h.rescued.phase.next = _
    rw [hphase]
    rfl
  rw [hzeroed.phase Act.noConfusion Act.noConfusion, hsweep] at hmark
  cases hmark

/-- The sweep frees exactly the objects that are not kept. -/
theorem Underway.frees_cleared
    (hu : h.Underway) :
    ∃ cs g k, h.cleared.Frees cs g ∧
      (∀ x, x ∈ cs.map Cell.addr ↔ h.arena.isAllocated x = true ∧ ¬ h.Kept x) ∧
      g.phase = .sweep ∧ h.cleared.sweepAll = { g with collector := some k } := by
  obtain ⟨harena, hrecords, -, hphase, hcollector⟩ := h.cleared_lists
  rw [phase_rescued hu.phase] at hphase
  have hsome : h.rescued.collector.isSome = true := by
    rw [rescued, isSome_collector_resurrectAll, (painted_remarked h).isSome_collector]
    exact hu.attached
  obtain ⟨l, hl⟩ := Option.isSome_iff_exists.1 hsome
  rw [hl, Option.map_some] at hcollector
  have hs := hu.sound_cleared
  obtain ⟨cs, g, k, hfrees, hlist, hsame, heq⟩ := frees_sweepAll hs hcollector rfl
    (congrArg (fun a => a.pages.next) harena.symm) fun x c ho hw => by
      rw [hrecords]
      exact hu.hasFinalizer_rescued (harena ▸ ho) hw
  refine ⟨cs, g, k, hfrees, fun x => ?_, hsame.trans hphase, heq⟩
  rw [hlist, List.mem_filter, Arena.mem_cells hs.layout, Arena.isUnreached_iff,
    ← hu.alike_rescued.isAllocated, harena]
  constructor
  · rintro ⟨-, c, ho, hw⟩
    rcases hu.marked_rescued x c ho with ⟨-, hblack⟩ | ⟨hnot, -⟩
    · rw [hw] at hblack
      cases hblack
    · exact ⟨ho.isAllocated, hnot⟩
  · rintro ⟨hal, hnot⟩
    obtain ⟨c, ho⟩ := Arena.exists_object hal
    rcases hu.marked_rescued x c ho with ⟨hx, -⟩ | ⟨-, hw⟩
    · exact absurd hx hnot
    · exact ⟨⟨c, ho.1⟩, c, ho, hw⟩

theorem Kept.isAllocated
    (hx : h.Kept x) :
    h.arena.isAllocated x = true := by
  cases hx with
  | root hal _ => exact hal
  | word _ _ hal => exact hal

/-- Dropping the collector keeps exactly the objects of `Kept`. -/
theorem Underway.dropped
    (hu : h.Underway) :
    h.Dropped h.dropped := by
  obtain ⟨cs, g, k, hfrees, hlost, hphase, heq⟩ := hu.frees_cleared
  obtain ⟨harena, -, hworkers, -⟩ := h.cleared_lists
  have halike := hu.alike_rescued
  have hsame : ∀ x, x ∉ cs.map Cell.addr → g.arena.cell? x = h.rescued.arena.cell? x := by
    intro x hx
    rw [hfrees.others x hx, harena]
  have hend : h.dropped.arena = g.arena ∧ h.dropped.workers = g.workers ∧
      h.dropped.phase = g.phase.next := by
    rw [Heap.dropped, heq]
    exact ⟨rfl, rfl, rfl⟩
  obtain ⟨harena', hworkers', hphase'⟩ := hend
  constructor
  case phase => rw [hphase', hphase]; rfl
  case detached => rfl
  case allocated =>
    intro x
    rw [harena']
    by_cases hx : x ∈ cs.map Cell.addr
    · rw [hfrees.isAllocated_of_mem hx]
      exact iff_of_false Bool.false_ne_true ((hlost x).1 hx).2
    · have hal : g.arena.isAllocated x = h.arena.isAllocated x := by
        rw [← halike.isAllocated, Arena.isAllocated, hsame x hx]
        rfl
      rw [hal]
      refine ⟨fun hal => ?_, Kept.isAllocated⟩
      exact Classical.not_not.1 fun hnot => hx ((hlost x).2 ⟨hal, hnot⟩)
  case kept =>
    intro x c ho hx
    obtain ⟨hd, hcell, hst⟩ := halike.states x c ho.1
    have hmarked : h.rescued.arena.Object x { c with header := hd } := ⟨hcell, hst.trans ho.2⟩
    rw [harena']
    refine ⟨hd, ⟨?_, hmarked.2⟩, ?_⟩
    · rw [hsame x fun hmem => ((hlost x).1 hmem).2 hx]
      exact hcell
    · exact (hu.marked_rescued x _ hmarked).elim And.right fun hnot => absurd hx hnot.1
  case memory =>
    rw [harena', hfrees.memory, harena, halike.memory]
  case workers =>
    have hsound := (markAll_steps _).sound hu.sound_remarked
    rw [hworkers', hfrees.workers, hworkers]
    exact (resurrects_resurrectAll hsound).workers.trans (painted_remarked h).workers

theorem Underway.gives_dropCollector
    {σ : Type} {hooks : Hooks σ}
    (hk : hooks.Silent)
    (hu : h.Underway) :
    Action.Gives (Action.dropCollector hooks) h () h.dropped := by
  obtain ⟨cs, g, k, -, -, hphase, heq⟩ := hu.frees_cleared
  have hswept : h.cleared.sweepAll.phase = .sweep := by
    rw [heq]
    exact hphase
  have hattached : h.cleared.sweepAll.collector = some k := by rw [heq]
  have hcomplete : Action.Gives (Action.completeCycle hooks) h ()
      h.cleared.sweepAll.nextPhase.2.closeCycle.2 := by
    rw [Action.completeCycle]
    refine (Action.gives_view _ h).bind ?_
    simp only [hu.phase]
    refine (Action.gives_finishMarking hk [] hu.phase).bind ?_
    refine (Action.gives_beginSweep hk (phase_remarked hu.phase) (phase_rescued hu.phase)).bind ?_
    refine (Action.gives_adjust Heap.sweepAll h.cleared).bind ?_
    exact (Action.gives_finishCycle hk hswept hattached).bind (Action.gives_pure _ _)
  rw [Action.dropCollector]
  exact hcomplete.bind (Action.gives_adjust _ _)

/-- A collector can be attached to a heap that has none. -/
theorem gives_attachCollector
    {σ : Type}
    (hc : h.collector = none) :
    Action.Gives (Action.attachCollector : Action σ Unit) h () { h with collector := some {} } := by
  rw [Action.attachCollector]
  refine (Action.gives_view _ h).bind ?_
  simp only [hc, Option.isSome_none, Bool.false_eq_true, if_false]
  exact Action.gives_adjust _ h

end Heap

end EagerHeap
