import EagerHeap.Proofs.Marking.Barrier
import EagerHeap.Proofs.Marking.Workload
/-!
# Marking as a sequence of elementary changes

Every operation of the marker on a heap only paints. It keeps the tri-color invariant, and marking
to the end leaves neither gray objects nor remembered addresses.

Main results: `markAll_tricolor`, `Reachable.marked` and `resurrectAll_steps`.
-/

namespace EagerHeap.Heap

variable {h h' : Heap} {f : Marker → Marker} {x : Nat} {c : Cell}

/-- The part of a heap on which its collector works. -/
def marker (h : Heap) : Marker where
  arena := h.arena
  gray := h.grays
  marked := (h.collector.map Collector.marked).getD 0

/-- The objects that are alive for the collector: they can be reached from the given roots and from
the objects whose finalizers are queued or being run. -/
def Reachable (h : Heap) (roots : List Nat) (x : Nat) : Prop :=
  h.arena.Reachable (fun y => y ∈ roots ∨ y ∈ h.records.roots) x

/-! ### Changes of the marker -/

theorem marker_marking
    (hc : h.collector.isSome = true)
    (f : Marker → Marker) :
    (h.marking f).marker = f h.marker := by
  obtain ⟨k, hk⟩ := Option.isSome_iff_exists.1 hc
  unfold marking marker grays
  rw [hk]
  rfl

theorem arena_marking
    (hc : h.collector.isSome = true)
    (f : Marker → Marker) :
    (h.marking f).arena = (f h.marker).arena := by
  rw [← marker_marking hc f]
  rfl

theorem grays_marking
    (hc : h.collector.isSome = true)
    (f : Marker → Marker) :
    (h.marking f).grays = (f h.marker).gray := by
  rw [← marker_marking hc f]
  rfl

@[simp] theorem isSome_collector_marking (h : Heap) (f : Marker → Marker) :
    (h.marking f).collector.isSome = h.collector.isSome := by
  unfold marking
  split
  · rfl
  · next k hk =>
      rw [hk]
      rfl

@[simp] theorem barrier_marking (h : Heap) (f : Marker → Marker) :
    (h.marking f).barrier = h.barrier := by
  unfold marking
  split <;> rfl

@[simp] theorem records_marking (h : Heap) (f : Marker → Marker) :
    (h.marking f).records = h.records := by
  unfold marking
  split <;> rfl

@[simp] theorem phase_marking (h : Heap) (f : Marker → Marker) :
    (h.marking f).phase = h.phase := by
  unfold marking
  split <;> rfl

theorem marking_steps
    (hf : ∀ m : Marker, Arena.Recolored m.arena (f m).arena)
    (h : Heap) :
    Steps (· = .paint) h (h.marking f) := by
  unfold marking
  split
  · exact Steps.refl h
  · next k hk =>
      exact Steps.single rfl (.paint h.barrier _ (hf ⟨h.arena, k.gray, k.marked⟩))

theorem shadeRoots_steps (h : Heap) (roots : List Nat) :
    Steps (· = .paint) h (h.shadeRoots roots) :=
  marking_steps (fun m => Marker.recolored_shadeAll _ m) h

theorem drainBarrier_steps (h : Heap) : Steps (· = .paint) h h.drainBarrier := by
  have hdrained : Steps (· = .paint) h { h with barrier := #[] } :=
    Steps.single rfl (.paint #[] h.collector (Arena.Recolored.refl h.arena))
  exact hdrained.trans (marking_steps (fun m => Marker.recolored_shadeAll _ m) _)

theorem markStep_steps (h : Heap) (n : Nat) : Steps (· = .paint) h (h.markStep n) :=
  (drainBarrier_steps h).trans (marking_steps (Marker.recolored_advance n) _)

theorem markAll_steps (h : Heap) : Steps (· = .paint) h h.markAll :=
  (drainBarrier_steps h).trans (marking_steps Marker.recolored_complete _)

theorem markSteps_steps (budget n : Nat) (h : Heap) :
    Steps (· = .paint) h (markSteps budget n h) := by
  induction n generalizing h with
  | zero => exact Steps.refl h
  | succ n ih =>
      unfold markSteps
      simp only
      split
      · exact (markStep_steps h budget).trans (ih _)
      · exact markStep_steps h budget

/-! ### The tri-color invariant -/

theorem isSome_collector_drainBarrier (h : Heap) :
    h.drainBarrier.collector.isSome = h.collector.isSome :=
  isSome_collector_marking _ _

theorem shadeRoots_tricolor
    (hc : h.collector.isSome = true)
    (ht : h.Tricolor)
    (roots : List Nat) :
    (h.shadeRoots roots).Tricolor := by
  unfold Tricolor shadeRoots
  rw [arena_marking hc, grays_marking hc, barrier_marking]
  exact (Marker.tricolor_shadeAll (m := h.marker) _ ht).mono fun y hy => hy.1

theorem drainBarrier_tricolor
    (hc : h.collector.isSome = true)
    (ht : h.Tricolor) :
    h.drainBarrier.arena.Tricolor h.drainBarrier.grays fun _ => False := by
  unfold drainBarrier
  have hc' : ({ h with barrier := #[] } : Heap).collector.isSome = true := hc
  simp only
  rw [arena_marking hc', grays_marking hc']
  refine (Marker.tricolor_shadeAll (m := h.marker) _ ht).mono fun y hy => hy.2 ?_
  exact Array.mem_toList_iff.2 hy.1

theorem markStep_tricolor
    (hs : h.Sound)
    (hc : h.collector.isSome = true)
    (ht : h.Tricolor)
    (n : Nat) :
    (h.markStep n).Tricolor := by
  have hdrained := drainBarrier_tricolor hc ht
  have hsound := (drainBarrier_steps h).sound hs
  have hc' := (isSome_collector_drainBarrier h).trans hc
  unfold Tricolor markStep
  rw [arena_marking hc', grays_marking hc']
  exact (Marker.tricolor_advance (m := h.drainBarrier.marker) n hsound.layout hdrained).mono
    fun _ => False.elim

/-- Marking to the end leaves no gray object, and nothing that was stored. -/
theorem markAll_tricolor
    (hs : h.Sound)
    (hc : h.collector.isSome = true)
    (ht : h.Tricolor) :
    (h.markAll).arena.Tricolor [] fun _ => False := by
  have hdrained := drainBarrier_tricolor hc ht
  have hsound := (drainBarrier_steps h).sound hs
  have hc' := (isSome_collector_drainBarrier h).trans hc
  have hgray : Marker.gray (h.drainBarrier.marker.complete) = [] := Marker.gray_complete _
  unfold markAll
  rw [arena_marking hc', ← hgray]
  exact Marker.tricolor_complete (m := h.drainBarrier.marker) hsound.layout hdrained

theorem grays_markAll
    (hc : h.collector.isSome = true) :
    h.markAll.grays = [] := by
  unfold markAll
  rw [grays_marking ((isSome_collector_drainBarrier h).trans hc)]
  exact Marker.gray_complete _

theorem isSome_collector_markAll (h : Heap) :
    h.markAll.collector.isSome = h.collector.isSome :=
  (isSome_collector_marking _ _).trans (isSome_collector_drainBarrier h)

theorem tricolor_of_markAll
    (hs : h.Sound)
    (hc : h.collector.isSome = true)
    (ht : h.Tricolor) :
    h.markAll.Tricolor := by
  unfold Tricolor
  rw [grays_markAll hc]
  exact (markAll_tricolor hs hc ht).mono fun _ => False.elim

/-! ### What is marked -/

/-- Painting never takes a mark away. -/
theorem Steps.painted
    (hsteps : Steps (· = .paint) h h')
    (hs : h.Sound)
    (hx : h.arena.Object x c)
    (hcol : c.header.color ≠ .white) :
    ∃ d, h'.arena.Object x d ∧ d.header.color ≠ .white := by
  obtain ⟨hd, hcell, hst, hrank⟩ := hsteps.stays_reached hs hx.1 hx.2 hcol (by simp) (by simp)
  exact ⟨_, ⟨hcell, hst⟩, Color.ne_white_of_rank hrank hcol⟩

theorem Steps.recolored
    (hsteps : Steps (· = .paint) h h') :
    Arena.Recolored h.arena h'.arena := by
  induction hsteps with
  | refl => exact Arena.Recolored.refl _
  | tail _ hlast ih =>
      obtain ⟨l, rfl, ht⟩ := hlast
      cases ht with
      | paint b k hp => exact ih.trans hp

/-- The roots are marked once they were shaded. -/
theorem shadeRoots_marks
    {roots : List Nat}
    (hc : h.collector.isSome = true)
    (hx : x ∈ roots ++ h.records.roots)
    (ho : (h.shadeRoots roots).arena.Object x c) :
    c.header.color ≠ .white := by
  unfold shadeRoots at ho
  rw [arena_marking hc] at ho
  obtain ⟨hcell, hst⟩ := ho
  rw [Marker.cell?_shadeAll, if_pos hx] at hcell
  obtain ⟨d, hd, rfl⟩ := Option.map_eq_some_iff.1 hcell
  exact Header.color_shaded_ne d.header (by simpa [Cell.shaded] using hst)

theorem records_drainBarrier (h : Heap) : h.drainBarrier.records = h.records :=
  records_marking _ _

theorem records_markAll (h : Heap) : h.markAll.records = h.records :=
  (records_marking _ _).trans (records_drainBarrier h)

/-- Whatever can be reached once marking was finished is marked. -/
theorem Reachable.marked
    {roots : List Nat}
    (hs : h.Sound)
    (hc : h.collector.isSome = true)
    (ht : h.Tricolor)
    (hx : (h.shadeRoots roots).markAll.Reachable roots x)
    (ho : (h.shadeRoots roots).markAll.arena.Object x c) :
    c.header.color ≠ .white := by
  have hsound := (shadeRoots_steps h roots).sound hs
  have hc' : (h.shadeRoots roots).collector.isSome = true :=
    (isSome_collector_marking _ _).trans hc
  have hrecords : (h.shadeRoots roots).markAll.records = h.records :=
    (records_markAll _).trans (records_marking _ _)
  refine (markAll_tricolor hsound hc' (shadeRoots_tricolor hc ht roots)).reached ?_ hx c ho
  intro y hy d hd
  rw [hrecords, ← List.mem_append] at hy
  -- The root was shaded, and painting does not take the mark away.
  obtain ⟨e, col, he, rfl⟩ := (markAll_steps _).recolored.object hd
  obtain ⟨g, hg, hne⟩ := (markAll_steps _).painted hsound he (shadeRoots_marks hc hy he)
  exact hg.unique hd ▸ hne

/-! ### Resurrection -/

theorem resurrectEach_steps (xs : List Nat) (h : Heap) :
    Steps (fun l => ∃ x ∈ xs, l = .finalize x) h (xs.foldl resurrect h) := by
  induction xs generalizing h with
  | nil => exact Steps.refl h
  | cons x xs ih =>
      have hfirst : Steps (fun l => ∃ y ∈ x :: xs, l = .finalize y) h (h.resurrect x) :=
        Steps.single ⟨x, List.mem_cons_self .., rfl⟩ (.finalize x)
      refine hfirst.trans ((ih (h.resurrect x)).mono ?_)
      rintro l ⟨y, hy, rfl⟩
      exact ⟨y, List.mem_cons_of_mem _ hy, rfl⟩

theorem collector_resurrectEach (xs : List Nat) (h : Heap) :
    (xs.foldl resurrect h).collector = h.collector := by
  induction xs generalizing h with
  | nil => rfl
  | cons x xs ih => exact (ih (h.resurrect x)).trans (sameCycle_resurrect h x).collector

/-- Resurrection queues the finalizers of the unreached objects that have some, and paints. -/
theorem resurrectAll_steps (h : Heap) :
    Steps (fun l => l = .paint ∨ ∃ x ∈ h.resurrectable, l = .finalize x) h h.resurrectAll.2 := by
  unfold resurrectAll
  simp only
  split
  · exact Steps.refl h
  · refine ((resurrectEach_steps _ h).mono fun l hl => Or.inr hl).trans ?_
    exact ((marking_steps (fun m => Marker.recolored_shadeAll _ m) _).trans
      (markAll_steps _)).mono fun l hl => Or.inl hl

theorem isSome_collector_resurrectAll (h : Heap) :
    h.resurrectAll.2.collector.isSome = h.collector.isSome := by
  unfold resurrectAll
  simp only
  split
  · rfl
  · rw [isSome_collector_markAll, isSome_collector_marking, collector_resurrectEach]

/-- Changes that respect the barrier keep the tri-color invariant. -/
theorem Steps.tricolor
    {P : Act → Prop}
    (hsteps : Steps P h h')
    (hs : h.Sound)
    (hP : ∀ l, P l → l.Barred)
    (hm : h.phase.isMarking = true)
    (ht : h.Tricolor) :
    h'.Tricolor := by
  refine (hsteps.induct (R := fun g => g.phase.isMarking = true ∧ g.Tricolor) hs ⟨hm, ht⟩ ?_).2.2
  rintro g l g' hg ⟨hgm, hgt⟩ hl htick
  refine ⟨?_, htick.tricolor hg (hP l hl) hgm hgt⟩
  have hbegin : l ≠ .begin := fun e => (e ▸ hP l hl : Act.Barred .begin)
  have hturn : l ≠ .turn := fun e => (e ▸ hP l hl : Act.Barred .turn)
  rw [htick.phase hbegin hturn]
  exact hgm

theorem resurrectAll_tricolor
    (hs : h.Sound)
    (hc : h.collector.isSome = true)
    (hm : h.phase.isMarking = true)
    (ht : h.Tricolor) :
    h.resurrectAll.2.Tricolor := by
  unfold resurrectAll
  simp only
  split
  · exact ht
  · have hqueued := resurrectEach_steps h.resurrectable h
    have hq : (h.resurrectable.foldl resurrect h).Tricolor := by
      refine hqueued.tricolor hs ?_ hm ht
      rintro l ⟨x, -, rfl⟩
      trivial
    have hc' : (h.resurrectable.foldl resurrect h).collector.isSome = true := by
      rw [collector_resurrectEach]
      exact hc
    have hshaded : Heap.Tricolor
        ((h.resurrectable.foldl resurrect h).marking (·.shadeAll h.resurrectable)) := by
      unfold Tricolor
      rw [arena_marking hc', grays_marking hc', barrier_marking]
      exact (Marker.tricolor_shadeAll (m := (h.resurrectable.foldl resurrect h).marker) _ hq).mono
        fun y hy => hy.1
    refine tricolor_of_markAll ?_ ((isSome_collector_marking _ _).trans hc') hshaded
    exact (marking_steps (fun m => Marker.recolored_shadeAll _ m) _).sound (hqueued.sound hs)

end EagerHeap.Heap
