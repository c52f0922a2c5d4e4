import EagerHeap.Proofs.Marking.Exact
import EagerHeap.Proofs.Marking.Operations
/-!
# The marking half of a cycle

A cycle that nothing interrupts begins with white objects, shades the roots, marks in steps, and
marks to the end. Then the objects that can be reached from the roots are black and the others are
white, and nothing else has changed.

Main results: `marking_begin` and `Marking.marked_shadeRoots`.
-/

namespace EagerHeap

/-- The collector apart from what marking changes. -/
def Collector.unmarked (k : Collector) : Collector := { k with gray := [], marked := 0 }

namespace Arena

variable {a a' : Arena} {x : Nat}

/-- An object that is marked stays marked. -/
theorem Recolored.ne_white
    (hr : Recolored a a')
    (hx : ∀ c, a.Object x c → c.header.color ≠ .white) :
    ∀ c, a'.Object x c → c.header.color ≠ .white := by
  intro c ho
  obtain ⟨b, d, hb, rfl, hrank, -⟩ := hr.exists_cell? ho.1
  exact Color.ne_white_of_rank hrank (hx b ⟨hb, ho.2⟩)

end Arena

namespace Heap

variable {h h' h'' : Heap} {f : Marker → Marker} {L : Nat → Prop} {roots : List Nat} {x : Nat}

/-- Nothing has changed but colors, the list and the count of gray objects, and where the cycle
stands. -/
structure Painted (h h' : Heap) : Prop where
  recolored : Arena.Recolored h.arena h'.arena
  account : h'.collector.map Collector.unmarked = h.collector.map Collector.unmarked
  records : h'.records = h.records
  workers : h'.workers = h.workers
  config : h'.config = h.config

theorem Painted.refl (h : Heap) : Painted h h := ⟨Arena.Recolored.refl _, rfl, rfl, rfl, rfl⟩

theorem Painted.trans
    (h₁ : Painted h h')
    (h₂ : Painted h' h'') :
    Painted h h'' :=
  ⟨h₁.recolored.trans h₂.recolored, h₂.account.trans h₁.account, h₂.records.trans h₁.records,
    h₂.workers.trans h₁.workers, h₂.config.trans h₁.config⟩

theorem Painted.isSome_collector
    (hp : Painted h h') :
    h'.collector.isSome = h.collector.isSome := by
  have heq := congrArg Option.isSome hp.account
  rwa [Option.isSome_map, Option.isSome_map] at heq

theorem painted_marking
    (hf : ∀ m : Marker, Arena.Recolored m.arena (f m).arena)
    (h : Heap) :
    Painted h (h.marking f) := by
  unfold marking
  split
  · exact Painted.refl h
  · next k hk => exact ⟨hf ⟨h.arena, k.gray, k.marked⟩, by rw [hk]; rfl, rfl, rfl, rfl⟩

theorem painted_nextPhase (h : Heap) : Painted h h.nextPhase.2 :=
  ⟨Arena.Recolored.refl _, rfl, rfl, rfl, rfl⟩

theorem painted_shadeRoots (h : Heap) (roots : List Nat) : Painted h (h.shadeRoots roots) :=
  painted_marking (fun m => Marker.recolored_shadeAll _ m) h

theorem painted_drainBarrier (h : Heap) : Painted h h.drainBarrier := by
  have hdrained : Painted h { h with barrier := #[] } :=
    ⟨Arena.Recolored.refl _, rfl, rfl, rfl, rfl⟩
  exact hdrained.trans (painted_marking (fun m => Marker.recolored_shadeAll _ m) _)

theorem painted_markStep (h : Heap) (n : Nat) : Painted h (h.markStep n) :=
  (painted_drainBarrier h).trans (painted_marking (Marker.recolored_advance n) _)

theorem painted_markAll (h : Heap) : Painted h h.markAll :=
  (painted_drainBarrier h).trans (painted_marking Marker.recolored_complete _)

theorem painted_markSteps (budget n : Nat) (h : Heap) : Painted h (markSteps budget n h) := by
  induction n generalizing h with
  | zero => exact Painted.refl h
  | succ n ih =>
      unfold markSteps
      simp only
      split
      · exact (painted_markStep h budget).trans (ih _)
      · exact painted_markStep h budget

/-! ### Exact marking -/

/-- The collector marks objects that satisfy `L`, and nothing was stored since it last looked. -/
structure Marking (h : Heap) (L : Nat → Prop) : Prop where
  attached : h.collector.isSome = true
  drained : h.barrier = #[]
  exact : h.marker.Exact L

theorem Marking.marking
    (hm : h.Marking L)
    (hf : (f h.marker).Exact L) :
    (h.marking f).Marking L := by
  have hattached := (isSome_collector_marking h f).trans hm.attached
  refine ⟨hattached, (barrier_marking h f).trans hm.drained, ?_⟩
  rwa [marker_marking hm.attached]

theorem Marking.nextPhase
    (hm : h.Marking L) :
    h.nextPhase.2.Marking L :=
  ⟨hm.attached, hm.drained, hm.exact⟩

theorem Marking.shadeRoots
    (hm : h.Marking L)
    (hroots : ∀ x ∈ roots ++ h.records.roots, h.arena.isAllocated x = true → L x) :
    (h.shadeRoots roots).Marking L :=
  hm.marking (Marker.exact_shadeAll _ hm.exact hroots)

theorem Marking.drainBarrier
    (hm : h.Marking L) :
    h.drainBarrier.Marking L := by
  have hsame : ({ h with barrier := #[] } : Heap).Marking L := ⟨hm.attached, rfl, hm.exact⟩
  refine hsame.marking (f := (·.shadeAll h.barrier.toList))
    (Marker.exact_shadeAll _ hsame.exact fun x hx => ?_)
  rw [hm.drained] at hx
  cases hx

theorem Marking.markStep
    (hm : h.Marking L)
    (n : Nat) :
    (h.markStep n).Marking L :=
  hm.drainBarrier.marking (Marker.exact_advance n hm.drainBarrier.exact)

theorem Marking.markAll
    (hm : h.Marking L) :
    h.markAll.Marking L :=
  hm.drainBarrier.marking (Marker.exact_complete hm.drainBarrier.exact)

theorem Marking.markSteps
    (hm : h.Marking L)
    (budget n : Nat) :
    (markSteps budget n h).Marking L := by
  induction n generalizing h with
  | zero => exact hm
  | succ n ih =>
      unfold Heap.markSteps
      simp only
      split
      · exact ih (hm.markStep budget)
      · exact hm.markStep budget

/-- A cycle begins without marked objects. -/
theorem marking_begin
    (hs : h.Sound)
    (hc : h.collector.isSome = true)
    (hb : h.barrier = #[])
    (hclosed : ∀ x y, L x → h.arena.Points x y → h.arena.isAllocated y = true → L y) :
    h.resetCycle.nextPhase.2.Marking L := by
  have halike := Arena.alike_resetColors h.arena
  have hlayout : h.arena.resetColors.Layout := (Tick.begin h).layout hs
  refine ⟨Option.isSome_map.trans hc, hb, hlayout, fun x y hx hp hal => ?_,
    Arena.tricolor_resetColors h.arena, fun x c ho hne => ?_, ?_⟩
  · exact hclosed x y hx (halike.points_iff.1 hp) ((halike.isAllocated y).symm.trans hal)
  · exact absurd (Arena.color_resetColors ho) hne
  · have hnone : h.arena.resetColors.blackCount = 0 := by
      refine List.countP_eq_zero.2 fun x _ hx => ?_
      obtain ⟨c, ho, hblack⟩ := Arena.isBlack_iff.1 hx
      rw [Arena.color_resetColors ho] at hblack
      cases hblack
    obtain ⟨k, hk⟩ := Option.isSome_iff_exists.1 hc
    refine Eq.trans ?_ hnone.symm
    unfold marker Heap.nextPhase resetCycle modifyCollector
    simp [hk]

/-- Once no object is gray any more, exactly what can be reached from marked roots is black. -/
theorem Marking.marked_markAll
    {R : Nat → Prop}
    (hm : h.Marking (h.arena.Reachable R))
    (hroots : ∀ x c, R x → h.arena.Object x c → c.header.color ≠ .white) :
    h.markAll.arena.Marked (h.arena.Reachable R) := by
  have hr := (painted_markAll h).recolored
  refine hm.markAll.exact.marked (grays_markAll hm.attached) (fun x hx => hr.alike.reachable hx) ?_
  exact fun x c hx => hr.ne_white (fun d => hroots x d hx) c

/-- Marking that starts with the given roots leaves exactly what can be reached from them black. -/
theorem Marking.marked_shadeRoots
    (hm : h.Marking (h.Reachable roots)) :
    (h.shadeRoots roots).markAll.Marking (h.Reachable roots) ∧
      (h.shadeRoots roots).markAll.arena.Marked (h.Reachable roots) := by
  have hshaded : (h.shadeRoots roots).Marking (h.Reachable roots) :=
    hm.shadeRoots fun x hx hal => .root hal (List.mem_append.1 hx)
  have heq : (h.shadeRoots roots).arena.Reachable (fun y => y ∈ roots ∨ y ∈ h.records.roots) =
      h.Reachable roots :=
    (painted_shadeRoots h roots).recolored.alike.reachable_eq
  refine ⟨hshaded.markAll, ?_⟩
  rw [← heq] at hshaded ⊢
  exact hshaded.marked_markAll fun x c hx => shadeRoots_marks hm.attached (List.mem_append.2 hx)

end Heap

end EagerHeap
