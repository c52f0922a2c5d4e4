import EagerHeap.Proofs.Cycle.Marked
import EagerHeap.Proofs.Heap.Finalizers
/-!
# Resurrection in a cycle

After marking, the finalizers of the white objects that have some are queued, and these objects are
marked with everything that they reach. Then exactly what can be reached from the roots and from all
objects with finalizers is black.

Main results: `resurrects_resurrectAll` and `marked_resurrectAll`.
-/

namespace EagerHeap

namespace Arena

variable {a a' a'' : Arena} {L : Nat → Prop} {gray : List Nat} {x : Nat} {c : Cell}

/-- The second arena differs from the first one in flags only. -/
structure SameMarks (a a' : Arena) : Prop where
  alike : Alike a a'
  colors : ∀ x c, a.Object x c → ∃ d, a'.Object x d ∧ d.header.color = c.header.color
  spare : ∀ x c, a.cell? x = some c → c.header.state ≠ .allocated → a'.cell? x = some c

theorem SameMarks.refl (a : Arena) : SameMarks a a :=
  ⟨Alike.refl a, fun _ c ho => ⟨c, ho, rfl⟩, fun _ _ hx _ => hx⟩

theorem SameMarks.trans
    (h : SameMarks a a')
    (h' : SameMarks a' a'') :
    SameMarks a a'' := by
  refine ⟨h.alike.trans h'.alike, fun x c ho => ?_, fun x c hx hst =>
    h'.spare x c (h.spare x c hx hst) hst⟩
  obtain ⟨d, hd, hcol⟩ := h.colors x c ho
  obtain ⟨e, he, hcol'⟩ := h'.colors x d hd
  exact ⟨e, he, hcol'.trans hcol⟩

theorem SameMarks.object
    (h : SameMarks a a')
    (ho : a'.Object x c) :
    ∃ b, a.Object x b ∧ c.header.color = b.header.color := by
  obtain ⟨b, hd, hb, rfl, hst⟩ := h.alike.exists_cell? ho.1
  have hob : a.Object x b := ⟨hb, hst ▸ ho.2⟩
  obtain ⟨d, hd', hcol⟩ := h.colors x b hob
  rw [← hd'.unique ho]
  exact ⟨b, hob, hcol⟩

theorem SameMarks.isBlack
    (h : SameMarks a a')
    (x : Nat) :
    a'.isBlack x = a.isBlack x := by
  rw [Bool.eq_iff_iff, isBlack_iff, isBlack_iff]
  constructor
  · rintro ⟨d, hd, hb⟩
    obtain ⟨c, hc, hcol⟩ := h.object hd
    exact ⟨c, hc, hcol.symm.trans hb⟩
  · rintro ⟨c, hc, hb⟩
    obtain ⟨d, hd, hcol⟩ := h.colors x c hc
    exact ⟨d, hd, hcol.trans hb⟩

theorem SameMarks.tricolor
    {S : Nat → Prop}
    (h : SameMarks a a')
    (ht : a.Tricolor gray S) :
    a'.Tricolor gray S := by
  refine ⟨fun x d hd hg => ?_, fun x y c d hc hb hp hd hw => ?_⟩
  · obtain ⟨c, hc, hcol⟩ := h.object hd
    exact ht.listed x c hc (hcol.symm.trans hg)
  · obtain ⟨c', hc', hcol⟩ := h.object hc
    obtain ⟨d', hd', hcol'⟩ := h.object hd
    exact ht.seen x y c' d' hc' (hcol.symm.trans hb) (h.alike.points_iff.1 hp) hd'
      (hcol'.symm.trans hw)

theorem sameMarks_clearFlag
    (hx : a.isAllocated x = true) :
    SameMarks a (a.modifyHeaderAt x (·.clearFlag Header.sideRecord)) := by
  have hcells := cell?_modifyHeaderAt a x (·.clearFlag Header.sideRecord)
  obtain ⟨b, hb, hal⟩ := isAllocated_iff.1 hx
  have hspare : ∀ y c, a.cell? y = some c → c.header.state ≠ .allocated →
      (a.modifyHeaderAt x (·.clearFlag Header.sideRecord)).cell? y = some c := by
    intro y c hy hst
    have hyx : y ≠ x := by
      rintro rfl
      obtain rfl := Option.some.inj (hb.symm.trans hy)
      exact hst hal
    rw [hcells, if_neg hyx]
    exact hy
  refine ⟨⟨sameOutline_modifyHeaderAt .., Heap.memory_modifyHeaderAt .., fun y c hy => ?_,
    fun y c hy hst => ⟨c.header.color, hspare y c hy hst⟩⟩, fun y c ho => ?_, hspare⟩
  · rw [hcells]
    by_cases hyx : y = x
    · rw [if_pos hyx, ← hyx, hy]
      exact ⟨_, rfl, rfl⟩
    · rw [if_neg hyx]
      exact ⟨c.header, hy, rfl⟩
  · unfold Object
    rw [hcells]
    by_cases hyx : y = x
    · rw [if_pos hyx, ← hyx, ho.1]
      exact ⟨_, ⟨rfl, ho.2⟩, rfl⟩
    · rw [if_neg hyx]
      exact ⟨c, ho, rfl⟩

end Arena

/-- Marking does not depend on flags. -/
theorem Marker.Exact.of_sameMarks
    {m : Marker} {a' : Arena} {L : Nat → Prop}
    (he : m.Exact L)
    (h : Arena.SameMarks m.arena a')
    (hl : a'.Layout) :
    { m with arena := a' }.Exact L := by
  refine ⟨hl, fun x y hx hp hal => ?_, h.tricolor he.tricolor, fun x c ho hne => ?_, ?_⟩
  · exact he.closed x y hx (h.alike.points_iff.1 hp) ((h.alike.isAllocated y).symm.trans hal)
  · obtain ⟨b, hb, hcol⟩ := h.object ho
    exact he.within x b hb (hcol ▸ hne)
  · unfold Arena.blackCount
    rw [h.alike.outline.cells, funext h.isBlack]
    exact he.counted

namespace Heap

variable {h : Heap} {L : Nat → Prop} {roots : Nat → Prop} {xs : List Nat} {x : Nat}

/-! ### Queueing the finalizers of several objects -/

theorem sameMarks_resurrect
    (hx : h.arena.isAllocated x = true) :
    Arena.SameMarks h.arena (h.resurrect x).arena := by
  rw [arena_resurrect]
  split
  · exact Arena.sameMarks_clearFlag hx
  · exact Arena.SameMarks.refl _

theorem sameMarks_resurrectEach
    (hxs : ∀ x ∈ xs, h.arena.isAllocated x = true) :
    Arena.SameMarks h.arena (xs.foldl resurrect h).arena := by
  induction xs generalizing h with
  | nil => exact Arena.SameMarks.refl _
  | cons x xs ih =>
      have hfirst := sameMarks_resurrect (hxs x (List.mem_cons_self ..))
      refine hfirst.trans (ih fun y hy => ?_)
      rw [hfirst.alike.isAllocated]
      exact hxs y (List.mem_cons_of_mem _ hy)

theorem records_resurrectEach (xs : List Nat) (h : Heap) :
    (xs.foldl resurrect h).records =
      xs.foldl (fun t x => (t.queueFinalizers x).2) h.records := by
  induction xs generalizing h with
  | nil => rfl
  | cons x xs ih =>
      rw [List.foldl_cons, List.foldl_cons, ih, records_resurrect]

theorem workers_resurrectEach (xs : List Nat) (h : Heap) :
    (xs.foldl resurrect h).workers = h.workers := by
  induction xs generalizing h with
  | nil => rfl
  | cons x xs ih => exact (ih (h.resurrect x)).trans (workers_resurrect h x)

theorem barrier_resurrectEach (xs : List Nat) (h : Heap) :
    (xs.foldl resurrect h).barrier = h.barrier := by
  induction xs generalizing h with
  | nil => rfl
  | cons x xs ih =>
      refine (ih (h.resurrect x)).trans ?_
      unfold resurrect
      simp only
      split <;> rfl

/-- Queueing finalizers does not disturb marking. -/
theorem Marking.resurrectEach
    (hm : h.Marking L)
    (hs : h.Sound)
    (hxs : ∀ x ∈ xs, h.arena.isAllocated x = true) :
    (xs.foldl resurrect h).Marking L := by
  have hcollector := collector_resurrectEach xs h
  have hexact := hm.exact.of_sameMarks (sameMarks_resurrectEach hxs)
    ((resurrectEach_steps xs h).sound hs).layout
  refine ⟨hcollector ▸ hm.attached, (barrier_resurrectEach xs h).trans hm.drained, ?_⟩
  unfold marker grays at hexact ⊢
  rw [hcollector]
  exact hexact

/-! ### Resurrection -/

theorem nodup_resurrectable (h : Heap) : h.resurrectable.Nodup :=
  h.records.attached.nodup_keys.filter _

/-- Records are attached to objects. -/
theorem Sound.isAllocated_of_hasFinalizer
    (hs : h.Sound)
    (hx : h.records.hasFinalizer x = true) :
    h.arena.isAllocated x = true := by
  obtain ⟨l, hl⟩ := SideRecords.find?_of_hasFinalizer hx
  exact (hs.recorded.live x l hl).2

theorem Sound.isAllocated_of_resurrectable
    (hs : h.Sound)
    (hx : x ∈ h.resurrectable) :
    h.arena.isAllocated x = true :=
  hs.isAllocated_of_hasFinalizer (mem_resurrectable.1 hx).1

/-- Nothing but records and marks changes in a resurrection. -/
structure Resurrects (h h' : Heap) : Prop where
  alike : Arena.Alike h.arena h'.arena
  spare : ∀ x c, h.arena.cell? x = some c → c.header.state ≠ .allocated →
    h'.arena.cell? x = some c
  account : h'.collector.map Collector.unmarked = h.collector.map Collector.unmarked
  records : h'.records =
    h.resurrectable.foldl (fun t x => (t.queueFinalizers x).2) h.records
  workers : h'.workers = h.workers

theorem resurrects_resurrectAll
    (hs : h.Sound) :
    Resurrects h h.resurrectAll.2 := by
  unfold resurrectAll
  simp only
  split
  · next hnil =>
      refine ⟨Arena.Alike.refl _, fun _ _ hx _ => hx, rfl, ?_, rfl⟩
      rw [List.isEmpty_iff.1 hnil]
      rfl
  · have hmarks := sameMarks_resurrectEach fun x hx => hs.isAllocated_of_resurrectable hx
    have hpainted := (painted_marking (fun m => Marker.recolored_shadeAll h.resurrectable m)
      (h.resurrectable.foldl resurrect h)).trans (painted_markAll _)
    refine ⟨hmarks.alike.trans hpainted.recolored.alike, fun x c hx hst => ?_, ?_, ?_, ?_⟩
    · exact hpainted.recolored.cell?_spare (hmarks.spare x c hx hst) hst
    · exact hpainted.account.trans (by rw [collector_resurrectEach])
    · exact hpainted.records.trans (records_resurrectEach _ _)
    · exact hpainted.workers.trans (workers_resurrectEach _ _)

/-- After a resurrection exactly what can be reached from the roots and from objects with finalizers
is black. -/
theorem marked_resurrectAll
    (hs : h.Sound)
    (hm : h.Marking (h.arena.Reachable roots))
    (hgray : h.grays = [])
    (hmarked : h.arena.Marked (h.arena.Reachable roots)) :
    h.resurrectAll.2.Marking
        (h.arena.Reachable fun y => roots y ∨ h.records.hasFinalizer y = true) ∧
      h.resurrectAll.2.arena.Marked
        (h.arena.Reachable fun y => roots y ∨ h.records.hasFinalizer y = true) := by
  have hmore : ∀ x, h.arena.Reachable roots x →
      h.arena.Reachable (fun y => roots y ∨ h.records.hasFinalizer y = true) x :=
    fun x hx => hx.mono fun y hy => Or.inl hy
  have hwide : h.Marking (h.arena.Reachable fun y => roots y ∨ h.records.hasFinalizer y = true) :=
    ⟨hm.attached, hm.drained, hm.exact.widen hmore fun x y hx hp hal => .word hx hp hal⟩
  have hroots : ∀ x, roots x → ∀ c, h.arena.Object x c → c.header.color ≠ .white := by
    intro x hx c ho hw
    rcases hmarked x c ho with ⟨-, hb⟩ | ⟨hnot, -⟩
    · rw [hw] at hb
      cases hb
    · exact hnot (.root ho.isAllocated hx)
  have hreached : ∀ x, h.arena.isReached x = true →
      ∀ c, h.arena.Object x c → c.header.color ≠ .white := by
    intro x hx c ho
    obtain ⟨d, hd, hst, hne⟩ := Arena.isReached_iff.1 hx
    exact ho.unique ⟨hd, hst⟩ ▸ hne
  unfold resurrectAll
  simp only
  split
  · next hnil =>
      refine ⟨hwide, hwide.exact.marked hgray (fun x hx => hx) fun x c hx => ?_⟩
      rcases hx with hx | hf
      · exact hroots x hx c
      · refine hreached x ?_ c
        by_contra hnot
        have hmem := mem_resurrectable.2 ⟨hf, Bool.not_eq_true _ ▸ hnot⟩
        rw [List.isEmpty_iff.1 hnil] at hmem
        cases hmem
  · have hdead : ∀ x ∈ h.resurrectable, h.arena.isAllocated x = true :=
      fun x hx => hs.isAllocated_of_resurrectable hx
    have hmarks := sameMarks_resurrectEach hdead
    have hqueued := hwide.resurrectEach hs hdead
    generalize h.resurrectable.foldl resurrect h = g at hmarks hqueued
    have hshaded : (g.marking (·.shadeAll h.resurrectable)).Marking
        (h.arena.Reachable fun y => roots y ∨ h.records.hasFinalizer y = true) := by
      refine hqueued.marking (f := (·.shadeAll h.resurrectable))
        (Marker.exact_shadeAll _ hqueued.exact fun x hx _ => ?_)
      exact .root (hdead x hx) (Or.inr (mem_resurrectable.1 hx).1)
    have hpainted := painted_marking (fun m => Marker.recolored_shadeAll h.resurrectable m) g
    refine ⟨hshaded.markAll, ?_⟩
    rw [← (hmarks.alike.trans hpainted.recolored.alike).reachable_eq] at hshaded ⊢
    refine hshaded.marked_markAll fun x c hx => ?_
    -- An object that was marked before still is.
    have hstays : (∀ c, h.arena.Object x c → c.header.color ≠ .white) →
        ∀ c, (g.marking (·.shadeAll h.resurrectable)).arena.Object x c →
          c.header.color ≠ .white := by
      intro hne
      refine hpainted.recolored.ne_white fun d hd => ?_
      obtain ⟨b, hb, hcol⟩ := hmarks.object hd
      exact hcol ▸ hne b hb
    rcases hx with hx | hf
    · exact hstays (hroots x hx) c
    · cases hr : h.arena.isReached x with
      | true => exact hstays (hreached x hr) c
      | false =>
          intro hd
          rw [arena_marking hqueued.attached] at hd
          obtain ⟨hcell, hst⟩ := hd
          rw [Marker.cell?_shadeAll, if_pos (mem_resurrectable.2 ⟨hf, hr⟩)] at hcell
          obtain ⟨e, he, rfl⟩ := Option.map_eq_some_iff.1 hcell
          exact Header.color_shaded_ne e.header (by simpa [Cell.shaded] using hst)

end Heap

end EagerHeap
