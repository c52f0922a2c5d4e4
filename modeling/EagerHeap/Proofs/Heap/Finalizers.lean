import EagerHeap.Proofs.Marking.Operations
import EagerHeap.Proofs.Sweeping.Visits
/-!
# The way of a finalizer

A finalizer stays attached to its object until the finalizers of that object are queued, and then it
stays in the queue until the queue is taken as a batch. The sweeper never frees an object with a
finalizer: it queues the finalizer and keeps the object.

Main results: `Steps.finalizer`, `reached_resurrectAll` and `Visits.finalizer`.
-/

namespace EagerHeap

/-- The record is attached to the object at an address. -/
def SideRecords.Attached (t : SideRecords) (x : Nat) (r : SideRecord) : Prop :=
  r ∈ (t.attached.find? x).getD []

theorem SideRecords.Attached.hasFinalizer
    {t : SideRecords} {x : Nat} {r : SideRecord}
    (h : t.Attached x r)
    (hr : r.isFinalizer = true) :
    t.hasFinalizer x = true :=
  List.any_eq_true.2 ⟨r, h, hr⟩

theorem SideRecords.Attached.exists_find?
    {t : SideRecords} {x : Nat} {r : SideRecord}
    (h : t.Attached x r) :
    ∃ rs, t.attached.find? x = some rs ∧ r ∈ rs := by
  unfold SideRecords.Attached at h
  cases hfind : t.attached.find? x with
  | none =>
      rw [hfind] at h
      cases h
  | some rs =>
      rw [hfind] at h
      exact ⟨rs, rfl, h⟩

namespace Heap

variable {h h' g : Heap} {l : Act} {x y : Nat} {c : Cell} {r : SideRecord} {p : PendingRecord}
  {P : Act → Prop} {xs : List Nat} {cs : List Cell}

/-! ### Elementary changes -/

/-- The running batches change only when a batch starts or ends. -/
theorem Tick.running
    (ht : Tick h l h')
    (hl : l ≠ .batch) :
    h'.records.running = h.records.running := by
  by_cases hrec : l.OfRecords
  · cases ht with
    | @attach x kind hx =>
        rw [(attachRecord_eq kind hx).2]
        rfl
    | finalize x =>
        rw [records_resurrect]
        exact SideRecords.running_queueFinalizers _ _
    | cleanup hf => rfl
    | batch => exact absurd rfl hl
    | _ => cases hrec
  · rw [ht.records hrec]

/-- What is queued stays queued. -/
theorem Tick.pending
    (ht : Tick h l h')
    (hl : l ≠ .batch)
    (hp : p ∈ h.records.pending) :
    p ∈ h'.records.pending := by
  by_cases hrec : l.OfRecords
  · cases ht with
    | @attach x kind hx =>
        rw [(attachRecord_eq kind hx).2]
        exact hp
    | finalize x =>
        rw [records_resurrect, SideRecords.pending_queueFinalizers]
        exact List.mem_append_left _ hp
    | cleanup hf =>
        rw [SideRecords.pending_queueCleanups hf]
        exact List.mem_append_left _ hp
    | batch => exact absurd rfl hl
    | _ => cases hrec
  · rwa [ht.records hrec]

/-- A finalizer stays attached unless the finalizers of its object are queued. -/
theorem Tick.attached
    (ht : Tick h l h')
    (hl : l ≠ .finalize x)
    (hr : r.isFinalizer = true)
    (ha : h.records.Attached x r) :
    h'.records.Attached x r := by
  unfold SideRecords.Attached at ha ⊢
  by_cases hrec : l.OfRecords
  · cases ht with
    | @attach y kind hy =>
        rw [(attachRecord_eq kind hy).2]
        by_cases hxy : x = y
        · subst hxy
          rw [SideRecords.attached_attach_self]
          exact List.mem_append_left _ ha
        · rwa [SideRecords.attached_attach_of_ne _ _ hxy]
    | finalize y =>
        have hxy : x ≠ y := by
          rintro rfl
          exact hl rfl
        rwa [records_resurrect, SideRecords.attached_queueFinalizers_of_ne _ hxy]
    | @cleanup y hf =>
        have hxy : x ≠ y := by
          rintro rfl
          rw [SideRecords.Attached.hasFinalizer ha hr] at hf
          cases hf
        rwa [SideRecords.attached_queueCleanups_of_ne _ hxy]
    | batch hq => rwa [hq]
    | _ => cases hrec
  · rwa [ht.records hrec]

/-- The finalizers of an object are queued together. -/
theorem queued_resurrect
    (hr : r.isFinalizer = true)
    (ha : h.records.Attached x r) :
    ⟨x, r⟩ ∈ (h.resurrect x).records.pending := by
  rw [records_resurrect, SideRecords.pending_queueFinalizers]
  exact List.mem_append_right _ (List.mem_map.2 ⟨r, List.mem_filter.2 ⟨ha, hr⟩, rfl⟩)

theorem Tick.finalizer
    (ht : Tick h l h')
    (hl : l ≠ .batch)
    (hr : r.isFinalizer = true)
    (hw : h.records.Attached x r ∨ ⟨x, r⟩ ∈ h.records.pending) :
    h'.records.Attached x r ∨ ⟨x, r⟩ ∈ h'.records.pending := by
  rcases hw with ha | hp
  · by_cases hfin : l = .finalize x
    · subst hfin
      cases ht
      exact Or.inr (queued_resurrect hr ha)
    · exact Or.inl (ht.attached hfin hr ha)
  · exact Or.inr (ht.pending hl hp)

/-! ### Sequences of changes -/

theorem Steps.running
    (hsteps : Steps P h h')
    (hP : ¬ P .batch) :
    h'.records.running = h.records.running := by
  induction hsteps with
  | refl => rfl
  | tail _ hlast ih =>
      obtain ⟨l, hl, ht⟩ := hlast
      exact (ht.running fun e => hP (e ▸ hl)).trans ih

theorem Steps.pending
    (hsteps : Steps P h h')
    (hP : ¬ P .batch)
    (hp : p ∈ h.records.pending) :
    p ∈ h'.records.pending := by
  induction hsteps with
  | refl => exact hp
  | tail _ hlast ih =>
      obtain ⟨l, hl, ht⟩ := hlast
      exact ht.pending (fun e => hP (e ▸ hl)) ih

theorem Steps.attached
    (hsteps : Steps P h h')
    (hP : ¬ P (.finalize x))
    (hr : r.isFinalizer = true)
    (ha : h.records.Attached x r) :
    h'.records.Attached x r := by
  induction hsteps with
  | refl => exact ha
  | tail _ hlast ih =>
      obtain ⟨l, hl, ht⟩ := hlast
      exact ht.attached (fun e => hP (e ▸ hl)) hr ih

/-- A finalizer that is attached or queued stays attached or queued until a batch is taken. -/
theorem Steps.finalizer
    (hsteps : Steps P h h')
    (hP : ¬ P .batch)
    (hr : r.isFinalizer = true)
    (hw : h.records.Attached x r ∨ ⟨x, r⟩ ∈ h.records.pending) :
    h'.records.Attached x r ∨ ⟨x, r⟩ ∈ h'.records.pending := by
  induction hsteps with
  | refl => exact hw
  | tail _ hlast ih =>
      obtain ⟨l, hl, ht⟩ := hlast
      exact ht.finalizer (fun e => hP (e ▸ hl)) hr ih

/-! ### Resurrection -/

/-- Resurrection concerns the unreached objects with finalizers. -/
theorem mem_resurrectable :
    x ∈ h.resurrectable ↔ h.records.hasFinalizer x = true ∧ h.arena.isReached x = false := by
  unfold resurrectable SideRecords.finalizable
  rw [List.mem_filter]
  constructor
  · rintro ⟨-, hx⟩
    simpa using hx
  · rintro ⟨hf, hx⟩
    obtain ⟨l, hl⟩ := SideRecords.find?_of_hasFinalizer hf
    exact ⟨AddressTable.mem_keys_of_find? hl, by simp [hf, hx]⟩

theorem Steps.isReached
    (hsteps : Steps P h h')
    (hs : h.Sound)
    (hx : h.arena.isReached x = true)
    (hpark : ¬ P (.park x))
    (hbegin : ¬ P .begin) :
    h'.arena.isReached x = true := by
  obtain ⟨c, hcell, hst, hcol⟩ := Arena.isReached_iff.1 hx
  obtain ⟨hd, hcell', hst', hrank⟩ := hsteps.stays_reached hs hcell hst hcol hpark hbegin
  exact Arena.isReached_iff.2 ⟨_, hcell', hst', Color.ne_white_of_rank hrank hcol⟩

theorem isReached_shadeAll
    {m : Marker}
    (hx : m.arena.isAllocated x = true)
    (hmem : x ∈ xs) :
    (m.shadeAll xs).arena.isReached x = true := by
  obtain ⟨d, hd⟩ := Arena.exists_object hx
  refine Arena.isReached_iff.2 ⟨d.shaded, ?_, ?_, Header.color_shaded_ne _ hd.2⟩
  · rw [Marker.cell?_shadeAll, if_pos hmem, hd.1]
    rfl
  · exact (Header.state_shaded d.header).trans hd.2

/-- After the resurrection every object that had a finalizer is reached. -/
theorem reached_resurrectAll
    (hs : h.Sound)
    (hc : h.collector.isSome = true)
    (hr : r.isFinalizer = true)
    (hx : h.arena.isAllocated x = true)
    (ha : h.records.Attached x r) :
    h.resurrectAll.2.arena.isReached x = true := by
  cases hreached : h.arena.isReached x with
  | true => exact (resurrectAll_steps h).isReached hs hreached (by simp) (by simp)
  | false =>
      have hmem := mem_resurrectable.2 ⟨ha.hasFinalizer hr, hreached⟩
      have hne : ¬ h.resurrectable.isEmpty = true := by
        intro hnil
        rw [List.isEmpty_iff.1 hnil] at hmem
        cases hmem
      unfold resurrectAll
      simp only [if_neg hne]
      have hqueued := resurrectEach_steps h.resurrectable h
      have hc' : (h.resurrectable.foldl resurrect h).collector.isSome = true := by
        rw [collector_resurrectEach]
        exact hc
      have hal : (h.resurrectable.foldl resurrect h).arena.isAllocated x = true := by
        obtain ⟨c, hcell⟩ := Arena.exists_object hx
        obtain ⟨hd, hcell', hst⟩ := hqueued.stays hs hcell.1 hcell.2 (by simp) (by simp)
        exact Arena.isAllocated_iff.2 ⟨_, hcell', hst⟩
      have hshaded : ((h.resurrectable.foldl resurrect h).marking
          (·.shadeAll h.resurrectable)).arena.isReached x = true := by
        rw [arena_marking hc']
        exact isReached_shadeAll hal hmem
      refine (markAll_steps _).isReached ?_ hshaded (by simp) (by simp)
      exact (marking_steps (fun m => Marker.recolored_shadeAll _ m) _).sound (hqueued.sound hs)

/-! ### The sweeper -/

/-- An object with an attached finalizer carries the flag. -/
theorem Sound.flagged
    (hs : h.Sound)
    (hx : h.arena.Object x c)
    (ha : h.records.Attached x r) :
    c.header.hasFlag Header.sideRecord = true := by
  refine (hs.recorded.flagged x c hx.1).2 ?_
  unfold SideRecords.Attached at ha
  cases hfind : h.records.attached.find? x with
  | none =>
      rw [hfind] at ha
      cases ha
  | some l => rfl

/-- Visits of other addresses leave an object and its attached records alone. -/
theorem Steps.passes
    (hsteps : Steps (SweepsAmong xs) h h')
    (hs : h.Sound)
    (hx : h.arena.Object x c)
    (hmem : x ∉ xs) :
    ∃ hd, h'.arena.Object x { c with header := hd } := by
  have hreclaim : ¬ SweepsAmong xs (.reclaim x) := by
    rintro (hl | ⟨y, hy, hl | hl | hl⟩)
    · cases hl
    · cases hl
    · cases hl
    · cases hl
      exact hmem hy
  have hpark : ¬ SweepsAmong xs (.park x) := by
    rintro (hl | ⟨y, hy, hl | hl | hl⟩) <;> cases hl
  obtain ⟨hd, hcell, hst⟩ := hsteps.stays hs hx.1 hx.2 hpark hreclaim
  exact ⟨hd, hcell, hst⟩

theorem not_sweepsAmong_finalize
    (hmem : x ∉ xs) :
    ¬ SweepsAmong xs (.finalize x) := by
  rintro (hl | ⟨y, hy, hl | hl | hl⟩)
  · cases hl
  · cases hl
    exact hmem hy
  · cases hl
  · cases hl

theorem not_sweepsAmong_batch : ¬ SweepsAmong xs .batch := by
  rintro (hl | ⟨y, hy, hl | hl | hl⟩) <;> cases hl

/-- The sweeper keeps an object with a finalizer. Its finalizer stays attached or is queued; the
latter happens only if the object is visited. -/
theorem Visits.finalizer
    (hv : Visits h xs cs h')
    (hs : h.Sound)
    (hnodup : xs.Nodup)
    (hr : r.isFinalizer = true)
    (hx : h.arena.Object x c)
    (ha : h.records.Attached x r) :
    (∃ hd, h'.arena.Object x { c with header := hd }) ∧
      (h'.records.Attached x r ∨ ⟨x, r⟩ ∈ h'.records.pending ∧ x ∈ xs) := by
  induction hv generalizing c with
  | nil => exact ⟨⟨c.header, hx⟩, Or.inl ha⟩
  | @offer h h' xs cs b hst hrest ih =>
      have hoffered : Steps (SweepsAmong []) h (h.offer b) := hst.steps.mono fun l hl => Or.inl hl
      obtain ⟨hd, hobj⟩ := hoffered.passes hs hx List.not_mem_nil
      exact ih (c := { c with header := hd }) (hst.steps.sound hs) hnodup hobj (hst.records ▸ ha)
  | @visit h g h' z xs cs ds hv hrest ih =>
      obtain ⟨hz, hnodup⟩ := List.nodup_cons.1 hnodup
      have hg := hv.steps.sound hs
      by_cases hxz : x = z
      · subst hxz
        cases hv with
        | spare =>
            exact ⟨hrest.steps.passes hg hx hz,
              Or.inl (hrest.steps.attached (not_sweepsAmong_finalize hz) hr ha)⟩
        | keep ho hw hf =>
            obtain ⟨hd, hcell, hst⟩ := (Steps.single (P := (· = .finalize x)) rfl
              (.finalize x)).stays hs hx.1 hx.2 (by simp) (by simp)
            have hqueued := hrest.steps.pending not_sweepsAmong_batch (queued_resurrect hr ha)
            exact ⟨hrest.steps.passes (c := { c with header := hd }) hg ⟨hcell, hst⟩ hz,
              Or.inr ⟨hqueued, List.mem_cons_self ..⟩⟩
        | free ho hw hf ht =>
            rw [hs.flagged ho ha] at hf
            cases hf
        | cleanup ho hw hf ht =>
            rw [SideRecords.Attached.hasFinalizer ha hr] at hf
            cases hf
      · have hmem : x ∉ [z] := fun hm => hxz (List.mem_singleton.1 hm)
        obtain ⟨hd, hobj⟩ := hv.steps.passes hs hx hmem
        obtain ⟨hlive, hway⟩ := ih (c := { c with header := hd }) hg hnodup hobj
          (hv.steps.attached (not_sweepsAmong_finalize hmem) hr ha)
        exact ⟨hlive, hway.imp_right fun ⟨hp, hm⟩ => ⟨hp, List.mem_cons_of_mem _ hm⟩⟩

end Heap

end EagerHeap
