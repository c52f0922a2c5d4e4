import EagerHeap.Proofs.Heap.Finalizers
/-!
# Records that are consulted

A record leaves the table in two ways: the finalizers of its object are queued, or its object is freed
by the sweeper, which queues the cleanups of the object first. And a record enters the table only when
it is attached.

Main results: `Steps.keeps_records` and `Visits.consulted`.
-/

namespace EagerHeap

namespace Heap

variable {h h' g : Heap} {l : Act} {x y : Nat} {c : Cell} {r : SideRecord}
  {rs : List SideRecord} {P : Act → Prop} {xs : List Nat} {cs : List Cell}

/-- Every record of the list is attached to the object, or it is a finalizer of the object and
queued. -/
def KeepsRecords (h : Heap) (x : Nat) (rs : List SideRecord) : Prop :=
  ∀ r ∈ rs, h.records.Attached x r ∨ r.isFinalizer = true ∧ ⟨x, r⟩ ∈ h.records.pending

/-! ### Elementary changes -/

/-- A cleanup stays attached unless the cleanups of its object are queued. -/
theorem Tick.cleanup_attached
    (ht : Tick h l h')
    (hl : l ≠ .cleanup x)
    (hr : r.isFinalizer = false)
    (ha : h.records.Attached x r) :
    h'.records.Attached x r := by
  rw [SideRecords.Attached] at ha ⊢
  by_cases hrec : l.OfRecords
  · cases ht with
    | @attach y kind hy =>
        rw [(attachRecord_eq kind hy).2]
        by_cases hxy : x = y
        · rw [hxy] at ha ⊢
          rw [SideRecords.attached_attach_self]
          exact List.mem_append_left _ ha
        · rwa [SideRecords.attached_attach_of_ne _ _ hxy]
    | finalize y =>
        rw [records_resurrect]
        by_cases hxy : x = y
        · rw [hxy] at ha ⊢
          have hmem : r ∈ h.records.cleanups y := List.mem_filter.2 ⟨ha, by simp [hr]⟩
          rw [SideRecords.attached_queueFinalizers_self, if_neg]
          · exact hmem
          · intro hnil
            rw [List.isEmpty_iff.1 hnil] at hmem
            cases hmem
        · rwa [SideRecords.attached_queueFinalizers_of_ne _ hxy]
    | @cleanup y hf =>
        have hxy : x ≠ y := by
          rintro rfl
          exact hl rfl
        rwa [SideRecords.attached_queueCleanups_of_ne _ hxy]
    | batch hq => rwa [hq]
    | _ => cases hrec
  · rwa [ht.records hrec]

/-- A record is attached after a change if it was attached before, unless the change attaches it. -/
theorem Tick.attached_of
    (ht : Tick h l h')
    (hl : ∀ kind, l ≠ .attach x kind)
    (ha : h'.records.Attached x r) :
    h.records.Attached x r := by
  rw [SideRecords.Attached] at ha ⊢
  by_cases hrec : l.OfRecords
  · cases ht with
    | @attach y kind hy =>
        have hxy : x ≠ y := by
          rintro rfl
          exact hl kind rfl
        rwa [(attachRecord_eq kind hy).2, SideRecords.attached_attach_of_ne _ _ hxy] at ha
    | finalize y =>
        rw [records_resurrect] at ha
        by_cases hxy : x = y
        · rw [hxy] at ha ⊢
          rw [SideRecords.attached_queueFinalizers_self] at ha
          split at ha
          · cases ha
          · exact (List.mem_filter.1 ha).1
        · rwa [SideRecords.attached_queueFinalizers_of_ne _ hxy] at ha
    | @cleanup y hf =>
        by_cases hxy : x = y
        · rw [hxy, SideRecords.attached_queueCleanups_self] at ha
          cases ha
        · rwa [SideRecords.attached_queueCleanups_of_ne _ hxy] at ha
    | batch hq => rwa [hq] at ha
    | _ => cases hrec
  · rwa [ht.records hrec] at ha

/-- The table is left alone at an object by changes that do not concern its records. -/
theorem Tick.find?_eq
    (ht : Tick h l h')
    (hattach : ∀ kind, l ≠ .attach x kind)
    (hfinalize : l ≠ .finalize x)
    (hcleanup : l ≠ .cleanup x) :
    h'.records.attached.find? x = h.records.attached.find? x := by
  by_cases hrec : l.OfRecords
  · cases ht with
    | @attach y kind hy =>
        rw [(attachRecord_eq kind hy).2]
        refine SideRecords.attached_attach_of_ne _ _ ?_
        rintro rfl
        exact hattach kind rfl
    | finalize y =>
        rw [records_resurrect]
        refine SideRecords.attached_queueFinalizers_of_ne _ ?_
        rintro rfl
        exact hfinalize rfl
    | @cleanup y hf =>
        refine SideRecords.attached_queueCleanups_of_ne _ ?_
        rintro rfl
        exact hcleanup rfl
    | batch hq => rw [hq]
    | _ => cases hrec
  · rw [ht.records hrec]

/-- The queue grows at its end only. -/
theorem Tick.pending_prefix
    (ht : Tick h l h')
    (hl : l ≠ .batch) :
    h.records.pending <+: h'.records.pending := by
  by_cases hrec : l.OfRecords
  · cases ht with
    | @attach x kind hx =>
        rw [(attachRecord_eq kind hx).2]
        exact List.prefix_rfl
    | finalize x =>
        rw [records_resurrect, SideRecords.pending_queueFinalizers]
        exact List.prefix_append _ _
    | cleanup hf =>
        rw [SideRecords.pending_queueCleanups hf]
        exact List.prefix_append _ _
    | batch => exact absurd rfl hl
    | _ => cases hrec
  · simp [ht.records hrec]

/-! ### Sequences of changes -/

theorem Steps.attached_of
    (hsteps : Steps P h h')
    (hP : ∀ kind, ¬ P (.attach x kind))
    (ha : h'.records.Attached x r) :
    h.records.Attached x r := by
  induction hsteps with
  | refl => exact ha
  | tail _ hlast ih =>
      obtain ⟨l, hl, ht⟩ := hlast
      exact ih (ht.attached_of (fun kind e => hP kind (e ▸ hl)) ha)

theorem Steps.find?_eq
    (hsteps : Steps P h h')
    (hattach : ∀ kind, ¬ P (.attach x kind))
    (hfinalize : ¬ P (.finalize x))
    (hcleanup : ¬ P (.cleanup x)) :
    h'.records.attached.find? x = h.records.attached.find? x := by
  induction hsteps with
  | refl => rfl
  | tail _ hlast ih =>
      obtain ⟨l, hl, ht⟩ := hlast
      exact (ht.find?_eq (fun kind e => hattach kind (e ▸ hl)) (fun e => hfinalize (e ▸ hl))
        fun e => hcleanup (e ▸ hl)).trans ih

theorem Steps.pending_prefix
    (hsteps : Steps P h h')
    (hP : ¬ P .batch) :
    h.records.pending <+: h'.records.pending := by
  induction hsteps with
  | refl => exact List.prefix_rfl
  | tail _ hlast ih =>
      obtain ⟨l, hl, ht⟩ := hlast
      exact ih.trans (ht.pending_prefix fun e => hP (e ▸ hl))

/-- No record is lost by changes that do not queue cleanups and take no batch. -/
theorem Steps.keeps_records
    (hsteps : Steps P h h')
    (hbatch : ¬ P .batch)
    (hcleanup : ¬ P (.cleanup x))
    (hrs : h.KeepsRecords x rs) :
    h'.KeepsRecords x rs := by
  induction hsteps with
  | refl => exact hrs
  | tail _ hlast ih =>
      obtain ⟨l, hl, ht⟩ := hlast
      intro r hr
      have hbatch' : l ≠ .batch := fun e => hbatch (e ▸ hl)
      rcases ih r hr with ha | ⟨hfin, hp⟩
      · cases hfin : r.isFinalizer with
        | true => exact (ht.finalizer hbatch' hfin (Or.inl ha)).imp_right fun hp => ⟨rfl, hp⟩
        | false => exact Or.inl (ht.cleanup_attached (fun e => hcleanup (e ▸ hl)) hfin ha)
      · exact Or.inr ⟨hfin, ht.pending hbatch' hp⟩

theorem keepsRecords_of_find?
    (hfind : h.records.attached.find? x = some rs) :
    h.KeepsRecords x rs := by
  intro r hr
  rw [SideRecords.Attached, hfind]
  exact Or.inl hr

/-- What does not hand out an object leaves an address without an object. -/
theorem Steps.stays_free
    (hsteps : Steps P h h')
    (hs : h.Sound)
    (hP : ¬ P (.birth x))
    (hx : h.arena.isAllocated x = false) :
    h'.arena.isAllocated x = false := by
  refine (hsteps.induct (R := fun g => g.arena.isAllocated x = false) hs hx ?_).2
  intro g l g' hg hfree hl ht
  rw [Bool.eq_false_iff] at hfree ⊢
  intro hal
  obtain ⟨c, hc, hst⟩ := Arena.isAllocated_iff.1 hal
  have hchange := ht.cellChange hg x
  rw [hc] at hchange
  have hborn := hchange.birth hst fun d hd hst' => hfree (Arena.isAllocated_iff.2 ⟨d, hd, hst'⟩)
  exact hP (hborn.1 ▸ hl)

/-! ### The sweeper -/

/-- The sweeper consults the records of an object: it keeps the object and loses no record, or it
frees the object, which has no finalizer, and its records are queued together. -/
def Consults (h : Heap) (x : Nat) (rs : List SideRecord) (c : Cell) : Prop :=
  (∃ hd, h.arena.Object x { c with header := hd }) ∧ h.KeepsRecords x rs ∨
    h.arena.isAllocated x = false ∧ h.records.attached.find? x = none ∧
      (∀ r ∈ rs, r.isFinalizer = false) ∧ rs.map (PendingRecord.mk 0) <:+: h.records.pending

theorem not_sweepsAmong
    (hmem : x ∉ xs) :
    ¬ SweepsAmong xs (.finalize x) ∧ ¬ SweepsAmong xs (.cleanup x) ∧
      (∀ kind, ¬ SweepsAmong xs (.attach x kind)) ∧ ¬ SweepsAmong xs (.birth x) := by
  refine ⟨not_sweepsAmong_finalize hmem, ?_, fun kind => ?_, ?_⟩
  · rintro (hl | ⟨y, hy, hl | hl | hl⟩) <;> cases hl
    exact hmem hy
  · rintro (hl | ⟨y, hy, hl | hl | hl⟩) <;> cases hl
  · rintro (hl | ⟨y, hy, hl | hl | hl⟩) <;> cases hl

/-- Visits of other objects leave it at that. -/
theorem Consults.passes
    (hc : h.Consults x rs c)
    (hs : h.Sound)
    (hsteps : Steps (SweepsAmong xs) h h')
    (hmem : x ∉ xs) :
    h'.Consults x rs c := by
  obtain ⟨hfinalize, hcleanup, hattach, hbirth⟩ := not_sweepsAmong hmem
  rcases hc with ⟨⟨hd, hobj⟩, hrs⟩ | ⟨hfree, hnone, hfin, hqueued⟩
  · exact Or.inl ⟨hsteps.passes (c := { c with header := hd }) hs hobj hmem,
      hsteps.keeps_records not_sweepsAmong_batch hcleanup hrs⟩
  · refine Or.inr ⟨hsteps.stays_free hs hbirth hfree, ?_, hfin,
      hqueued.trans (hsteps.pending_prefix not_sweepsAmong_batch).isInfix⟩
    rw [hsteps.find?_eq hattach hfinalize hcleanup, hnone]

theorem Tick.freed
    (ht : Tick h (.reclaim x) h')
    (hs : h.Sound) :
    h'.arena.isAllocated x = false := by
  rw [Bool.eq_false_iff]
  intro hal
  obtain ⟨c, hc, hst⟩ := Arena.isAllocated_iff.1 hal
  generalize hl : Act.reclaim x = l at ht
  cases ht with
  | @reclaimCell y d hy hu hf hsmall =>
      cases hl
      have hcell := Arena.cell?_modifyHeader_of_cell hy (·.withState .free) x
      rw [if_pos rfl] at hcell
      obtain rfl := Option.some.inj (hc.symm.trans hcell)
      cases hst
  | @reclaimRun i n hd sh hb hn hu hf =>
      cases hl
      obtain ⟨hself, hother⟩ := Arena.close_blocks hb
      have hcells := hs.layout.cell?_closeRun (Arena.close_layout hs.layout hb hn) hb rfl hself
        hother (Arena.blockBase i)
      rw [if_pos rfl] at hcells
      rw [show ((h.arena.modifyHeader i 0 (·.withState .free)).releaseRun i n).cell?
        (Arena.blockBase i) = some c from hc] at hcells
      cases hcells
  | _ => cases hl

theorem Visit.consulted
    (hv : Visit h x cs g)
    (hs : h.Sound)
    (hx : h.arena.Object x c)
    (hfind : h.records.attached.find? x = some rs) :
    g.Consults x rs c := by
  cases hv with
  | spare => exact Or.inl ⟨⟨c.header, hx⟩, keepsRecords_of_find? hfind⟩
  | keep ho hw hf =>
      have hstep : Steps (· = .finalize x) h (h.resurrect x) := Steps.single rfl (.finalize x)
      obtain ⟨hd, hcell, hst⟩ := hstep.stays hs hx.1 hx.2 (by simp) (by simp)
      exact Or.inl ⟨⟨hd, hcell, hst⟩,
        hstep.keeps_records (by simp) (by simp) (keepsRecords_of_find? hfind)⟩
  | free ho hw hf ht =>
      rw [hs.recorded.not_flagged ho.1 hf] at hfind
      cases hfind
  | cleanup ho hw hf ht =>
      have hqueued := Tick.cleanup hf
      have hall := SideRecords.attached_eq_cleanups hf
      rw [hfind, Option.getD_some] at hall
      refine Or.inr ⟨ht.freed (hqueued.sound hs), ?_, fun r hr => ?_, ?_⟩
      · rw [ht.records id]
        exact SideRecords.attached_queueCleanups_self _ _
      · rw [hall] at hr
        simpa using (List.mem_filter.1 hr).2
      · rw [ht.records id]
        change _ <:+: (h.records.queueCleanups x).pending
        rw [SideRecords.pending_queueCleanups hf, ← hall]
        exact (List.suffix_append _ _).isInfix

/-- No object with records is swept without consulting them. -/
theorem Visits.consulted
    (hv : Visits h xs cs g)
    (hs : h.Sound)
    (hnodup : xs.Nodup)
    (hx : h.arena.Object x c)
    (hfind : h.records.attached.find? x = some rs) :
    g.Consults x rs c := by
  induction hv generalizing c with
  | nil => exact Or.inl ⟨⟨c.header, hx⟩, keepsRecords_of_find? hfind⟩
  | @offer h h' xs cs b hst _ ih =>
      have hoffered : Steps (SweepsAmong []) h (h.offer b) := hst.steps.mono fun l hl => Or.inl hl
      obtain ⟨hd, hobj⟩ := hoffered.passes hs hx List.not_mem_nil
      exact ih (c := { c with header := hd }) (hst.steps.sound hs) hnodup hobj
        (hst.records ▸ hfind)
  | @visit h g h' z xs cs ds hv hrest ih =>
      obtain ⟨hz, hnodup⟩ := List.nodup_cons.1 hnodup
      have hg := hv.steps.sound hs
      by_cases hxz : x = z
      · rw [hxz] at hx hfind ⊢
        exact (hv.consulted hs hx hfind).passes hg hrest.steps hz
      · have hmem : x ∉ [z] := fun hm => hxz (List.mem_singleton.1 hm)
        obtain ⟨hd, hobj⟩ := hv.steps.passes hs hx hmem
        obtain ⟨hfinalize, hcleanup, hattach, -⟩ := not_sweepsAmong hmem
        exact ih (c := { c with header := hd }) hg hnodup hobj
          ((hv.steps.find?_eq hattach hfinalize hcleanup).trans hfind)

end Heap

end EagerHeap
