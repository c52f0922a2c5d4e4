import EagerHeap.Proofs.Cycle.Fates
import EagerHeap.Proofs.Heap.Consulted
import Mathlib.Data.List.Count
/-!
# Where side records are

A record that was accepted is attached to its object or queued, or it has left the queue. The list of
accepted records and the list of those that left the queue are kept beside the heap: `Holds` says that
each accepted record is in exactly one place, and that no other records are anywhere.

Main results: `Holds.attach`, `Steps.holds` and `Holds.of_perm`.
-/

namespace EagerHeap

namespace PendingRecord

/-- A record of an object as it is queued: a finalizer with the address of the object, a cleanup
without an address. -/
def due (p : PendingRecord) : PendingRecord := if p.record.isFinalizer then p else ⟨0, p.record⟩

theorem due_of_finalizer
    {p : PendingRecord}
    (h : p.record.isFinalizer = true) :
    p.due = p := by
  rw [due, if_pos h]

theorem due_of_cleanup
    {p : PendingRecord}
    (h : p.record.isFinalizer = false) :
    p.due = ⟨0, p.record⟩ := by
  rw [due, if_neg (Bool.eq_false_iff.1 h)]

@[simp] theorem record_due (p : PendingRecord) : p.due.record = p.record := by
  unfold due
  split <;> rfl

end PendingRecord

namespace SideRecords

variable {t : SideRecords} {x y : Nat} {r : SideRecord} {q : PendingRecord}

/-- How often a record is attached to the object at an address. -/
def timesAttached (t : SideRecords) (q : PendingRecord) : Nat :=
  ((t.attached.find? q.addr).getD []).count q.record

theorem timesAttached_pos
    (h : t.Attached x r) :
    0 < t.timesAttached ⟨x, r⟩ :=
  List.count_pos_iff.2 h

theorem timesAttached_of_finalizer
    (h : q.record.isFinalizer = true) :
    t.timesAttached q = (t.finalizers q.addr).count q.record :=
  (List.count_filter h).symm

theorem timesAttached_of_cleanup
    (h : q.record.isFinalizer = false) :
    t.timesAttached q = (t.cleanups q.addr).count q.record := by
  have hnot : (!q.record.isFinalizer) = true := by rw [h]; rfl
  exact (List.count_filter (p := fun r : SideRecord => !r.isFinalizer) hnot).symm

/-- How often records of a list stand in the queue when it is queued with an address. -/
theorem count_map_mk (x : Nat) (rs : List SideRecord) (q : PendingRecord) :
    (rs.map (PendingRecord.mk x)).count q = if q.addr = x then rs.count q.record else 0 := by
  obtain ⟨z, r⟩ := q
  split
  · next heq =>
      subst heq
      refine List.count_map_of_injective rs _ (fun r r' h => ?_) r
      cases h
      rfl
  · next hne =>
      refine List.count_eq_zero_of_not_mem fun hmem => hne ?_
      obtain ⟨r', -, heq⟩ := List.mem_map.1 hmem
      cases heq
      rfl

/-- Queueing the finalizers of an object loses and doubles no record. -/
theorem count_queueFinalizers (t : SideRecords) (y : Nat) (q : PendingRecord) :
    (t.queueFinalizers y).2.timesAttached q + (t.queueFinalizers y).2.pending.count q.due =
      t.timesAttached q + t.pending.count q.due := by
  rw [pending_queueFinalizers, List.count_append, count_map_mk]
  cases hr : q.record.isFinalizer with
  | true =>
      rw [timesAttached_of_finalizer hr, timesAttached_of_finalizer hr, finalizers_queueFinalizers,
        PendingRecord.due_of_finalizer hr]
      by_cases hqy : q.addr = y
      · rw [if_pos hqy, if_pos hqy, hqy, List.count_nil]
        omega
      · rw [if_neg hqy, if_neg hqy]
        omega
  | false =>
      have hnone : (t.finalizers y).count q.due.record = 0 := by
        refine List.count_eq_zero_of_not_mem fun hmem => ?_
        have hfin := (List.mem_filter.1 hmem).2
        rw [PendingRecord.record_due, hr] at hfin
        cases hfin
      rw [timesAttached_of_cleanup hr, timesAttached_of_cleanup hr, cleanups_queueFinalizers,
        hnone, ite_self]
      omega

/-- Queueing the cleanups of an object loses and doubles no record, if no other object has the same
record. -/
theorem count_queueCleanups
    (hf : t.hasFinalizer y = false)
    (honly : t.Attached y q.record → y = q.addr) :
    (t.queueCleanups y).timesAttached q + (t.queueCleanups y).pending.count q.due =
      t.timesAttached q + t.pending.count q.due := by
  rw [pending_queueCleanups hf, List.count_append, count_map_mk, ← attached_eq_cleanups hf]
  by_cases hqy : q.addr = y
  · have hgone : (t.queueCleanups y).timesAttached q = 0 := by
      unfold timesAttached
      rw [hqy, attached_queueCleanups_self]
      rfl
    have hqueued : (if q.due.addr = 0 then
        ((t.attached.find? y).getD []).count q.due.record else 0) = t.timesAttached q := by
      rw [PendingRecord.record_due, timesAttached, hqy]
      cases hr : q.record.isFinalizer with
      | true =>
          have hnot : q.record ∉ (t.attached.find? y).getD [] := by
            intro hmem
            have hhas : t.hasFinalizer y = true := List.any_eq_true.2 ⟨q.record, hmem, hr⟩
            rw [hf] at hhas
            cases hhas
          rw [List.count_eq_zero_of_not_mem hnot, ite_self]
      | false =>
          rw [PendingRecord.due_of_cleanup hr]
          rfl
    rw [hgone, hqueued]
    omega
  · have hsame : (t.queueCleanups y).timesAttached q = t.timesAttached q := by
      unfold timesAttached
      rw [attached_queueCleanups_of_ne _ hqy]
    have hnot : q.record ∉ (t.attached.find? y).getD [] := fun hmem => hqy (honly hmem).symm
    rw [hsame, PendingRecord.record_due, List.count_eq_zero_of_not_mem hnot, ite_self]
    omega

end SideRecords

namespace Heap

variable {h h' : Heap} {l : Act} {x y : Nat} {r : SideRecord} {q p : PendingRecord}
  {acc out out' : List PendingRecord} {P : Act → Prop}

/-- The records that were accepted are attached, queued, or among those that left the queue, each of
them once; and there are no other records. -/
structure Holds (h : Heap) (acc out : List PendingRecord) : Prop where
  attached : ∀ x r, h.records.Attached x r → ⟨x, r⟩ ∈ acc
  queued : ∀ p ∈ h.records.pending ++ out, ∃ q ∈ acc, p = q.due
  once : ∀ q ∈ acc, h.records.timesAttached q + (h.records.pending ++ out).count q.due = 1
  older : ∀ q ∈ acc, q.record.id < h.records.next
  distinct : (acc.map fun q => q.record.id).Nodup

/-- A record belongs to one object. -/
theorem Holds.unique
    (hh : h.Holds acc out)
    (hp : p ∈ acc)
    (hq : q ∈ acc)
    (hr : p.record = q.record) :
    p = q :=
  List.inj_on_of_nodup_map hh.distinct hp hq (congrArg SideRecord.id hr)

/-- What leaves the queue, or moves on after that, is still accounted for. -/
theorem Holds.of_perm
    (hh : h.Holds acc out)
    (hattached : h'.records.attached = h.records.attached)
    (hnext : h'.records.next = h.records.next)
    (hperm : (h'.records.pending ++ out').Perm (h.records.pending ++ out)) :
    h'.Holds acc out' := by
  refine ⟨fun x r ha => hh.attached x r ?_, fun p hp => hh.queued p (hperm.mem_iff.1 hp),
    fun q hq => ?_, fun q hq => ?_, hh.distinct⟩
  · rwa [SideRecords.Attached, hattached] at ha
  · rw [SideRecords.timesAttached, hattached, hperm.count_eq]
    exact hh.once q hq
  · rw [hnext]
    exact hh.older q hq

/-- An accepted record is attached to its object. -/
theorem Holds.attach
    (hh : h.Holds acc out)
    (hx : h.arena.isAllocated x = true)
    (kind : RecordKind) :
    (h.attachRecord x kind).2.Holds (acc ++ [⟨x, ⟨h.records.next, kind⟩⟩]) out := by
  have hrecords := (attachRecord_eq kind hx).2
  have hpending : (h.attachRecord x kind).2.records.pending = h.records.pending := by
    rw [hrecords]
    rfl
  have hnext : (h.attachRecord x kind).2.records.next = h.records.next + 1 := by
    rw [hrecords]
    rfl
  have hself : ((h.attachRecord x kind).2.records.attached.find? x).getD [] =
      (h.records.attached.find? x).getD [] ++ [⟨h.records.next, kind⟩] := by
    rw [hrecords, SideRecords.attached_attach_self]
    rfl
  have hother : ∀ z, z ≠ x →
      (h.attachRecord x kind).2.records.attached.find? z = h.records.attached.find? z := by
    intro z hz
    rw [hrecords, SideRecords.attached_attach_of_ne _ _ hz]
  -- The number of the new record is the number of no other one.
  have hnew : ∀ q ∈ acc, q.record ≠ ⟨h.records.next, kind⟩ := by
    intro q hq heq
    have hlt := hh.older q hq
    rw [heq] at hlt
    exact Nat.lt_irrefl _ hlt
  refine ⟨fun z r ha => ?_, fun p hp => ?_, fun q hq => ?_, fun q hq => ?_, ?_⟩
  · rw [SideRecords.Attached] at ha
    by_cases hz : z = x
    · subst hz
      rw [hself] at ha
      rcases List.mem_append.1 ha with ha | ha
      · exact List.mem_append_left _ (hh.attached z r ha)
      · rw [List.mem_singleton.1 ha]
        exact List.mem_append_right _ (List.mem_singleton_self _)
    · rw [hother z hz] at ha
      exact List.mem_append_left _ (hh.attached z r ha)
  · rw [hpending] at hp
    obtain ⟨q, hq, heq⟩ := hh.queued p hp
    exact ⟨q, List.mem_append_left _ hq, heq⟩
  · rw [hpending, SideRecords.timesAttached]
    rcases List.mem_append.1 hq with hq | hq
    · refine Eq.trans ?_ (hh.once q hq)
      congr 1
      by_cases hqx : q.addr = x
      · rw [hqx, hself, List.count_append, SideRecords.timesAttached, hqx,
          List.count_singleton, if_neg]
        · rfl
        · simpa using (hnew q hq).symm
      · rw [hother _ hqx]
        rfl
    · obtain rfl := List.mem_singleton.1 hq
      have hout : (h.records.pending ++ out).count
          (PendingRecord.due ⟨x, ⟨h.records.next, kind⟩⟩) = 0 := by
        refine List.count_eq_zero_of_not_mem fun hmem => ?_
        obtain ⟨q, hq, heq⟩ := hh.queued _ hmem
        have hrecord := congrArg PendingRecord.record heq
        rw [PendingRecord.record_due, PendingRecord.record_due] at hrecord
        exact hnew q hq hrecord.symm
      have hold : (⟨h.records.next, kind⟩ : SideRecord) ∉ (h.records.attached.find? x).getD [] :=
        fun hmem => hnew _ (hh.attached x _ hmem) rfl
      rw [hout, hself, List.count_append, List.count_eq_zero_of_not_mem hold,
        List.count_singleton_self]
  · rw [hnext]
    rcases List.mem_append.1 hq with hq | hq
    · exact Nat.lt_succ_of_lt (hh.older q hq)
    · rw [List.mem_singleton.1 hq]
      exact Nat.lt_succ_self _
  · rw [List.map_append, List.nodup_append]
    refine ⟨hh.distinct, List.nodup_singleton _, ?_⟩
    rintro a ha b hb rfl
    obtain ⟨q, hq, rfl⟩ := List.mem_map.1 ha
    have hlt := hh.older q hq
    rw [List.map_singleton, List.mem_singleton] at hb
    rw [hb] at hlt
    exact Nat.lt_irrefl _ hlt

/-- Nothing is lost or doubled when the records of an object are queued. -/
theorem Tick.holds
    (ht : Tick h l h')
    (hattach : ∀ x kind, l ≠ .attach x kind)
    (hbatch : l ≠ .batch)
    (hh : h.Holds acc out) :
    h'.Holds acc out := by
  by_cases hrec : l.OfRecords
  · have hattached := fun x r => ht.attached_of (x := x) (r := r) (hattach x)
    cases ht with
    | attach kind hx => exact absurd rfl (hattach _ _)
    | finalize y =>
        refine ⟨fun x r ha => hh.attached x r (hattached x r ha), fun p hp => ?_, fun q hq => ?_,
          fun q hq => ?_, hh.distinct⟩
        · rw [records_resurrect, SideRecords.pending_queueFinalizers, List.append_assoc] at hp
          rcases List.mem_append.1 hp with hp | hp
          · exact hh.queued p (List.mem_append_left _ hp)
          rcases List.mem_append.1 hp with hp | hp
          · obtain ⟨r, hr, rfl⟩ := List.mem_map.1 hp
            obtain ⟨hr, hfin⟩ := List.mem_filter.1 hr
            exact ⟨_, hh.attached y r hr, (PendingRecord.due_of_finalizer hfin).symm⟩
          · exact hh.queued p (List.mem_append_right _ hp)
        · have hcount := SideRecords.count_queueFinalizers h.records y q
          have honce := hh.once q hq
          rw [List.count_append] at honce ⊢
          rw [records_resurrect]
          omega
        · rw [records_resurrect]
          exact hh.older q hq
    | @cleanup y hf =>
        refine ⟨fun x r ha => hh.attached x r (hattached x r ha), fun p hp => ?_, fun q hq => ?_,
          fun q hq => hh.older q hq, hh.distinct⟩
        · rw [SideRecords.pending_queueCleanups hf, List.append_assoc] at hp
          rcases List.mem_append.1 hp with hp | hp
          · exact hh.queued p (List.mem_append_left _ hp)
          rcases List.mem_append.1 hp with hp | hp
          · obtain ⟨r, hr, rfl⟩ := List.mem_map.1 hp
            obtain ⟨hr, hclean⟩ := List.mem_filter.1 hr
            exact ⟨_, hh.attached y r hr,
              (PendingRecord.due_of_cleanup (p := ⟨y, r⟩) (by simpa using hclean)).symm⟩
          · exact hh.queued p (List.mem_append_right _ hp)
        · have hcount := SideRecords.count_queueCleanups (q := q) hf fun ha =>
            congrArg PendingRecord.addr (hh.unique (hh.attached y _ ha) hq rfl)
          have honce := hh.once q hq
          rw [List.count_append] at honce ⊢
          change (h.records.queueCleanups y).timesAttached q +
            ((h.records.queueCleanups y).pending.count q.due + out.count q.due) = 1
          omega
    | batch => exact absurd rfl hbatch
    | _ => cases hrec
  · have hsame := ht.records hrec
    exact hh.of_perm (by rw [hsame]) (by rw [hsame]) (by rw [hsame])

theorem Steps.holds
    (hsteps : Steps P h h')
    (hattach : ∀ x kind, ¬ P (.attach x kind))
    (hbatch : ¬ P .batch)
    (hh : h.Holds acc out) :
    h'.Holds acc out := by
  induction hsteps with
  | refl => exact hh
  | tail _ hlast ih =>
      obtain ⟨l, hl, ht⟩ := hlast
      exact ht.holds (fun x kind e => hattach x kind (e ▸ hl)) (fun e => hbatch (e ▸ hl)) ih

end Heap

end EagerHeap
