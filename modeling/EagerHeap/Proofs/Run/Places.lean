import EagerHeap.Proofs.Heap.Places
import EagerHeap.Proofs.Run.Reclaimed
/-!
# The places of side records in a run

If no record fails, a record that was accepted is attached to its object, then queued, then left in a
batch that is being run, and then it has fired; it is in one of these places at any moment. A
finalizer leaves the table when its object is found unmarked, and a cleanup when its object is freed.

Main results: `Proper.placed`, `Proper.leaves` and `records_in_place`.
-/

namespace EagerHeap

/-- The objects of the finalizers of a batch, each of them as often as it has finalizers there. -/
def Batch.finalizerObjects (b : Batch) : List Nat :=
  (b.records.filter fun p => p.record.isFinalizer).map PendingRecord.addr

namespace Machine

variable {P : Machine → Move → Prop} {m : Machine} {y : Move} {ys : List Move} {x : Nat}
  {r : SideRecord} {p q : PendingRecord} {acc fired : List PendingRecord} {memory : Nat} {cfg : Config}
  {h : Heap}

open Heap

/-- The record that a move attaches, if it is accepted. -/
def accepts (m : Machine) : Move → Option PendingRecord
  | .attach x kind =>
    if m.heap.arena.isAllocated x then some ⟨x, ⟨m.heap.records.next, kind⟩⟩ else none
  | _ => none

/-- The record that a move fires. -/
def fires (m : Machine) : Move → Option PendingRecord
  | .fire => m.firing
  | _ => none

/-- The records that are accepted in a run, in this order. -/
def acceptedIn : Machine → List Move → List PendingRecord
  | _, [] => []
  | m, y :: ys => (m.accepts y).toList ++ acceptedIn (m.apply y) ys

/-- The records that fire in a run, in this order. -/
def firedIn : Machine → List Move → List PendingRecord
  | _, [] => []
  | m, y :: ys => (m.fires y).toList ++ firedIn (m.apply y) ys

/-- No record fails. -/
def NoneFails (_ : Machine) (y : Move) : Prop := y ≠ .breakBatch

instance decidableNoneFails (m : Machine) (y : Move) : Decidable (m.NoneFails y) :=
  inferInstanceAs (Decidable (y ≠ .breakBatch))

/-- The record is in one place, and there once: it is attached to its object, queued, left in a batch
that is being run, or it has fired. -/
def InOnePlace (m : Machine) (fired : List PendingRecord) (q : PendingRecord) : Prop :=
  m.heap.records.timesAttached q + m.heap.records.pending.count q.due +
    (m.batches.flatMap Batch.left).count q.due + fired.count q.due = 1

/-- Every record is accounted for, where `acc` are the accepted records and `fired` those that have
fired. -/
structure Placed (m : Machine) (acc fired : List PendingRecord) : Prop where
  holds : m.heap.Holds acc (m.batches.flatMap Batch.left ++ fired)
  batches : ∀ b ∈ m.batches, ∀ p ∈ b.records, ∃ q ∈ acc, p = q.due
  objects : ∀ q ∈ acc, q.addr ≠ 0
  unbroken : m.broken = []

theorem placed_start
    (hc : Heap.create memory cfg = .ok h) :
    (start h).Placed [] [] := by
  obtain ⟨-, rfl⟩ := Heap.create_eq_ok hc
  refine ⟨⟨fun x r ha => ?_, fun p hp => ?_, ?_, ?_, List.nodup_nil⟩, ?_, ?_, rfl⟩
  · cases ha
  · cases hp
  all_goals
    intro q hq
    cases hq

theorem Placed.inOnePlace
    (hp : m.Placed acc fired)
    (hq : q ∈ acc) :
    m.InOnePlace fired q := by
  have honce := hp.holds.once q hq
  rw [List.count_append, List.count_append] at honce
  unfold InOnePlace
  omega

/-! ### One move -/

theorem not_does_attach
    (hattach : ∀ x kind, y ≠ .attach x kind)
    (x : Nat) (kind : RecordKind) :
    ¬ y.Does (.attach x kind) := by
  cases y <;> simp [Move.Does] at hattach ⊢

/-- Every move keeps the account of the records. -/
theorem Proper.placed
    (hm : m.Proper)
    (hy : m.Allows y)
    (hfails : m.NoneFails y)
    (hp : m.Placed acc fired) :
    (m.apply y).Placed (acc ++ (m.accepts y).toList) (fired ++ (m.fires y).toList) := by
  obtain ⟨hh, hbatches, hobjects, hunbroken⟩ := hp
  have hsilent : m.accepts y = none → m.fires y = none → (m.apply y).Placed acc fired →
      (m.apply y).Placed (acc ++ (m.accepts y).toList) (fired ++ (m.fires y).toList) := by
    intro haccepts hfires hplaced
    rwa [haccepts, hfires, Option.toList_none, List.append_nil, List.append_nil]
  have hquiet : (∀ x kind, ¬ y.Does (.attach x kind)) → ¬ y.Does .batch →
      m.batchesAfter y = m.batches → m.brokenAfter y = m.broken →
      (m.apply y).Placed acc fired := by
    intro hattach hbatch hsame hbroken
    refine ⟨?_, ?_, hobjects, hbroken.trans hunbroken⟩
    · change (m.apply y).heap.Holds acc ((m.batchesAfter y).flatMap Batch.left ++ fired)
      rw [hsame]
      exact (hm.steps hy).holds hattach hbatch hh
    · change ∀ b ∈ m.batchesAfter y, _
      rw [hsame]
      exact hbatches
  cases y with
  | attach x kind =>
      by_cases hx : m.heap.arena.isAllocated x = true
      · have haccepts : m.accepts (.attach x kind) =
            some ⟨x, ⟨m.heap.records.next, kind⟩⟩ := if_pos hx
        rw [haccepts, show m.fires (.attach x kind) = none from rfl, Option.toList_none,
          List.append_nil, Option.toList_some]
        refine ⟨hh.attach hx kind, fun b hb p hp => ?_, fun q hq => ?_, hunbroken⟩
        · obtain ⟨q, hq, heq⟩ := hbatches b hb p hp
          exact ⟨q, List.mem_append_left _ hq, heq⟩
        · rcases List.mem_append.1 hq with hq | hq
          · exact hobjects q hq
          · obtain ⟨c, hc, -⟩ := Arena.isAllocated_iff.1 hx
            rw [List.mem_singleton.1 hq]
            exact Arena.ne_zero_of_contains (Arena.contains_of_cell? hc)
      · have haccepts : m.accepts (.attach x kind) = none := if_neg hx
        have hsame : m.apply (.attach x kind) = m := by
          change ({ m with heap := (m.heap.attachRecord x kind).2 } : Machine) = m
          rw [attachRecord, if_neg hx]
        refine hsilent haccepts rfl ?_
        rw [hsame]
        exact ⟨hh, hbatches, hobjects, hunbroken⟩
  | startBatch =>
      refine hsilent rfl rfl ⟨hh.of_perm rfl rfl ?_, fun b hb p hp => ?_, hobjects, hunbroken⟩
      · change (m.heap.records.pending ++ m.batches.flatMap Batch.left ++ fired).Perm _
        rw [List.append_assoc]
      · rcases List.mem_cons.1 hb with rfl | hb
        · exact hh.queued p (List.mem_append_left _ hp)
        · exact hbatches b hb p hp
  | fire =>
      obtain ⟨b, rest, hbs, hne⟩ := hy
      obtain ⟨p, left, hleft⟩ := List.exists_cons_of_ne_nil hne
      have hfires : m.fires .fire = some p := by
        simp [fires, firing, hbs, hleft]
      rw [hbs] at hh hbatches
      rw [show m.accepts .fire = none from rfl, hfires, Option.toList_none, List.append_nil,
        Option.toList_some, apply_fire hbs]
      refine ⟨hh.of_perm rfl rfl ?_, fun d hd p hp => ?_, hobjects, hunbroken⟩
      · refine List.perm_iff_count.2 fun a => ?_
        simp only [List.flatMap_cons, hleft, List.tail_cons, List.count_append, List.count_cons,
          List.count_nil]
        omega
      · rcases List.mem_cons.1 hd with rfl | hd
        · exact hbatches b (List.mem_cons_self ..) p hp
        · exact hbatches d (List.mem_cons_of_mem _ hd) p hp
  | endBatch =>
      obtain ⟨b, rest, hbs, hnil⟩ := hy
      rw [hbs, List.flatMap_cons, hnil, List.nil_append] at hh
      rw [hbs] at hbatches
      refine hsilent rfl rfl ?_
      rw [apply_endBatch hbs]
      exact ⟨hh.of_perm rfl rfl (List.Perm.refl _),
        fun d hd => hbatches d (List.mem_cons_of_mem _ hd), hobjects, hunbroken⟩
  | breakBatch => exact absurd rfl hfails
  | _ =>
      exact hsilent rfl rfl (hquiet (not_does_attach (by simp)) (not_does_batch (by simp) (by simp))
        rfl rfl)

/-! ### How records leave the table -/

/-- How an attached record may leave the table. A finalizer is queued with the address of its object,
when the object is unmarked after marking was completed, or when the sweeper comes to it and finds it
unmarked. A cleanup is queued when the sweeper frees its object. -/
structure Leaves (m : Machine) (y : Move) (q : PendingRecord) : Prop where
  queued : q.due ∈ (m.apply y).heap.records.pending
  finalizer : q.record.isFinalizer = true →
    y = .resurrect ∧ m.heap.markAll.arena.isReached q.addr = false ∨
      ∃ n, y = .sweepStep n ∧ m.heap.ComesTo n q.addr ∧ m.heap.arena.isUnreached q.addr = true
  cleanup : q.record.isFinalizer = false → ∃ n, y = .sweepStep n ∧ m.Reclaims y q.addr

/-- A move of the run takes the record from the table. -/
def LeavesIn (m : Machine) (ys : List Move) (q : PendingRecord) : Prop :=
  ∃ zs y rest, ys = zs ++ y :: rest ∧ (m.run zs).heap.records.Attached q.addr q.record ∧
    (m.run zs).Leaves y q

theorem leaves_sweepStep
    {n : Nat}
    (hs : m.heap.Sound)
    (ha : m.heap.records.Attached x r)
    (hnot : ¬ (m.apply (.sweepStep n)).heap.records.Attached x r) :
    m.Leaves (.sweepStep n) ⟨x, r⟩ := by
  obtain ⟨rs, hfind, hr⟩ := ha.exists_find?
  obtain ⟨c, ho⟩ := Arena.exists_object (hs.recorded.live x rs hfind).2
  rcases sweepStep_cases hs n with ⟨-, heq⟩ | ⟨k, cs, g, hk, hv, heq⟩
  · have hsame : (m.apply (.sweepStep n)).heap = m.heap := heq
    rw [hsame] at hnot
    exact absurd ha hnot
  have hnodup := Arena.nodup_cellsOf_range hs.layout k.sweepNext (min n (k.sweepLimit - k.sweepNext))
  have hafter : (m.apply (.sweepStep n)).heap = _ := heq
  have hrecords : (m.apply (.sweepStep n)).heap.records = g.records := by
    rw [hafter]
  rw [hrecords] at hnot
  cases hv.fate hs hnodup ho with
  | spared hx hsame =>
      rw [SideRecords.Attached, hsame.records] at hnot
      exact absurd ha hnot
  | kept hx hw hf hobj hfinalizers hcleanups =>
      -- The cleanups of an object that is kept stay in the table.
      cases hfin : r.isFinalizer with
      | false =>
          have hmem : r ∈ g.records.cleanups x := by
            rw [hcleanups]
            exact List.mem_filter.2 ⟨ha, by rw [hfin]; rfl⟩
          exact absurd (List.mem_filter.1 hmem).1 hnot
      | true =>
          obtain ⟨-, hway⟩ := hv.finalizer hs hnodup hfin ho ha
          obtain ⟨hp, -⟩ := hway.resolve_left hnot
          refine ⟨?_, fun _ => Or.inr ⟨n, rfl, ⟨k, hk, (mem_sweepRange hs.layout ho).1 hx⟩,
            Arena.isUnreached_iff.2 ⟨c, ho, hw⟩⟩, fun h => ?_⟩
          · rwa [PendingRecord.due_of_finalizer (p := ⟨x, r⟩) hfin, hrecords]
          · exact Bool.noConfusion (hfin.symm.trans h)
  | freed hx hw hf hvacant hnone =>
      have hfin : r.isFinalizer = false := by
        rw [Bool.eq_false_iff]
        intro hfin
        rw [ha.hasFinalizer hfin] at hf
        cases hf
      refine ⟨?_, fun h => Bool.noConfusion (hfin.symm.trans h), fun _ => ⟨n, rfl,
        ho.isAllocated, by rw [hafter]; exact hvacant⟩⟩
      rw [PendingRecord.due_of_cleanup (p := ⟨x, r⟩) hfin, hrecords]
      rcases hv.consulted hs hnodup ho hfind with ⟨⟨hd, hobj⟩, -⟩ | ⟨-, -, -, hqueued⟩
      · rw [hobj.not_isVacant] at hvacant
        cases hvacant
      · exact hqueued.subset (List.mem_map_of_mem hr)

/-- A record leaves the table only when it is due. -/
theorem Proper.leaves
    (hm : m.Proper)
    (hy : m.Allows y)
    (ha : m.heap.records.Attached x r)
    (hnot : ¬ (m.apply y).heap.records.Attached x r) :
    m.Leaves y ⟨x, r⟩ := by
  by_cases hsweep : ∃ n, y = .sweepStep n
  · obtain ⟨n, rfl⟩ := hsweep
    exact leaves_sweepStep hm.sound ha hnot
  have hnosweep : ∀ n, y ≠ .sweepStep n := fun n e => hsweep ⟨n, e⟩
  obtain ⟨rs, hfind, hr⟩ := ha.exists_find?
  -- Nothing but the sweeper takes cleanups, and besides it only the resurrection takes finalizers.
  obtain ⟨hfin, hp⟩ := (hm.keepsRecords hy hnosweep hfind r hr).resolve_left hnot
  have hresurrect : y = .resurrect := by
    by_contra hother
    exact hnot ((hm.steps hy).attached (not_does_finalize hother hnosweep x) hfin ha)
  subst hresurrect
  have hmem : x ∈ m.heap.markAll.resurrectable := by
    by_contra hmem
    refine hnot ((resurrectAll_steps m.heap.markAll).attached ?_ hfin ?_)
    · rintro (hl | ⟨z, hz, hl⟩)
      · cases hl
      · cases hl
        exact hmem hz
    · rwa [records_markAll]
  refine ⟨?_, fun _ => Or.inl ⟨rfl, (mem_resurrectable.1 hmem).2⟩, fun h => ?_⟩
  · rwa [PendingRecord.due_of_finalizer (p := ⟨x, r⟩) hfin]
  · exact Bool.noConfusion (hfin.symm.trans h)

/-! ### Runs -/

theorem Legal.placed
    (hl : Legal NoneFails m ys)
    (hm : m.Proper)
    (hp : m.Placed acc fired) :
    (m.run ys).Placed (acc ++ m.acceptedIn ys) (fired ++ m.firedIn ys) := by
  induction ys generalizing m acc fired with
  | nil =>
      rw [acceptedIn, firedIn, List.append_nil, List.append_nil]
      exact hp
  | cons y ys ih =>
      rw [acceptedIn, firedIn, ← List.append_assoc, ← List.append_assoc]
      exact ih hl.2.2 (hm.apply hl.1) (hm.placed hl.1 hl.2.1 hp)

/-- A record that was attached is attached, or it has left the table. -/
theorem Legal.leavesIn
    (hl : Legal P m ys)
    (hm : m.Proper)
    (ha : m.heap.records.Attached q.addr q.record)
    (hnot : ¬ (m.run ys).heap.records.Attached q.addr q.record) :
    m.LeavesIn ys q := by
  induction ys generalizing m with
  | nil => exact absurd ha hnot
  | cons y ys ih =>
      by_cases hstays : (m.apply y).heap.records.Attached q.addr q.record
      · obtain ⟨zs, z, rest, rfl, hz, hleaves⟩ := ih hl.2.2 (hm.apply hl.1) hstays hnot
        exact ⟨y :: zs, z, rest, rfl, hz, hleaves⟩
      · exact ⟨[], y, ys, rfl, ha, hm.leaves hl.1 ha hstays⟩

/-- An accepted record is attached to its object by the move that accepts it. -/
theorem attached_of_accepts
    (hq : m.accepts y = some q) :
    (m.apply y).heap.records.Attached q.addr q.record := by
  cases y with
  | attach x kind =>
      by_cases hx : m.heap.arena.isAllocated x = true
      · obtain rfl := Option.some.inj ((if_pos hx).symm.trans hq)
        change (m.heap.attachRecord x kind).2.records.Attached x _
        rw [SideRecords.Attached, (attachRecord_eq kind hx).2, SideRecords.attached_attach_self]
        exact List.mem_append_right _ (List.mem_singleton_self _)
      · cases (if_neg hx).symm.trans hq
  | _ => cases hq

/-- An accepted record is attached to its object, or it has left the table. -/
theorem Legal.attached_or_leavesIn
    (hl : Legal P m ys)
    (hm : m.Proper)
    (hq : q ∈ m.acceptedIn ys) :
    (m.run ys).heap.records.Attached q.addr q.record ∨ m.LeavesIn ys q := by
  induction ys generalizing m with
  | nil => cases hq
  | cons y ys ih =>
      have hcons : (m.apply y).LeavesIn ys q → m.LeavesIn (y :: ys) q := by
        rintro ⟨zs, z, rest, rfl, hz, hleaves⟩
        exact ⟨y :: zs, z, rest, rfl, hz, hleaves⟩
      rcases List.mem_append.1 hq with hq | hq
      · by_cases hstays : ((m.apply y).run ys).heap.records.Attached q.addr q.record
        · exact Or.inl hstays
        · have ha := attached_of_accepts (Option.mem_toList.1 hq)
          exact Or.inr (hcons (hl.2.2.leavesIn (hm.apply hl.1) ha hstays))
      · exact (ih hl.2.2 (hm.apply hl.1) hq).imp_right hcons

/-- The objects of accepted records that were taken from the table are those of the finalizers. -/
theorem Placed.targets
    {ps : List PendingRecord}
    (hp : m.Placed acc fired)
    (hdue : ∀ p ∈ ps, ∃ q ∈ acc, p = q.due) :
    SideRecords.targets ps =
      (ps.filter fun p => p.record.isFinalizer).map PendingRecord.addr := by
  unfold SideRecords.targets
  rw [List.filter_map]
  refine congrArg _ (List.filter_congr fun p hr => ?_)
  obtain ⟨q, hq, rfl⟩ := hdue p hr
  cases hfin : q.record.isFinalizer with
  | true =>
      rw [PendingRecord.due_of_finalizer hfin, hfin]
      simpa using hp.objects q hq
  | false =>
      rw [PendingRecord.due_of_cleanup hfin, hfin]
      rfl

/-- The heap keeps the objects of the finalizers of the batches that are being run. -/
theorem Placed.running
    (hp : m.Placed acc fired)
    (hb : m.Batched) :
    m.heap.records.running.Perm (m.batches.flatMap Batch.finalizerObjects) := by
  have hobjects : ∀ b ∈ m.batches, SideRecords.targets b.records = b.finalizerObjects :=
    fun b hmem => hp.targets (hp.batches b hmem)
  have hrunning := hb.running
  rwa [hp.unbroken, List.append_nil, List.flatMap_congr hobjects] at hrunning

/-- Side records are neither lost nor doubled, and they fire only when they are due. If no record
fails, then in every state of a run every accepted record is in one place and there once: in the
table under its object, in the queue, left in a batch that is being run, or among those that have
fired. Nothing else is in these places, and what is queued, about to fire or has fired was taken from
the table as a finalizer of an unmarked object or as a cleanup of an object that was freed then, which
are the only ways out of the table. And the heap keeps the objects of the finalizers of the batches
that are being run, whatever the depth. -/
theorem records_in_place
    (hc : Heap.create memory cfg = .ok h)
    (hl : Legal NoneFails (start h) ys) :
    let m := (start h).run ys
    let acc := (start h).acceptedIn ys
    let fired := (start h).firedIn ys
    (acc.map fun q => q.record.id).Nodup ∧
      (∀ q ∈ acc, m.InOnePlace fired q) ∧
      (∀ q, m.heap.records.Attached q.addr q.record → q ∈ acc) ∧
      (∀ p ∈ m.heap.records.pending ++ (m.batches.flatMap Batch.left ++ fired),
        ∃ q ∈ acc, p = q.due ∧ (start h).LeavesIn ys q) ∧
      (∀ y q, m.Allows y → m.heap.records.Attached q.addr q.record →
        ¬ (m.apply y).heap.records.Attached q.addr q.record → m.Leaves y q) ∧
      m.heap.records.running.Perm (m.batches.flatMap Batch.finalizerObjects) := by
  have hm := hl.proper (proper_start hc)
  have hplaced := hl.placed (proper_start hc) (placed_start hc)
  rw [List.nil_append, List.nil_append] at hplaced
  refine ⟨hplaced.holds.distinct, fun q hq => hplaced.inOnePlace hq,
    fun q ha => hplaced.holds.attached _ _ ha, fun p hp => ?_,
    fun y q hy ha hnot => hm.leaves hy ha hnot, hplaced.running (hl.batched hc)⟩
  obtain ⟨q, hq, rfl⟩ := hplaced.holds.queued p hp
  refine ⟨q, hq, rfl, (hl.attached_or_leavesIn (proper_start hc) hq).resolve_left fun ha => ?_⟩
  -- A record that is attached is not anywhere else.
  have honce := hplaced.holds.once q hq
  have hattached : 0 < ((start h).run ys).heap.records.timesAttached q :=
    SideRecords.timesAttached_pos ha
  have hqueued := List.count_pos_iff.2 hp
  omega

/-- Two objects, the first one with a finalizer and a cleanup and the second one with a cleanup; after
a cycle the finalizer runs, attaches another record and runs a cycle and a batch of its own. -/
def nestedBatches : List Move :=
  [.addWorker, .carveBlock quarterBlock, .setCursor 0 quarterBlock 0, .claim 0 quarterBlock,
    .claim 0 quarterBlock, .attach Arena.start .finalizer, .attach Arena.start .cleanup,
    .attach (Arena.start + 4096) .cleanup, .attachCollector] ++ emptyCycle ++
      [.startBatch, .fire, .attach Arena.start .cleanup] ++ emptyCycle ++ [.startBatch]

theorem records_in_place_nested :
    let m := (start (.empty fourBlocks)).run nestedBatches
    let fired := (start (.empty fourBlocks)).firedIn nestedBatches
    fired = [⟨Arena.start, ⟨0, .finalizer⟩⟩] ∧ m.InOnePlace fired ⟨Arena.start, ⟨0, .finalizer⟩⟩ ∧
      m.heap.records.Attached Arena.start ⟨1, .cleanup⟩ ∧
      m.InOnePlace fired ⟨Arena.start, ⟨1, .cleanup⟩⟩ ∧
      m.batches.flatMap Batch.left = [⟨0, ⟨2, .cleanup⟩⟩] ∧
      (∃ q ∈ (start (.empty fourBlocks)).acceptedIn nestedBatches, ⟨0, ⟨2, .cleanup⟩⟩ = q.due ∧
        (start (.empty fourBlocks)).LeavesIn nestedBatches q) ∧
      m.heap.records.running.Perm [Arena.start] := by
  intro m fired
  have hlegal : Legal NoneFails (start (.empty fourBlocks)) nestedBatches := by
    decide +kernel
  obtain ⟨-, hplaces, -, hdue, -, hrunning⟩ := records_in_place create_fourBlocks hlegal
  have hobjects : m.batches.flatMap Batch.finalizerObjects = [Arena.start] := by
    decide +kernel
  rw [hobjects] at hrunning
  refine ⟨by decide +kernel, hplaces _ (by decide +kernel), ?_, hplaces _ (by decide +kernel),
    by decide +kernel, hdue _ (by decide +kernel), hrunning⟩
  unfold SideRecords.Attached
  decide +kernel

end Machine

end EagerHeap
