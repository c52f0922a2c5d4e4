import EagerHeap.Action.Records
import EagerHeap.Proofs.Cycle.Collected
import EagerHeap.Proofs.Run.Places
/-!
# Failing side records

If a record of a batch fails, the batch is given up in the middle: the records after it are lost, and
the heap goes on to keep the objects of the finalizers of the batch, which nobody ever takes off the
list. The batches around it go on. A failed batch is therefore like one that encloses all others and
never gets its turn, and what is known of batches that are being run holds of it.

Main results: `Proper.placed_merged`, `lost_persists` and `failures_account`.
-/

namespace EagerHeap.Machine

variable {P Q : Machine → Move → Prop} {m : Machine} {y : Move} {ys zs : List Move} {x : Nat}
  {q : PendingRecord} {acc fired : List PendingRecord} {memory : Nat} {cfg : Config} {h : Heap}

open Heap

/-! ### Failed batches as batches -/

/-- The machine in which failed batches enclose all others. -/
def merged (m : Machine) : Machine := { m with batches := m.batches ++ m.broken, broken := [] }

/-- The records that were left in a batch when one of its records failed. -/
def lost (m : Machine) : List PendingRecord := m.broken.flatMap Batch.left

/-- A failed batch does not get its turn before the others. -/
theorem merged_apply
    (hy : m.Allows y)
    (hfails : y ≠ .breakBatch) :
    m.merged.Allows y ∧ m.merged.apply y = (m.apply y).merged ∧
      m.merged.accepts y = m.accepts y ∧ m.merged.fires y = m.fires y := by
  have hhead : ∀ {b rest}, m.batches = b :: rest → m.merged.batches = b :: (rest ++ m.broken) := by
    intro b rest hbs
    exact congrArg (· ++ m.broken) hbs
  cases y with
  | fire =>
      obtain ⟨b, rest, hbs, hne⟩ := hy
      refine ⟨⟨b, _, hhead hbs, hne⟩, ?_, rfl, ?_⟩
      · rw [apply_fire (hhead hbs), apply_fire hbs]
        rfl
      · unfold fires firing
        rw [hhead hbs, hbs]
        rfl
  | endBatch =>
      obtain ⟨b, rest, hbs, hnil⟩ := hy
      refine ⟨⟨b, _, hhead hbs, hnil⟩, ?_, rfl, rfl⟩
      rw [apply_endBatch (hhead hbs), apply_endBatch hbs]
      rfl
  | breakBatch => exact absurd rfl hfails
  | _ => exact ⟨hy, rfl, rfl, rfl⟩

theorem Proper.merged (hm : m.Proper) : m.merged.Proper := ⟨hm.sound, hm.stage, hm.attached⟩

theorem Batched.merged
    (hb : m.Batched) :
    m.merged.Batched := by
  have hsame : m.merged.batches ++ m.merged.broken = m.batches ++ m.broken := List.append_nil _
  refine ⟨?_, ?_⟩
  · rw [hsame]
    exact hb.running
  · rw [hsame]
    exact hb.left

/-- Every move keeps the account of the records, those that are lost included. -/
theorem Proper.placed_merged
    (hm : m.Proper)
    (hy : m.Allows y)
    (hp : m.merged.Placed acc fired) :
    (m.apply y).merged.Placed (acc ++ (m.accepts y).toList) (fired ++ (m.fires y).toList) := by
  by_cases hfails : y = .breakBatch
  · -- The failed batch moves behind those that enclose it.
    subst hfails
    obtain ⟨b, rest, hbs⟩ := List.exists_cons_of_ne_nil hy
    have hbefore : m.merged.batches = b :: (rest ++ m.broken) := congrArg (· ++ m.broken) hbs
    have hafter : (m.apply .breakBatch).merged.batches = rest ++ b :: m.broken := by
      change m.batches.tail ++ (m.batches.head?.toList ++ m.broken) = _
      rw [hbs]
      rfl
    have hperm : (m.apply .breakBatch).merged.batches.Perm m.merged.batches := by
      rw [hbefore, hafter]
      exact List.perm_middle
    obtain ⟨hh, hbatches, hobjects, -⟩ := hp
    rw [show m.accepts .breakBatch = none from rfl, show m.fires .breakBatch = none from rfl,
      Option.toList_none, List.append_nil, List.append_nil]
    refine ⟨hh.of_perm rfl rfl ?_, fun d hd => hbatches d (hperm.mem_iff.1 hd), hobjects, rfl⟩
    exact ((hperm.flatMap_right _).append_right _).append_left _
  · obtain ⟨hallowed, happly, haccepts, hfires⟩ := merged_apply hy hfails
    rw [← happly, ← haccepts, ← hfires]
    exact hm.merged.placed hallowed hfails hp

theorem Legal.placed_merged
    (hl : Legal P m ys)
    (hm : m.Proper)
    (hp : m.merged.Placed acc fired) :
    (m.run ys).merged.Placed (acc ++ m.acceptedIn ys) (fired ++ m.firedIn ys) := by
  induction ys generalizing m acc fired with
  | nil =>
      rw [acceptedIn, firedIn, List.append_nil, List.append_nil]
      exact hp
  | cons y ys ih =>
      rw [acceptedIn, firedIn, ← List.append_assoc, ← List.append_assoc]
      exact ih hl.2.2 (hm.apply hl.1) (hm.placed_merged hl.1 hp)

/-! ### Failed batches stay -/

theorem broken_suffix_apply (m : Machine) (y : Move) : m.broken <:+ (m.apply y).broken := by
  cases y with
  | breakBatch => exact List.suffix_append _ _
  | _ => exact List.suffix_refl _

theorem broken_suffix_run (m : Machine) (ys : List Move) : m.broken <:+ (m.run ys).broken := by
  induction ys generalizing m with
  | nil => exact List.suffix_refl _
  | cons y ys ih => exact (broken_suffix_apply m y).trans (ih (m.apply y))

theorem flatMap_broken_subset {β : Type} (f : Batch → List β) (m : Machine) (ys : List Move) :
    m.broken.flatMap f ⊆ (m.run ys).broken.flatMap f := by
  intro a ha
  obtain ⟨b, hb, hab⟩ := List.mem_flatMap.1 ha
  exact List.mem_flatMap.2 ⟨b, (broken_suffix_run m ys).subset hb, hab⟩

/-! ### One batch that fails -/

/-- The record gives a result, whatever the state of the client, and leaves the heap alone. -/
def Quietly {σ : Type} (hooks : Hooks σ) (r : PendingRecord) (result : Except Failure Unit) : Prop :=
  ∀ w, ∃ w', ExceptT.run (hooks.onRecord r.record r.addr) w = (result, w') ∧ w'.heap = w.heap

section Batch

variable {σ : Type} {hooks : Hooks σ} {pre post : List PendingRecord} {p : PendingRecord}
  {f : Failure} {w w₁ w₂ : World σ}

/-- Runs the records of a batch one after the other. -/
def runRecords (hooks : Hooks σ) (ps : List PendingRecord) : Action σ Unit :=
  ps.forM fun p => hooks.onRecord p.record p.addr

theorem runRecords_cons (hooks : Hooks σ) (r : PendingRecord) (ps : List PendingRecord) :
    runRecords hooks (r :: ps) =
      hooks.onRecord r.record r.addr >>= fun _ => runRecords hooks ps := rfl

theorem runRecords_append (hooks : Hooks σ) (ps qs : List PendingRecord) :
    runRecords hooks (ps ++ qs) = runRecords hooks ps >>= fun _ => runRecords hooks qs :=
  List.forM_append

/-- If a record fails, the batch is left as it is: nothing is put back into the queue, and nothing is
taken off the list of the objects whose finalizers are being run. -/
theorem runPending_of_failure
    (hpending : w.heap.records.pending = pre ++ p :: post)
    (hpre : ExceptT.run (runRecords hooks pre) { w with heap := w.heap.startBatch.2 } = (.ok (), w₁))
    (hfails : ExceptT.run (hooks.onRecord p.record p.addr) w₁ = (.error f, w₂)) :
    ExceptT.run (Action.runPending hooks) w = (.error f, w₂) := by
  have hbatch : ExceptT.run (runRecords hooks (pre ++ p :: post))
      { w with heap := w.heap.startBatch.2 } = (.error f, w₂) := by
    rw [runRecords_append, run_bind_operation, hpre, runRecords_cons]
    dsimp only
    rw [run_bind_operation, hfails]
  rw [← hpending] at hbatch
  unfold Action.runPending
  rw [run_bind_operation]
  change ExceptT.run (runRecords hooks w.heap.records.pending >>= fun _ => _)
    { w with heap := w.heap.startBatch.2 } = _
  rw [run_bind_operation, hbatch]

/-- Records that leave the heap alone and do not fail. -/
theorem runRecords_quiet
    (hquiet : ∀ r ∈ pre, Quietly hooks r (.ok ()))
    (w : World σ) :
    ∃ w', ExceptT.run (runRecords hooks pre) w = (.ok (), w') ∧ w'.heap = w.heap := by
  induction pre generalizing w with
  | nil => exact ⟨w, rfl, rfl⟩
  | cons r pre ih =>
      obtain ⟨w₁, hrun, hw₁⟩ := hquiet r (List.mem_cons_self ..) w
      obtain ⟨w₂, hrun', hw₂⟩ := ih (fun q hq => hquiet q (List.mem_cons_of_mem _ hq)) w₁
      refine ⟨w₂, ?_, hw₂.trans hw₁⟩
      rw [runRecords_cons, run_bind_operation, hrun]
      exact hrun'

end Batch

/-- The moves of a batch of which the record after the first `n` ones fails. -/
def failingBatch (n : Nat) : List Move :=
  .startBatch :: (List.replicate (n + 1) .fire ++ [.breakBatch])

theorem run_fires
    {b : Batch} {rest : List Batch}
    (n : Nat)
    (hbs : m.batches = b :: rest) :
    m.run (List.replicate n .fire) = { m with batches := { b with left := b.left.drop n } :: rest } := by
  induction n generalizing m b with
  | zero =>
      rw [List.replicate_zero, run_nil, List.drop_zero]
      exact congrArg (fun bs => { m with batches := bs }) hbs
  | succ n ih =>
      rw [List.replicate_succ, run_cons, apply_fire hbs, ih rfl, List.drop_tail]

theorem run_failingBatch (m : Machine) (n : Nat) :
    m.run (failingBatch n) =
      { m with
        heap := m.heap.startBatch.2
        broken := ⟨m.heap.records.pending, m.heap.records.pending.drop (n + 1)⟩ :: m.broken } := by
  have hfired := run_fires (m := m.apply .startBatch) (n + 1) rfl
  unfold failingBatch
  rw [run_cons, run_append, hfired]
  rfl

/-! ### Where records and their objects are -/

/-- The record is in one place, and there once: it is attached to its object, queued, left in a batch
that is being run, left in a batch that failed, or it has fired. -/
def InOnePlaceOrLost (m : Machine) (fired : List PendingRecord) (q : PendingRecord) : Prop :=
  m.heap.records.timesAttached q + m.heap.records.pending.count q.due +
    (m.batches.flatMap Batch.left).count q.due + m.lost.count q.due + fired.count q.due = 1

/-- A finalizer of the object is queued or belongs to a batch that is being run. -/
def FinalizerDue (m : Machine) (x : Nat) : Prop :=
  (∃ p ∈ m.heap.records.pending, p.record.isFinalizer = true ∧ p.addr = x) ∨
    x ∈ m.batches.flatMap Batch.finalizerObjects

/-- A finalizer of the object belongs to a batch that failed. -/
def Stranded (m : Machine) (x : Nat) : Prop := x ∈ m.broken.flatMap Batch.finalizerObjects

theorem Stranded.run
    (hx : m.Stranded x)
    (ys : List Move) :
    (m.run ys).Stranded x :=
  flatMap_broken_subset _ m ys hx

/-- The second machine is the first one after the whole queue was run as a batch in which the record
between two parts failed: the second part is lost, and the objects of all finalizers are stranded. -/
structure GivesUp (m : Machine) (pre : List PendingRecord) (p : PendingRecord)
    (post : List PendingRecord) (m' : Machine) : Prop where
  queue : m'.heap.records.pending = []
  batches : m'.batches = m.batches
  lost : m'.lost = post ++ m.lost
  stranded : ∀ x, m'.Stranded x ↔
    (∃ r ∈ pre ++ p :: post, r.record.isFinalizer = true ∧ r.addr = x) ∨ m.Stranded x

theorem givesUp_failingBatch
    {pre post : List PendingRecord} {p : PendingRecord}
    (hpending : m.heap.records.pending = pre ++ p :: post) :
    m.GivesUp pre p post (m.run (failingBatch pre.length)) := by
  rw [run_failingBatch]
  refine ⟨rfl, rfl, ?_, fun x => ?_⟩
  · unfold lost
    rw [List.flatMap_cons, hpending]
    simp
  · unfold Stranded Batch.finalizerObjects
    rw [List.flatMap_cons, List.mem_append, hpending, List.mem_map]
    simp only [List.mem_filter, and_assoc]

/-! ### Runs -/

/-- The state of a run with the records that it has accepted and fired. -/
theorem Legal.merged_start
    (hl : Legal P (start h) ys)
    (hc : Heap.create memory cfg = .ok h) :
    ((start h).run ys).merged.Placed ((start h).acceptedIn ys) ((start h).firedIn ys) := by
  have hplaced := hl.placed_merged (proper_start hc) (placed_start hc)
  rwa [List.nil_append, List.nil_append] at hplaced

theorem inOnePlaceOrLost_of_placed
    (hp : m.merged.Placed acc fired)
    (hq : q ∈ acc) :
    m.InOnePlaceOrLost fired q := by
  have honce := hp.inOnePlace hq
  have hleft : m.merged.batches.flatMap Batch.left = m.batches.flatMap Batch.left ++ m.lost :=
    List.flatMap_append
  unfold InOnePlace at honce
  rw [hleft, List.count_append] at honce
  change m.heap.records.timesAttached q + m.heap.records.pending.count q.due + _ + _ = 1 at honce
  unfold InOnePlaceOrLost
  omega

/-- The objects that the heap keeps on behalf of finalizers. -/
theorem mem_roots_of_placed
    (hp : m.merged.Placed acc fired)
    (hb : m.Batched) :
    x ∈ m.heap.records.roots ↔ m.FinalizerDue x ∨ m.Stranded x := by
  have hqueued : x ∈ SideRecords.targets m.heap.records.pending ↔
      ∃ p ∈ m.heap.records.pending, p.record.isFinalizer = true ∧ p.addr = x := by
    have htargets : SideRecords.targets m.heap.records.pending =
        (m.heap.records.pending.filter fun p => p.record.isFinalizer).map PendingRecord.addr :=
      hp.targets fun p hmem => hp.holds.queued p (List.mem_append_left _ hmem)
    rw [htargets, List.mem_map]
    simp only [List.mem_filter, and_assoc]
  have hrunning : x ∈ m.heap.records.running ↔
      x ∈ (m.batches ++ m.broken).flatMap Batch.finalizerObjects :=
    (hp.running hb.merged).mem_iff
  unfold SideRecords.roots FinalizerDue Stranded
  rw [List.mem_append, hqueued, hrunning, List.flatMap_append, List.mem_append, or_assoc]

/-- A lost record is lost for good: it is never queued again and never fires. -/
theorem Legal.stays_lost
    (hl : Legal P m zs)
    (hm : m.Proper)
    (hp : m.merged.Placed acc fired)
    (hq : q ∈ acc)
    (hlost : q.due ∈ m.lost) :
    q.due ∈ (m.run zs).lost ∧ q.due ∉ (m.run zs).heap.records.pending ∧ q.due ∉ m.firedIn zs := by
  have hafter := flatMap_broken_subset Batch.left m zs hlost
  have honce := inOnePlaceOrLost_of_placed (hl.placed_merged hm hp) (List.mem_append_left _ hq)
  have hcount := List.count_pos_iff.2 hafter
  unfold InOnePlaceOrLost at honce
  rw [List.count_append] at honce
  refine ⟨hafter, fun hmem => ?_, fun hmem => ?_⟩
  · have := List.count_pos_iff.2 hmem
    unfold lost at honce
    omega
  · have := List.count_pos_iff.2 hmem
    unfold lost at honce
    omega

/-- The objects that a whole cycle keeps: those that can be reached from the roots, from an object
with an attached or a due finalizer, or from an object with a finalizer in a batch that failed. -/
def Survivors (m : Machine) (roots : List Nat) : Nat → Prop :=
  m.heap.arena.Reachable fun z =>
    z ∈ roots ∨ m.FinalizerDue z ∨ m.Stranded z ∨ m.heap.records.hasFinalizer z = true

/-- What a failing record costs. If a record of a batch fails, exactly the records after it are lost:
they are not queued again and never fire. The heap goes on to keep the objects of all finalizers of the
batch, beside those whose finalizers are queued or belong to a batch that is being run, and nothing
takes them off its list any more. So a whole cycle frees an object exactly if the object can be reached
neither from the roots nor from an object with a finalizer that is attached, queued, in a batch that
is being run, or in a batch that failed. -/
theorem failures_account
    (hc : Heap.create memory cfg = .ok h)
    (hl : Legal P (start h) ys) :
    let m := (start h).run ys
    (∀ q ∈ (start h).acceptedIn ys, m.InOnePlaceOrLost ((start h).firedIn ys) q ∧
      (q.due ∈ m.lost → ∀ zs, Legal Q m zs →
        q.due ∈ (m.run zs).lost ∧ q.due ∉ (m.run zs).heap.records.pending ∧
          q.due ∉ m.firedIn zs)) ∧
      (∀ x, x ∈ m.heap.records.roots ↔ m.FinalizerDue x ∨ m.Stranded x) ∧
      (∀ x, m.Stranded x → ∀ zs, (m.run zs).Stranded x) ∧
      (∀ {σ : Type} (hooks : Hooks σ) (w : World σ) (pre post : List PendingRecord)
        (p : PendingRecord) (f : Failure),
        w.heap = m.heap → m.heap.records.pending = pre ++ p :: post →
        (∀ r ∈ pre, Quietly hooks r (.ok ())) → Quietly hooks p (.error f) →
        ∃ w', ExceptT.run (Action.runPending hooks) w = (.error f, w') ∧
          w'.heap = (m.run (failingBatch pre.length)).heap ∧
          m.GivesUp pre p post (m.run (failingBatch pre.length))) ∧
      ∀ {σ : Type} (hooks : Hooks σ) (w : World σ) (roots : List Nat), hooks.Silent →
        w.heap = m.heap → m.heap.phase = .idle → m.heap.collector.isSome = true →
        m.heap.barrier = #[] →
        ∃ bytes w', ExceptT.run (Action.collect hooks fun _ => roots) w = (.ok bytes, w') ∧
          ∀ x, w'.heap.arena.isAllocated x = true ↔ m.Survivors roots x := by
  intro m
  have hm : m.Proper := hl.proper (proper_start hc)
  have hp := hl.merged_start hc
  have hroots : ∀ x, x ∈ m.heap.records.roots ↔ m.FinalizerDue x ∨ m.Stranded x :=
    fun x => mem_roots_of_placed hp (hl.batched hc)
  refine ⟨fun q hq => ⟨inOnePlaceOrLost_of_placed hp hq, fun hlost zs hzs =>
    hzs.stays_lost hm hp hq hlost⟩, hroots, fun x hx zs => hx.run zs, ?_, ?_⟩
  · intro σ hooks w pre post p f hw hpending hpre hfails
    obtain ⟨w₁, hrun, hw₁⟩ := runRecords_quiet hpre { w with heap := w.heap.startBatch.2 }
    obtain ⟨w₂, hrun', hw₂⟩ := hfails w₁
    refine ⟨w₂, runPending_of_failure (hw ▸ hpending) hrun hrun', ?_, givesUp_failingBatch hpending⟩
    rw [run_failingBatch, hw₂, hw₁, ← hw]
  · intro σ hooks w roots hk hw hidle hattached hbarrier
    have hbudget : 0 < w.heap.config.sweepBudget := by
      obtain ⟨hcheck, rfl⟩ := create_eq_ok hc
      rw [hw, hl.config (proper_start hc)]
      exact Config.sweepBudget_pos hcheck
    rw [← hw] at hidle hattached hbarrier
    obtain ⟨k, live, lost, hafter, hsweep, hcollected⟩ :=
      collected_afterCycle ⟨hw ▸ hm.sound, hidle, hattached, hbarrier⟩ hbudget roots
    obtain ⟨w', hrun, hw'⟩ := gives_collect hk hidle hsweep hafter w rfl
    refine ⟨k.bytes, w', hrun, fun x => ?_⟩
    rw [hw', hcollected.allocated, hcollected.mem_live, hw]
    unfold Live Survivors
    simp only [hroots, or_assoc]

/-- A client whose first record fails. -/
def failingClient : Hooks Unit where
  onEvent _ w := w
  onTransition _ _ w := w
  onRecord r _ := if r.id = 0 then throw (.recordFailed "failed") else pure ()

/-- An object with two finalizers that a cycle has queued. -/
def twoFinalizers : List Move :=
  [.addWorker, .carveBlock quarterBlock, .setCursor 0 quarterBlock 0, .claim 0 quarterBlock,
    .attach Arena.start .finalizer, .attach Arena.start .finalizer, .attachCollector] ++ emptyCycle

theorem failures_account_lost :
    let m := (start (.empty fourBlocks)).run (twoFinalizers ++ failingBatch 0)
    m.lost = [⟨Arena.start, ⟨1, .finalizer⟩⟩] ∧
      m.InOnePlaceOrLost ((start (.empty fourBlocks)).firedIn (twoFinalizers ++ failingBatch 0))
        ⟨Arena.start, ⟨1, .finalizer⟩⟩ ∧
      (∀ x, x ∈ m.heap.records.roots ↔ m.FinalizerDue x ∨ m.Stranded x) ∧
      (∀ zs, (m.run zs).Stranded Arena.start) ∧
      ∃ bytes w', ExceptT.run (Action.collect failingClient fun _ => []) ⟨m.heap, ()⟩ =
        (.ok bytes, w') ∧ w'.heap.arena.isAllocated Arena.start = true := by
  intro m
  have hlegal : Legal (fun _ _ => True) (start (.empty fourBlocks))
      (twoFinalizers ++ failingBatch 0) := by
    decide +kernel
  have hlost : m.lost = [⟨Arena.start, ⟨1, .finalizer⟩⟩] := by decide +kernel
  have hstranded : Arena.start ∈ m.broken.flatMap Batch.finalizerObjects := by decide +kernel
  have hallocated : m.heap.arena.isAllocated Arena.start = true := by decide +kernel
  have hidle : m.heap.phase = .idle := by decide +kernel
  have hattached : m.heap.collector.isSome = true := by decide +kernel
  have hbarrier : m.heap.barrier = #[] := by decide +kernel
  have haccepted : ⟨Arena.start, ⟨1, .finalizer⟩⟩ ∈
      (start (.empty fourBlocks)).acceptedIn (twoFinalizers ++ failingBatch 0) := by decide +kernel
  obtain ⟨hplaces, hroots, hstays, -, hcollect⟩ :=
    failures_account (Q := fun _ _ => True) create_fourBlocks hlegal
  have hm : m = (start (.empty fourBlocks)).run (twoFinalizers ++ failingBatch 0) := rfl
  clear_value m
  rw [← hm] at hplaces hroots hstays hcollect
  obtain ⟨bytes, w', hrun, hkept⟩ := hcollect failingClient ⟨m.heap, ()⟩ []
    ⟨fun _ _ => rfl, fun _ _ _ => rfl⟩ rfl hidle hattached hbarrier
  refine ⟨hlost, (hplaces _ haccepted).1, hroots, hstays _ hstranded, bytes, w', hrun,
    (hkept _).2 ?_⟩
  exact .root hallocated (Or.inr (Or.inr (Or.inl hstranded)))

/-- The first finalizer of an object fails. The second one is not queued any more, and although no
finalizer of the object is attached, queued or being run, a whole cycle keeps the object. -/
theorem failing_record_strands_object :
    let w : World Unit := ⟨((start (.empty fourBlocks)).run twoFinalizers).heap, ()⟩
    let w₁ := (ExceptT.run (Action.runPending failingClient) w).2
    let w₂ := (ExceptT.run (Action.collect failingClient fun _ => []) w₁).2
    Legal (fun _ _ => True) (start (.empty fourBlocks)) twoFinalizers ∧
      w.heap.records.pending =
        [⟨Arena.start, ⟨0, .finalizer⟩⟩, ⟨Arena.start, ⟨1, .finalizer⟩⟩] ∧
      w₁.heap.records.pending = [] ∧ w₁.heap.records.hasFinalizer Arena.start = false ∧
      w₁.heap.phase = .idle ∧ w₂.heap.phase = .idle ∧
      w₂.heap.arena.isAllocated Arena.start = true := by
  decide +kernel

end EagerHeap.Machine
