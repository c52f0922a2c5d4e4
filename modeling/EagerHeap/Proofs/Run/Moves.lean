import EagerHeap.Proofs.Arena.Layout
import EagerHeap.Heap.Cycle
import EagerHeap.Heap.Scopes
import EagerHeap.Heap.Words
import EagerHeap.Heap.Workers
/-!
# Runs of a heap

Between any two uninterrupted changes of a heap another worker, a side record, an observer or the
collector may act. A run is therefore a list of moves, each of them one uninterrupted piece of an
operation. An operation of the collector has several pieces; `Stage` says which one comes next, as
operations of the collector do not overlap. Likewise the batches of side records that are being run
are kept, the innermost one first.

`Machine.Legal` says when a run can take place: every move finds what its operation has checked or
what its caller guarantees, and satisfies a condition of the client's own.
-/

namespace EagerHeap

/-- Where the collector stands inside of one of its operations. -/
inductive Stage where
  /-- It is not inside of an operation. -/
  | resting
  /-- A cycle was begun, and its roots will be shaded. -/
  | beginning
  /-- The marking phase has ended, and the roots will be shaded once more. -/
  | finishing
  /-- Finalizers were queued, and the sweeping phase will begin. -/
  | resurrected
  /-- The sweeping phase has begun, and the blocks to sweep will be counted. -/
  | entering
  /-- The cycle has ended and will be accounted for. -/
  | closing
deriving DecidableEq, Repr

/-- A batch of side records that is being run. -/
structure Batch where
  /-- The records of the batch. -/
  records : List PendingRecord
  /-- The records of the batch that did not run yet. -/
  left : List PendingRecord
deriving DecidableEq, Repr

/-- A heap in the middle of operations. -/
structure Machine where
  /-- The heap. -/
  heap : Heap
  /-- Where the collector stands. -/
  stage : Stage := .resting
  /-- The batches that are being run, the innermost one first. -/
  batches : List Batch := []
  /-- The batches one record of which has failed. -/
  broken : List Batch := []

/-- An uninterrupted piece of an operation. -/
inductive Move where
  | addWorker
  | flushWorker (id : Nat)
  | retireWorker (id : Nat)
  | count (id : Nat) (k : Counter) (n : Nat)
  | reuse (id : Nat) (s : Span)
  | claim (id : Nat) (s : Span)
  | takePartial (s : Span)
  | carveBlock (s : Span)
  | setCursor (id : Nat) (s : Span) (block : Nat)
  | carveRun (n : Nat) (shape : Shape)
  | free (id addr size : Nat) (shape : Option Shape)
  | write (obj i v : Nat)
  | copy (source target bytes : Nat) (shape : Shape)
  | attach (addr : Nat) (kind : RecordKind)
  | startBatch
  /-- The next record of the innermost batch runs. -/
  | fire
  | endBatch
  /-- A record of the innermost batch fails. -/
  | breakBatch
  | makeRegistry (n : Nat)
  | dropRegistry (r : Nat)
  | enterScope (id r : Nat)
  | recordTracked (c addr allocatedAt : Nat)
  | drainScope (c : Nat)
  | leakScope (c : Nat)
  | observe
  | attachCollector
  | detachCollector
  | begin
  | shadeRoots (roots : List Nat)
  | markStep (n : Nat)
  | terminate
  /-- Marking is finished with the given roots. -/
  | finishMarking (roots : List Nat)
  | resurrect
  | enterSweep
  | zeroSlots
  | startSweep
  | sweepStep (n : Nat)
  | finish
  | closeCycle
deriving DecidableEq, Repr

namespace Machine

/-- The heap after a move. -/
def heapAfter (m : Machine) : Move → Heap
  | .addWorker => m.heap.addWorker.2
  | .flushWorker id => (m.heap.flushWorker id).2
  | .retireWorker id => (m.heap.retireWorker id).toOption.getD m.heap
  | .count id k n => m.heap.count id k n
  | .reuse id s => ((Heap.reuse id s).run m.heap).2
  | .claim id s => (m.heap.claim id s).2
  | .takePartial s => (m.heap.takePartial s).2
  | .carveBlock s => ((Heap.carveBlock s).run m.heap).2
  | .setCursor id s block => m.heap.setCursor id s ⟨block, 0⟩
  | .carveRun n shape => ((Heap.carveRun n shape).run m.heap).2
  | .free id addr size shape => (m.heap.free id addr size shape).2
  | .write obj i v => m.heap.writeWord obj i v
  | .copy source target bytes shape => m.heap.copyBytes source target bytes shape
  | .attach addr kind => (m.heap.attachRecord addr kind).2
  | .startBatch => m.heap.startBatch.2
  | .endBatch =>
    match m.batches with
    | [] => m.heap
    | b :: _ => m.heap.endBatch b.records
  | .makeRegistry n => (m.heap.makeRegistry n).2
  | .dropRegistry r => m.heap.dropRegistry r
  | .enterScope id r => ((Heap.enterScope id r).run m.heap).2
  | .recordTracked c addr allocatedAt => ((Heap.recordTracked c addr allocatedAt).run m.heap).2
  | .drainScope c => (m.heap.drainScope c).2
  | .leakScope c => m.heap.leakScope c
  | .observe => { m.heap with observers := m.heap.observers + 1 }
  | .attachCollector => { m.heap with collector := some {} }
  | .detachCollector => { m.heap with collector := none }
  | .begin => m.heap.resetCycle.nextPhase.2
  | .shadeRoots roots => m.heap.shadeRoots roots
  | .markStep n => m.heap.markStep n
  | .finishMarking roots => (m.heap.shadeRoots roots).markAll
  | .resurrect => m.heap.markAll.resurrectAll.2
  | .terminate | .enterSweep | .finish => m.heap.nextPhase.2
  | .zeroSlots => m.heap.invalidateSlots.2
  | .startSweep => m.heap.startSweep
  | .sweepStep n => m.heap.sweepStep n
  | .closeCycle => m.heap.closeCycle.2
  | .fire | .breakBatch => m.heap

/-- Where the collector stands after a move. -/
def stageAfter (m : Machine) : Move → Stage
  | .begin => .beginning
  | .terminate => .finishing
  | .resurrect => .resurrected
  | .enterSweep => .entering
  | .finish => .closing
  | .shadeRoots _ | .finishMarking _ | .startSweep | .closeCycle => .resting
  | _ => m.stage

/-- The batches that are being run after a move. -/
def batchesAfter (m : Machine) : Move → List Batch
  | .startBatch => ⟨m.heap.records.pending, m.heap.records.pending⟩ :: m.batches
  | .fire =>
    match m.batches with
    | [] => []
    | b :: rest => { b with left := b.left.tail } :: rest
  | .endBatch | .breakBatch => m.batches.tail
  | _ => m.batches

/-- The batches that failed up to a move. -/
def brokenAfter (m : Machine) : Move → List Batch
  | .breakBatch => m.batches.head?.toList ++ m.broken
  | _ => m.broken

/-- The state after a move. -/
def apply (m : Machine) (y : Move) : Machine where
  heap := m.heapAfter y
  stage := m.stageAfter y
  batches := m.batchesAfter y
  broken := m.brokenAfter y

/-- The state after a run. -/
def run (m : Machine) (ys : List Move) : Machine := ys.foldl apply m

/-- What a move finds: the conditions that its operation has checked or that its caller
guarantees. -/
def Allows (m : Machine) : Move → Prop
  | .setCursor _ s block => m.heap.arena.HasSpan block s
  | .carveRun n _ => 0 < n
  | .write obj i _ =>
    ∃ c, m.heap.arena.cell? obj = some c ∧ c.header.state = .allocated ∧ i < c.size / Word.bytes
  | .copy _ target bytes shape =>
    ∃ c, m.heap.arena.cell? target = some c ∧ c.header.state = .allocated ∧ c.shape = shape ∧
      bytes ≤ c.size
  | .fire => ∃ b rest, m.batches = b :: rest ∧ b.left ≠ []
  | .endBatch => ∃ b rest, m.batches = b :: rest ∧ b.left = []
  | .breakBatch => m.batches ≠ []
  | .attachCollector => m.heap.collector = none
  | .detachCollector => m.stage = .resting ∧ m.heap.phase = .idle
  | .begin => m.stage = .resting ∧ m.heap.phase = .idle ∧ m.heap.collector.isSome
  | .shadeRoots _ => m.stage = .beginning
  | .markStep _ | .sweepStep _ => m.stage = .resting
  | .terminate => m.stage = .resting ∧ m.heap.phase = .mark
  | .finishMarking _ => m.stage = .finishing
  | .resurrect => m.stage = .resting ∧ m.heap.phase = .termination
  | .enterSweep => m.stage = .resurrected
  | .zeroSlots | .startSweep => m.stage = .entering
  | .finish => m.stage = .resting ∧ m.heap.phase = .sweep
  | .closeCycle => m.stage = .closing
  | _ => True

instance decidableExistsSome {α : Type} (o : Option α) (p : α → Prop) [DecidablePred p] :
    Decidable (∃ a, o = some a ∧ p a) :=
  match o with
  | none => .isFalse fun ⟨_, h, _⟩ => nomatch h
  | some a =>
    decidable_of_iff (p a)
      ⟨fun h => ⟨a, rfl, h⟩, fun ⟨_, h, hp⟩ => Option.some.inj h ▸ hp⟩

instance decidableExistsCons {α : Type} (l : List α) (p : α → Prop) [DecidablePred p] :
    Decidable (∃ a rest, l = a :: rest ∧ p a) :=
  match l with
  | [] => .isFalse fun ⟨_, _, h, _⟩ => nomatch h
  | a :: rest =>
    decidable_of_iff (p a)
      ⟨fun h => ⟨a, rest, rfl, h⟩, fun ⟨_, _, h, hp⟩ => (List.cons.inj h).1 ▸ hp⟩

instance decidableAllows (m : Machine) : (y : Move) → Decidable (m.Allows y)
  | .setCursor _ s block =>
    inferInstanceAs (Decidable (m.heap.arena.outline? block = some (.ofSpan s)))
  | .carveRun n _ => inferInstanceAs (Decidable (0 < n))
  | .write obj i _ =>
    inferInstanceAs (Decidable (∃ c, m.heap.arena.cell? obj = some c ∧
      c.header.state = .allocated ∧ i < c.size / Word.bytes))
  | .copy _ target bytes shape =>
    inferInstanceAs (Decidable (∃ c, m.heap.arena.cell? target = some c ∧
      c.header.state = .allocated ∧ c.shape = shape ∧ bytes ≤ c.size))
  | .fire => inferInstanceAs (Decidable (∃ b rest, m.batches = b :: rest ∧ b.left ≠ []))
  | .endBatch => inferInstanceAs (Decidable (∃ b rest, m.batches = b :: rest ∧ b.left = []))
  | .breakBatch => inferInstanceAs (Decidable (m.batches ≠ []))
  | .attachCollector => inferInstanceAs (Decidable (m.heap.collector = none))
  | .detachCollector =>
    inferInstanceAs (Decidable (m.stage = .resting ∧ m.heap.phase = .idle))
  | .begin =>
    inferInstanceAs
      (Decidable (m.stage = .resting ∧ m.heap.phase = .idle ∧ m.heap.collector.isSome))
  | .shadeRoots _ => inferInstanceAs (Decidable (m.stage = .beginning))
  | .markStep _ | .sweepStep _ => inferInstanceAs (Decidable (m.stage = .resting))
  | .terminate => inferInstanceAs (Decidable (m.stage = .resting ∧ m.heap.phase = .mark))
  | .finishMarking _ => inferInstanceAs (Decidable (m.stage = .finishing))
  | .resurrect => inferInstanceAs (Decidable (m.stage = .resting ∧ m.heap.phase = .termination))
  | .enterSweep => inferInstanceAs (Decidable (m.stage = .resurrected))
  | .zeroSlots | .startSweep => inferInstanceAs (Decidable (m.stage = .entering))
  | .finish => inferInstanceAs (Decidable (m.stage = .resting ∧ m.heap.phase = .sweep))
  | .closeCycle => inferInstanceAs (Decidable (m.stage = .closing))
  | .addWorker | .flushWorker _ | .retireWorker _ | .count .. | .reuse .. | .claim .. | .takePartial _
  | .carveBlock _ | .free .. | .attach .. | .startBatch | .makeRegistry _ | .dropRegistry _
  | .enterScope .. | .recordTracked .. | .drainScope _ | .leakScope _ | .observe => .isTrue trivial

/-- The run can take place, and each of its moves satisfies a condition of the client. -/
def Legal (P : Machine → Move → Prop) : Machine → List Move → Prop
  | _, [] => True
  | m, y :: ys => m.Allows y ∧ P m y ∧ Legal P (m.apply y) ys

variable {P : Machine → Move → Prop}

instance decidableLegal [∀ m y, Decidable (P m y)] (m : Machine) (ys : List Move) :
    Decidable (Legal P m ys) :=
  match ys with
  | [] => .isTrue trivial
  | y :: ys =>
    have := decidableLegal (m.apply y) ys
    inferInstanceAs (Decidable (m.Allows y ∧ P m y ∧ Legal P (m.apply y) ys))

/-- A new heap on which nothing acts. -/
def start (h : Heap) : Machine := { heap := h }

variable {m : Machine} {y : Move} {ys zs : List Move}

@[simp] theorem run_nil (m : Machine) : m.run [] = m := rfl

@[simp] theorem run_cons (m : Machine) (y : Move) (ys : List Move) :
    m.run (y :: ys) = (m.apply y).run ys := rfl

theorem run_append (m : Machine) (ys zs : List Move) : m.run (ys ++ zs) = (m.run ys).run zs :=
  List.foldl_append

/-- A worker that cannot be retired leaves the heap as it is. -/
theorem apply_retireWorker
    {R : Heap → Prop} {id : Nat}
    (hsame : R m.heap)
    (hretired : ∀ g, m.heap.retireWorker id = .ok g → R g) :
    R (m.apply (.retireWorker id)).heap := by
  change R ((m.heap.retireWorker id).toOption.getD m.heap)
  cases hr : m.heap.retireWorker id with
  | error o => exact hsame
  | ok g => exact hretired g hr

theorem legal_append :
    Legal P m (ys ++ zs) ↔ Legal P m ys ∧ Legal P (m.run ys) zs := by
  induction ys generalizing m with
  | nil => simp [Legal]
  | cons y ys ih =>
      rw [List.cons_append, Legal, Legal, ih, run_cons]
      constructor
      · rintro ⟨h₁, h₂, h₃, h₄⟩
        exact ⟨⟨h₁, h₂, h₃⟩, h₄⟩
      · rintro ⟨⟨h₁, h₂, h₃⟩, h₄⟩
        exact ⟨h₁, h₂, h₃, h₄⟩

/-- A run can take place if it can do so on a stronger condition. -/
theorem Legal.mono
    {Q : Machine → Move → Prop}
    (hl : Legal P m ys)
    (hPQ : ∀ m y, P m y → Q m y) :
    Legal Q m ys := by
  induction ys generalizing m with
  | nil => trivial
  | cons y ys ih => exact ⟨hl.1, hPQ m y hl.2.1, ih hl.2.2⟩

/-- What every move of a run preserves, the run preserves. -/
theorem Legal.preserves
    {R : Machine → Prop}
    (hl : Legal P m ys)
    (hm : R m)
    (hstep : ∀ m y, R m → m.Allows y → P m y → R (m.apply y)) :
    R (m.run ys) := by
  induction ys generalizing m with
  | nil => exact hm
  | cons y ys ih => exact ih hl.2.2 (hstep m y hm hl.1 hl.2.1)

end Machine

end EagerHeap
