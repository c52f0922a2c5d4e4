import EagerHeap.Proofs.Run.Undisturbed
/-!
# The order of the moves of operations

Some moves come after others that their operation has put before them. A run of blocks is carved for a
large allocation that was counted, an object is recorded in a scope after it was handed out and counted,
and the sweeper starts after slots were zeroed. What was counted and is neither carved nor recorded yet
is pending, and nothing is pending when the operations of a run are over.

Runs of this kind are booked and upheld. They are orderly if nobody frees by itself what a scope tracks,
and they reserve what scopes track if nobody attaches side records to it either.

Main definition: `Sequenced`. Main results: `Sequenced.booked`, `Sequenced.upheld`, `Sequenced.orderly` and
`Sequenced.reserved`.
-/

namespace EagerHeap

/-- A move that needs no other one before it and leaves nothing pending. -/
def Move.Plain : Move → Prop
  | .count .. | .carveRun .. | .recordTracked .. | .startSweep => False
  | _ => True

namespace Machine

/-- What operations have counted and not finished yet. -/
structure Pending where
  /-- The number of large allocations that were counted and have not asked for a run of blocks. -/
  due : Nat := 0
  /-- The workers that have counted an allocation in a scope and did not record it yet, as often as they
  have. -/
  owed : List Nat := []

/-- What is pending after a move. A large allocation that asks for a run of blocks is not pending any
more, whether or not it gets one. -/
def Pending.after (p : Pending) (m : Machine) (y : Move) : Pending where
  due :=
    match y with
    | .count _ c n => if c = .slowAllocations then p.due + n else p.due
    | .carveRun .. => p.due - 1
    | _ => p.due
  owed := (Docket.after ⟨{}, p.owed⟩ m y).owed

/-- The moves that the operation of the move has put before it were made. -/
def Ready (m : Machine) (l : Ledger) (p : Pending) : Move → Prop
  | .count id c n => (∃ w ∈ m.heap.workers, w.id = id) ∧ c.Apart ∧ n = 1
  | .carveRun .. => 0 < p.due
  | .recordTracked k x e =>
    (∃ s, m.heap.scopes[k]? = some s ∧ s.worker ∈ p.owed) ∧
      (m.heap.lastSweep ≤ e → ∃ q ∈ l.fresh, q.1 = x ∧ e ≤ q.2) ∧ m.KeepsBare (.recordTracked k x e)
  | .startSweep => l.zeroed = true
  | _ => True

/-- Every move of the run comes after those that its operation has put before it, and nothing is pending
in the end. -/
def Sequenced : Machine → Ledger → Pending → List Move → Prop
  | _, _, p, [] => p = {}
  | m, l, p, y :: ys => m.Ready l p y ∧ Sequenced (m.apply y) (l.after m y) (p.after m y) ys

/-- What is freed by itself is tracked by no scope. -/
def FreesUntracked (m : Machine) : Move → Prop
  | .free _ x _ _ => x ∉ m.heap.tracked
  | _ => True

/-- What gets a side record is tracked by no scope. -/
def AttachesUntracked (m : Machine) : Move → Prop
  | .attach x _ => x ∉ m.heap.tracked
  | _ => True

/-- The move asks for a run of blocks and gets none. -/
def refused (m : Machine) : Move → Nat
  | .carveRun n sh => if (m.handsOut (.carveRun n sh)).isSome then 0 else 1
  | _ => 0

/-- The number of large allocations that get no run of blocks in a run. -/
def refusedIn : Machine → List Move → Nat
  | _, [] => 0
  | m, y :: ys => m.refused y + refusedIn (m.apply y) ys

variable {m : Machine} {l : Ledger} {p : Pending} {e : Ends} {y : Move} {ys zs : List Move} {f : Nat}

/-! ### Moves one after the other -/

/-- A run goes on where another one has ended with nothing pending. -/
theorem Sequenced.append
    (hys : m.Sequenced l p ys)
    (hzs : (m.run ys).Sequenced (m.ledger l ys) {} zs) :
    m.Sequenced l p (ys ++ zs) := by
  induction ys generalizing m l p with
  | nil =>
      obtain rfl : p = {} := hys
      exact hzs
  | cons y ys ih => exact ⟨hys.1, ih hys.2 hzs⟩

theorem sequenced_of_plain
    (hy : y.Plain)
    (m : Machine) (l : Ledger) :
    m.Sequenced l {} [y] := by
  cases y with
  | count | carveRun | recordTracked | startSweep => exact hy.elim
  | _ => exact ⟨trivial, rfl⟩

/-- A large allocation is counted before it asks for a run of blocks. -/
theorem sequenced_large
    {id : Nat}
    (hlive : ∃ w ∈ m.heap.workers, w.id = id)
    (l : Ledger) (n : Nat) (shape : Shape) :
    m.Sequenced l {} [.count id .slowAllocations 1, .carveRun n shape] :=
  ⟨⟨hlive, trivial, rfl⟩, Nat.one_pos, rfl⟩

/-- An object that a scope tracks is counted before it is recorded, and it was handed out before that. -/
theorem sequenced_tracked
    {k x t : Nat} {s : Scope}
    (hlive : ∃ w ∈ m.heap.workers, w.id = s.worker)
    (hs : m.heap.scopes[k]? = some s)
    (hfresh : m.heap.lastSweep ≤ t → ∃ q ∈ l.fresh, q.1 = x ∧ t ≤ q.2)
    (hbare : m.KeepsBare (.recordTracked k x t)) :
    m.Sequenced l {} [.count s.worker .trackedAllocations 1, .recordTracked k x t] := by
  refine ⟨⟨hlive, trivial, rfl⟩, ⟨⟨s, hs, List.mem_cons_self⟩, fun ht => ?_, hbare⟩, ?_⟩
  · obtain ⟨q, hq, hwaits⟩ := hfresh ht
    exact ⟨q, List.mem_append_right _ (List.mem_filter.2 ⟨hq, rfl⟩), hwaits⟩
  · have hopen : (m.apply (.count s.worker .trackedAllocations 1)).heap.scopes[k]? = some s := hs
    refine congrArg (Pending.mk 0) ?_
    simp only [Docket.after, hopen]
    exact List.erase_cons_head s.worker []

/-! ### Large allocations -/

/-- A large allocation that asks for a run of blocks was counted. -/
theorem Ready.books
    (hy : m.Ready l p y) :
    m.Books (p.due + f) y := by
  cases y with
  | count => exact hy
  | carveRun => exact Nat.lt_of_lt_of_le hy (Nat.le_add_right _ _)
  | _ => trivial

/-- A large allocation that gets no run of blocks stays due for ever. -/
theorem Ready.dueAfter_eq
    (hy : m.Ready l p y) :
    m.dueAfter (p.due + f) y = (p.after m y).due + (f + m.refused y) := by
  cases y with
  | count id c n =>
      change (if c = .slowAllocations then _ else _) = (if c = .slowAllocations then _ else _) + (f + 0)
      split <;> omega
  | carveRun n sh =>
      have hpos : 0 < p.due := hy
      change (if (m.handsOut (.carveRun n sh)).isSome then _ else _) =
        p.due - 1 + (f + if (m.handsOut (.carveRun n sh)).isSome then _ else _)
      split <;> omega
  | _ => rfl

/-- What is due after a run are the large allocations that got no run of blocks. -/
theorem Sequenced.booked
    (hs : m.Sequenced l p ys) :
    m.Booked (p.due + f) ys ∧ m.dueIn (p.due + f) ys = f + m.refusedIn ys := by
  induction ys generalizing m l p f with
  | nil =>
      obtain rfl : p = {} := hs
      exact ⟨trivial, Nat.zero_add f⟩
  | cons y ys ih =>
      obtain ⟨hy, hrest⟩ := hs
      obtain ⟨hbooked, hdue⟩ := ih (f := f + m.refused y) hrest
      rw [← hy.dueAfter_eq] at hbooked hdue
      refine ⟨⟨hy.books, hbooked⟩, hdue.trans ?_⟩
      rw [refusedIn, Nat.add_assoc]

/-! ### Allocations in scopes -/

theorem Ready.counts
    (hy : m.Ready l p y) :
    m.Counts p.owed y := by
  cases y with
  | count => exact hy
  | recordTracked => exact hy.1
  | _ => trivial

/-- Every allocation in a scope that was counted is recorded before its operation is over. -/
theorem Sequenced.upheld
    (hs : m.Sequenced l p ys)
    (ha : m.Attended e ys) :
    Along Upholds Docket.after m ⟨e, p.owed⟩ ys ∧ (notes Docket.after m ⟨e, p.owed⟩ ys).owed = [] := by
  induction ys generalizing m l p e with
  | nil =>
      obtain rfl : p = {} := hs
      exact ⟨trivial, rfl⟩
  | cons y ys ih =>
      obtain ⟨hupheld, hnone⟩ := ih hs.2 ha.2
      exact ⟨⟨Or.inr ⟨ha.1, hs.1.counts⟩, hupheld⟩, hnone⟩

/-- The users of scopes may make every move that the owners keep to and that comes in the order of its
operation, unless it frees an object that a scope tracks. -/
theorem Ready.permits
    (hy : m.Ready l p y)
    (hheeds : m.Heeds e y)
    (hfrees : m.FreesUntracked y)
    (hm : m.Manned e)
    (hgone : l.gone = e.registries) :
    m.Permits l y := by
  cases y with
  | free => exact hfrees
  | recordTracked => exact ⟨hheeds, hy.2.1⟩
  | drainScope | leakScope => exact hheeds
  | enterScope => exact ⟨hheeds.1.1, hheeds.2.1, hgone ▸ hheeds.2.2⟩
  | dropRegistry => exact hheeds.2.2
  | retireWorker id =>
      rintro s hs rfl
      obtain ⟨k, hopen⟩ := Heap.exists_open_of_mem hs
      exact (hm.serving k _ hopen.post?_eq rfl).2 hheeds
  | startSweep => exact hy
  | _ => trivial

/-- The run is orderly if it frees no object by itself that a scope tracks. -/
theorem Sequenced.orderly
    (hs : m.Sequenced l p ys)
    (ha : m.Attended e ys)
    (hl : Legal FreesUntracked m ys)
    (hm : m.Manned e)
    (hgone : l.gone = e.registries) :
    m.Orderly l ys := by
  induction ys generalizing m l p e with
  | nil => trivial
  | cons y ys ih =>
      refine ⟨hs.1.permits ha.1 hl.2.1 hm hgone, ih hs.2 ha.2 hl.2.2 (hm.apply ha.1) ?_⟩
      cases y with
      | dropRegistry r => exact congrArg (List.cons r) hgone
      | _ => exact hgone

/-- The objects that scopes track are left to them and to the collector if the run is orderly and attaches
no side record to any of them. -/
theorem Sequenced.reserved
    (hs : m.Sequenced l p ys)
    (ho : m.Orderly l ys)
    (hl : Legal AttachesUntracked m ys) :
    Along Reserves Ledger.after m l ys := by
  induction ys generalizing m l p with
  | nil => trivial
  | cons y ys ih =>
      refine ⟨Or.inr ⟨ho.1, ?_⟩, ih hs.2 ho.2 hl.2.2⟩
      cases y with
      | attach => exact hl.2.1
      | recordTracked => exact hs.1.2.2
      | _ => trivial

end Machine

end EagerHeap
