import EagerHeap.Word
/-!
# Counters

Every worker counts its allocations and frees; the counts of all workers add up to those of the
heap. A `Tally` is seen through `Tally.get`, one number for each `Counter`.
-/

namespace EagerHeap

/-- Why eager free leaves an object to the collector. -/
inductive Rejection where
  /-- Eager free is off. -/
  | disabled
  /-- The address is not the start of an object of the heap. -/
  | notInHeap
  /-- The size is below the lower limit. -/
  | tooSmall
  /-- The size is above the upper limit, or the object is a run of blocks. -/
  | tooLarge
  /-- A finalizer or cleanup is attached to the object. -/
  | sideRecord
  /-- The size or the shape is not that of the cell. -/
  | mismatch
  /-- The cell holds no object. -/
  | notAllocated
deriving DecidableEq, Repr

namespace Rejection

/-- Every reason, in the order in which they are counted. -/
def all : List Rejection :=
  [disabled, notInHeap, tooSmall, tooLarge, sideRecord, mismatch, notAllocated]

/-- The name of the reason. -/
def name : Rejection → String
  | disabled => "Disabled"
  | notInHeap => "NotInHeap"
  | tooSmall => "TooSmall"
  | tooLarge => "TooLarge"
  | sideRecord => "SideRecord"
  | mismatch => "Mismatch"
  | notAllocated => "NotAllocated"

/-- The label of the reason in reports and events. -/
def label : Rejection → String
  | disabled => "disabled"
  | notInHeap => "not_in_heap"
  | tooSmall => "too_small"
  | tooLarge => "too_large"
  | sideRecord => "side_record"
  | mismatch => "mismatch"
  | notAllocated => "not_allocated"

/-- The position of the reason among all. -/
def index : Rejection → Fin 7
  | disabled => 0
  | notInHeap => 1
  | tooSmall => 2
  | tooLarge => 3
  | sideRecord => 4
  | mismatch => 5
  | notAllocated => 6

end Rejection

/-- What is counted. -/
inductive Counter where
  /-- Allocations served from a free list. -/
  | freeListHits
  /-- Allocations that took a free cell or a run of blocks. -/
  | slowAllocations
  /-- Objects that eager free took back. -/
  | freesAccepted
  /-- Objects that eager free declined, by reason. -/
  | rejected (reason : Rejection)
  /-- Buffers that were asked to grow. -/
  | growCalls
  /-- Outgrown buffers that were freed at once. -/
  | growFrees
  /-- Allocations in a scope. -/
  | trackedAllocations
  /-- Objects freed at the end of their scope. -/
  | trackedFrees
  /-- Objects of a scope that were left to the collector. -/
  | trackedSkipped
  /-- Allocations in a scope without a slot for them. -/
  | trackOverflow
  /-- Cells of free lists that went back to their blocks when their worker ended. -/
  | flushed
deriving DecidableEq, Repr

namespace Counter

/-- The position of the counter in a tally. -/
def index : Counter → Fin 17
  | freeListHits => 0
  | slowAllocations => 1
  | freesAccepted => 2
  | rejected reason => ⟨3 + reason.index.val, by omega⟩
  | growCalls => 10
  | growFrees => 11
  | trackedAllocations => 12
  | trackedFrees => 13
  | trackedSkipped => 14
  | trackOverflow => 15
  | flushed => 16

/-- Every counter, in the order of `Counter.index`. -/
def all : List Counter :=
  [freeListHits, slowAllocations, freesAccepted] ++ Rejection.all.map rejected ++
    [growCalls, growFrees, trackedAllocations, trackedFrees, trackedSkipped, trackOverflow, flushed]

/-- The label of the counter in reports. -/
def label : Counter → String
  | freeListHits => "free_list_hits"
  | slowAllocations => "slow_path_allocs"
  | freesAccepted => "frees_accepted"
  | rejected reason => reason.label
  | growCalls => "grow_calls"
  | growFrees => "grow_frees"
  | trackedAllocations => "tracked_allocs"
  | trackedFrees => "tracked_frees"
  | trackedSkipped => "tracked_skipped"
  | trackOverflow => "track_overflow"
  | flushed => "flushed"

theorem mem_all (c : Counter) : c ∈ all := by
  cases c with
  | rejected r => cases r <;> decide
  | _ => decide

theorem index_injective {c d : Counter} (h : c.index = d.index) : c = d :=
  have distinct : ∀ c ∈ all, ∀ d ∈ all, c.index = d.index → c = d := by decide
  distinct c (mem_all c) d (mem_all d) h

end Counter

/-- One number for every counter. -/
structure Tally where
  /-- The numbers, at the positions of their counters. -/
  counts : Vector Nat 17 := Vector.replicate 17 0
deriving DecidableEq, Repr

namespace Tally

/-- The number of a counter. -/
def get (t : Tally) (c : Counter) : Nat := t.counts[c.index]

/-- Adds `n` to a counter. -/
def add (t : Tally) (c : Counter) (n : Nat) : Tally :=
  ⟨t.counts.set c.index.val (t.get c + n) c.index.isLt⟩

/-- Adds one to a counter. -/
def bump (t : Tally) (c : Counter) : Tally := t.add c 1

/-- The sum of a list of words, from the left. -/
def total : List Nat → Except Overflow Nat :=
  List.foldlM Word.add 0

/-- The number of declined frees, whatever the reason. -/
def rejections (t : Tally) : Except Overflow Nat :=
  total (Rejection.all.map fun r => t.get (.rejected r))

/-- The tally with the sums of the counters of both. -/
def plus (t u : Tally) : Except Overflow Tally :=
  Counter.all.foldlM (fun sum c => do
    let n ← Word.add (t.get c) (u.get c)
    return sum.add c n) {}

/-- The tally with the sums of the counters of all tallies of a list. -/
def sum : List Tally → Except Overflow Tally :=
  List.foldlM plus {}

@[simp] theorem get_add_self (t : Tally) (c : Counter) (n : Nat) :
    (t.add c n).get c = t.get c + n := by
  simp [get, add]

theorem get_add_of_ne (t : Tally) {c d : Counter} (n : Nat) (h : d ≠ c) :
    (t.add c n).get d = t.get d := by
  have hne : c.index.val ≠ d.index.val := fun e => h (Counter.index_injective (Fin.ext e.symm))
  simp [get, add, hne]

end Tally

end EagerHeap
