import EagerHeap.Size.Class
import EagerHeap.Tally
/-!
# Workers

Each worker allocates on its own behalf. For every span it has a free list of cells that were freed
eagerly and a cursor into the block from which it claims free cells.
-/

namespace EagerHeap

/-- A cell in a free list. -/
structure FreeEntry where
  /-- The address of the cell. -/
  addr : Nat
  /-- The block of the cell. -/
  block : Nat
  /-- The position of the cell in its block. -/
  cell : Nat
deriving DecidableEq, Repr

/-- A place in a block of small cells. -/
structure Cursor where
  /-- The block. -/
  block : Nat
  /-- The first cell that was not looked at yet. -/
  cell : Nat
deriving DecidableEq, Repr

/-- One allocating thread of work. -/
structure Worker where
  /-- The number of the worker; no two workers of a heap have the same. -/
  id : Nat
  /-- What the worker counted. -/
  tally : Tally := {}
  /-- The registries of its scopes, the latest first. -/
  registries : List Nat := []
  /-- The free lists, the latest entry first. -/
  freeLists : SpanTable (List FreeEntry) := .fill []
  /-- The blocks from which the worker claims free cells. -/
  cursors : SpanTable (Option Cursor) := .fill none

namespace Worker

/-- The entries of all free lists in the order of their spans, oldest first within a list. -/
def freeEntries (w : Worker) : List FreeEntry := w.freeLists.toList.flatMap List.reverse

/-- The number of entries in all free lists. -/
def freeListLength (w : Worker) : Nat := w.freeLists.toList.foldl (fun n l => n + l.length) 0

/-- The worker as a record with named fields. -/
def describe (w : Worker) : String :=
  "Worker \x7b id: " ++ toString w.id ++ ", free_list_len: " ++ toString w.freeListLength ++ " \x7d"

end Worker

end EagerHeap
