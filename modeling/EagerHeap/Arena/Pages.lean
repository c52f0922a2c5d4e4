/-!
# Block runs

`Pages` says which blocks of the arena were never carved and which ones form released runs. Blocks
are carved one by one from the end of the carved part, or as a run for a large object: then the
first released run that is long enough is split from its front, and only if there is none the run
is taken from the end. A released run is merged with the released runs that touch it.
-/

namespace EagerHeap

/-- Consecutive blocks. -/
structure Run where
  /-- The first block. -/
  start : Nat
  /-- The number of blocks. -/
  length : Nat
deriving DecidableEq, Repr

namespace Run

/-- The block after the last one. -/
def stop (r : Run) : Nat := r.start + r.length

/-- The run without its first `n` blocks. -/
def drop (r : Run) (n : Nat) : Run := ⟨r.start + n, r.length - n⟩

/-- Puts a run in front of later runs, joined with the next one if they touch. -/
def joinFront (r : Run) : List Run → List Run
  | [] => [r]
  | s :: rest =>
    if r.stop = s.start then ⟨r.start, r.length + s.length⟩ :: rest else r :: s :: rest

/-- Appends later runs to earlier ones, with the last earlier one joined if it touches. -/
def joinLast : List Run → List Run → List Run
  | [], later => later
  | [r], later => r.joinFront later
  | r :: s :: rest, later => r :: joinLast (s :: rest) later

/-- Takes `n` blocks from the front of the first run that has as many. -/
def takeFirstFit (n : Nat) : List Run → Option (Nat × List Run)
  | [] => none
  | r :: rest =>
    if n ≤ r.length then some (r.start, if r.length = n then rest else r.drop n :: rest)
    else (takeFirstFit n rest).map fun (start, rest) => (start, r :: rest)

end Run

/-- The carved and released blocks of an arena. -/
structure Pages where
  /-- The first block that was never carved. -/
  next : Nat
  /-- The number of blocks of the arena. -/
  limit : Nat
  /-- The released runs in ascending order, no two of which touch. -/
  released : List Run
deriving DecidableEq, Repr

namespace Pages

/-- An arena of `limit` blocks of which none is carved. -/
def empty (limit : Nat) : Pages := ⟨0, limit, []⟩

/-- Carves `n` blocks that were never carved before. -/
def bump (p : Pages) (n : Nat) : Option (Nat × Pages) :=
  if p.limit - p.next < n then none else some (p.next, { p with next := p.next + n })

/-- Carves a run of `n` blocks, from the released runs if one fits. -/
def carve (p : Pages) (n : Nat) : Option (Nat × Pages) :=
  match Run.takeFirstFit n p.released with
  | some (start, released) => some (start, { p with released })
  | none => p.bump n

/-- Releases a run. -/
def release (p : Pages) (r : Run) : Pages :=
  let earlier := p.released.takeWhile (·.start < r.start)
  let later := p.released.dropWhile (·.start < r.start)
  { p with released := Run.joinLast earlier (r.joinFront later) }

/-- The number of blocks in released runs. -/
def releasedBlocks (p : Pages) : Nat := p.released.foldl (fun n r => n + r.length) 0

end Pages

end EagerHeap
