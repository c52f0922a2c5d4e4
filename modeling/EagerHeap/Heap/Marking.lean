import EagerHeap.Heap.Basic
/-!
# Marking

Marking works on a list of gray objects. Shading an unreached object makes it gray and puts it on
the list; blackening takes an object off the list and shades what its words point to. An object that
was freed, or freed and handed out again, since it was shaded is no longer gray and is passed over.
-/

namespace EagerHeap

/-- The part of a heap on which marking works. -/
structure Marker where
  /-- The headers and words. -/
  arena : Arena
  /-- The addresses of gray objects, the latest first. -/
  gray : List Nat
  /-- The number of objects that were blackened. -/
  marked : Nat

namespace Marker

/-- Makes the object at an address gray if it is unreached. -/
def shade (m : Marker) (addr : Nat) : Marker :=
  match m.arena.cell? addr with
  | some c =>
    if c.header.isUnreached then
      { m with
        arena := m.arena.modifyHeader c.block c.index (·.withColor .gray)
        gray := addr :: m.gray }
    else m
  | none => m

/-- Shades several addresses, the first one first. -/
def shadeAll (m : Marker) (addrs : List Nat) : Marker := addrs.foldl shade m

/-- Blackens the object at an address if it is still gray, and shades what it points to. -/
def blacken (m : Marker) (addr : Nat) : Marker :=
  match m.arena.cell? addr with
  | some c =>
    if c.header.state = .allocated ∧ c.header.color = .gray then
      let pointers := m.arena.pointers c
      { m with
        arena := m.arena.modifyHeader c.block c.index (·.withColor .black)
        marked := m.marked + 1 }.shadeAll pointers
    else m
  | none => m

/-- Takes up to `n` addresses off the gray list. -/
def advance : Nat → Marker → Marker
  | 0, m => m
  | n + 1, m =>
    match m.gray with
    | [] => m
    | addr :: rest => advance n ({ m with gray := rest }.blacken addr)

/-- The number of unreached objects. -/
def unreachedCount (a : Arena) : Nat :=
  a.blocks.foldl (fun n b => n + b.unreachedCount) 0

/-- A number of addresses that empties the gray list, as every unreached object is shaded at most
once. -/
def workload (m : Marker) : Nat := m.gray.length + unreachedCount m.arena

/-- Marks until no object is gray. -/
def complete (m : Marker) : Marker := advance m.workload m

end Marker

namespace Heap

/-- Lets the marker of the attached collector work. -/
def marking (h : Heap) (f : Marker → Marker) : Heap :=
  match h.collector with
  | none => h
  | some c =>
    let m := f ⟨h.arena, c.gray, c.marked⟩
    { h with arena := m.arena, collector := some { c with gray := m.gray, marked := m.marked } }

/-- Shades roots, and then the objects whose finalizers are queued or being run. -/
def shadeRoots (h : Heap) (roots : List Nat) : Heap :=
  h.marking fun m => m.shadeAll (roots ++ h.records.roots)

/-- Shades the addresses that were stored since the marker last looked. -/
def drainBarrier (h : Heap) : Heap :=
  let stored := h.barrier.toList
  { h with barrier := #[] }.marking (·.shadeAll stored)

/-- Takes up to `n` addresses off the gray list. -/
def markStep (h : Heap) (n : Nat) : Heap := h.drainBarrier.marking (Marker.advance n)

/-- Marks until no object is gray. -/
def markAll (h : Heap) : Heap := h.drainBarrier.marking Marker.complete

/-- The number of gray objects on the list of the attached collector. -/
def grayCount (h : Heap) : Nat := (h.collector.map fun c => c.gray.length).getD 0

end Heap

end EagerHeap
