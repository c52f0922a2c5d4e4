import EagerHeap.Heap.Basic
/-!
# Words of objects

While the collector marks, every address that is stored into an object is remembered, so that an
object cannot hide from the marker behind one that was read already.
-/

namespace EagerHeap.Heap

/-- Word `i` of the object at an address. -/
def readWord (h : Heap) (obj i : Nat) : Nat := h.arena.read (obj + i * Word.bytes)

/-- Remembers a stored value if it is an address and the collector marks. -/
def remember (h : Heap) (v : Nat) : Heap :=
  if h.arena.contains v && h.phase.isMarking then { h with barrier := h.barrier.push v } else h

/-- Writes word `i` of the object at an address. -/
def writeWord (h : Heap) (obj i v : Nat) : Heap :=
  { h with arena := h.arena.write (obj + i * Word.bytes) v }.remember v

/-- Copies bytes between two objects. The whole words of objects that may hold addresses are
remembered. -/
def copyBytes (h : Heap) (source target bytes : Nat) (shape : Shape) : Heap :=
  let stored := h.arena.words source (bytes / Word.bytes)
  let copied := { h with arena := h.arena.copy source target bytes }
  match shape with
  | .scan => stored.foldl remember copied
  | .noScan => copied

end EagerHeap.Heap
