import EagerHeap.Heap.Words
import EagerHeap.Session.State
/-!
# Commands on words and objects

Words are read and written only inside of allocated objects.
-/

namespace EagerHeap.Session

open Exec

/-- Whether the object at an address has `n` words from word `i` on. -/
def hasWords (h : Heap) (addr i n : Nat) : Bool :=
  (h.arena.cell? addr).any fun c => c.header.state = .allocated && i + n ≤ c.size / Word.bytes

/-- Performs a command on objects. -/
def performObject : ObjectCommand → Exec Reply
  | .write w obj i v => do
    let _ ← worker w
    let obj ← word "obj" obj
    let i ← need "i" i
    let v ← word "v" v
    refuseIf (!(← view fun h => hasWords h obj i 1)) .notLiveWord
    adjust (·.writeWord obj i v)
    return .done
  | .read obj i n => do
    let obj ← word "obj" obj
    let i ← need "i" i
    let n ← need "n" n
    refuseIf (!(← view fun h => hasWords h obj i n)) .notLiveWord
    return .numbers (← view fun h => (List.range' i n).map (h.readWord obj))
  | .info addr => do
    let addr ← word "addr" addr
    return .object (← view (·.arena.cell? addr))
  | .contains addr => do
    let addr ← word "addr" addr
    return .flag (← view (·.arena.contains addr))

end EagerHeap.Session
