import EagerHeap.Action.Allocate
import EagerHeap.Action.Worker
import EagerHeap.Session.State
/-!
# Commands on workers

Allocation, eager free and growth on behalf of a worker. A session hands a buffer to a worker only
if it is an object with room for it, and ends a worker only if nothing of it can be running.
-/

namespace EagerHeap.Session

open Exec

/-- Allocates `n` objects and names them by a number after a common name. -/
def fill (k : Hooks Session) (id : Nat) (s : Span) (target : Option String) (i : Nat)
    (made : Array Nat) : Nat → Exec (Array Nat)
  | 0 => return made
  | n + 1 => do
    let addr ← act (Action.allocate k id s)
    bindWord (target.map (· ++ toString i)) addr 0
    fill k id s target (i + 1) (made.push addr) n

/-- Allocates and frees `n` times. Gives the number of accepted frees and the addresses. -/
def churn (k : Hooks Session) (id : Nat) (s : Span) (size accepted : Nat) (made : Array Nat) :
    Nat → Exec (Nat × Array Nat)
  | 0 => return (accepted, made)
  | n + 1 => do
    let addr ← act (Action.allocate k id s)
    let freed ← act (Action.tryFree k id addr size s.shape)
    churn k id s size (if freed then accepted + 1 else accepted) (made.push addr) n

/-- Appends `n` elements to a buffer of `length` elements, one by one. Gives the buffer and its
growths. -/
def appendAll (k : Hooks Session) (id elementSize : Nat) (shape : Shape)
    (addr capacity length : Nat) (made : Array Growth) : Nat → Exec (NamedWord × Array Growth)
  | 0 => return (⟨addr, capacity⟩, made)
  | n + 1 => do
    let needed := length + 1
    let (addr, capacity, made) ←
      if capacity < needed then do
        let (addr, capacity) ←
          act (Action.growUnaliased k id addr capacity needed elementSize shape 1)
        pure (addr, capacity, made.push ⟨needed, addr, capacity⟩)
      else pure (addr, capacity, made)
    if elementSize = Word.bytes then adjust (·.writeWord addr length needed)
    appendAll k id elementSize shape addr capacity needed made n

/-- Whether the object at an address has at least `bytes` bytes. -/
def hasBytes (h : Heap) (addr bytes : Nat) : Bool :=
  (h.arena.cell? addr).any fun c => c.header.state = .allocated && bytes ≤ c.size

/-- Counters as a reply. -/
def tallyReply (t : Except Overflow Tally) : Exec Reply := do
  let t ← act (Action.checked t)
  return .tally t (← act (Action.checked t.rejections))

/-- Performs a command on workers. -/
def performWorker (k : Hooks Session) (ctx : Context) : WorkerCommand → Exec Reply
  | .create w => do
    let name ← need "w" w
    refuseIf (← session fun s => (s.workers.lookup name).isSome) .workerExists
    let id ← change Heap.addWorker
    modifySession fun s => { s with workers := (name, id) :: s.workers }
    return .number id
  | .drop w => do
    let name ← need "w" w
    refuseIf ctx.inDuring .workerBusy
    refuseIf ctx.scopesBusy .scopesBusy
    let id ← named Session.workers name .noSuchWorker
    let scopes ← session Session.scopes
    refuseIf (← view fun h => scopes.any fun (_, c) => h.scopes[c]?.any (·.worker = id))
      .workerHasScopes
    modifySession fun s => { s with workers := s.workers.filter (·.2 ≠ id) }
    act (Action.dropWorker k id)
    return .done
  | .allocate w span target => do
    let id ← worker w
    let s ← Exec.span span
    let addr ← act (Action.allocate k id s)
    bindWord target addr 0
    return .number addr
  | .allocateBytes w size shape target => do
    let id ← worker w
    let size ← need "size" size
    let shape ← need "shape" shape
    let addr ← act (Action.allocateBytes k id size shape)
    bindWord target addr 0
    return .number addr
  | .fill w span n target => do
    let id ← worker w
    let s ← Exec.span span
    let n ← need "n" n
    return .numbers (← fill k id s target 0 #[] n).toList
  | .churn w span size n => do
    let id ← worker w
    let s ← Exec.span span
    let size ← need "size" size
    let n ← need "n" n
    let (accepted, addrs) ← churn k id s size 0 #[] n
    return .churned accepted (addrs.toList.mergeSort (· ≤ ·)).eraseReps
  | .free w addr size shape => do
    let id ← worker w
    let addr ← word "addr" addr
    let size ← need "size" size
    let shape ← need "shape" shape
    return .flag (← act (Action.tryFree k id addr size shape))
  | .grow w addr capacity length elementSize shape extra target => do
    let id ← worker w
    let addr ← word "addr" addr
    let capacity ← Exec.capacity "cap" capacity
    let length ← need "len" length
    let elementSize ← need "elem" elementSize
    let shape ← need "shape" shape
    let extra ← need "extra" extra
    let live ← view fun h =>
      addr = 0 || elementSize = 0 || hasBytes h addr (capacity * elementSize)
    refuseIf (!live) .notLiveBuffer
    let (addr, capacity) ←
      act (Action.growUnaliased k id addr capacity length elementSize shape extra)
    bindWord target addr capacity
    return .buffer addr capacity
  | .growLoop w elementSize shape count target => do
    let id ← worker w
    let elementSize ← need "elem" elementSize
    let shape ← need "shape" shape
    let count ← need "to" count
    let (buffer, growths) ← appendAll k id elementSize shape 0 0 0 #[] count
    bindWord target buffer.addr buffer.capacity
    return .growths growths.toList
  | .freeListLength w span => do
    let id ← worker w
    match span with
    | some span =>
      let s ← Exec.span span
      return .number
        (← view fun h => ((h.worker? id).map fun w => (w.freeLists.get s).length).getD 0)
    | none => return .number (← view fun h => ((h.worker? id).map Worker.freeListLength).getD 0)
  | .stats w => do
    let id ← worker w
    tallyReply (.ok (← view fun h => ((h.worker? id).map Worker.tally).getD {}))

end EagerHeap.Session
