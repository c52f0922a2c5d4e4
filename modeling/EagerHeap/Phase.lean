import EagerHeap.Arena.Header
/-!
# Phases of a collection cycle

A cycle leads through four phases and back. Every transition has a number, its epoch, so that a
later observer can tell whether a sweep began since some moment.
-/

namespace EagerHeap

/-- Where the collector stands in its cycle. -/
inductive Phase where
  /-- No cycle is running. -/
  | idle
  /-- Objects are being marked; stored addresses are remembered. -/
  | mark
  /-- Marking was completed. -/
  | termination
  /-- Unreached objects are being freed. -/
  | sweep
deriving DecidableEq, Repr, Inhabited

namespace Phase

/-- The phase that a byte stands for; a byte that is no code stands for the idle phase. -/
def ofByte : UInt8 → Phase
  | 1 => mark
  | 2 => termination
  | 3 => sweep
  | _ => idle

/-- The phase after this one. -/
def next : Phase → Phase
  | idle => mark
  | mark => termination
  | termination => sweep
  | sweep => idle

/-- Whether stored addresses have to be remembered for the marker. -/
def isMarking : Phase → Bool
  | mark | termination => true
  | idle | sweep => false

/-- The color of an object that is handed out: while a cycle runs it counts as reached. -/
def allocationColor : Phase → Color
  | idle => .white
  | mark | termination | sweep => .black

/-- The name of the phase. -/
def name : Phase → String
  | idle => "Idle"
  | mark => "Mark"
  | termination => "MarkTermination"
  | sweep => "Sweep"

end Phase

/-- A change of phase. -/
structure Transition where
  /-- The phase that ends. -/
  before : Phase
  /-- The phase that begins. -/
  after : Phase
  /-- The number of transitions so far, this one included. -/
  epoch : Nat
deriving DecidableEq, Repr

end EagerHeap
