import EagerHeap.Session.State
/-!
# Commands on roots

The root set of a session counts references: an address stays a root until it was removed as often
as it was added.
-/

namespace EagerHeap.Session

open Exec

/-- Adds one reference to an address. -/
def addRoot (s : Session) (addr : Nat) : Session :=
  { s with roots := s.roots.alter addr fun n => some (n.getD 0 + 1) }

/-- Removes one reference to an address. Says whether there was one. -/
def removeRoot (s : Session) (addr : Nat) : Bool × Session :=
  ((s.roots.find? addr).isSome,
    { s with
      roots := s.roots.alter addr fun
        | some (n + 2) => some (n + 1)
        | _ => none })

/-- Removes one reference to an address from the root set of the session. -/
def removeRootNow (addr : Nat) : Exec Bool :=
  modifyGet fun w =>
    let (found, client) := w.client.removeRoot addr
    (found, { w with client })

/-- The address of a change of the root set. -/
def resolveEdit (edit : Field RootEdit) : Exec (Bool × Nat) := do
  match ← need "edits" edit with
  | .add addr => return (true, ← word "edits" addr)
  | .remove addr => return (false, ← word "edits" addr)

/-- Changes the root set. -/
def applyEdit : Bool × Nat → Exec (Option Bool)
  | (true, addr) => do
    modifySession (·.addRoot addr)
    return none
  | (false, addr) => return some (← removeRootNow addr)

/-- Performs a command on roots. -/
def performRoot : RootCommand → Exec Reply
  | .add addr => do
    let addr ← word "addr" addr
    modifySession (·.addRoot addr)
    return .number (← session (·.roots.size))
  | .remove addr => do
    let addr ← word "addr" addr
    return .flag (← removeRootNow addr)
  | .contains addr => do
    let addr ← word "addr" addr
    return .flag (← session fun s => (s.roots.find? addr).isSome)
  | .list => return .roots (← session (·.roots.keys))
  | .batch edits => do
    let edits ← (← need "edits" edits).mapM resolveEdit
    return .rootEdits (← edits.mapM applyEdit)

end EagerHeap.Session
