import EagerHeap.Action.Scope
import EagerHeap.Session.State
/-!
# Commands on slots and scopes

Scopes are named while they are active; ending a scope in any way frees its name. While an object is
being allocated in a scope no other command on scopes is accepted, and slots are dropped only if no
worker can still know them.
-/

namespace EagerHeap.Session

open Exec

/-- The numbers of slots that a registry can have. -/
def slotCounts : List Nat := [0, 1, 2, 3, 4, 5, 6, 8, 12, 16, 32, 64]

/-- The scope of a name, unless scopes are busy. -/
def openScope (ctx : Context) (name : String) : Exec Nat := do
  refuseIf ctx.scopesBusy .scopesBusy
  named Session.scopes name .noSuchScope

/-- The scope of a command that ends it; the name is free from then on. -/
def closeName (ctx : Context) (c : Field String) : Exec Nat := do
  let name ← need "c" c
  let scope ← openScope ctx name
  modifySession fun s => { s with scopes := s.scopes.filter (·.1 ≠ name) }
  return scope

/-- Notes that slots are contested. -/
def contest (name : String) (s : Session) : Session :=
  { s with
    slots := s.slots.map fun (n, slots) =>
      (n, if n = name then { slots with contested := true } else slots) }

/-- Enters a scope. Slots that another worker holds are contested from then on. -/
def enter (id : Nat) (slotsName : String) (slots : NamedSlots) : Exec Nat := do
  let owner ← view (·.ownerOf slots.registry)
  if owner.isSome && owner ≠ some id then modifySession (contest slotsName)
  act (Action.update (Heap.enterScope id slots.registry))

/-- The used slots, the capacity and the slots of a scope. -/
def scopeView (h : Heap) (c : Nat) : Nat × Nat × List Nat :=
  match h.scopes[c]? with
  | some scope =>
    (scope.used, h.registryCapacity scope.registry,
      ((h.registries[scope.registry]?.map (·.addresses scope.used)).getD []).filter (· ≠ 0))
  | none => (0, 0, [])

/-- Performs a command on scopes. Allocations in a scope run with the hooks `kBusy`. -/
def performScope (kBusy : Hooks Session) (ctx : Context) : ScopeCommand → Exec Reply
  | .createSlots s n => do
    let name ← need "s" s
    let n ← need "n" (n.filter (slotCounts.contains ·))
    refuseIf (← session fun s => (s.slots.lookup name).isSome) .slotsExist
    let registry ← change (·.makeRegistry n)
    modifySession fun s => { s with slots := (name, { registry }) :: s.slots }
    return .number n
  | .dropSlots s => do
    let name ← need "s" s
    refuseIf ctx.scopesBusy .scopesBusy
    let slots ← named Session.slots name .noSuchSlots
    let scopes ← session Session.scopes
    refuseIf
      (← view fun h => scopes.any fun (_, c) => h.scopes[c]?.any (·.registry = slots.registry))
      .slotsBackScope
    refuseIf slots.contested .slotsRegistered
    modifySession fun s => { s with slots := s.slots.filter (·.1 ≠ name) }
    adjust (·.dropRegistry slots.registry)
    return .done
  | .viewSlots s => do
    let name ← need "s" s
    let slots ← named Session.slots name .noSuchSlots
    return .slots (← view fun h =>
      ((h.registries[slots.registry]?).map fun r => r.slots.toList).getD [])
  | .enter w s c => do
    let id ← worker w
    let slotsName ← need "s" s
    let name ← need "c" c
    refuseIf ctx.scopesBusy .scopesBusy
    refuseIf (← session fun s => (s.scopes.lookup name).isSome) .scopeExists
    let slots ← named Session.slots slotsName .noSuchSlots
    let scope ← enter id slotsName slots
    modifySession fun s => { s with scopes := (name, scope) :: s.scopes }
    return .entered 0 (← view (·.registryCapacity slots.registry))
  | .track c span target => do
    let name ← need "c" c
    let s ← Exec.span span
    let scope ← openScope ctx name
    let addr ← act (Action.allocateTracked kBusy scope s)
    bindWord target addr 0
    return .number addr
  | .view c => do
    let name ← need "c" c
    let scope ← openScope ctx name
    let (used, capacity, addrs) ← view (scopeView · scope)
    return .scope used capacity addrs
  | .exit c => do
    let scope ← closeName ctx c
    return .number (← change (·.drainScope scope))
  | .drop c => do
    let scope ← closeName ctx c
    let _ ← change (·.drainScope scope)
    return .done
  | .unwind c => do
    let scope ← closeName ctx c
    act (Action.abandonScope scope)
    return .done
  | .leak c => do
    let scope ← closeName ctx c
    adjust (·.leakScope scope)
    return .done

end EagerHeap.Session
