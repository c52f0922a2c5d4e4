import EagerHeap.Proofs.Heap.Tracked
import EagerHeap.Proofs.Run.Store
/-!
# What users of scopes keep to

A client does not free by itself what a scope tracks, and it records objects that it was handed out. To
say so one has to know some things about the run so far; the ledger of a run holds them.

Main definitions: `Permits` and `Orderly`.
-/

namespace EagerHeap

namespace Heap

variable {h : Heap} {k x : Nat} {s : Scope}

/-- The open scopes. -/
def openScopes (h : Heap) : List Scope := h.scopes.toList.filter fun s => s.status = .active

/-- The addresses in the slots of a registry. -/
def addressesOf (h : Heap) (r : Nat) : List Nat :=
  (h.registries[r]?.map fun registry => registry.slots.toList.map Slot.addr).getD []

/-- The addresses that open scopes track. -/
def tracked (h : Heap) : List Nat :=
  (h.openScopes.flatMap fun s => h.addressesOf s.registry).filter (· ≠ 0)

theorem Open.mem_openScopes (hs : h.Open k s) : s ∈ h.openScopes :=
  List.mem_filter.2 ⟨Array.mem_toList_iff.2 (Array.mem_of_getElem? hs.1), decide_eq_true hs.2⟩

theorem exists_open_of_mem
    (hs : s ∈ h.openScopes) :
    ∃ k, h.Open k s := by
  obtain ⟨hmem, hactive⟩ := List.mem_filter.1 hs
  obtain ⟨k, hk⟩ := Array.getElem?_of_mem (Array.mem_toList_iff.1 hmem)
  exact ⟨k, hk, of_decide_eq_true hactive⟩

theorem mem_addressesOf
    {r i : Nat}
    (hx : h.addrAt r i = x)
    (h0 : x ≠ 0) :
    x ∈ h.addressesOf r := by
  rw [addrAt] at hx
  rw [addressesOf]
  cases hr : h.registries[r]? with
  | none =>
      rw [hr] at hx
      exact absurd hx.symm h0
  | some registry =>
      rw [hr, Option.bind_some] at hx
      cases hi : registry.slots[i]? with
      | none =>
          rw [hi] at hx
          exact absurd hx.symm h0
      | some slot =>
          rw [hi] at hx
          exact List.mem_map.2 ⟨slot, Array.mem_toList_iff.2 (Array.mem_of_getElem? hi), hx⟩

theorem Tracks.mem_tracked
    {i : Nat}
    (ht : h.Tracks k i x) :
    x ∈ h.tracked := by
  obtain ⟨h0, s, hs, hx⟩ := ht
  exact List.mem_filter.2
    ⟨List.mem_flatMap.2 ⟨s, hs.mem_openScopes, mem_addressesOf hx h0⟩, decide_eq_true h0⟩

end Heap

namespace Machine

/-- The move ends the time in which an object was handed out and waits to be recorded. Recording does
so unless a sweep began since the epoch that was noted. -/
def settles (m : Machine) (x : Nat) : Move → Bool
  | .free _ a _ _ => a = x
  | .recordTracked _ a e => a = x ∧ m.heap.lastSweep ≤ e
  | _ => false

/-- What is to be known about a run so far when one asks whether a client may go on in a certain
way. -/
structure Ledger where
  /-- The objects that were handed out and were neither recorded nor freed since then, with the epochs
  in which they were handed out. -/
  fresh : List (Nat × Nat) := []
  /-- The registries that were dropped. -/
  gone : List Nat := []
  /-- Whether slots were zeroed since the sweeping phase last began. -/
  zeroed : Bool := false

/-- The ledger after a move. -/
def Ledger.after (l : Ledger) (m : Machine) (y : Move) : Ledger where
  fresh :=
    ((m.handsOut y).toList.map fun x => (x, m.heap.epoch)) ++
      l.fresh.filter fun p => !m.settles p.1 y
  gone :=
    match y with
    | .dropRegistry r => r :: l.gone
    | _ => l.gone
  zeroed :=
    match y with
    | .zeroSlots => true
    | .enterSweep => false
    | _ => l.zeroed

/-- The ledger after a run. -/
def ledger : Machine → Ledger → List Move → Ledger
  | _, l, [] => l
  | m, l, y :: ys => ledger (m.apply y) (l.after m y) ys

/-- What the users of scopes keep to. An object is not freed by itself while a scope tracks it. An
object is recorded in an open scope, with an epoch that was noted before the object was handed out;
what is recorded with an epoch before the latest sweep may be anything. A scope is drained or given up
once, and its worker and its registry outlive it. The collector zeroes slots before it sweeps. -/
def Permits (m : Machine) (l : Ledger) : Move → Prop
  | .free _ x _ _ => x ∉ m.heap.tracked
  | .recordTracked k x e =>
    (∃ s, m.heap.Open k s) ∧ (m.heap.lastSweep ≤ e → ∃ p ∈ l.fresh, p.1 = x ∧ e ≤ p.2)
  | .drainScope k | .leakScope k => ∃ s, m.heap.Open k s
  | .enterScope id r =>
    (∃ w ∈ m.heap.workers, w.id = id) ∧ r < m.heap.registries.size ∧ r ∉ l.gone
  | .dropRegistry r => ∀ s ∈ m.heap.openScopes, s.registry ≠ r
  | .retireWorker id => ∀ s ∈ m.heap.openScopes, s.worker ≠ id
  | .startSweep => l.zeroed = true
  | _ => True

instance decidableOpen (m : Machine) (k : Nat) : Decidable (∃ s, m.heap.Open k s) :=
  inferInstanceAs (Decidable (∃ s, m.heap.scopes[k]? = some s ∧ s.status = .active))

instance decidablePermits (m : Machine) (l : Ledger) : (y : Move) → Decidable (m.Permits l y)
  | .free _ x _ _ => inferInstanceAs (Decidable (x ∉ m.heap.tracked))
  | .recordTracked k x e =>
    inferInstanceAs (Decidable ((∃ s, m.heap.Open k s) ∧
      (m.heap.lastSweep ≤ e → ∃ p ∈ l.fresh, p.1 = x ∧ e ≤ p.2)))
  | .drainScope k | .leakScope k => inferInstanceAs (Decidable (∃ s, m.heap.Open k s))
  | .enterScope id r =>
    inferInstanceAs (Decidable
      ((∃ w ∈ m.heap.workers, w.id = id) ∧ r < m.heap.registries.size ∧ r ∉ l.gone))
  | .dropRegistry r => inferInstanceAs (Decidable (∀ s ∈ m.heap.openScopes, s.registry ≠ r))
  | .retireWorker id => inferInstanceAs (Decidable (∀ s ∈ m.heap.openScopes, s.worker ≠ id))
  | .startSweep => inferInstanceAs (Decidable (l.zeroed = true))
  | .addWorker | .flushWorker _ | .count .. | .reuse .. | .claim .. | .takePartial _ | .carveBlock _
  | .setCursor .. | .carveRun .. | .write .. | .copy .. | .attach .. | .startBatch | .fire | .endBatch
  | .breakBatch | .makeRegistry _ | .observe | .attachCollector | .detachCollector | .begin
  | .shadeRoots _ | .markStep _ | .terminate | .finishMarking _ | .resurrect | .enterSweep
  | .zeroSlots | .sweepStep _ | .finish | .closeCycle => .isTrue trivial

/-- Every move of the run is permitted after the moves before it. -/
def Orderly : Machine → Ledger → List Move → Prop
  | _, _, [] => True
  | m, l, y :: ys => m.Permits l y ∧ Orderly (m.apply y) (l.after m y) ys

instance decidableOrderly (m : Machine) (l : Ledger) (ys : List Move) :
    Decidable (m.Orderly l ys) :=
  match ys with
  | [] => .isTrue trivial
  | y :: ys =>
    have := decidableOrderly (m.apply y) (l.after m y) ys
    inferInstanceAs (Decidable (m.Permits l y ∧ (m.apply y).Orderly (l.after m y) ys))

variable {m : Machine} {l : Ledger} {ys zs : List Move}

theorem ledger_append (m : Machine) (l : Ledger) (ys zs : List Move) :
    m.ledger l (ys ++ zs) = (m.run ys).ledger (m.ledger l ys) zs := by
  induction ys generalizing m l with
  | nil => rfl
  | cons y ys ih => exact ih (m.apply y) (l.after m y)

theorem orderly_append :
    m.Orderly l (ys ++ zs) ↔ m.Orderly l ys ∧ (m.run ys).Orderly (m.ledger l ys) zs := by
  induction ys generalizing m l with
  | nil => simp [Orderly, ledger]
  | cons y ys ih =>
      rw [List.cons_append, Orderly, Orderly, ih, run_cons, ledger, and_assoc]

end Machine

end EagerHeap
