import EagerHeap.Proofs.Heap.Room
/-!
# Slots of which the object is gone

The collector zeroes a slot when it is about to free the object there, and the scope goes on to count
the slot as used. Nothing else empties a slot that an open scope uses, so the blank slots of an open
scope are those that the collector has zeroed.

Main results: `Blank.recordTracked`, `Blank.invalidateSlots` and `Roomy.count_addressesIn`.
-/

namespace EagerHeap.Heap

/-- The number of slots that a scope uses and that hold no address. -/
def blanks (h : Heap) (s : Scope) : Nat :=
  (List.range s.used).countP fun i => h.addrAt s.registry i = 0

/-- The number of slots of a scope that the collector would zero now. -/
def doomedSlots (h : Heap) (k : Nat) : Nat :=
  match h.scopes[k]? with
  | some s => (List.range s.used).countP fun i =>
      h.addrAt s.registry i ≠ 0 ∧ h.invalidateSlots.2.addrAt s.registry i = 0
  | none => 0

/-- Every open scope has a certain number of blank slots. -/
def Blank (h : Heap) (n : Nat → Nat) : Prop := ∀ k s, h.Open k s → h.blanks s = n k

variable {h h' : Heap} {gone : Nat → Prop} {id k r x e : Nat} {s : Scope} {n : Nat → Nat}

/-- What satisfies the weaker one of two conditions satisfies the stronger one, or only the weaker
one. -/
theorem countP_of_imp
    {p q : Nat → Prop} [DecidablePred p] [DecidablePred q]
    (hpq : ∀ i, p i → q i)
    (l : List Nat) :
    l.countP (fun i => q i) = l.countP (fun i => p i) + l.countP fun i => ¬ p i ∧ q i := by
  induction l with
  | nil => rfl
  | cons i l ih =>
      simp only [List.countP_cons, ih]
      by_cases hp : p i
      · simp only [hp, hpq i hp, decide_true, if_true, not_true, false_and, decide_false,
          Bool.false_eq_true, if_false]
        omega
      · simp only [hp, decide_false, Bool.false_eq_true, if_false, not_false_iff, true_and]
        omega

/-- The addresses in the slots that a scope uses, slot by slot. -/
theorem Roomy.addressesIn_eq
    (hr : h.Roomy)
    (hs : h.scopes[k]? = some s) :
    h.addressesIn s = (List.range s.used).map (h.addrAt s.registry) := by
  have hlength := hr.length_addressesIn hs
  refine List.ext_getElem (by simp [hlength]) fun i hi _ => ?_
  rw [List.getElem_map, List.getElem_range, addrAt]
  cases hreg : h.registries[s.registry]? with
  | none => simp [addressesIn, hreg] at hi
  | some registry =>
      simp only [addressesIn, hreg, Registry.addresses, Option.map_some, Option.getD_some,
        List.length_map, List.length_take, Array.length_toList, Nat.lt_min] at hi
      simp [addressesIn, hreg, Registry.addresses, hi.2]

theorem Roomy.count_addressesIn
    (hr : h.Roomy)
    (hs : h.scopes[k]? = some s) :
    (h.addressesIn s).count 0 = h.blanks s := by
  rw [hr.addressesIn_eq hs, List.count, List.countP_map, blanks]
  rfl

theorem blanks_congr
    (haddr : ∀ i < s.used, h'.addrAt s.registry i = h.addrAt s.registry i) :
    h'.blanks s = h.blanks s :=
  List.countP_congr fun i hi => by rw [haddr i (List.mem_range.1 hi)]

/-- Fewer open scopes, whose slots stay as they are. -/
theorem Blank.shrink
    (hb : h.Blank n)
    (hopen : ∀ k s, h'.Open k s → h.Open k s)
    (haddr : ∀ k s i, h'.Open k s → h'.addrAt s.registry i = h.addrAt s.registry i) :
    h'.Blank n :=
  fun k s hs => (blanks_congr fun i _ => haddr k s i hs).trans (hb k s (hopen k s hs))

theorem Blank.of_holdings
    (hb : h.Blank n)
    (hsame : h'.holdings = h.holdings) :
    h'.Blank n :=
  hb.shrink (fun _ _ => (open_of_holdings hsame).1) fun _ _ _ _ => addrAt_of_holdings hsame

theorem Blank.dropRegistry
    (hb : h.Blank n)
    (r : Nat) :
    (h.dropRegistry r).Blank n := by
  rw [Heap.dropRegistry]
  split
  · exact hb.shrink (fun _ _ hs => hs) fun _ s i _ => addrAt_setOwner h r none s.registry i
  · exact hb

/-- A scope starts without blank slots. -/
theorem Blank.enterScope
    (hb : h.Blank n)
    (hid : ∃ w ∈ h.workers, w.id = id)
    (hr : r < h.registries.size)
    (hnew : n h.scopes.size = 0) :
    ((Heap.enterScope id r).run h).2.Blank n := by
  rw [enterScope_run]
  split
  · exact hb.shrink (fun _ _ hs => hs) fun _ s i _ => addrAt_setOwner h r (some id) s.registry i
  · have he : h.Entered id r (h.entering id r) := entered_entering hid hr
    change (h.entering id r).Blank n
    intro k s hs
    rcases he.opened k s hs with ⟨rfl, rfl⟩ | hs
    · exact hnew.symm
    · exact (blanks_congr fun i _ => he.slots s.registry i).trans (hb k s hs)

/-- Recording fills a slot with the address of an object, which is not zero. -/
theorem Blank.recordTracked
    (hb : h.Blank n)
    (hf : h.Scoped gone)
    (hs : h.Open k s)
    (h0 : h.lastSweep ≤ e → x ≠ 0) :
    ((Heap.recordTracked k x e).run h).2.Blank n := by
  rw [recordTracked_run, hs.1]
  dsimp only
  split
  · exact hb.of_holdings (holdings_count ..)
  · next hroom =>
      split
      · exact hb.of_holdings (holdings_count ..)
      · next he =>
          intro l t ht
          rcases open_noteTracked hs ht with ⟨rfl, rfl⟩ | ⟨hl, ht⟩
          · have hself : (h.noteTracked l s.registry s.used x).addrAt s.registry s.used ≠ 0 := by
              rw [addrAt_noteTracked_self (Nat.lt_of_not_le hroom)]
              exact h0 (Nat.le_of_not_lt he)
            rw [← hb l s hs, blanks, blanks, List.range_succ, List.countP_append]
            simp only [List.countP_singleton, hself, decide_false, Bool.false_eq_true, if_false,
              Nat.add_zero]
            refine List.countP_congr fun i hi => ?_
            rw [addrAt_noteTracked_of_ne (Or.inr (List.mem_range.1 hi).ne)]
          · refine (blanks_congr fun i _ => ?_).trans (hb l t ht)
            exact addrAt_noteTracked_of_ne (Or.inl fun heq => hl (hf.apart l k t s ht hs heq))

/-- Draining one scope leaves the slots of the others. -/
theorem Blank.drainScope
    (hb : h.Blank n)
    (hf : h.Scoped gone)
    (hs : h.Open k s) :
    (h.drainScope k).2.Blank n := by
  have hd := drained_drainScope hs (hf.owned k s hs)
  intro l t ht
  obtain ⟨ht, hl⟩ := hd.opened l t ht
  refine (blanks_congr fun i _ => ?_).trans (hb l t ht)
  exact hd.slots t.registry i (Or.inl fun heq => hl (hf.apart l k t s ht hs heq))

/-- The collector adds the slots that it zeroes. -/
theorem Blank.invalidateSlots
    (hb : h.Blank n) :
    h.invalidateSlots.2.Blank fun k => n k + h.doomedSlots k := by
  intro k s hs
  rw [Open, (zeroes_invalidateSlots h).scopes] at hs
  change h.invalidateSlots.2.blanks s = n k + h.doomedSlots k
  rw [← hb k s hs, doomedSlots, hs.1]
  -- A slot that was blank stays blank.
  have hkept : ∀ i, h.addrAt s.registry i = 0 → h.invalidateSlots.2.addrAt s.registry i = 0 := by
    intro i h0
    rw [addrAt_invalidateSlots, h0, ite_self]
  exact countP_of_imp hkept _

end EagerHeap.Heap
