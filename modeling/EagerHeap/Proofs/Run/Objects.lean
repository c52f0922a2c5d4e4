import EagerHeap.Proofs.Run.Reach
/-!
# The life of an object in a run

An object leaves the state in which it is allocated in two ways: it is freed eagerly, by itself or
with the scope that tracks it, or the sweeper frees it. A reached object is not freed by the sweeper.

Main results: `Proper.stays` and `Legal.stays_reached`.
-/

namespace EagerHeap

/-- The move frees objects eagerly: one object, or those that a scope tracks. -/
def Move.FreesEagerly : Move → Prop
  | .free .. | .drainScope _ => True
  | _ => False

instance decidableFreesEagerly : (y : Move) → Decidable y.FreesEagerly
  | .free .. | .drainScope _ => .isTrue trivial
  | .addWorker | .flushWorker _ | .retireWorker _ | .count .. | .reuse .. | .claim .. | .takePartial _
  | .carveBlock _ | .setCursor .. | .carveRun .. | .write .. | .copy .. | .attach .. | .startBatch
  | .fire | .endBatch | .breakBatch | .makeRegistry _ | .dropRegistry _ | .enterScope ..
  | .recordTracked .. | .leakScope _ | .observe | .attachCollector | .detachCollector | .begin
  | .shadeRoots _ | .markStep _ | .terminate | .finishMarking _ | .resurrect | .enterSweep
  | .zeroSlots | .startSweep | .sweepStep _ | .finish | .closeCycle => .isFalse id

/-- An eager free leaves a cell as it is, or puts the cell of an object without a flag into a free
list. -/
theorem CellChange.parked
    {p : Phase} {l : Act} {x : Nat} {c : Cell} {o : Option Cell}
    (hl : l = .still ∨ ∃ x, l = .park x)
    (h : CellChange p l x (some c) o) :
    o = some c ∨
      (c.header.state = .allocated ∧ c.header.hasFlag Header.sideRecord = false) ∧
        o = some { c with header := c.header.withState .cached } := by
  rcases hl with rfl | ⟨y, rfl⟩
  · cases h with
    | kept hc =>
        cases hc
        exact Or.inl rfl
    | removed ha => cases ha
  · cases h with
    | kept hc =>
        cases hc with
        | same => exact Or.inl rfl
        | park hs hf => exact Or.inr ⟨⟨hs, hf⟩, rfl⟩
    | removed ha => cases ha

namespace Heap

variable {h h' : Heap} {x : Nat} {c : Cell}

/-- Eager frees leave an object as it is, or put its cell into a free list. -/
theorem Steps.parked
    (hsteps : Steps (fun l => l = .still ∨ ∃ x, l = .park x) h h')
    (hs : h.Sound)
    (hx : h.arena.cell? x = some c) :
    h'.arena.cell? x = some c ∨
      h'.arena.cell? x = some { c with header := c.header.withState .cached } := by
  refine (hsteps.induct (R := fun g => g.arena.cell? x = some c ∨
    g.arena.cell? x = some { c with header := c.header.withState .cached }) hs (Or.inl hx) ?_).2
  rintro g l g' hg hR hl ht
  have hchange := ht.cellChange hg x
  rcases hR with hcell | hcell
  · rw [hcell] at hchange
    exact (hchange.parked hl).imp_right And.right
  · rw [hcell] at hchange
    rcases hchange.parked hl with hsame | ⟨⟨hal, -⟩, -⟩
    · exact Or.inr hsame
    · cases hal

/-- Eager frees leave an object with a flag as it is. -/
theorem Steps.flagged
    (hsteps : Steps (fun l => l = .still ∨ ∃ x, l = .park x) h h')
    (hs : h.Sound)
    (hx : h.arena.cell? x = some c)
    (hf : c.header.hasFlag Header.sideRecord = true) :
    h'.arena.cell? x = some c := by
  refine (hsteps.induct (R := fun g => g.arena.cell? x = some c) hs hx ?_).2
  rintro g l g' hg hcell hl ht
  have hchange := ht.cellChange hg x
  rw [hcell] at hchange
  rcases hchange.parked hl with hsame | ⟨⟨-, hnot⟩, -⟩
  · exact hsame
  · rw [hf] at hnot
    cases hnot

end Heap

namespace Machine

variable {P : Machine → Move → Prop} {m : Machine} {y : Move} {ys : List Move} {x : Nat} {c : Cell}

/-- The move frees the object at an address eagerly: the object was allocated, and now its cell lies
in a free list. -/
def Parks (m : Machine) (y : Move) (x : Nat) : Prop :=
  y.FreesEagerly ∧ m.heap.arena.isAllocated x = true ∧
    ∃ c, (m.apply y).heap.arena.cell? x = some c ∧ c.header.state = .cached

instance decidableParks (m : Machine) (y : Move) (x : Nat) : Decidable (m.Parks y x) :=
  inferInstanceAs (Decidable (y.FreesEagerly ∧ m.heap.arena.isAllocated x = true ∧
    ∃ c, (m.apply y).heap.arena.cell? x = some c ∧ c.header.state = .cached))

/-- Some move of the run frees the object at an address eagerly. -/
def ParksIn (m : Machine) (ys : List Move) (x : Nat) : Prop :=
  ∃ before y after, ys = before ++ y :: after ∧ (m.run before).Parks y x

/-- An object that was freed eagerly is not there any more. -/
theorem Parks.freed
    (h : m.Parks y x) :
    (m.apply y).heap.arena.isAllocated x = false := by
  obtain ⟨-, -, c, hcell, hcached⟩ := h
  rw [Bool.eq_false_iff]
  intro hal
  obtain ⟨d, hd, hst⟩ := Arena.isAllocated_iff.1 hal
  rw [hcell] at hd
  cases hd
  rw [hcached] at hst
  cases hst

theorem ParksIn.cons
    (h : (m.apply y).ParksIn ys x) :
    m.ParksIn (y :: ys) x := by
  obtain ⟨before, z, after, rfl, hz⟩ := h
  exact ⟨y :: before, z, after, rfl, hz⟩

theorem ParksIn.of_prefix
    {zs : List Move}
    (h : m.ParksIn zs x)
    (hzs : zs <+: ys) :
    m.ParksIn ys x := by
  obtain ⟨before, y, after, rfl, hy⟩ := h
  obtain ⟨rest, rfl⟩ := hzs
  exact ⟨before, y, after ++ rest, by simp, hy⟩

/-- Eager frees apart, a move does not put the cell of an object into a free list. -/
theorem not_does_park
    (hy : ¬ y.FreesEagerly)
    (x : Nat) :
    ¬ y.Does (.park x) := by
  cases y <;> simp [Move.Does, Move.FreesEagerly] at hy ⊢

theorem Proper.freesEagerly_steps
    (hm : m.Proper)
    (hy : y.FreesEagerly) :
    Heap.Steps (fun l => l = .still ∨ ∃ x, l = .park x) m.heap (m.apply y).heap := by
  cases y with
  | free id addr size shape =>
      exact (Heap.free_steps hm.sound id addr size shape).mono
        fun l hl => hl.imp_right fun e => ⟨addr, e⟩
  | drainScope k => exact Heap.drainScope_steps hm.sound k
  | _ => cases hy

/-- A move that frees eagerly leaves an object as it is, or frees it. -/
theorem Proper.stays_or_parks
    (hm : m.Proper)
    (hy : y.FreesEagerly)
    (hx : m.heap.arena.Object x c) :
    (m.apply y).heap.arena.cell? x = some c ∨ m.Parks y x := by
  rcases (hm.freesEagerly_steps hy).parked hm.sound hx.1 with hcell | hcell
  · exact Or.inl hcell
  · exact Or.inr ⟨hy, hx.isAllocated, _, hcell, rfl⟩

/-- A move other than one of the sweeper leaves an object what it is, or frees it eagerly. -/
theorem Proper.stays
    (hm : m.Proper)
    (hy : m.Allows y)
    (hx : m.heap.arena.Object x c)
    (hreclaim : ¬ y.Does (.reclaim x)) :
    (∃ hd, (m.apply y).heap.arena.Object x { c with header := hd }) ∨ m.Parks y x := by
  by_cases hfree : y.FreesEagerly
  · rcases hm.stays_or_parks hfree hx with hcell | hparks
    · exact Or.inl ⟨c.header, hcell, hx.2⟩
    · exact Or.inr hparks
  · obtain ⟨hd, hcell, hst⟩ :=
      (hm.steps hy).stays hm.sound hx.1 hx.2 (not_does_park hfree x) hreclaim
    exact Or.inl ⟨hd, hcell, hst⟩

/-- A reached object stays, and its color does not fall, unless a cycle begins or it is freed
eagerly. -/
theorem Proper.stays_rank
    (hm : m.Proper)
    (hy : m.Allows y)
    (hbegin : y ≠ .begin)
    (hx : m.heap.arena.Object x c)
    (hcol : c.header.color ≠ .white) :
    (∃ hd, (m.apply y).heap.arena.Object x { c with header := hd } ∧
      c.header.color.rank ≤ hd.color.rank) ∨ m.Parks y x := by
  by_cases hfree : y.FreesEagerly
  · rcases hm.stays_or_parks hfree hx with hcell | hparks
    · exact Or.inl ⟨c.header, ⟨hcell, hx.2⟩, Nat.le_refl _⟩
    · exact Or.inr hparks
  · have hnot : ¬ y.Does .begin := by
      cases y <;> simp [Move.Does] at hbegin ⊢
    obtain ⟨hd, hcell, hst, hrank⟩ :=
      (hm.steps hy).stays_reached hm.sound hx.1 hx.2 hcol (not_does_park hfree x) hnot
    exact Or.inl ⟨hd, ⟨hcell, hst⟩, hrank⟩

/-- A reached object stays and stays reached, unless a cycle begins or it is freed eagerly. -/
theorem Proper.stays_reached
    (hm : m.Proper)
    (hy : m.Allows y)
    (hbegin : y ≠ .begin)
    (hx : m.heap.arena.Object x c)
    (hcol : c.header.color ≠ .white) :
    (∃ hd, (m.apply y).heap.arena.Object x { c with header := hd } ∧ hd.color ≠ .white) ∨
      m.Parks y x :=
  (hm.stays_rank hy hbegin hx hcol).imp_left fun ⟨hd, hobj, hrank⟩ =>
    ⟨hd, hobj, Color.ne_white_of_rank hrank hcol⟩

/-- A reached object survives a run in which no cycle begins, unless it is freed eagerly. -/
theorem Legal.stays_reached
    (hl : Legal P m ys)
    (hm : m.Proper)
    (hbegin : .begin ∉ ys)
    (hx : m.heap.arena.Object x c)
    (hcol : c.header.color ≠ .white) :
    (∃ hd, (m.run ys).heap.arena.Object x { c with header := hd } ∧ hd.color ≠ .white) ∨
      m.ParksIn ys x := by
  induction ys generalizing m c with
  | nil => exact Or.inl ⟨c.header, hx, hcol⟩
  | cons y ys ih =>
      have hne : y ≠ .begin := fun e => hbegin (e ▸ List.mem_cons_self ..)
      have hrest : Move.begin ∉ ys := fun h => hbegin (List.mem_cons_of_mem _ h)
      rcases hm.stays_reached hl.1 hne hx hcol with ⟨hd, hobj, hw⟩ | hparks
      · rcases ih hl.2.2 (hm.apply hl.1) hrest hobj hw with hstays | hparks
        · exact Or.inl hstays
        · exact Or.inr hparks.cons
      · exact Or.inr ⟨[], y, ys, rfl, hparks⟩

end Machine

end EagerHeap
