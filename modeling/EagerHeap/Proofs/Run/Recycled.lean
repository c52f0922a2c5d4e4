import EagerHeap.Proofs.Cycle.Collected
import EagerHeap.Proofs.Interrupted
import EagerHeap.Proofs.Run.Aside
import EagerHeap.Proofs.Run.Store
/-!
# Objects that a worker allocates and frees

A worker allocates objects of a span and frees some of them eagerly, and other moves that leave these
objects alone come in between. `Recycles` says what such a sequence is, and counts in a `Turnover` the
live objects, the freed addresses and what each piece costs. Its invariant is that the free list of the
worker is the stack of the addresses that were freed and not reused yet.

Main results: `Recycled.piece`, `Recycled.between` and `Recycles.recycled`.
-/

namespace EagerHeap

namespace Heap

variable {h g : Heap} {id x size : Nat} {s : Span} {sh : Shape}

/-! ### What the pieces of an allocation do -/

/-- Between the heaps so many slow allocations were counted, and so many bytes towards the next cycle. -/
structure Costs (h g : Heap) (slow bytes : Nat) : Prop where
  slow : g.counted .slowAllocations = h.counted .slowAllocations + slow
  bytes : g.bytesSinceCycle = h.bytesSinceCycle + bytes

instance decidableCosts (h g : Heap) (slow bytes : Nat) : Decidable (h.Costs g slow bytes) :=
  decidable_of_iff (g.counted .slowAllocations = h.counted .slowAllocations + slow ∧
      g.bytesSinceCycle = h.bytesSinceCycle + bytes)
    ⟨fun hc => ⟨hc.1, hc.2⟩, fun hc => ⟨hc.slow, hc.bytes⟩⟩

theorem Costs.unique
    {slow slow' bytes bytes' : Nat}
    (hc : h.Costs g slow bytes)
    (hc' : h.Costs g slow' bytes') :
    slow = slow' ∧ bytes = bytes' :=
  ⟨Nat.add_left_cancel (hc.slow.symm.trans hc'.slow),
    Nat.add_left_cancel (hc.bytes.symm.trans hc'.bytes)⟩

theorem Costs.refl (h : Heap) : h.Costs h 0 0 := ⟨rfl, rfl⟩

theorem bytesSinceCycle_publish (h : Heap) (block cell addr size : Nat) :
    (h.publish block cell addr size).bytesSinceCycle = h.bytesSinceCycle := by
  rw [publish]

theorem bytesSinceCycle_count (h : Heap) (id : Nat) (c : Counter) (n : Nat) :
    (h.count id c n).bytesSinceCycle = h.bytesSinceCycle := rfl

theorem bytesSinceCycle_popFree
    {o : Option FreeEntry}
    (hp : h.popFree id s = (o, g)) :
    g.bytesSinceCycle = h.bytesSinceCycle := by
  rw [popFree] at hp
  split at hp <;> cases hp <;> rfl

/-- Reuse pops the latest entry, at no cost. -/
theorem Shelved.reuse_popped
    (hs : h.Sound)
    (hf : h.Shelved)
    (hx : ((Heap.reuse id s).run h).1.toOption.join = some x) :
    ∃ e, e.addr = x ∧ e.Fits h.arena s ∧
      h.shelf id s = e :: ((Heap.reuse id s).run h).2.shelf id s ∧
      h.Costs ((Heap.reuse id s).run h).2 0 0 := by
  rcases hf.reuse_run_cases hs id s with ⟨-, hrun⟩ | ⟨e, g, hp, hrun⟩
  · rw [hrun] at hx
    cases hx
  · rw [hrun] at hx ⊢
    obtain ⟨⟨hspan, hk, haddr⟩, hstill⟩ := popFree_cases hs.stocked hp
    refine ⟨e, Option.some.inj hx, ⟨hstill.outline.hasSpan.1 hspan, hk, haddr⟩, ?_, ?_, ?_⟩
    · dsimp only
      rw [shelf_count, shelf_publish]
      exact shelf_popFree hp
    · rw [← hrun]
      exact counted_reuse_of_ne Counter.noConfusion h id s
    · dsimp only
      rw [bytesSinceCycle_count, bytesSinceCycle_publish, bytesSinceCycle_popFree hp, Nat.add_zero]

/-- There is nothing to reuse if the free list is empty. -/
theorem Shelved.reuse_missed
    (hs : h.Sound)
    (hf : h.Shelved)
    (hnone : ((Heap.reuse id s).run h).1.toOption.join = none) :
    h.shelf id s = [] ∧ ((Heap.reuse id s).run h).2 = h := by
  rcases hf.reuse_run_cases hs id s with ⟨hp, hrun⟩ | ⟨e, g, -, hrun⟩
  · exact ⟨shelf_eq_nil_of_popFree hp, by rw [hrun]⟩
  · rw [hrun] at hnone
    cases hnone

/-- A claim is a slow allocation of the bytes of a cell. -/
theorem Shelved.claim_taken
    (hs : h.Sound)
    (hf : h.Shelved)
    (hid : ∃ w ∈ h.workers, w.id = id)
    (hx : (h.claim id s).1 = some x) :
    (∃ e : FreeEntry, e.addr = x ∧ e.Fits h.arena s) ∧ h.Costs (h.claim id s).2 1 s.cellSize := by
  rw [Heap.claim] at hx ⊢
  split at hx
  · next b j hc =>
      obtain ⟨hspan, hj, -⟩ := claimable?_cases hs hc
      have hmoved : (h.setCursor id s ⟨b, j + 1⟩).workers.map Worker.id = h.workers.map Worker.id :=
        ids_modifyWorker fun _ => rfl
      have hcounted := counted_count
        (h := ((h.setCursor id s ⟨b, j + 1⟩).publish b j
          (Arena.blockBase b + j * s.cellSize) s.cellSize).noteAllocation s.cellSize)
        (hmoved ▸ hf.ids) (hmoved ▸ List.mem_map.2 hid) .slowAllocations 1 .slowAllocations
      refine ⟨⟨⟨x, b, j⟩, rfl, hspan, hj, (Option.some.inj hx).symm⟩, ?_, ?_⟩
      · refine hcounted.trans ?_
        rw [counted_noteAllocation, counted_publish, counted_setCursor, if_pos rfl]
      · dsimp only
        rw [bytesSinceCycle_count, Heap.noteAllocation, bytesSinceCycle_publish]
        rfl
  · cases hx

/-- An accepted eager free of an object of the span pushes its cell, at no cost. -/
theorem free_pushed
    (hs : h.Sound)
    (hid : ∃ w ∈ h.workers, w.id = id)
    (hx : h.HoldsAt s x)
    (hfree : (h.free id x size (some sh)).1 = none) :
    (∃ e, e.addr = x ∧ (h.free id x size (some sh)).2.shelf id s = e :: h.shelf id s) ∧
      h.Costs (h.free id x size (some sh)).2 0 0 := by
  have hslow := counted_free_of_ne (c := .slowAllocations) Counter.noConfusion
    (fun _ => Counter.noConfusion) h id x size (some sh)
  rw [free] at hfree hslow ⊢
  cases hf : h.freeable x size (some sh) with
  | error reason =>
      rw [hf] at hfree
      cases hfree
  | ok p =>
      obtain ⟨t, e⟩ := p
      rw [hf] at hslow
      obtain ⟨c, hcell, hst, -, hspan, rfl⟩ := freeable_eq_ok hs.layout hf
      obtain rfl := hx.unique ⟨c, ⟨hcell, hst⟩, hspan⟩
      exact ⟨⟨_, rfl, (shelf_count ..).trans (shelf_park hid s _)⟩, hslow, rfl⟩

end Heap

/-! ### What a worker allocates and frees -/

/-- The turnover of the objects of a span that a worker allocates and frees. -/
structure Turnover where
  /-- The objects that live, the latest first. -/
  live : List Nat := []
  /-- The addresses that were freed and not reused yet, the latest first. -/
  freed : List Nat := []
  /-- The greatest number of objects that lived at once. -/
  peak : Nat := 0
  /-- The slow allocations that were counted. -/
  slow : Nat := 0
  /-- The bytes that were counted towards the next cycle. -/
  bytes : Nat := 0
  /-- Whether the worker looks for a free cell. -/
  searching : Bool := false

namespace Turnover

variable {t : Turnover} {x size : Nat} {rest : List Nat}

/-- An object is allocated. -/
def get (t : Turnover) (x : Nat) : Turnover :=
  { t with
    live := x :: t.live
    freed := t.freed.erase x
    peak := max t.peak (t.live.length + 1)
    searching := false }

/-- An object is freed. -/
def put (t : Turnover) (x : Nat) : Turnover :=
  { t with live := t.live.erase x, freed := x :: t.freed }

/-- Slow allocations and bytes are counted. -/
def charge (t : Turnover) (slow bytes : Nat) : Turnover :=
  { t with slow := t.slow + slow, bytes := t.bytes + bytes }

/-- Every slow allocation has raised the peak, and the cells that were allocated so far hold live objects
or are freed. -/
structure Balanced (t : Turnover) (size : Nat) : Prop where
  nodup : t.live.Nodup
  level : t.live.length + t.freed.length = t.peak
  slow : t.slow = t.peak
  bytes : t.bytes = t.peak * size
  exhausted : t.searching = true → t.freed = []

theorem balanced_empty (size : Nat) : ({} : Turnover).Balanced size :=
  ⟨List.nodup_nil, rfl, rfl, (Nat.zero_mul size).symm, fun h => nomatch h⟩

/-- The latest freed cell is reused at no cost. -/
theorem Balanced.reused
    (hb : t.Balanced size)
    (hx : x ∉ t.live)
    (hfreed : t.freed = x :: rest) :
    ((t.get x).charge 0 0).Balanced size := by
  have hlevel := hb.level
  rw [hfreed, List.length_cons] at hlevel
  have hpeak : max t.peak (t.live.length + 1) = t.peak := by omega
  refine ⟨List.nodup_cons.2 ⟨hx, hb.nodup⟩, ?_, ?_, ?_, fun h => nomatch h⟩
  · simp only [charge, get, hfreed, List.erase_cons_head, List.length_cons, hpeak]
    omega
  · simp only [charge, get, hpeak, Nat.add_zero, hb.slow]
  · simp only [charge, get, hpeak, Nat.add_zero, hb.bytes]

/-- A cell is claimed when none is freed. -/
theorem Balanced.claimed
    (hb : t.Balanced size)
    (hx : x ∉ t.live)
    (hsearch : t.searching = true) :
    ((t.get x).charge 1 size).Balanced size := by
  have hlevel := hb.level
  have hfreed := hb.exhausted hsearch
  rw [hfreed, List.length_nil, Nat.add_zero] at hlevel
  have hpeak : max t.peak (t.live.length + 1) = t.peak + 1 := by omega
  refine ⟨List.nodup_cons.2 ⟨hx, hb.nodup⟩, ?_, ?_, ?_, fun h => nomatch h⟩
  · simp only [charge, get, hfreed, List.erase_nil, List.length_cons, List.length_nil, hpeak]
    omega
  · simp only [charge, get, hpeak, hb.slow]
  · simp only [charge, get, hpeak, hb.bytes, Nat.succ_mul]

theorem Balanced.freed
    (hb : t.Balanced size)
    (hx : x ∈ t.live)
    (hready : t.searching = false) :
    ((t.put x).charge 0 0).Balanced size := by
  have hlevel := hb.level
  have hpos := List.length_pos_of_mem hx
  refine ⟨hb.nodup.erase x, ?_, hb.slow, hb.bytes, fun hsearch => ?_⟩
  · simp only [charge, put, List.length_erase_of_mem hx, List.length_cons]
    omega
  · exact absurd (hready.symm.trans hsearch) Bool.false_ne_true

end Turnover

/-- The move is a piece of the search for a free cell for a worker. -/
def Move.Searches (id : Nat) (s : Span) : Move → Prop
  | .claim other t | .setCursor other t _ => other = id ∧ t = s
  | .takePartial t | .carveBlock t => t = s
  | _ => False

namespace Machine

open Heap

/-- The move is a piece of an allocation of the worker, or an accepted eager free of an object that it
has allocated. An allocation tries to reuse a cell, and if there is none it searches until it claims
one. -/
inductive Piece (m : Machine) (id : Nat) (s : Span) (t : Turnover) : Move → Turnover → Prop
  | reused {x : Nat} (hready : t.searching = false) (hx : m.handsOut (.reuse id s) = some x) :
      Piece m id s t (.reuse id s) (t.get x)
  | missed (hready : t.searching = false) (hnone : m.handsOut (.reuse id s) = none) :
      Piece m id s t (.reuse id s) { t with searching := true }
  | searched {y : Move} (hsearch : t.searching = true) (hy : y.Searches id s)
      (hnone : m.handsOut y = none) : Piece m id s t y t
  | claimed {x : Nat} (hsearch : t.searching = true) (hx : m.handsOut (.claim id s) = some x) :
      Piece m id s t (.claim id s) (t.get x)
  | freed {x size : Nat} {sh : Shape} (hready : t.searching = false) (hx : x ∈ t.live)
      (hfree : (m.heap.free id x size (some sh)).1 = none) :
      Piece m id s t (.free id x size (some sh)) (t.put x)

/-- A worker allocates and frees objects of a span, and other moves that leave them alone come in
between. What each piece of an allocation or free adds to the slow allocations and to the bytes since
the latest cycle is counted. -/
inductive Recycles (id : Nat) (s : Span) (m₀ : Machine) : Turnover → Machine → Prop
  | start : Recycles id s m₀ {} m₀
  | piece {t t' : Turnover} {m : Machine} {y : Move} {slow bytes : Nat}
      (hrun : Recycles id s m₀ t m) (hy : m.Allows y) (hp : m.Piece id s t y t')
      (hcost : m.heap.Costs (m.apply y).heap slow bytes) :
      Recycles id s m₀ (t'.charge slow bytes) (m.apply y)
  /-- A search ends without a cell. -/
  | failed {t : Turnover} {m : Machine} (hrun : Recycles id s m₀ t m) :
      Recycles id s m₀ { t with searching := false } m
  | between {t : Turnover} {m : Machine} {y : Move} (hrun : Recycles id s m₀ t m)
      (hy : m.Allows y) (ha : m.Aside id s t.live y) : Recycles id s m₀ t (m.apply y)

/-- The invariant of such a sequence: the free list of the worker is the stack of the freed cells. -/
structure Recycled (m : Machine) (id : Nat) (s : Span) (t : Turnover) : Prop where
  proper : m.Proper
  shelved : m.heap.Shelved
  lives : ∃ w ∈ m.heap.workers, w.id = id
  shelf : (m.heap.shelf id s).map FreeEntry.addr = t.freed
  holds : ∀ x ∈ t.live, m.heap.HoldsAt s x
  balanced : t.Balanced s.cellSize

variable {m m₀ : Machine} {y : Move} {id slow bytes x : Nat} {s : Span} {t t' : Turnover}

/-- A piece of a search leaves the free list and counts nothing. -/
theorem searched_shelf
    (hm : m.Proper)
    (hy : y.Searches id s)
    (hnone : m.handsOut y = none) :
    (m.apply y).heap.shelf id s = m.heap.shelf id s ∧ m.heap.Costs (m.apply y).heap 0 0 := by
  cases y with
  | claim other t =>
      rcases claim_cases hm.sound other t with ⟨x, hx, -⟩ | ⟨-, hsame⟩
      · cases hx.symm.trans hnone
      · have hheap : (m.apply (.claim other t)).heap = m.heap := hsame
        rw [hheap]
        exact ⟨rfl, Costs.refl m.heap⟩
  | setCursor other t b =>
      exact ⟨shelf_setCursor m.heap other t ⟨b, 0⟩, counted_setCursor m.heap other t ⟨b, 0⟩ _, rfl⟩
  | takePartial t =>
      have hclients := clients_takePartial m.heap t
      refine ⟨shelf_of_clients hclients, counted_of_clients hclients, ?_⟩
      change (m.heap.takePartial t).2.bytesSinceCycle = m.heap.bytesSinceCycle
      rcases takePartial_cases m.heap t with ⟨-, heq⟩ | ⟨i, rest, -, heq⟩ <;> rw [heq]
  | carveBlock t =>
      have hclients := clients_carveBlock m.heap t
      refine ⟨shelf_of_clients hclients, counted_of_clients hclients, ?_⟩
      change ((Heap.carveBlock t).run m.heap).2.bytesSinceCycle = m.heap.bytesSinceCycle
      rw [carveBlock_run]
      split <;> rfl
  | _ => cases hy

/-- What is new in the invariant after a piece is the free list, the live objects and the turnover. -/
theorem Recycled.step
    (hr : m.Recycled id s t)
    (hy : m.Allows y)
    (hstays : y ≠ .retireWorker id)
    (hshelf : ((m.apply y).heap.shelf id s).map FreeEntry.addr = t'.freed)
    (hholds : ∀ x ∈ t'.live, (m.apply y).heap.HoldsAt s x)
    (hb : t'.Balanced s.cellSize) :
    (m.apply y).Recycled id s t' :=
  ⟨hr.proper.apply hy, hr.proper.shelved hr.shelved hy, lives_apply hr.lives hstays, hshelf, hholds, hb⟩

/-- An object that is handed out was none of the live ones, and it is one of the span. -/
theorem Recycled.got
    (hr : m.Recycled id s t)
    (hy : m.Allows y)
    (hx : m.handsOut y = some x)
    (he : ∃ e : FreeEntry, e.addr = x ∧ e.Fits m.heap.arena s)
    (hfrees : ¬ y.FreesEagerly)
    (hunswept : ∀ n, y ≠ .sweepStep n) :
    x ∉ t.live ∧ ∀ z ∈ x :: t.live, (m.apply y).heap.HoldsAt s z := by
  have ho := hr.proper.handsOut hy hx
  obtain ⟨e, rfl, hfits⟩ := he
  constructor
  · intro hlive
    obtain ⟨c, hobj, -⟩ := hr.holds e.addr hlive
    cases hobj.isAllocated.symm.trans (ho.fresh hr.proper.sound).1
  · intro z hz
    rcases List.mem_cons.1 hz with rfl | hz
    · exact ho.holdsAt hr.proper.sound hfits
    · exact holdsAt_apply hr.proper hy hunswept (fun hp => hfrees hp.1) (hr.holds z hz)

theorem Recycled.piece
    (hr : m.Recycled id s t)
    (hy : m.Allows y)
    (hp : m.Piece id s t y t')
    (hcost : m.heap.Costs (m.apply y).heap slow bytes) :
    (m.apply y).Recycled id s (t'.charge slow bytes) := by
  have hs := hr.proper.sound
  cases hp with
  | @reused x hready hx =>
      obtain ⟨e, rfl, hfits, hpopped, hfree⟩ := hr.shelved.reuse_popped hs hx
      obtain ⟨rfl, rfl⟩ := hcost.unique hfree
      have hfreed := hr.shelf
      rw [hpopped, List.map_cons] at hfreed
      obtain ⟨hnew, hholds⟩ := hr.got hy hx ⟨e, rfl, hfits⟩ (fun h => h) fun n => Move.noConfusion
      refine hr.step hy Move.noConfusion ?_ hholds (hr.balanced.reused hnew hfreed.symm)
      simp only [Turnover.charge, Turnover.get, ← hfreed, List.erase_cons_head]
      rfl
  | missed hready hnone =>
      obtain ⟨hempty, hsame⟩ := hr.shelved.reuse_missed hs hnone
      have hheap : (m.apply (.reuse id s)).heap = m.heap := hsame
      rw [hheap] at hcost
      obtain ⟨rfl, rfl⟩ := hcost.unique (Costs.refl m.heap)
      have hfreed := hr.shelf
      rw [hempty] at hfreed
      obtain ⟨hnodup, hlevel, hslow, hbytes, -⟩ := hr.balanced
      refine hr.step hy Move.noConfusion ?_ ?_ ⟨hnodup, hlevel, hslow, hbytes, fun _ => hfreed.symm⟩
      · rw [hheap]
        exact hr.shelf
      · rw [hheap]
        exact hr.holds
  | searched hsearch hsearches hnone =>
      obtain ⟨hshelf, hfree⟩ := searched_shelf hr.proper hsearches hnone
      obtain ⟨rfl, rfl⟩ := hcost.unique hfree
      have hquiet : ¬ y.FreesEagerly ∧ (∀ n, y ≠ .sweepStep n) ∧ y ≠ .retireWorker id := by
        cases y with
        | claim | setCursor | takePartial | carveBlock =>
            exact ⟨fun h => h, fun n => Move.noConfusion, Move.noConfusion⟩
        | _ => cases hsearches
      refine hr.step hy hquiet.2.2 ?_ (fun x hx => ?_) hr.balanced
      · rw [hshelf]
        exact hr.shelf
      · exact holdsAt_apply hr.proper hy hquiet.2.1 (fun hp => hquiet.1 hp.1) (hr.holds x hx)
  | @claimed x hsearch hx =>
      obtain ⟨he, hpaid⟩ := hr.shelved.claim_taken hs hr.lives hx
      obtain ⟨rfl, rfl⟩ := hcost.unique hpaid
      obtain ⟨hnew, hholds⟩ := hr.got hy hx he (fun h => h) fun n => Move.noConfusion
      refine hr.step hy Move.noConfusion ?_ hholds (hr.balanced.claimed hnew hsearch)
      have hfreed := hr.balanced.exhausted hsearch
      have hshelf : (m.apply (.claim id s)).heap.shelf id s = m.heap.shelf id s :=
        shelf_claim m.heap id s
      rw [hshelf, hr.shelf]
      simp only [Turnover.charge, Turnover.get, hfreed, List.erase_nil]
  | @freed x size sh hready hx hfree =>
      obtain ⟨⟨e, rfl, hpushed⟩, hfree'⟩ := free_pushed hs hr.lives (hr.holds x hx) hfree
      obtain ⟨rfl, rfl⟩ := hcost.unique hfree'
      refine hr.step hy Move.noConfusion ?_ (fun z hz => ?_) (hr.balanced.freed hx hready)
      · have hshelf : (m.apply (.free id e.addr size (some sh))).heap.shelf id s =
            e :: m.heap.shelf id s := hpushed
        rw [hshelf, List.map_cons, hr.shelf]
        rfl
      · -- The other live objects are not freed by this move.
        obtain ⟨hne, hlive⟩ := (hr.balanced.nodup.mem_erase_iff).1 hz
        obtain ⟨c, hobj, hspan⟩ := hr.holds z hlive
        have hsteps := free_steps hs id e.addr size (some sh)
        obtain ⟨hd, hcell, hst⟩ := hsteps.stays hs hobj.1 hobj.2 (by simp [hne]) (by simp)
        exact ⟨_, ⟨hcell, hst⟩, hsteps.hasSpan hs hspan⟩

theorem Recycled.between
    (hr : m.Recycled id s t)
    (hy : m.Allows y)
    (ha : m.Aside id s t.live y) :
    (m.apply y).Recycled id s t := by
  refine hr.step hy ha.staying.2 ?_ (fun x hx => ?_) hr.balanced
  · rw [ha.shelf_apply hr.proper]
    exact hr.shelf
  · exact holdsAt_apply hr.proper hy ha.unswept (ha.spared x hx) (hr.holds x hx)

/-- The invariant holds after every such sequence that starts with an empty free list. -/
theorem Recycles.recycled
    (hrun : Recycles id s m₀ t m)
    (hm : m₀.Recycled id s {}) :
    m.Recycled id s t := by
  induction hrun with
  | start => exact hm
  | piece _ hy hp hcost ih => exact ih.piece hy hp hcost
  | failed _ ih =>
      obtain ⟨hproper, hshelved, hlives, hshelf, hholds, hnodup, hlevel, hslow, hbytes, -⟩ := ih
      exact ⟨hproper, hshelved, hlives, hshelf, hholds, hnodup, hlevel, hslow, hbytes, nofun⟩
  | between _ hy ha ih => exact ih.between hy ha

end Machine

end EagerHeap
