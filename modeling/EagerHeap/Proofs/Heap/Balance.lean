import EagerHeap.Proofs.Heap.Counted
import EagerHeap.Proofs.Heap.Population
/-!
# Counters and cells

Every operation that hands out, frees or gives up a cell counts it once. So what the counters say and
what the arena holds differ by the same number before and after: `Shifts` compares two heaps in this
respect.

Main results: `Shelved.shifts_reuse`, `shifts_claim`, `shifts_free`, `shifts_drainScope` and
`shifts_flushWorker`.
-/

namespace EagerHeap

namespace Counter

/-- How a counter stands in the balance of objects: on the side of the allocations, or on that of the
objects that are gone. -/
def objectSign : Counter → ℤ
  | .freesAccepted => 1
  | .freeListHits | .slowAllocations => -1
  | _ => 0

/-- How a counter stands in the balance of cached cells. -/
def cacheSign : Counter → ℤ
  | .freeListHits | .flushed => 1
  | .freesAccepted => -1
  | _ => 0

end Counter

namespace Heap

/-- By how much the objects exceed the allocations that no accepted free has undone. -/
def objectGap (h : Heap) : ℤ :=
  h.objectCount + h.counted .freesAccepted - h.counted .freeListHits - h.counted .slowAllocations

/-- By how much the cached cells exceed the accepted frees whose cells were neither reused nor given
back. -/
def cacheGap (h : Heap) : ℤ :=
  h.cachedCount + h.counted .freeListHits + h.counted .flushed - h.counted .freesAccepted

/-- From the first heap to the second one, `m` more objects and `n` more cached cells come than the
counters say. -/
structure Shifts (h h' : Heap) (m n : ℤ) : Prop where
  objects : h'.objectGap = h.objectGap + m
  cache : h'.cacheGap = h.cacheGap + n

variable {h h' g : Heap} {x id size k : Nat} {s : Span} {c : Counter} {e : FreeEntry} {P : Act → Prop}
  {m n a b : ℤ} {shape : Option Shape}

theorem Shifts.refl (h : Heap) : Shifts h h 0 0 := ⟨(add_zero _).symm, (add_zero _).symm⟩

theorem Shifts.trans
    (hg : Shifts h g m n)
    (hh : Shifts g h' a b) :
    Shifts h h' (m + a) (n + b) :=
  ⟨by rw [hh.objects, hg.objects, add_assoc], by rw [hh.cache, hg.cache, add_assoc]⟩

/-- Objects and cached cells come and go, and one counter goes up. -/
theorem Shifts.of_counts
    (hobjects : (h'.objectCount : ℤ) = h.objectCount + m)
    (hcached : (h'.cachedCount : ℤ) = h.cachedCount + n)
    (hcounted : ∀ d, h'.counted d = h.counted d + if d = c then k else 0) :
    Shifts h h' (m + c.objectSign * k) (n + c.cacheSign * k) := by
  constructor
  · rw [objectGap, objectGap, hobjects, hcounted, hcounted, hcounted]
    cases c <;> simp only [Counter.objectSign, reduceCtorEq, if_false, if_true] <;> omega
  · rw [cacheGap, cacheGap, hcached, hcounted, hcounted, hcounted]
    cases c <;> simp only [Counter.cacheSign, reduceCtorEq, if_false, if_true] <;> omega

/-- What changes no counter. -/
theorem Shifts.of_uncounted
    (hobjects : (h'.objectCount : ℤ) = h.objectCount + m)
    (hcached : (h'.cachedCount : ℤ) = h.cachedCount + n)
    (hcounted : ∀ d, h'.counted d = h.counted d) :
    Shifts h h' m n := by
  have hshifts := Shifts.of_counts (c := .growCalls) (k := 0) hobjects hcached fun d => by
    rw [hcounted, ite_self, Nat.add_zero]
  simpa using hshifts

/-- What changes neither cells nor counters. -/
theorem Shifts.of_steps
    (hsteps : Steps P h h')
    (hs : h.Sound)
    (hbirth : ∀ x, ¬ P (.birth x))
    (hpark : ∀ x, ¬ P (.park x))
    (huncache : ∀ x, ¬ P (.uncache x))
    (hreclaim : ∀ x, ¬ P (.reclaim x))
    (hcounted : ∀ d, h'.counted d = h.counted d) :
    Shifts h h' 0 0 := by
  refine .of_uncounted ?_ ?_ hcounted
  · rw [hsteps.objectCount_eq hs hbirth hpark hreclaim, add_zero]
  · rw [hsteps.cachedCount_eq hs hbirth hpark huncache, add_zero]

theorem Shifts.of_still
    (hsteps : Steps (· = .still) h h')
    (hs : h.Sound)
    (hcounted : ∀ d, h'.counted d = h.counted d) :
    Shifts h h' 0 0 :=
  .of_steps hsteps hs (by simp) (by simp) (by simp) (by simp) hcounted

theorem shifts_count
    (hs : h.Sound)
    (hids : (h.workers.map Worker.id).Nodup)
    (hid : id ∈ h.workers.map Worker.id)
    (c : Counter) (k : Nat) :
    Shifts h (h.count id c k) (c.objectSign * k) (c.cacheSign * k) := by
  have hsteps := (still_count h id c k).steps
  have hshifts := Shifts.of_counts (m := 0) (n := 0)
    (by rw [hsteps.objectCount_eq hs (by simp) (by simp) (by simp), add_zero])
    (by rw [hsteps.cachedCount_eq hs (by simp) (by simp) (by simp), add_zero])
    (counted_count hids hid c k)
  simpa using hshifts

/-! ### Counters that an operation leaves alone -/

theorem counted_publish (h : Heap) (block cell addr size : Nat) (c : Counter) :
    (h.publish block cell addr size).counted c = h.counted c :=
  counted_of_clients (clients_publish h block cell addr size)

theorem counted_noteAllocation (h : Heap) (bytes : Nat) (c : Counter) :
    (h.noteAllocation bytes).counted c = h.counted c := rfl

theorem counted_setCursor (h : Heap) (id : Nat) (s : Span) (k : Cursor) (c : Counter) :
    (h.setCursor id s k).counted c = h.counted c :=
  counted_modifyWorker fun _ => rfl

theorem ids_count (h : Heap) (id : Nat) (c : Counter) (k : Nat) :
    (h.count id c k).workers.map Worker.id = h.workers.map Worker.id :=
  ids_modifyWorker fun _ => rfl

theorem counted_popFree
    {o : Option FreeEntry}
    (hp : h.popFree id s = (o, g))
    (c : Counter) :
    g.counted c = h.counted c := by
  rw [popFree] at hp
  split at hp
  · cases hp
    exact counted_modifyWorker fun _ => rfl
  · cases hp
    rfl

theorem ids_popFree
    {o : Option FreeEntry}
    (hp : h.popFree id s = (o, g)) :
    g.workers.map Worker.id = h.workers.map Worker.id := by
  rw [popFree] at hp
  split at hp
  · cases hp
    exact ids_modifyWorker fun _ => rfl
  · cases hp
    rfl

theorem counted_reuse_of_ne
    {c : Counter}
    (hc : c ≠ .freeListHits)
    (h : Heap) (id : Nat) (s : Span) :
    ((Heap.reuse id s).run h).2.counted c = h.counted c := by
  rw [reuse_run]
  rcases hp : h.popFree id s with ⟨_ | e, g⟩
  · exact counted_popFree hp c
  · dsimp only
    split
    · refine (counted_count_of_ne hc).trans ?_
      rw [counted_publish, counted_popFree hp]
    · exact counted_popFree hp c

theorem counted_claim_of_ne
    {c : Counter}
    (hc : c ≠ .slowAllocations)
    (h : Heap) (id : Nat) (s : Span) :
    (h.claim id s).2.counted c = h.counted c := by
  rw [claim]
  split
  · refine (counted_count_of_ne hc).trans ?_
    rw [counted_noteAllocation, counted_publish, counted_setCursor]
  · rfl

theorem counted_free_of_ne
    {c : Counter}
    (haccepted : c ≠ .freesAccepted)
    (hrejected : ∀ reason, c ≠ .rejected reason)
    (h : Heap) (id x size : Nat) (shape : Option Shape) :
    (h.free id x size shape).2.counted c = h.counted c := by
  rw [free]
  split
  · next s e _ =>
      refine (counted_count_of_ne haccepted).trans ?_
      exact counted_modifyWorker (h := { h with
        arena := h.arena.modifyHeader e.block e.cell (·.withState .cached) }) fun _ => rfl
  · next reason _ => exact counted_count_of_ne (hrejected reason)

/-! ### Handing out objects -/

/-- A worker that reuses a cell counts it, and the cell is not cached any more. -/
theorem Shelved.shifts_reuse
    (hs : h.Sound)
    (hf : h.Shelved)
    (hid : id ∈ h.workers.map Worker.id)
    (s : Span) :
    Shifts h ((Heap.reuse id s).run h).2 0 0 := by
  rcases hf.reuse_run_cases hs id s with ⟨-, hrun⟩ | ⟨e, g, hp, hrun⟩
  · rw [hrun]
    exact Shifts.refl h
  · rcases reuse_cases hs id s with ⟨x, hx, ho⟩ | ⟨hnone, -⟩
    · rw [hrun] at hx ho ⊢
      obtain rfl : e.addr = x := Option.some.inj (Except.ok.inj hx)
      have hcached : h.CachedAt e.addr :=
        (popFree_cases hs.stocked hp).2.steps.cachedAt_of hs (by simp) (hf.popFree hp).2.1
      have hids : (g.publish e.block e.cell e.addr s.cellSize).workers.map Worker.id =
          h.workers.map Worker.id :=
        (congrArg (List.map Worker.id) (workers_of_clients (clients_publish ..))).trans
          (ids_popFree hp)
      have hcounted := counted_count (hids ▸ hf.ids) (hids ▸ hid) .freeListHits 1
      refine Shifts.of_counts (m := 1) (n := -1) (c := .freeListHits) (k := 1) ?_ ?_ fun d => ?_
      · rw [ho.objectCount hs, Nat.cast_succ]
      · rw [ho.cachedCount_of_cached hs hcached, Nat.cast_succ, add_neg_cancel_right]
      · rw [hcounted, counted_publish, counted_popFree hp]
    · exact absurd (congrArg Prod.fst hrun) (hnone e.addr)

/-- The cell that a worker claims is not cached. -/
theorem not_cachedAt_claim
    (hs : h.Sound)
    (hx : (h.claim id s).1 = some x) :
    ¬ h.CachedAt x := by
  rw [claim] at hx
  split at hx
  · next b j hc =>
      obtain ⟨hspan, hj, hd, hhd, hfree⟩ := claimable?_cases hs hc
      obtain ⟨hd', hhd', hcell⟩ := hs.layout.cell?_small hspan hj
      obtain rfl := Option.some.inj (hhd.symm.trans hhd')
      obtain rfl := Option.some.inj hx
      exact not_cachedAt_of_cell? hcell (by simp [hfree])
  · cases hx

/-- A worker that claims a cell counts it. -/
theorem Shelved.shifts_claim
    (hs : h.Sound)
    (hf : h.Shelved)
    (hid : id ∈ h.workers.map Worker.id)
    (s : Span) :
    Shifts h (h.claim id s).2 0 0 := by
  rcases claim_cases hs id s with ⟨x, hx, ho⟩ | ⟨-, hsame⟩
  · refine Shifts.of_counts (m := 1) (n := 0) (c := .slowAllocations) (k := 1) ?_ ?_ fun d => ?_
    · rw [ho.objectCount hs, Nat.cast_succ]
    · rw [ho.cachedCount_of_not_cached hs (not_cachedAt_claim hs hx), add_zero]
    · rw [Heap.claim] at hx ⊢
      split at hx
      · next b j _ =>
          have hmoved : (h.setCursor id s ⟨b, j + 1⟩).workers.map Worker.id =
              h.workers.map Worker.id := ids_modifyWorker fun _ => rfl
          have hcounted := counted_count
            (h := ((h.setCursor id s ⟨b, j + 1⟩).publish b j
              (Arena.blockBase b + j * s.cellSize) s.cellSize).noteAllocation s.cellSize)
            (hmoved ▸ hf.ids) (hmoved ▸ hid) .slowAllocations 1 d
          refine hcounted.trans ?_
          rw [counted_noteAllocation, counted_publish, counted_setCursor]
      · cases hx
  · rw [hsame]
    exact Shifts.refl h

/-- A run of blocks is not counted when it is handed out. -/
theorem shifts_carveRun
    {j : Nat} {sh : Shape}
    (hs : h.Sound)
    (hj : 0 < j)
    (hx : ((carveRun j sh).run h).1 = .ok (some x)) :
    Shifts h ((carveRun j sh).run h).2 1 0 := by
  rcases carveRun_cases hs hj sh with ⟨y, hy, ho⟩ | ⟨hnone, -⟩
  · obtain rfl : x = y := Option.some.inj (Except.ok.inj (hx.symm.trans hy))
    have hnot : ¬ h.CachedAt x := by
      rintro ⟨c, hc, -⟩
      rw [carveRun_eq_some hs hj hx] at hc
      cases hc
    refine Shifts.of_uncounted ?_ ?_ fun d => counted_of_clients (clients_carveRun h j sh)
    · rw [ho.objectCount hs, Nat.cast_succ]
    · rw [ho.cachedCount_of_not_cached hs hnot, add_zero]
  · rw [hnone] at hx
    cases hx

/-! ### Eager frees -/

theorem ids_park (h : Heap) (id : Nat) (s : Span) (e : FreeEntry) :
    (h.park id s e).workers.map Worker.id = h.workers.map Worker.id :=
  ids_modifyWorker fun _ => rfl

/-- An eager free counts the cell that it puts into a free list, or the reason why it does not. -/
theorem shifts_free
    (hs : h.Sound)
    (hids : (h.workers.map Worker.id).Nodup)
    (hid : id ∈ h.workers.map Worker.id)
    (x size : Nat) (shape : Option Shape) :
    Shifts h (h.free id x size shape).2 0 0 := by
  cases hf : h.freeable x size shape with
  | ok p =>
      obtain ⟨s, e⟩ := p
      have hnone : (h.free id x size shape).1 = none := by rw [free, hf]
      obtain ⟨hobjects, hcached⟩ := count_free hs hnone
      refine Shifts.of_counts (m := -1) (n := 1) (c := .freesAccepted) (k := 1) ?_ ?_ fun d => ?_
      · rw [hobjects, Nat.cast_succ, add_neg_cancel_right]
      · rw [hcached, Nat.cast_succ]
      · have hparked := ids_park h id s e
        rw [free, hf]
        refine (counted_count (hparked ▸ hids) (hparked ▸ hid) .freesAccepted 1 d).trans ?_
        exact congrArg (· + _) (counted_modifyWorker (h := { h with
          arena := h.arena.modifyHeader e.block e.cell (·.withState .cached) }) fun _ => rfl)
  | error reason =>
      have hshifts := shifts_count hs hids hid (.rejected reason) 1
      rw [free, hf]
      simpa [Counter.objectSign, Counter.cacheSign] using hshifts

theorem shifts_freeTracked
    (addrs : List Nat)
    (hs : h.Sound)
    (hids : (h.workers.map Worker.id).Nodup)
    (hid : id ∈ h.workers.map Worker.id) :
    Shifts h (h.freeTracked id addrs).2 0 0 := by
  refine (freeTracked_preserves (R := fun g => Shifts h g 0 0 ∧ g.Sound ∧ g.holdings = h.holdings)
    ⟨Shifts.refl h, hs, rfl⟩ ?_ addrs).1
  rintro g x size shape ⟨hshifts, hs, hsame⟩
  have hkept := ids_of_holdings hsame
  have hfreed := hshifts.trans (shifts_free hs (hkept ▸ hids) (hkept ▸ hid) x size shape)
  exact ⟨by simpa using hfreed, (free_steps hs id x size shape).sound hs,
    (holdings_free g id x size shape).trans hsame⟩

/-- The account of a scope that was drained says nothing about cells. -/
theorem shifts_settle
    (hs : h.Sound)
    (hids : (h.workers.map Worker.id).Nodup)
    (hid : id ∈ h.workers.map Worker.id)
    (owner r freed skipped : Nat) :
    Shifts h (((h.deregister owner r).count id .trackedFrees freed).count id .trackedSkipped skipped)
      0 0 := by
  have hforgot := (still_deregister h owner r).steps
  have hfreed := (still_count (h.deregister owner r) id .trackedFrees freed).steps
  have hkept : (h.deregister owner r).workers.map Worker.id = h.workers.map Worker.id :=
    ids_modifyWorker fun _ => rfl
  have hkept' : ((h.deregister owner r).count id .trackedFrees freed).workers.map Worker.id =
      h.workers.map Worker.id := (ids_count ..).trans hkept
  have hforget : Shifts h (h.deregister owner r) 0 0 :=
    Shifts.of_still hforgot hs fun d => counted_modifyWorker fun _ => rfl
  have hall := (hforget.trans (shifts_count (hforgot.sound hs) (hkept ▸ hids) (hkept ▸ hid)
    .trackedFrees freed)).trans (shifts_count (hfreed.sound (hforgot.sound hs)) (hkept' ▸ hids)
      (hkept' ▸ hid) .trackedSkipped skipped)
  simpa [Counter.objectSign, Counter.cacheSign] using hall

theorem shifts_drainScope
    {scope : Scope}
    (hs : h.Sound)
    (hids : (h.workers.map Worker.id).Nodup)
    (hk : h.scopes[k]? = some scope)
    (hid : scope.worker ∈ h.workers.map Worker.id) :
    Shifts h (h.drainScope k).2 0 0 := by
  rcases drainScope_eq hk with ⟨-, heq⟩ | ⟨registry, owner, -, -, heq⟩
  · rw [heq]
    exact Shifts.of_still (still_modifyScope h k _).steps hs fun d => counted_of_workers rfl rfl
  · rw [heq]
    have hclosed := (closing_steps h k scope).sound hs
    have hclosing : Shifts h (h.closing k scope) 0 0 :=
      Shifts.of_still (closing_steps h k scope) hs fun d => counted_of_workers rfl rfl
    have hfreed := shifts_freeTracked (h := h.closing k scope) (registry.addresses scope.used)
      hclosed hids hid
    have hsound := (freeTracked_steps (registry.addresses scope.used) hclosed
      scope.worker).sound hclosed
    have hkept := ids_of_holdings
      (holdings_freeTracked (registry.addresses scope.used) (h.closing k scope) scope.worker)
    have hall := (hclosing.trans hfreed).trans (shifts_settle hsound (hkept ▸ hids) (hkept ▸ hid)
      owner scope.registry
      ((h.closing k scope).freeTracked scope.worker (registry.addresses scope.used)).1.1
      ((h.closing k scope).freeTracked scope.worker (registry.addresses scope.used)).1.2)
    simp only [add_zero] at hall
    exact hall

/-- Recording an object counts nothing that says something about cells. -/
theorem shifts_recordTracked
    {scope : Scope}
    (hs : h.Sound)
    (hids : (h.workers.map Worker.id).Nodup)
    (hk : h.scopes[k]? = some scope)
    (hid : scope.worker ∈ h.workers.map Worker.id)
    (x t : Nat) :
    Shifts h ((recordTracked k x t).run h).2 0 0 := by
  rw [recordTracked_run, hk]
  dsimp only
  split
  · have hcount := shifts_count hs hids hid .trackOverflow 1
    simpa [Counter.objectSign, Counter.cacheSign] using hcount
  · split
    · have hcount := shifts_count hs hids hid .trackedSkipped 1
      simpa [Counter.objectSign, Counter.cacheSign] using hcount
    · exact Shifts.of_still ((still_modifyRegistry h _ _).steps.trans
        (still_modifyScope _ k _).steps) hs fun d => counted_of_workers rfl rfl

/-! ### Workers -/

theorem shifts_addWorker
    (hs : h.Sound) :
    Shifts h h.addWorker.2 0 0 :=
  .of_still (still_addWorker h).steps hs (counted_addWorker h)

/-- A worker that ends counts the cells that stop being cached. -/
theorem counted_flushWorker
    (hids : (h.workers.map Worker.id).Nodup)
    (id : Nat) (d : Counter) :
    (h.flushWorker id).2.counted d = h.counted d + if d = .flushed then (h.flushWorker id).1 else 0 := by
  rw [flushWorker]
  split
  · rw [ite_self, Nat.add_zero]
  · next w hw =>
      dsimp only
      have hclients := (clients_offerAll (w.cursors.toList.filterMap fun c => c.map Cursor.block)
        _).trans (clients_uncacheAll w.freeEntries h)
      generalize (w.cursors.toList.filterMap fun c => c.map Cursor.block).foldl offerIfFree
        (h.uncacheAll w.freeEntries).2 = g at hclients
      obtain ⟨hmem, rfl⟩ := worker?_eq_some hw
      have hids' : (g.workers.map Worker.id).Nodup := workers_of_clients hclients ▸ hids
      have hid : w.id ∈ g.workers.map Worker.id :=
        workers_of_clients hclients ▸ List.mem_map_of_mem hmem
      have hcounted := counted_count hids' hid .flushed (h.uncacheAll w.freeEntries).1 d
      rw [← counted_of_clients hclients, ← hcounted]
      exact counted_modifyWorker_congr fun _ => rfl

theorem shifts_flushWorker
    (hs : h.Sound)
    (hids : (h.workers.map Worker.id).Nodup)
    (id : Nat) :
    Shifts h (h.flushWorker id).2 0 0 := by
  have hcached := cachedCount_flushWorker hs id
  have hshifts := Shifts.of_counts (m := 0) (n := -((h.flushWorker id).1 : ℤ)) (c := .flushed)
    (k := (h.flushWorker id).1) ?_ ?_ (counted_flushWorker hids id)
  · simpa [Counter.objectSign, Counter.cacheSign] using hshifts
  · rw [(flushWorker_steps hs id).objectCount_eq hs (by simp) (by simp) (by simp), add_zero]
  · rw [hcached, Nat.cast_add, add_neg_cancel_right]

theorem shifts_retireWorker
    (hs : h.Sound)
    (hids : (h.workers.map Worker.id).Nodup)
    (hr : h.retireWorker id = .ok g) :
    Shifts h g 0 0 :=
  .of_still (still_retireWorker hr).steps hs (counted_retireWorker hids hr)

end Heap

end EagerHeap
