import EagerHeap.Proofs.Heap.Balance
import EagerHeap.Proofs.Heap.Room
import EagerHeap.Proofs.Marking.Workload
/-!
# Outstanding tracked allocations

A worker counts an allocation in a scope, and later on it counts what became of it, unless the object
was still in its slot when the scope ended and its free was declined. In between the allocation is
outstanding. `Outstanding` says that the outstanding allocations of a worker are in the slots of its
open and leaked scopes, apart from a number of them that is given.

Main results: `Outstanding.count`, `Outstanding.recordTracked` and `Outstanding.drainScope`.
-/

namespace EagerHeap

/-- How a counter stands in the account of tracked allocations. -/
def Counter.trackSign : Counter → ℤ
  | .trackedAllocations => 1
  | .trackedFrees | .trackedSkipped | .trackOverflow => -1
  | _ => 0

/-- The number of tracked allocations that were counted and that were neither freed, nor left to the
collector, nor without a slot. -/
def Tally.outstanding (t : Tally) : ℤ :=
  t.get .trackedAllocations - t.get .trackedFrees - t.get .trackedSkipped - t.get .trackOverflow

theorem Tally.outstanding_add (t : Tally) (c : Counter) (n : Nat) :
    (t.add c n).outstanding = t.outstanding + c.trackSign * n := by
  have hget : ∀ d, (t.add c n).get d = t.get d + if d = c then n else 0 := by
    intro d
    split
    · next hd => rw [hd, get_add_self]
    · next hd => rw [get_add_of_ne t n hd, Nat.add_zero]
  rw [outstanding, outstanding, hget, hget, hget, hget]
  cases c <;> simp only [Counter.trackSign, reduceCtorEq, if_false, if_true] <;> omega

/-- The number of slots in which a scope holds allocations of a worker. A closed scope holds none. -/
def Scope.usedFor (id : Nat) (s : Scope) : Nat :=
  if s.worker = id ∧ s.status ≠ .closed then s.used else 0

/-- Adds to the number of one worker. -/
def charge (id : Nat) (n : ℤ) (p : Nat × ℤ) : Nat × ℤ := if p.1 = id then (p.1, p.2 + n) else p

theorem map_charge_zero (id : Nat) (l : List (Nat × ℤ)) : l.map (charge id 0) = l := by
  refine (List.map_congr_left fun p _ => ?_).trans (List.map_id _)
  rw [charge, add_zero, ite_self]
  rfl

theorem charge_charge (id : Nat) (m n : ℤ) (p : Nat × ℤ) :
    charge id n (charge id m p) = charge id (m + n) p := by
  by_cases hp : p.1 = id
  · simp only [charge, if_pos hp, add_assoc]
  · simp [charge, hp]

namespace Heap

/-- The live workers with their outstanding tracked allocations. -/
def debts (h : Heap) : List (Nat × ℤ) := h.workers.map fun w => (w.id, w.tally.outstanding)

/-- The number of slots that the open and leaked scopes of a worker use. -/
def slotsUsed (h : Heap) (id : Nat) : Nat := (h.scopes.toList.map (Scope.usedFor id)).sum

/-- The outstanding allocations of every live worker are in slots of its scopes, apart from a number
of them. -/
def Outstanding (h : Heap) (a : Nat → ℤ) : Prop := ∀ p ∈ h.debts, p.2 = h.slotsUsed p.1 + a p.1

/-- Why eager frees at some addresses, one after the other, are declined. -/
def declined (h : Heap) (id : Nat) : List Nat → List Rejection
  | [] => []
  | 0 :: rest => h.declined id rest
  | addr :: rest => (h.freeOwned id addr).1.toList ++ (h.freeOwned id addr).2.declined id rest

variable {h h' g : Heap} {id k r q x e : Nat} {s : Scope} {c : Counter} {n m : ℤ} {a : Nat → ℤ}
  {f : Worker → Worker}

/-! ### What workers owe -/

theorem debts_of_workers
    (hsame : h'.workers = h.workers) :
    h'.debts = h.debts := by
  rw [debts, hsame]
  rfl

theorem debts_of_clients
    (hc : h'.clients = h.clients) :
    h'.debts = h.debts :=
  debts_of_workers (workers_of_clients hc)

theorem debts_modifyWorker
    (hid : ∀ w, (f w).id = w.id)
    (htally : ∀ w, (f w).tally.outstanding = w.tally.outstanding + n) :
    (h.modifyWorker id f).debts = h.debts.map (charge id n) := by
  rw [debts, debts, modifyWorker, List.map_map, List.map_map]
  refine List.map_congr_left fun w _ => ?_
  rw [Function.comp_apply, Function.comp_apply, charge]
  split
  · rw [hid, htally]
  · rfl

/-- A change of workers that leaves their tallies. -/
theorem debts_modifyWorker_of_tally
    (hid : ∀ w, (f w).id = w.id)
    (htally : ∀ w, (f w).tally = w.tally) :
    (h.modifyWorker id f).debts = h.debts := by
  rw [debts_modifyWorker hid (n := 0) fun w => by rw [htally, add_zero], map_charge_zero]

theorem debts_count (h : Heap) (id : Nat) (c : Counter) (k : Nat) :
    (h.count id c k).debts = h.debts.map (charge id (c.trackSign * k)) :=
  debts_modifyWorker (fun _ => rfl) fun w => w.tally.outstanding_add c k

/-- A counter that has nothing to do with tracking. -/
theorem debts_count_of_untracked
    (hc : c.trackSign = 0)
    (h : Heap) (id k : Nat) :
    (h.count id c k).debts = h.debts := by
  rw [debts_count, hc, zero_mul, map_charge_zero]

theorem debts_setCursor (h : Heap) (id : Nat) (sp : Span) (j : Cursor) :
    (h.setCursor id sp j).debts = h.debts :=
  debts_modifyWorker_of_tally (fun _ => rfl) fun _ => rfl

theorem debts_deregister (h : Heap) (id r : Nat) : (h.deregister id r).debts = h.debts :=
  debts_modifyWorker_of_tally (fun _ => rfl) fun _ => rfl

theorem debts_popFree (h : Heap) (id : Nat) (sp : Span) :
    (h.popFree id sp).2.debts = h.debts := by
  rw [popFree]
  split
  · exact debts_modifyWorker_of_tally (fun _ => rfl) fun _ => rfl
  · rfl

theorem debts_reuse (h : Heap) (id : Nat) (sp : Span) :
    ((reuse id sp).run h).2.debts = h.debts := by
  have hpop := debts_popFree h id sp
  rw [reuse_run]
  rcases hp : h.popFree id sp with ⟨_ | e, g⟩
  · rwa [hp] at hpop
  · rw [hp] at hpop
    dsimp only
    split
    · rw [debts_count_of_untracked rfl, debts_of_clients (clients_publish ..)]
      exact hpop
    · exact hpop

theorem debts_claim (h : Heap) (id : Nat) (sp : Span) : (h.claim id sp).2.debts = h.debts := by
  rw [claim]
  split
  · next b j _ =>
      have hpublished := debts_of_clients (clients_publish (h.setCursor id sp ⟨b, j + 1⟩) b j
        (Arena.blockBase b + j * sp.cellSize) sp.cellSize)
      rw [debts_count_of_untracked rfl, ← debts_setCursor h id sp ⟨b, j + 1⟩, ← hpublished]
      rfl
  · rfl

theorem debts_free (h : Heap) (id addr size : Nat) (shape : Option Shape) :
    (h.free id addr size shape).2.debts = h.debts := by
  rw [free]
  split
  · next sp e _ =>
      rw [debts_count_of_untracked rfl]
      exact debts_modifyWorker_of_tally (h := { h with
        arena := h.arena.modifyHeader e.block e.cell (·.withState .cached) }) (fun _ => rfl)
        fun _ => rfl
  · exact debts_count_of_untracked rfl h id 1

theorem debts_freeTracked (addrs : List Nat) (h : Heap) (id : Nat) :
    (h.freeTracked id addrs).2.debts = h.debts :=
  freeTracked_preserves (R := fun g => g.debts = h.debts) rfl
    (fun g x size shape hg => (debts_free g id x size shape).trans hg) addrs

theorem debts_flushWorker (h : Heap) (id : Nat) : (h.flushWorker id).2.debts = h.debts := by
  rw [flushWorker]
  split
  · rfl
  · next w _ =>
      have hclients := (clients_offerAll (w.cursors.toList.filterMap fun c => c.map Cursor.block)
        _).trans (clients_uncacheAll w.freeEntries h)
      dsimp only
      rw [debts_modifyWorker (n := 0), map_charge_zero, debts_of_clients hclients]
      · exact fun _ => rfl
      · intro w
        rw [Tally.outstanding_add]
        exact congrArg _ (zero_mul _)

theorem debts_enterScope (h : Heap) (id r : Nat) :
    ((enterScope id r).run h).2.debts = h.debts := by
  rw [enterScope_run]
  split
  · rfl
  · exact debts_modifyWorker_of_tally (h := h.setOwner r (some id)) (fun _ => rfl) fun _ => rfl

theorem debts_dropRegistry (h : Heap) (r : Nat) : (h.dropRegistry r).debts = h.debts := by
  rw [dropRegistry]
  split
  · next id _ => exact debts_deregister (h.setOwner r none) id r
  · rfl

/-! ### The slots of scopes -/

theorem slotsUsed_of_scopes
    (hsame : h'.scopes = h.scopes)
    (id : Nat) :
    h'.slotsUsed id = h.slotsUsed id := by
  rw [slotsUsed, hsame]
  rfl

theorem slotsUsed_modifyScope
    (hs : h.scopes[k]? = some s)
    (u : Scope → Scope) (id : Nat) :
    (h.modifyScope k u).slotsUsed id + s.usedFor id = h.slotsUsed id + (u s).usedFor id := by
  rw [slotsUsed, slotsUsed, modifyScope, Array.toList_modify]
  exact sum_map_modify (Scope.usedFor id) u (by rw [Array.getElem?_toList]; exact hs)

/-- A worker without scopes uses no slots. -/
theorem slotsUsed_eq_zero
    (hnone : ∀ k p, h.post? k = some p → p.worker ≠ id) :
    h.slotsUsed id = 0 := by
  rw [slotsUsed, List.sum_eq_zero_iff_forall_eq_nat]
  intro n hn
  obtain ⟨s, hs, rfl⟩ := List.mem_map.1 hn
  obtain ⟨k, hk⟩ := List.mem_iff_getElem?.1 hs
  rw [Array.getElem?_toList] at hk
  exact if_neg fun hsame => hnone k s.post (post?_eq_some_iff.2 ⟨s, hk, rfl⟩) hsame.1

theorem slotsUsed_enterScope (h : Heap) (id r d : Nat) :
    ((enterScope id r).run h).2.slotsUsed d = h.slotsUsed d := by
  rw [enterScope_run]
  split
  · rfl
  · rw [slotsUsed, slotsUsed, Array.toList_push, List.map_append, List.sum_append]
    simp [Scope.usedFor]

/-- A change of an open scope matters for its worker. -/
theorem Open.slotsUsed_modifyScope
    {u : Scope → Scope}
    (hs : h.Open k s)
    (hworker : (u s).worker = s.worker)
    (d : Nat) :
    ((h.modifyScope k u).slotsUsed d : ℤ) =
      h.slotsUsed d + if d = s.worker then ((u s).usedFor d : ℤ) - s.used else 0 := by
  have hslots := Heap.slotsUsed_modifyScope hs.1 u d
  rw [Scope.usedFor, Scope.usedFor, hworker, hs.2] at hslots
  rw [Scope.usedFor, hworker]
  by_cases hd : d = s.worker
  · rw [if_pos ⟨hd.symm, ScopeStatus.noConfusion⟩] at hslots
    rw [if_pos hd]
    omega
  · rw [if_neg fun hsame => hd hsame.1.symm, if_neg fun hsame => hd hsame.1.symm] at hslots
    rw [if_neg hd]
    omega

theorem slotsUsed_leakScope
    (hs : h.Open k s)
    (d : Nat) :
    (h.leakScope k).slotsUsed d = h.slotsUsed d := by
  have hslots := hs.slotsUsed_modifyScope (u := fun scope => { scope with status := .leaked }) rfl d
  rw [leakScope]
  by_cases hd : d = s.worker
  · simpa [hd, Scope.usedFor] using hslots
  · simpa [hd] using hslots

/-- What a worker owes and what its scopes hold changes for one worker. -/
theorem Outstanding.charge
    (ho : h.Outstanding a)
    (hdebts : h'.debts = h.debts.map (charge id n))
    (hslots : ∀ d, (h'.slotsUsed d : ℤ) = h.slotsUsed d + if d = id then m else 0) :
    h'.Outstanding fun d => a d + if d = id then n - m else 0 := by
  intro p hp
  rw [hdebts] at hp
  obtain ⟨q, hq, rfl⟩ := List.mem_map.1 hp
  have hbefore := ho q hq
  rw [EagerHeap.charge]
  by_cases hid : q.1 = id
  · simp only [if_pos hid, hslots]
    omega
  · simp only [if_neg hid, hslots]
    omega

theorem Outstanding.congr
    {b : Nat → ℤ}
    (ho : h.Outstanding a)
    (hab : ∀ d, a d = b d) :
    h.Outstanding b :=
  fun p hp => (ho p hp).trans (congrArg _ (hab p.1))

theorem Outstanding.of_same
    (ho : h.Outstanding a)
    (hdebts : h'.debts = h.debts)
    (hslots : ∀ d, h'.slotsUsed d = h.slotsUsed d) :
    h'.Outstanding a := by
  intro p hp
  rw [hdebts] at hp
  rw [hslots]
  exact ho p hp

theorem Outstanding.of_scopes
    (ho : h.Outstanding a)
    (hdebts : h'.debts = h.debts)
    (hscopes : h'.scopes = h.scopes) :
    h'.Outstanding a :=
  ho.of_same hdebts (slotsUsed_of_scopes hscopes)

/-- A worker that is added owes nothing. -/
theorem Outstanding.addWorker
    (ho : h.Outstanding a)
    (hslots : h.slotsUsed h.nextWorker = 0)
    (hnone : a h.nextWorker = 0) :
    h.addWorker.2.Outstanding a := by
  intro p hp
  rw [debts, Heap.addWorker, List.map_append] at hp
  rcases List.mem_append.1 hp with hp | hp
  · exact ho p hp
  · obtain rfl := List.mem_singleton.1 hp
    change ({} : Tally).outstanding = h.slotsUsed h.nextWorker + a h.nextWorker
    rw [hslots, hnone]
    rfl

theorem Outstanding.retireWorker
    (ho : h.Outstanding a)
    (hr : h.retireWorker id = .ok g) :
    g.Outstanding a := by
  rcases retireWorker_cases hr with rfl | ⟨retired, rfl⟩
  · exact ho
  · exact fun p hp => ho p ((List.filter_sublist.map _).mem hp)

theorem Outstanding.count
    (ho : h.Outstanding a)
    (id : Nat) (c : Counter) (k : Nat) :
    (h.count id c k).Outstanding fun d => a d + if d = id then c.trackSign * k else 0 := by
  have hslots : ∀ d, ((h.count id c k).slotsUsed d : ℤ) = h.slotsUsed d + if d = id then 0 else 0 := by
    intro d
    rw [ite_self, add_zero]
    rfl
  refine (ho.charge (debts_count h id c k) hslots).congr fun d => ?_
  rw [sub_zero]

/-! ### Recording -/

/-- Recording an object puts the allocation into a slot, or counts that it got none. -/
theorem Outstanding.recordTracked
    (ho : h.Outstanding a)
    (hs : h.Open k s)
    (x e : Nat) :
    ((Heap.recordTracked k x e).run h).2.Outstanding fun d =>
      a d + if d = s.worker then -1 else 0 := by
  rw [recordTracked_run, hs.1]
  dsimp only
  split
  · exact ho.count s.worker .trackOverflow 1
  · split
    · exact ho.count s.worker .trackedSkipped 1
    · refine Outstanding.charge (n := 0) (m := 1) ho (map_charge_zero _ h.debts).symm fun d => ?_
      have hslots := Open.slotsUsed_modifyScope
        (h := h.modifyRegistry s.registry (·.setSlot s.used ⟨x, h.epoch⟩))
        (u := fun scope => { scope with used := scope.used + 1 }) hs rfl d
      refine hslots.trans (congrArg (_ + ·) (if_ctx_congr Iff.rfl (fun hd => ?_) fun _ => rfl))
      rw [Scope.usedFor, if_pos ⟨hd.symm, hs.2 ▸ ScopeStatus.noConfusion⟩]
      rw [Nat.cast_succ, add_sub_cancel_left]

/-! ### Draining -/

/-- What freeing tracked objects counts: the zeroed slots, the freed objects, and the rest is
declined. -/
theorem freeTracked_counts (addrs : List Nat) (h : Heap) (id : Nat) :
    (h.freeTracked id addrs).1.2 = addrs.count 0 ∧
      (h.freeTracked id addrs).1.1 + addrs.count 0 + (h.declined id addrs).length = addrs.length := by
  induction addrs generalizing h with
  | nil => exact ⟨rfl, rfl⟩
  | cons addr rest ih =>
      cases addr with
      | zero =>
          have hrest := ih h
          rw [freeTracked, declined, List.count_cons_self, List.length_cons]
          generalize h.freeTracked id rest = r at hrest ⊢
          obtain ⟨⟨freed, skipped⟩, g⟩ := r
          obtain ⟨rfl, hall⟩ := hrest
          refine ⟨rfl, ?_⟩
          rw [← hall]
          dsimp only
          omega
      | succ j =>
          have hrest := ih (h.freeOwned id (j + 1)).2
          rw [List.count_cons_of_ne (Nat.succ_ne_zero j), List.length_cons, freeTracked, declined]
          · generalize h.freeOwned id (j + 1) = r at hrest ⊢
            dsimp only
            generalize r.2.freeTracked id rest = r' at hrest ⊢
            obtain ⟨⟨freed, skipped⟩, g⟩ := r'
            obtain ⟨rfl, hall⟩ := hrest
            refine ⟨rfl, ?_⟩
            rw [List.length_append, ← hall]
            cases r.1 <;> simp <;> omega
          · exact Nat.succ_ne_zero j
          · exact Nat.succ_ne_zero j

/-- Draining a scope whose registry names an owner. -/
theorem drainScope_of_owned
    {owner : Nat}
    (hs : h.scopes[k]? = some s)
    (ho : h.ownerOf s.registry = some owner) :
    h.drainScope k =
      (((h.closing k s).freeTracked s.worker (h.addressesIn s)).1.1,
        ((((h.closing k s).freeTracked s.worker (h.addressesIn s)).2.deregister owner
          s.registry).count s.worker .trackedFrees
            ((h.closing k s).freeTracked s.worker (h.addressesIn s)).1.1).count s.worker
              .trackedSkipped ((h.addressesIn s).count 0)) := by
  rcases drainScope_eq hs with ⟨hunowned, -⟩ | ⟨registry, owner', hreg, howner, heq⟩
  · rw [ho] at hunowned
    cases hunowned
  · obtain rfl := Option.some.inj (ho.symm.trans howner)
    have haddrs : h.addressesIn s = registry.addresses s.used := by
      rw [addressesIn, hreg]
      rfl
    rw [heq, haddrs, ← (freeTracked_counts (registry.addresses s.used) (h.closing k s) s.worker).1]

theorem debts_closing (h : Heap) (k : Nat) (s : Scope) : (h.closing k s).debts = h.debts := rfl

/-- Draining an open scope leaves of its allocations those whose frees are declined. -/
theorem Outstanding.drainScope
    (ho : h.Outstanding a)
    (hr : h.Roomy)
    (hs : h.Open k s)
    (howned : (h.ownerOf s.registry).isSome = true) :
    (h.drainScope k).2.Outstanding fun d =>
      a d + if d = s.worker then
        (((h.closing k s).declined s.worker (h.addressesIn s)).length : ℤ) else 0 := by
  obtain ⟨owner, howner⟩ := Option.isSome_iff_exists.1 howned
  obtain ⟨-, hall⟩ := freeTracked_counts (h.addressesIn s) (h.closing k s) s.worker
  rw [hr.length_addressesIn hs.1] at hall
  have hdebts : (h.drainScope k).2.debts = h.debts.map (EagerHeap.charge s.worker
      (-((h.closing k s).freeTracked s.worker (h.addressesIn s)).1.1 -
        (h.addressesIn s).count 0)) := by
    rw [drainScope_of_owned hs.1 howner, debts_count, debts_count, debts_deregister,
      debts_freeTracked, debts_closing, List.map_map]
    refine List.map_congr_left fun p _ => (charge_charge ..).trans ?_
    rw [Counter.trackSign, Counter.trackSign]
    congr 1
    omega
  have hslots : ∀ d, ((h.drainScope k).2.slotsUsed d : ℤ) =
      h.slotsUsed d + if d = s.worker then -(s.used : ℤ) else 0 := by
    intro d
    rw [slotsUsed_of_scopes (scopes_drainScope h k)]
    refine (hs.slotsUsed_modifyScope rfl d).trans ?_
    simp [Scope.usedFor]
  refine (ho.charge hdebts hslots).congr fun d => congrArg _ (if_congr Iff.rfl ?_ rfl)
  omega

end Heap

end EagerHeap
