import EagerHeap.Proofs.Heap.Posts
/-!
# Which workers know which registries

A worker comes to know a registry when it enters a scope that the registry backs, and it forgets the
registry when the scope ends or the registry is dropped; but the worker that forgets is the one that the
registry names as its owner at that time. Entering a scope makes its worker the owner even if it is
refused.

Main results: `known_enterScope`, `known_drainScope`, `known_dropRegistry` and their kin for owners.
-/

namespace EagerHeap.Heap

/-- The registry backs an open or leaked scope of the worker. -/
def Backs (h : Heap) (r id : Nat) : Prop :=
  ∃ s ∈ h.scopes.toList, s.registry = r ∧ s.worker = id ∧ s.status ≠ .closed

instance decidableBacks (h : Heap) (r id : Nat) : Decidable (h.Backs r id) :=
  inferInstanceAs
    (Decidable (∃ s ∈ h.scopes.toList, s.registry = r ∧ s.worker = id ∧ s.status ≠ .closed))

/-- What a live worker knows after the owner of a registry has forgotten the slots. -/
def forgets (h : Heap) (r : Nat) (p : Nat × List Nat) : Nat × List Nat :=
  if h.ownerOf r = some p.1 then (p.1, p.2.erase r) else p

variable {h g : Heap} {id r k q : Nat} {s : Scope} {f : Worker → Worker}

theorem backs_iff :
    h.Backs r id ↔
      ∃ k p, h.post? k = some p ∧ p.registry = r ∧ p.worker = id ∧ p.status ≠ .closed := by
  constructor
  · rintro ⟨s, hs, rfl, rfl, hst⟩
    obtain ⟨k, hk⟩ := List.mem_iff_getElem?.1 hs
    rw [Array.getElem?_toList] at hk
    exact ⟨k, s.post, post?_eq_some_iff.2 ⟨s, hk, rfl⟩, rfl, rfl, hst⟩
  · rintro ⟨k, p, hp, rfl, rfl, hst⟩
    obtain ⟨s, hs, rfl⟩ := post?_eq_some_iff.1 hp
    exact ⟨s, Array.mem_toList_iff.2 (Array.mem_of_getElem? hs), rfl, rfl, hst⟩

/-! ### Numbers of workers -/

theorem nextWorker_flushWorker (h : Heap) (id : Nat) :
    (h.flushWorker id).2.nextWorker = h.nextWorker := by
  rw [flushWorker]
  split
  · rfl
  · next w _ =>
      have hclients :=
        (clients_offerAll (w.cursors.toList.filterMap fun c => c.map Cursor.block) _).trans
          (clients_uncacheAll w.freeEntries h)
      have hnext := nextWorker_of_clients hclients
      dsimp only
      rw [← hnext]
      rfl

theorem nextWorker_reuse (h : Heap) (id : Nat) (s : Span) :
    ((reuse id s).run h).2.nextWorker = h.nextWorker := by
  have hpop : (h.popFree id s).2.nextWorker = h.nextWorker := by
    rw [popFree]
    split <;> rfl
  rw [reuse_run]
  rcases hp : h.popFree id s with ⟨_ | e, g⟩
  · rw [hp] at hpop
    exact hpop
  · rw [hp] at hpop
    have hcount : ∀ g : Heap, (g.count id .freeListHits 1).nextWorker = g.nextWorker := fun _ => rfl
    dsimp only at hpop ⊢
    split
    · rw [hcount, nextWorker_of_clients (clients_publish ..), hpop]
    · exact hpop

theorem nextWorker_claim (h : Heap) (id : Nat) (s : Span) :
    (h.claim id s).2.nextWorker = h.nextWorker := by
  have hcount : ∀ (g : Heap) (n : Nat),
      ((g.noteAllocation n).count id .slowAllocations 1).nextWorker = g.nextWorker :=
    fun _ _ => rfl
  rw [claim]
  split
  · dsimp only
    rw [hcount, nextWorker_of_clients (clients_publish ..)]
    rfl
  · rfl

theorem nextWorker_free (h : Heap) (id addr size : Nat) (shape : Option Shape) :
    (h.free id addr size shape).2.nextWorker = h.nextWorker := by
  rw [free]
  split <;> rfl

theorem nextWorker_freeTracked (addrs : List Nat) (h : Heap) (id : Nat) :
    (h.freeTracked id addrs).2.nextWorker = h.nextWorker :=
  freeTracked_preserves (R := fun g => g.nextWorker = h.nextWorker) rfl
    (fun g x size shape hg => (nextWorker_free g id x size shape).trans hg) addrs

theorem nextWorker_drainScope (h : Heap) (k : Nat) :
    (h.drainScope k).2.nextWorker = h.nextWorker := by
  rcases drainScope_cases h k with ⟨-, heq⟩ | ⟨scope, -, heq | ⟨registry, owner, _, _, heq⟩⟩
  · rw [heq]
  · rw [heq]
    rfl
  · rw [heq]
    exact nextWorker_freeTracked (registry.addresses scope.used) (h.closing k scope) scope.worker

/-! ### Owners -/

theorem lt_of_ownerOf
    {o : Nat}
    (ho : h.ownerOf r = some o) :
    r < h.registries.size := by
  obtain ⟨registry, hreg, -⟩ := Option.bind_eq_some_iff.1 ho
  exact (Array.getElem?_eq_some_iff.1 hreg).1

theorem ownerOf_setOwner
    (hr : r < h.registries.size)
    (o : Option Nat) (q : Nat) :
    (h.setOwner r o).ownerOf q = if q = r then o else h.ownerOf q := by
  split
  · next hq => rw [hq, ownerOf_setOwner_self, if_pos hr]
  · next hq => exact ownerOf_modifyRegistry_of_ne hq _

/-- Making a worker the owner changes nothing exactly if it is the owner. -/
theorem setOwner_eq_self_iff
    (hr : r < h.registries.size) :
    h.setOwner r (some id) = h ↔ h.ownerOf r = some id := by
  constructor
  · intro hsame
    rw [← hsame, ownerOf_setOwner_self, if_pos hr]
  · intro ho
    obtain ⟨registry, hreg, howner⟩ := Option.bind_eq_some_iff.1 ho
    have hregistries : (h.setOwner r (some id)).registries = h.registries := by
      refine Array.ext_getElem? fun j => ?_
      rw [setOwner, getElem?_modifyRegistry]
      split
      · next hj =>
          rw [hj, hreg, Option.map_some, ← howner]
      · rfl
    calc
      h.setOwner r (some id) = { h with registries := (h.setOwner r (some id)).registries } := rfl
      _ = h := by rw [hregistries]

theorem ownerOf_enterScope
    (hr : r < h.registries.size)
    (id q : Nat) :
    ((enterScope id r).run h).2.ownerOf q = if q = r then some id else h.ownerOf q := by
  rw [enterScope_run]
  split
  · exact ownerOf_setOwner hr _ q
  · exact ownerOf_setOwner hr _ q

theorem ownerOf_dropRegistry (h : Heap) (r q : Nat) :
    (h.dropRegistry r).ownerOf q = if q = r then none else h.ownerOf q := by
  rw [dropRegistry]
  split
  · next o ho => exact ownerOf_setOwner (lt_of_ownerOf ho) none q
  · next hnone =>
      split
      · next hq => rw [hq, hnone]
      · rfl

theorem ownerOf_recordTracked (h : Heap) (c x e q : Nat) :
    ((recordTracked c x e).run h).2.ownerOf q = h.ownerOf q := by
  rw [recordTracked_run]
  split
  · rfl
  · next scope _ =>
      split
      · exact ownerOf_of_holdings (holdings_count ..)
      · split
        · exact ownerOf_of_holdings (holdings_count ..)
        · exact ownerOf_modifyRegistry (u := (·.setSlot scope.used ⟨x, h.epoch⟩)) (fun _ => rfl) h
            scope.registry q

/-- A scope that is drained while its registry names no owner is closed, and nothing else happens. -/
theorem drainScope_of_unowned
    (hs : h.Open k s)
    (ho : h.ownerOf s.registry = none) :
    (h.drainScope k).2 = h.modifyScope k fun scope => { scope with used := 0, status := .closed } := by
  rcases drainScope_eq hs.1 with ⟨-, heq⟩ | ⟨-, owner, -, howner, -⟩
  · rw [heq]
  · rw [ho] at howner
    cases howner

theorem ownerOf_closing (h : Heap) (k : Nat) (s : Scope) (q : Nat) :
    (h.closing k s).ownerOf q = if q = s.registry then none else h.ownerOf q := by
  split
  · next hq =>
      rw [hq, ownerOf, closing, getElem?_modifyRegistry, if_pos rfl]
      cases (h.modifyScope k fun scope =>
        { scope with used := 0, status := .closed }).registries[s.registry]? <;> rfl
  · next hq => exact ownerOf_modifyRegistry_of_ne hq _

theorem ownerOf_drainScope
    (hs : h.Open k s)
    (q : Nat) :
    (h.drainScope k).2.ownerOf q = if q = s.registry then none else h.ownerOf q := by
  cases ho : h.ownerOf s.registry with
  | none =>
      rw [drainScope_of_unowned hs ho]
      split
      · next hq =>
          rw [hq]
          exact ho
      · rfl
  | some o =>
      obtain ⟨registry, owner, freed, skipped, -, -, heq⟩ :=
        drainScope_of_open hs (Option.isSome_iff_exists.2 ⟨o, ho⟩)
      have hfreed : ((h.closing k s).freeTracked s.worker (registry.addresses s.used)).2.ownerOf q =
          (h.closing k s).ownerOf q := ownerOf_of_holdings (holdings_freeTracked ..)
      rw [heq, ownerOf_of_holdings (holdings_count ..), ownerOf_of_holdings (holdings_count ..),
        ← ownerOf_closing h k s q, ← hfreed]
      rfl

/-! ### What workers know -/

theorem known_modifyWorker
    {u : List Nat → List Nat}
    (hid : ∀ w, (f w).id = w.id)
    (hregistries : ∀ w, (f w).registries = u w.registries)
    (h : Heap) (id : Nat) :
    (h.modifyWorker id f).holdings.known =
      h.holdings.known.map fun p => if p.1 = id then (p.1, u p.2) else p := by
  rw [holdings, holdings, modifyWorker, List.map_map, List.map_map]
  refine List.map_congr_left fun w _ => ?_
  rw [Function.comp_apply, Function.comp_apply]
  split
  · rw [hid, hregistries]
  · rfl

theorem known_enterScope (h : Heap) (id r : Nat) :
    ((enterScope id r).run h).2.holdings.known =
      if h.ownerOf r = none then
        h.holdings.known.map fun p => if p.1 = id then (p.1, r :: p.2) else p
      else h.holdings.known := by
  rw [enterScope_run]
  split
  · next hused =>
      rw [if_neg]
      · rfl
      · intro hnone
        rw [hnone] at hused
        cases hused
  · next hfree =>
      rw [if_pos (Option.not_isSome_iff_eq_none.1 hfree)]
      exact known_modifyWorker (f := fun w => { w with registries := r :: w.registries })
        (u := (r :: ·)) (fun _ => rfl) (fun _ => rfl) (h.setOwner r (some id)) id

theorem known_recordTracked (h : Heap) (c x e : Nat) :
    ((recordTracked c x e).run h).2.holdings.known = h.holdings.known := by
  rw [recordTracked_run]
  split
  · rfl
  · split
    · exact congrArg Holdings.known (holdings_count ..)
    · split
      · exact congrArg Holdings.known (holdings_count ..)
      · rfl

/-- The worker that is told to forget is the owner. -/
theorem known_deregister
    (ho : h.ownerOf r = some id)
    (hsame : g.holdings.known = h.holdings.known) :
    (g.deregister id r).holdings.known = h.holdings.known.map (h.forgets r) := by
  have hforgets := known_modifyWorker (f := fun w => { w with registries := w.registries.erase r })
    (u := (·.erase r)) (fun _ => rfl) (fun _ => rfl) g id
  rw [hsame] at hforgets
  refine hforgets.trans ?_
  refine List.map_congr_left fun p _ => ?_
  rw [forgets, ho]
  simp only [Option.some.injEq, eq_comm]

theorem fst_forgets (h : Heap) (r : Nat) (p : Nat × List Nat) : (h.forgets r p).1 = p.1 := by
  rw [forgets]
  split <;> rfl

theorem map_forgets_of_unowned
    (ho : h.ownerOf r = none) :
    h.holdings.known.map (h.forgets r) = h.holdings.known := by
  refine (List.map_congr_left fun p _ => ?_).trans (List.map_id _)
  rw [forgets, ho, if_neg fun hsame => by cases hsame]
  rfl

theorem known_dropRegistry (h : Heap) (r : Nat) :
    (h.dropRegistry r).holdings.known = h.holdings.known.map (h.forgets r) := by
  rw [dropRegistry]
  split
  · next ho => exact known_deregister ho rfl
  · next ho => rw [map_forgets_of_unowned ho]

theorem known_drainScope
    (hs : h.Open k s) :
    (h.drainScope k).2.holdings.known = h.holdings.known.map (h.forgets s.registry) := by
  cases ho : h.ownerOf s.registry with
  | none =>
      rw [drainScope_of_unowned hs ho, map_forgets_of_unowned ho]
      rfl
  | some o =>
      obtain ⟨registry, owner, freed, skipped, -, howner, heq⟩ :=
        drainScope_of_open hs (Option.isSome_iff_exists.2 ⟨o, ho⟩)
      rw [heq, holdings_count, holdings_count]
      refine known_deregister howner ?_
      rw [holdings_freeTracked]
      rfl

end EagerHeap.Heap
