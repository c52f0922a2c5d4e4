import EagerHeap.Proofs.Heap.Tracked
/-!
# What workers allocate from

A worker allocates from its free lists and from the blocks at its cursors. The owner of a worker
changes them, and the other workers keep what they have. Each operation of a worker says so with one
equation, and most operations leave all of it alone.

Main results: `stockOfOthers_reuse` and its kin, `Lists.popFree` and `lists_park`.
-/

namespace EagerHeap

/-- What a worker allocates from. -/
structure Supplies where
  /-- The number of the worker. -/
  id : Nat
  /-- Its free lists. -/
  freeLists : SpanTable (List FreeEntry)
  /-- Its cursors. -/
  cursors : SpanTable (Option Cursor)

/-- What a worker allocates from. -/
def Worker.supplies (w : Worker) : Supplies := ⟨w.id, w.freeLists, w.cursors⟩

namespace Heap

/-- What the live workers allocate from, the oldest worker first. -/
def stock (h : Heap) : List Supplies := h.workers.map Worker.supplies

/-- What the live workers but one allocate from. -/
def stockOfOthers (h : Heap) (id : Nat) : List Supplies := h.stock.filter fun u => u.id ≠ id

/-- A free list of a live worker has an entry for the address. -/
def Lists (h : Heap) (x : Nat) : Prop :=
  ∃ u ∈ h.stock, ∃ s, ∃ e ∈ u.freeLists.get s, e.addr = x

/-- The cursor of a live worker for a span. -/
def Claims (h : Heap) (id : Nat) (s : Span) (k : Cursor) : Prop :=
  ∃ u ∈ h.stock, u.id = id ∧ u.cursors.get s = some k

variable {h h' g : Heap} {id i x : Nat} {s t : Span} {e : FreeEntry} {k : Cursor} {u : Supplies}
  {w : Worker} {f : Worker → Worker}

theorem mem_stock_of_mem
    (hw : w ∈ h.workers) :
    w.supplies ∈ h.stock :=
  List.mem_map_of_mem hw

theorem mem_stock_iff : u ∈ h.stock ↔ ∃ w ∈ h.workers, w.supplies = u := List.mem_map

/-! ### Operations that leave supplies alone -/

theorem stock_of_workers
    (hw : h'.workers = h.workers) :
    h'.stock = h.stock :=
  congrArg (List.map Worker.supplies) hw

theorem stock_of_clients
    (hc : h'.clients = h.clients) :
    h'.stock = h.stock :=
  stock_of_workers (workers_of_clients hc)

theorem stock_modifyWorker
    (hf : ∀ w, (f w).supplies = w.supplies) :
    (h.modifyWorker id f).stock = h.stock := by
  rw [stock, modifyWorker, List.map_map]
  refine List.map_congr_left fun w _ => ?_
  rw [Function.comp_apply]
  split
  · exact hf w
  · rfl

@[simp] theorem stock_count (h : Heap) (id : Nat) (c : Counter) (n : Nat) :
    (h.count id c n).stock = h.stock :=
  stock_modifyWorker fun _ => rfl

@[simp] theorem stock_register (h : Heap) (id r : Nat) : (h.register id r).stock = h.stock :=
  stock_modifyWorker fun _ => rfl

@[simp] theorem stock_deregister (h : Heap) (id r : Nat) : (h.deregister id r).stock = h.stock :=
  stock_modifyWorker fun _ => rfl

@[simp] theorem stock_publish (h : Heap) (block cell addr size : Nat) :
    (h.publish block cell addr size).stock = h.stock :=
  stock_of_clients (clients_publish h block cell addr size)

@[simp] theorem stock_noteAllocation (h : Heap) (bytes : Nat) :
    (h.noteAllocation bytes).stock = h.stock :=
  rfl

@[simp] theorem stock_setOwner (h : Heap) (r : Nat) (o : Option Nat) :
    (h.setOwner r o).stock = h.stock :=
  rfl

theorem stock_dropRegistry (h : Heap) (r : Nat) : (h.dropRegistry r).stock = h.stock := by
  rw [dropRegistry]
  split
  · rw [stock_deregister, stock_setOwner]
  · rfl

theorem stock_enterScope (h : Heap) (id r : Nat) :
    ((enterScope id r).run h).2.stock = h.stock := by
  rw [enterScope_run]
  split
  · rfl
  · exact stock_register (h.setOwner r (some id)) id r

theorem stock_recordTracked (h : Heap) (c addr allocatedAt : Nat) :
    ((recordTracked c addr allocatedAt).run h).2.stock = h.stock := by
  rw [recordTracked_run]
  split
  · rfl
  · split
    · exact stock_count ..
    · split
      · exact stock_count ..
      · rfl

theorem stock_invalidateSlots (h : Heap) : h.invalidateSlots.2.stock = h.stock :=
  stock_of_workers (zeroes_invalidateSlots h).workers

/-! ### Operations of one worker -/

/-- A change of one worker leaves the others what they have. -/
theorem stockOfOthers_modifyWorker
    (hid : ∀ w, (f w).id = w.id) :
    (h.modifyWorker id f).stockOfOthers id = h.stockOfOthers id := by
  rw [stockOfOthers, stockOfOthers, stock, stock, modifyWorker]
  induction h.workers with
  | nil => rfl
  | cons w ws ih =>
      simp only [List.map_cons, List.filter_cons, ih]
      by_cases hw : w.id = id
      · simp [hw, Worker.supplies, hid]
      · simp [hw, Worker.supplies]

theorem stockOfOthers_of_stock
    (hsame : h'.stock = h.stock)
    (id : Nat) :
    h'.stockOfOthers id = h.stockOfOthers id := by
  rw [stockOfOthers, hsame]
  rfl

theorem stockOfOthers_popFree (h : Heap) (id : Nat) (s : Span) :
    (h.popFree id s).2.stockOfOthers id = h.stockOfOthers id := by
  rw [popFree]
  split
  · exact stockOfOthers_modifyWorker fun _ => rfl
  · rfl

theorem stockOfOthers_reuse (h : Heap) (id : Nat) (s : Span) :
    ((reuse id s).run h).2.stockOfOthers id = h.stockOfOthers id := by
  have hpop := stockOfOthers_popFree h id s
  rw [reuse_run]
  rcases hp : h.popFree id s with ⟨_ | e, g⟩
  · rwa [hp] at hpop
  · rw [hp] at hpop
    dsimp only
    split
    · refine (stockOfOthers_of_stock ?_ id).trans hpop
      rw [stock_count, stock_publish]
    · exact hpop

theorem stockOfOthers_setCursor (h : Heap) (id : Nat) (s : Span) (k : Cursor) :
    (h.setCursor id s k).stockOfOthers id = h.stockOfOthers id :=
  stockOfOthers_modifyWorker fun _ => rfl

theorem stockOfOthers_claim (h : Heap) (id : Nat) (s : Span) :
    (h.claim id s).2.stockOfOthers id = h.stockOfOthers id := by
  rw [claim]
  split
  · next b j hc =>
      refine (stockOfOthers_of_stock ?_ id).trans (stockOfOthers_setCursor h id s ⟨b, j + 1⟩)
      rw [stock_count, stock_noteAllocation, stock_publish]
  · rfl

theorem stockOfOthers_park (h : Heap) (id : Nat) (s : Span) (e : FreeEntry) :
    (h.park id s e).stockOfOthers id = h.stockOfOthers id := by
  rw [park, pushFree, stockOfOthers_modifyWorker]
  · rfl
  · exact fun _ => rfl

theorem stockOfOthers_free (h : Heap) (id addr size : Nat) (shape : Option Shape) :
    (h.free id addr size shape).2.stockOfOthers id = h.stockOfOthers id := by
  rw [free]
  split
  · exact (stockOfOthers_of_stock (stock_count ..) id).trans (stockOfOthers_park ..)
  · exact stockOfOthers_of_stock (stock_count ..) id

theorem stockOfOthers_freeTracked (addrs : List Nat) (h : Heap) (id : Nat) :
    (h.freeTracked id addrs).2.stockOfOthers id = h.stockOfOthers id :=
  freeTracked_preserves (R := fun g => g.stockOfOthers id = h.stockOfOthers id) rfl
    (fun g x size shape hg => (stockOfOthers_free g id x size shape).trans hg) addrs

theorem stockOfOthers_flushWorker (h : Heap) (id : Nat) :
    (h.flushWorker id).2.stockOfOthers id = h.stockOfOthers id := by
  rw [flushWorker]
  split
  · rfl
  · dsimp only
    rw [stockOfOthers_modifyWorker]
    · refine stockOfOthers_of_stock (stock_of_clients ?_) id
      exact (clients_offerAll _ _).trans (clients_uncacheAll _ h)
    · exact fun _ => rfl

/-- What draining a scope frees, it frees for the worker of the scope. -/
theorem stockOfOthers_drainScope
    {c : Nat} {scope : Scope}
    (hc : h.scopes[c]? = some scope) :
    (h.drainScope c).2.stockOfOthers scope.worker = h.stockOfOthers scope.worker := by
  rcases drainScope_eq hc with ⟨-, heq⟩ | ⟨registry, owner, -, -, heq⟩
  · rw [heq]
    rfl
  · rw [heq]
    have hfreed := stockOfOthers_freeTracked (registry.addresses scope.used)
      (h.closing c scope) scope.worker
    refine (stockOfOthers_of_stock ?_ scope.worker).trans hfreed
    rw [stock_count, stock_count, stock_deregister]

/-! ### The numbers of workers -/

theorem ids_of_holdings
    (hsame : h'.holdings = h.holdings) :
    h'.workers.map Worker.id = h.workers.map Worker.id := by
  have hids := congrArg (fun o : Holdings => o.known.map Prod.fst) hsame
  simp only [holdings, List.map_map] at hids
  exact hids

theorem ids_drainScope (h : Heap) (c : Nat) :
    (h.drainScope c).2.workers.map Worker.id = h.workers.map Worker.id := by
  rcases drainScope_cases h c with ⟨-, heq⟩ | ⟨scope, -, heq | ⟨registry, owner, _, _, heq⟩⟩
  · rw [heq]
  · rw [heq]
    rfl
  · rw [heq]
    have hfreed := ids_of_holdings (holdings_freeTracked (registry.addresses scope.used)
      (h.closing c scope) scope.worker)
    rw [count, ids_modifyWorker, count, ids_modifyWorker, deregister, ids_modifyWorker]
    · exact hfreed
    all_goals exact fun _ => rfl

/-! ### Entries of free lists -/

theorem lists_iff :
    h.Lists x ↔ ∃ w ∈ h.workers, ∃ s, ∃ e ∈ w.freeLists.get s, e.addr = x := by
  constructor
  · rintro ⟨u, hu, s, e, he, haddr⟩
    obtain ⟨w, hw, rfl⟩ := mem_stock_iff.1 hu
    exact ⟨w, hw, s, e, he, haddr⟩
  · rintro ⟨w, hw, s, e, he, haddr⟩
    exact ⟨w.supplies, mem_stock_of_mem hw, s, e, he, haddr⟩

theorem lists_of_stock
    (hsame : h'.stock = h.stock) :
    h'.Lists x ↔ h.Lists x := by
  rw [Lists, hsame]
  rfl

/-- Free lists that gain entries keep those that they have. -/
theorem Lists.modifyWorker
    (hx : h.Lists x)
    (id : Nat)
    (hf : ∀ w s, ∀ e ∈ w.freeLists.get s, e ∈ (f w).freeLists.get s) :
    (h.modifyWorker id f).Lists x := by
  obtain ⟨w, hw, s, e, he, haddr⟩ := lists_iff.1 hx
  refine lists_iff.2 ⟨_, List.mem_map_of_mem hw, s, e, ?_, haddr⟩
  split
  · exact hf w s e he
  · exact he

theorem Lists.setCursor
    (hx : h.Lists x)
    (id : Nat) (s : Span) (k : Cursor) :
    (h.setCursor id s k).Lists x :=
  hx.modifyWorker id fun _ _ _ he => he

theorem Lists.addWorker
    (hx : h.Lists x) :
    h.addWorker.2.Lists x := by
  obtain ⟨w, hw, hlist⟩ := lists_iff.1 hx
  exact lists_iff.2 ⟨w, List.mem_append_left _ hw, hlist⟩

/-- The entries of a worker that lives with a number of its own are found under that number. -/
theorem Shelved.worker?_eq
    (hf : h.Shelved)
    (hw : w ∈ h.workers) :
    h.worker? w.id = some w := by
  cases hfound : h.worker? w.id with
  | none =>
      rw [worker?, List.find?_eq_none] at hfound
      exact absurd (decide_eq_true rfl) (hfound w hw)
  | some v =>
      obtain ⟨hv, hid⟩ := worker?_eq_some hfound
      rw [hf.worker_unique hv hw hid]

/-- Taking the latest entry of a free list leaves all other entries. -/
theorem Lists.popFree
    (hx : h.Lists x)
    (hf : h.Shelved)
    (hp : h.popFree id s = (some e, g))
    (hne : x ≠ e.addr) :
    g.Lists x := by
  rw [Heap.popFree] at hp
  split at hp
  case h_2 => cases hp
  next e' hhead =>
    cases hp
    obtain ⟨w, hfound, hfirst⟩ := Option.bind_eq_some_iff.1 hhead
    obtain ⟨v, hv, t, d, hd, haddr⟩ := lists_iff.1 hx
    refine lists_iff.2 ⟨_, List.mem_map_of_mem hv, t, d, ?_, haddr⟩
    split
    · next hid =>
        by_cases hts : t = s
        · -- The worker is the one that was found, so the entry is not at the head.
          obtain rfl : v = w := by
            rw [← hid, hf.worker?_eq hv] at hfound
            exact Option.some.inj hfound
          obtain ⟨rest, hrest⟩ := List.head?_eq_some_iff.1 hfirst
          rw [hts] at hd ⊢
          rw [SpanTable.get_modify_self, hrest, List.tail_cons]
          rw [hrest] at hd
          refine (List.mem_cons.1 hd).resolve_left ?_
          rintro rfl
          exact hne haddr.symm
        · rw [SpanTable.get_modify_of_ne _ _ hts]
          exact hd
    · exact hd

theorem Lists.park
    (hx : h.Lists x)
    (id : Nat) (s : Span) (e : FreeEntry) :
    (h.park id s e).Lists x := by
  have hbefore : { h with
      arena := h.arena.modifyHeader e.block e.cell (·.withState .cached) }.Lists x := hx
  refine hbefore.modifyWorker id fun w t d hd => ?_
  by_cases hts : t = s
  · rw [hts] at hd ⊢
    rw [SpanTable.get_modify_self]
    exact List.mem_cons_of_mem _ hd
  · rwa [SpanTable.get_modify_of_ne _ _ hts]

/-- A cell that is parked for a live worker is in a free list. -/
theorem lists_park
    (hw : ∃ w ∈ h.workers, w.id = id)
    (s : Span) (e : FreeEntry) :
    (h.park id s e).Lists e.addr := by
  obtain ⟨w, hw, rfl⟩ := hw
  refine lists_iff.2 ⟨_, List.mem_map_of_mem hw, s, e, ?_, rfl⟩
  rw [if_pos rfl, SpanTable.get_modify_self]
  exact List.mem_cons_self ..

/-! ### Cursors -/

end Heap

end EagerHeap
