import EagerHeap.Proofs.Heap.Scopes
/-!
# The slots of open scopes

An open scope tracks the addresses in the slots of its registry. `Scoped` says how open scopes,
registries and workers hang together. The operations that enter scopes, record objects, and make or
drop registries keep this, and most other operations have nothing to do with it.

Main results: `Scoped.enterScope`, `Scoped.recordTracked` and `Scoped.dropRegistry`.
-/

namespace EagerHeap

/-- What the workers know about scopes, and the clock of the transitions. -/
structure Holdings where
  /-- The numbers of the live workers with the registries that they know. -/
  known : List (Nat × List Nat)
  /-- Every registry that was made. -/
  registries : Array Registry
  /-- Every scope that was entered. -/
  scopes : Array Scope
  /-- The number of transitions so far. -/
  epoch : Nat
  /-- The epoch of the latest transition into the sweeping phase. -/
  lastSweep : Nat

namespace Heap

/-- What the workers of a heap know about scopes. -/
def holdings (h : Heap) : Holdings :=
  ⟨h.workers.map fun w => (w.id, w.registries), h.registries, h.scopes, h.epoch, h.lastSweep⟩

/-- The address in a slot of a registry, or zero. -/
def addrAt (h : Heap) (r i : Nat) : Nat :=
  ((h.registries[r]?.bind fun registry => registry.slots[i]?).map Slot.addr).getD 0

/-- The scope is open. -/
def Open (h : Heap) (k : Nat) (s : Scope) : Prop := h.scopes[k]? = some s ∧ s.status = .active

/-- The slot with a number of an open scope holds an address. -/
def Tracks (h : Heap) (k i x : Nat) : Prop := x ≠ 0 ∧ ∃ s, h.Open k s ∧ h.addrAt s.registry i = x

/-- A live worker knows a registry. -/
def Knows (h : Heap) (id r : Nat) : Prop := ∃ w ∈ h.workers, w.id = id ∧ r ∈ w.registries

/-- Open scopes have registries of their own, which name an owner and are known to the workers of the
scopes. The slots that a scope does not use are empty, and so are those of a registry that backs no
scope, as long as it was not dropped. -/
structure Scoped (h : Heap) (gone : Nat → Prop) : Prop where
  owned : ∀ k s, h.Open k s → (h.ownerOf s.registry).isSome = true
  apart : ∀ k l s t, h.Open k s → h.Open l t → s.registry = t.registry → k = l
  known : ∀ k s, h.Open k s → h.Knows s.worker s.registry
  unused : ∀ k s, h.Open k s → ∀ i, s.used ≤ i → h.addrAt s.registry i = 0
  blank : ∀ r, h.ownerOf r = none → ¬ gone r → ∀ i, h.addrAt r i = 0

variable {h h' g : Heap} {gone : Nat → Prop} {id r k l i j x y n : Nat} {s t : Scope}
  {f : Worker → Worker}

/-! ### Operations that leave scopes alone -/

theorem holdings_of_clients (hc : h'.clients = h.clients) : h'.holdings = h.holdings := by
  rw [holdings, workers_of_clients hc, registries_of_clients hc, scopes_of_clients hc,
    epoch_of_clients hc, lastSweep_of_clients hc]
  rfl

theorem holdings_modifyWorker
    (hid : ∀ w, (f w).id = w.id)
    (hregistries : ∀ w, (f w).registries = w.registries) :
    (h.modifyWorker id f).holdings = h.holdings := by
  have hknown : (h.modifyWorker id f).workers.map (fun w => (w.id, w.registries)) =
      h.workers.map fun w => (w.id, w.registries) := by
    rw [modifyWorker, List.map_map]
    refine List.map_congr_left fun w _ => ?_
    rw [Function.comp_apply]
    split
    · rw [hid, hregistries]
    · rfl
  rw [holdings, hknown]
  rfl

@[simp] theorem holdings_count (h : Heap) (id : Nat) (c : Counter) (n : Nat) :
    (h.count id c n).holdings = h.holdings :=
  holdings_modifyWorker (fun _ => rfl) fun _ => rfl

@[simp] theorem holdings_setCursor (h : Heap) (id : Nat) (sp : Span) (c : Cursor) :
    (h.setCursor id sp c).holdings = h.holdings :=
  holdings_modifyWorker (fun _ => rfl) fun _ => rfl

@[simp] theorem holdings_publish (h : Heap) (block cell addr size : Nat) :
    (h.publish block cell addr size).holdings = h.holdings :=
  holdings_of_clients (clients_publish h block cell addr size)

@[simp] theorem holdings_noteAllocation (h : Heap) (bytes : Nat) :
    (h.noteAllocation bytes).holdings = h.holdings := rfl

@[simp] theorem holdings_popFree (h : Heap) (id : Nat) (sp : Span) :
    (h.popFree id sp).2.holdings = h.holdings := by
  rw [popFree]
  split
  · exact holdings_modifyWorker (fun _ => rfl) fun _ => rfl
  · rfl

theorem holdings_reuse (h : Heap) (id : Nat) (sp : Span) :
    ((reuse id sp).run h).2.holdings = h.holdings := by
  have hpop := holdings_popFree h id sp
  rw [reuse_run]
  rcases hp : h.popFree id sp with ⟨_ | e, g⟩
  · rwa [hp] at hpop
  · rw [hp] at hpop
    dsimp only
    split
    · rw [holdings_count, holdings_publish]
      exact hpop
    · exact hpop

theorem holdings_claim (h : Heap) (id : Nat) (sp : Span) :
    (h.claim id sp).2.holdings = h.holdings := by
  rw [claim]
  split
  · rw [holdings_count, holdings_noteAllocation, holdings_publish, holdings_setCursor]
  · rfl

theorem holdings_park (h : Heap) (id : Nat) (sp : Span) (e : FreeEntry) :
    (h.park id sp e).holdings = h.holdings := by
  have hpushed : (h.park id sp e).holdings =
      { h with arena := h.arena.modifyHeader e.block e.cell (·.withState .cached) }.holdings :=
    holdings_modifyWorker (fun _ => rfl) fun _ => rfl
  exact hpushed.trans (holdings_of_clients (clients_withArena h _))

theorem holdings_free (h : Heap) (id addr size : Nat) (shape : Option Shape) :
    (h.free id addr size shape).2.holdings = h.holdings := by
  rw [free]
  split
  · rw [holdings_count, holdings_park]
  · exact holdings_count ..

theorem holdings_freeTracked (addrs : List Nat) (h : Heap) (id : Nat) :
    (h.freeTracked id addrs).2.holdings = h.holdings :=
  freeTracked_preserves (R := fun g => g.holdings = h.holdings) rfl
    (fun g x size shape hg => (holdings_free g id x size shape).trans hg) addrs

theorem holdings_flushWorker (h : Heap) (id : Nat) :
    (h.flushWorker id).2.holdings = h.holdings := by
  rw [flushWorker]
  split
  · rfl
  · dsimp only
    rw [holdings_modifyWorker]
    · exact holdings_of_clients ((clients_offerAll _ _).trans (clients_uncacheAll _ h))
    · exact fun _ => rfl
    · exact fun _ => rfl

/-! ### Slots and registries -/

theorem addrAt_of_holdings (hsame : h'.holdings = h.holdings) : h'.addrAt r i = h.addrAt r i := by
  rw [addrAt, show h'.registries = h.registries from congrArg Holdings.registries hsame]
  rfl

theorem ownerOf_of_holdings (hsame : h'.holdings = h.holdings) : h'.ownerOf r = h.ownerOf r := by
  rw [ownerOf, show h'.registries = h.registries from congrArg Holdings.registries hsame]
  rfl

theorem open_of_holdings (hsame : h'.holdings = h.holdings) : h'.Open k s ↔ h.Open k s := by
  rw [Open, show h'.scopes = h.scopes from congrArg Holdings.scopes hsame]
  rfl

theorem knows_iff : h.Knows id r ↔ ∃ rs, (id, rs) ∈ h.holdings.known ∧ r ∈ rs := by
  rw [Knows, holdings]
  constructor
  · rintro ⟨w, hw, rfl, hr⟩
    exact ⟨w.registries, List.mem_map_of_mem hw, hr⟩
  · rintro ⟨rs, hmem, hr⟩
    obtain ⟨w, hw, heq⟩ := List.mem_map.1 hmem
    cases heq
    exact ⟨w, hw, rfl, hr⟩

theorem knows_of_holdings (hsame : h'.holdings = h.holdings) : h'.Knows id r ↔ h.Knows id r := by
  rw [knows_iff, knows_iff, hsame]

theorem Open.unique (hs : h.Open k s) (ht : h.Open k t) : s = t :=
  Option.some.inj (hs.1.symm.trans ht.1)

theorem getElem?_modifyRegistry (h : Heap) (r j : Nat) (u : Registry → Registry) :
    (h.modifyRegistry r u).registries[j]? =
      if j = r then h.registries[j]?.map u else h.registries[j]? := by
  rw [modifyRegistry, Array.getElem?_modify]
  simp only [eq_comm]

theorem addrAt_modifyRegistry_of_ne
    (hj : j ≠ r)
    (u : Registry → Registry) :
    (h.modifyRegistry r u).addrAt j i = h.addrAt j i := by
  rw [addrAt, getElem?_modifyRegistry, if_neg hj]
  rfl

theorem addrAt_modifyRegistry_of_slots
    {u : Registry → Registry}
    (hu : ∀ registry, (u registry).slots = registry.slots)
    (h : Heap) (r j i : Nat) :
    (h.modifyRegistry r u).addrAt j i = h.addrAt j i := by
  rw [addrAt, getElem?_modifyRegistry]
  split
  · rw [addrAt]
    cases h.registries[j]? with
    | none => rfl
    | some registry => rw [Option.map_some, Option.bind_some, Option.bind_some, hu]
  · rfl

theorem addrAt_setOwner (h : Heap) (r : Nat) (o : Option Nat) (j i : Nat) :
    (h.setOwner r o).addrAt j i = h.addrAt j i :=
  addrAt_modifyRegistry_of_slots (u := fun registry => { registry with owner := o })
    (fun _ => rfl) h r j i

theorem ownerOf_modifyRegistry
    {u : Registry → Registry}
    (hu : ∀ registry, (u registry).owner = registry.owner)
    (h : Heap) (r j : Nat) :
    (h.modifyRegistry r u).ownerOf j = h.ownerOf j := by
  rw [ownerOf, getElem?_modifyRegistry]
  split
  · rw [ownerOf]
    cases h.registries[j]? with
    | none => rfl
    | some registry => exact hu registry
  · rfl

theorem ownerOf_modifyRegistry_of_ne
    (hj : j ≠ r)
    (u : Registry → Registry) :
    (h.modifyRegistry r u).ownerOf j = h.ownerOf j := by
  rw [ownerOf, getElem?_modifyRegistry, if_neg hj]
  rfl

theorem ownerOf_setOwner_self (h : Heap) (r : Nat) (o : Option Nat) :
    (h.setOwner r o).ownerOf r = if r < h.registries.size then o else none := by
  rw [ownerOf, setOwner, getElem?_modifyRegistry, if_pos rfl]
  split
  · next hr => rw [Array.getElem?_eq_getElem hr]; rfl
  · next hr => rw [Array.getElem?_eq_none (Nat.le_of_not_lt hr)]; rfl

/-! ### What the operations keep -/

theorem Scoped.mono
    {gone' : Nat → Prop}
    (hf : h.Scoped gone)
    (hsub : ∀ r, gone r → gone' r) :
    h.Scoped gone' :=
  ⟨hf.owned, hf.apart, hf.known, hf.unused, fun r hr hn => hf.blank r hr fun hg => hn (hsub r hg)⟩

/-- Fewer open scopes, with the same owners and with slots that were emptied at most. -/
theorem Scoped.shrink
    (hf : h.Scoped gone)
    (hopen : ∀ k s, h'.Open k s → h.Open k s)
    (howner : ∀ r, (h'.ownerOf r).isSome = (h.ownerOf r).isSome)
    (haddr : ∀ r i, h.addrAt r i = 0 → h'.addrAt r i = 0)
    (hknows : ∀ k s, h'.Open k s → h.Knows s.worker s.registry →
      h'.Knows s.worker s.registry) :
    h'.Scoped gone := by
  refine ⟨fun k s hs => ?_, fun k l s t hs ht => ?_, fun k s hs => ?_, fun k s hs i hi => ?_,
    fun r hr hgone i => ?_⟩
  · rw [howner]
    exact hf.owned k s (hopen k s hs)
  · exact hf.apart k l s t (hopen k s hs) (hopen l t ht)
  · exact hknows k s hs (hf.known k s (hopen k s hs))
  · exact haddr _ _ (hf.unused k s (hopen k s hs) i hi)
  · refine haddr r i (hf.blank r ?_ hgone i)
    have hsame := howner r
    rw [hr] at hsame
    exact Option.isSome_eq_false_iff.1 hsame.symm |> Option.isNone_iff_eq_none.1

theorem Scoped.of_holdings
    (hf : h.Scoped gone)
    (hsame : h'.holdings = h.holdings) :
    h'.Scoped gone :=
  hf.shrink (fun _ _ => (open_of_holdings hsame).1)
    (fun _ => congrArg Option.isSome (ownerOf_of_holdings hsame))
    (fun _ _ h0 => (addrAt_of_holdings hsame).trans h0)
    fun _ _ _ => (knows_of_holdings hsame).2

theorem Scoped.addWorker
    (hf : h.Scoped gone) :
    h.addWorker.2.Scoped gone :=
  hf.shrink (fun _ _ hs => hs) (fun _ => rfl) (fun _ _ h0 => h0)
    fun _ _ _ ⟨w, hw, hid⟩ => ⟨w, List.mem_append_left _ hw, hid⟩

theorem Scoped.retireWorker
    (hf : h.Scoped gone)
    (hr : h.retireWorker id = .ok g)
    (hclosed : ∀ k s, h.Open k s → s.worker ≠ id) :
    g.Scoped gone := by
  rcases retireWorker_cases hr with rfl | ⟨retired, rfl⟩
  · exact hf
  · refine hf.shrink (fun _ _ hs => hs) (fun _ => rfl) (fun _ _ h0 => h0) ?_
    rintro k s hs ⟨v, hv, hid, hmem⟩
    refine ⟨v, List.mem_filter.2 ⟨hv, ?_⟩, hid, hmem⟩
    simpa [hid] using hclosed k s hs

theorem addrAt_makeRegistry (h : Heap) (n r i : Nat) :
    (h.makeRegistry n).2.addrAt r i = h.addrAt r i := by
  rw [addrAt, addrAt, makeRegistry, Array.getElem?_push]
  split
  · next hr =>
      rw [hr, Array.getElem?_eq_none (Nat.le_refl _), Registry.empty, Option.bind_some,
        Option.bind_none, Array.getElem?_replicate]
      split <;> rfl
  · rfl

theorem ownerOf_makeRegistry (h : Heap) (n r : Nat) :
    (h.makeRegistry n).2.ownerOf r = h.ownerOf r := by
  rw [ownerOf, ownerOf, makeRegistry, Array.getElem?_push]
  split
  · next hr =>
      rw [hr, Array.getElem?_eq_none (Nat.le_refl _)]
      rfl
  · rfl

theorem Scoped.makeRegistry
    (hf : h.Scoped gone)
    (n : Nat) :
    (h.makeRegistry n).2.Scoped gone :=
  hf.shrink (fun _ _ hs => hs) (fun _ => congrArg Option.isSome (ownerOf_makeRegistry h n _))
    (fun _ _ h0 => (addrAt_makeRegistry h n _ _).trans h0) fun _ _ _ hk => hk

theorem getElem?_modifyScope (h : Heap) (k l : Nat) (u : Scope → Scope) :
    (h.modifyScope k u).scopes[l]? =
      if l = k then h.scopes[l]?.map u else h.scopes[l]? := by
  rw [modifyScope, Array.getElem?_modify]
  simp only [eq_comm]

/-- A scope that is open after another one was changed was open before. -/
theorem open_modifyScope_of_ne
    {u : Scope → Scope}
    (hl : l ≠ k) :
    (h.modifyScope k u).Open l s ↔ h.Open l s := by
  rw [Open, getElem?_modifyScope, if_neg hl]
  rfl

theorem not_open_modifyScope
    {u : Scope → Scope}
    (hu : ∀ s, (u s).status ≠ .active) :
    ¬ (h.modifyScope k u).Open k s := by
  rintro ⟨hs, hactive⟩
  rw [getElem?_modifyScope, if_pos rfl] at hs
  obtain ⟨t, -, rfl⟩ := Option.map_eq_some_iff.1 hs
  exact hu t hactive

/-- A scope that is ended is not open, and the others stay what they are. -/
theorem open_ended
    {u : Scope → Scope}
    (hu : ∀ s, (u s).status ≠ .active)
    (ho : (h.modifyScope k u).Open l s) :
    h.Open l s ∧ l ≠ k := by
  have hl : l ≠ k := by
    rintro rfl
    exact not_open_modifyScope hu ho
  exact ⟨(open_modifyScope_of_ne hl).1 ho, hl⟩

theorem Scoped.leakScope
    (hf : h.Scoped gone)
    (k : Nat) :
    (h.leakScope k).Scoped gone :=
  hf.shrink (fun _ _ hs => (open_ended (fun _ => ScopeStatus.noConfusion) hs).1) (fun _ => rfl)
    (fun _ _ h0 => h0) fun _ _ _ hk => hk

/-! ### Registries that are dropped -/

/-- A worker that forgets a registry knows all others. -/
theorem Knows.deregister
    (hk : h.Knows id r)
    (hr : r ≠ j)
    (owner : Nat) :
    (h.deregister owner j).Knows id r := by
  obtain ⟨w, hw, hid, hmem⟩ := hk
  refine ⟨if w.id = owner then { w with registries := w.registries.erase j } else w,
    List.mem_map_of_mem hw, ?_⟩
  split
  · exact ⟨hid, (List.mem_erase_of_ne hr).2 hmem⟩
  · exact ⟨hid, hmem⟩

theorem Scoped.dropRegistry
    (hf : h.Scoped gone)
    (hclosed : ∀ k s, h.Open k s → s.registry ≠ r) :
    (h.dropRegistry r).Scoped fun q => gone q ∨ q = r := by
  rw [Heap.dropRegistry]
  split
  · next id hid =>
      have howner : ∀ q, q ≠ r → ((h.setOwner r none).deregister id r).ownerOf q = h.ownerOf q :=
        fun q hq => ownerOf_modifyRegistry_of_ne hq _
      have haddr : ∀ q i, ((h.setOwner r none).deregister id r).addrAt q i = h.addrAt q i :=
        fun q i => addrAt_setOwner h r none q i
      refine ⟨fun k s hs => ?_, hf.apart, fun k s hs => ?_, fun k s hs i hi => ?_,
        fun q hq hgone i => ?_⟩
      · rw [howner _ (hclosed k s hs)]
        exact hf.owned k s hs
      · exact Knows.deregister (h := h.setOwner r none) (hf.known k s hs) (hclosed k s hs) id
      · rw [haddr]
        exact hf.unused k s hs i hi
      · rw [not_or] at hgone
        rw [howner q hgone.2] at hq
        rw [haddr]
        exact hf.blank q hq hgone.1 i
  · exact ⟨hf.owned, hf.apart, hf.known, hf.unused,
      fun q hq hgone => hf.blank q hq fun hg => hgone (Or.inl hg)⟩

/-! ### Scopes that are entered -/

theorem isSome_ownerOf_setOwner
    (hr : r < h.registries.size)
    (j : Nat) :
    ((h.setOwner r (some id)).ownerOf j).isSome = ((h.ownerOf j).isSome || j = r) := by
  by_cases hj : j = r
  · rw [hj, ownerOf_setOwner_self, if_pos hr]
    simp
  · rw [show (h.setOwner r (some id)).ownerOf j = h.ownerOf j from ownerOf_modifyRegistry_of_ne hj _]
    simp [hj]

/-- A registry that a worker is told of is known to it, and so are the others. -/
theorem knows_register
    (hid : ∃ w ∈ h.workers, w.id = id) :
    (h.register id r).Knows id r := by
  obtain ⟨w, hw, hwid⟩ := hid
  refine ⟨_, List.mem_map_of_mem hw, ?_⟩
  rw [if_pos hwid]
  exact ⟨hwid, List.mem_cons_self ..⟩

theorem Knows.register
    (hk : h.Knows id r)
    (owner j : Nat) :
    (h.register owner j).Knows id r := by
  obtain ⟨w, hw, hid, hmem⟩ := hk
  refine ⟨_, List.mem_map_of_mem hw, ?_⟩
  split
  · exact ⟨hid, List.mem_cons_of_mem _ hmem⟩
  · exact ⟨hid, hmem⟩

/-- What entering a scope leaves: one more open scope, whose worker knows its registry, and all slots
as they were. -/
structure Entered (h : Heap) (id r : Nat) (h' : Heap) : Prop where
  opened : ∀ k s, h'.Open k s →
    (k = h.scopes.size ∧ s = { worker := id, registry := r }) ∨ h.Open k s
  slots : ∀ q i, h'.addrAt q i = h.addrAt q i
  owner : ∀ q, (h'.ownerOf q).isSome = ((h.ownerOf q).isSome || q = r)
  knows : ∀ d q, h.Knows d q → h'.Knows d q
  known : h'.Knows id r

/-- The heap with the new scope. -/
def entering (h : Heap) (id r : Nat) : Heap :=
  { (h.setOwner r (some id)).register id r with
    scopes := h.scopes.push { worker := id, registry := r } }

theorem entered_entering
    (hid : ∃ w ∈ h.workers, w.id = id)
    (hr : r < h.registries.size) :
    h.Entered id r (h.entering id r) where
  opened := by
    rintro k s ⟨hs, hactive⟩
    rw [entering, Array.getElem?_push] at hs
    split at hs
    · next hk => exact Or.inl ⟨hk, (Option.some.inj hs).symm⟩
    · exact Or.inr ⟨hs, hactive⟩
  slots := addrAt_setOwner h r (some id)
  owner := isSome_ownerOf_setOwner hr
  knows := fun _ _ hk => Knows.register (h := h.setOwner r (some id)) hk id r
  known := knows_register (h := h.setOwner r (some id)) hid

theorem Scoped.entered
    (hf : h.Scoped gone)
    (hnone : h.ownerOf r = none)
    (hgone : ¬ gone r)
    (he : h.Entered id r g) :
    g.Scoped gone := by
  -- No open scope has used the registry so far.
  have hapart : ∀ k s, h.Open k s → s.registry ≠ r := by
    intro k s hs heq
    have howned := hf.owned k s hs
    rw [heq, hnone] at howned
    cases howned
  refine ⟨fun k s hs => ?_, fun k l s t hs ht heq => ?_, fun k s hs => ?_,
    fun k s hs i hi => ?_, fun q hq hqgone i => ?_⟩
  · rw [he.owner]
    rcases he.opened k s hs with ⟨-, rfl⟩ | hs
    · simp
    · rw [hf.owned k s hs]
      rfl
  · rcases he.opened k s hs with ⟨rfl, rfl⟩ | hs
    · rcases he.opened l t ht with ⟨rfl, -⟩ | ht
      · rfl
      · exact absurd heq.symm (hapart l t ht)
    · rcases he.opened l t ht with ⟨-, rfl⟩ | ht
      · exact absurd heq (hapart k s hs)
      · exact hf.apart k l s t hs ht heq
  · rcases he.opened k s hs with ⟨-, rfl⟩ | hs
    · exact he.known
    · exact he.knows _ _ (hf.known k s hs)
  · rw [he.slots]
    rcases he.opened k s hs with ⟨-, rfl⟩ | hs
    · exact hf.blank r hnone hgone i
    · exact hf.unused k s hs i hi
  · rw [he.slots]
    refine hf.blank q ?_ hqgone i
    have hsome := he.owner q
    rw [hq] at hsome
    simpa using (Bool.or_eq_false_iff.1 hsome.symm).1

theorem Scoped.enterScope
    (hf : h.Scoped gone)
    (hid : ∃ w ∈ h.workers, w.id = id)
    (hr : r < h.registries.size)
    (hgone : ¬ gone r) :
    ((Heap.enterScope id r).run h).2.Scoped gone := by
  rw [enterScope_run]
  split
  · next hused =>
      refine hf.shrink (fun _ _ hs => hs) (fun q => ?_)
        (fun q i h0 => (addrAt_setOwner h r _ q i).trans h0) fun _ _ _ hk => hk
      rw [isSome_ownerOf_setOwner hr]
      by_cases hq : q = r
      · rw [hq, hused]
        rfl
      · simp [hq]
  · next hfree =>
      exact hf.entered (Option.not_isSome_iff_eq_none.1 hfree) hgone (entered_entering hid hr)

/-! ### Objects that are recorded -/

theorem addrAt_noteTracked_self
    (hroom : i < h.registryCapacity r) :
    (h.noteTracked k r i x).addrAt r i = x := by
  have hslot : ((h.modifyRegistry r (·.setSlot i ⟨x, h.epoch⟩)).registries[r]?.bind
      fun registry => registry.slots[i]?) = some ⟨x, h.epoch⟩ := by
    rw [getElem?_modifyRegistry, if_pos rfl]
    rw [registryCapacity] at hroom
    cases hr : h.registries[r]? with
    | none =>
        rw [hr] at hroom
        cases hroom
    | some registry =>
        rw [hr] at hroom
        exact Array.getElem?_setIfInBounds_self_of_lt hroom
  rw [addrAt, show (h.noteTracked k r i x).registries =
    (h.modifyRegistry r (·.setSlot i ⟨x, h.epoch⟩)).registries from rfl, hslot]
  rfl

theorem addrAt_noteTracked_of_ne
    (hne : j ≠ r ∨ l ≠ i) :
    (h.noteTracked k r i x).addrAt j l = h.addrAt j l := by
  by_cases hj : j = r
  · obtain rfl := hj
    have hl : l ≠ i := hne.resolve_left fun h => h rfl
    rw [addrAt, show (h.noteTracked k j i x).registries =
      (h.modifyRegistry j (·.setSlot i ⟨x, h.epoch⟩)).registries from rfl,
      getElem?_modifyRegistry, if_pos rfl, addrAt]
    cases h.registries[j]? with
    | none => rfl
    | some registry =>
        rw [Option.map_some, Option.bind_some, Option.bind_some, Registry.setSlot,
          Array.getElem?_setIfInBounds_ne hl.symm]
  · exact addrAt_modifyRegistry_of_ne hj _

/-- After an object was recorded a scope is open if it was open before, and only the scope that
records uses another slot. -/
theorem open_noteTracked
    (hs : h.Open k s)
    (ho : (h.noteTracked k r i x).Open l t) :
    (l = k ∧ t = { s with used := s.used + 1 }) ∨ (l ≠ k ∧ h.Open l t) := by
  by_cases hl : l = k
  · obtain rfl := hl
    obtain ⟨ht, -⟩ := ho
    have hscopes : (h.noteTracked l r i x).scopes[l]? =
        some { s with used := s.used + 1 } := by
      rw [noteTracked, getElem?_modifyScope, if_pos rfl,
        show (h.modifyRegistry r (·.setSlot i ⟨x, h.epoch⟩)).scopes = h.scopes from rfl, hs.1]
      rfl
    rw [hscopes] at ht
    exact Or.inl ⟨rfl, (Option.some.inj ht).symm⟩
  · exact Or.inr ⟨hl, (open_modifyScope_of_ne hl).1 ho⟩

theorem Scoped.noteTracked
    (hf : h.Scoped gone)
    (hs : h.Open k s)
    (x : Nat) :
    (h.noteTracked k s.registry s.used x).Scoped gone := by
  have howner : ∀ q, (h.noteTracked k s.registry s.used x).ownerOf q = h.ownerOf q := fun q =>
    ownerOf_modifyRegistry (u := (·.setSlot s.used ⟨x, h.epoch⟩)) (fun _ => rfl) h s.registry q
  -- An open scope was open before with the same worker and registry, and used fewer slots.
  have hopen : ∀ l t, (h.noteTracked k s.registry s.used x).Open l t →
      ∃ u, h.Open l u ∧ u.registry = t.registry ∧ u.worker = t.worker ∧ u.used ≤ t.used ∧
        (l = k → s.used < t.used) := by
    intro l t ht
    rcases open_noteTracked hs ht with ⟨rfl, rfl⟩ | ⟨hl, ht⟩
    · exact ⟨s, hs, rfl, rfl, Nat.le_succ _, fun _ => Nat.lt_succ_self _⟩
    · exact ⟨t, ht, rfl, rfl, Nat.le_refl _, fun h => absurd h hl⟩
  refine ⟨fun l t ht => ?_, fun l m t u ht hu heq => ?_, fun l t ht => ?_, fun l t ht i hi => ?_,
    fun q hq hgone i => ?_⟩
  · obtain ⟨u, hu, hreg, -⟩ := hopen l t ht
    rw [howner, ← hreg]
    exact hf.owned l u hu
  · obtain ⟨t', ht', hreg, -⟩ := hopen l t ht
    obtain ⟨u', hu', hreg', -⟩ := hopen m u hu
    exact hf.apart l m t' u' ht' hu' (hreg.trans (heq.trans hreg'.symm))
  · obtain ⟨u, hu, hreg, hworker, -⟩ := hopen l t ht
    have hk := hf.known l u hu
    rw [hreg, hworker] at hk
    exact hk
  · obtain ⟨u, hu, hreg, -, hle, hlt⟩ := hopen l t ht
    rw [addrAt_noteTracked_of_ne, ← hreg]
    · exact hf.unused l u hu i (Nat.le_trans hle hi)
    · refine (Decidable.em (t.registry = s.registry)).symm.imp_right fun heq => ?_
      have hlk : l = k := hf.apart l k u s hu hs (hreg.trans heq)
      have := hlt hlk
      omega
  · rw [howner] at hq
    have hne : q ≠ s.registry := by
      rintro rfl
      have howned := hf.owned k s hs
      rw [hq] at howned
      cases howned
    rw [addrAt_noteTracked_of_ne (Or.inl hne)]
    exact hf.blank q hq hgone i

theorem Scoped.recordTracked
    (hf : h.Scoped gone)
    (hactive : ∀ s, h.scopes[k]? = some s → s.status = .active)
    (x e : Nat) :
    ((Heap.recordTracked k x e).run h).2.Scoped gone := by
  rw [recordTracked_run]
  split
  · exact hf
  · next s hs =>
      split
      · exact hf.of_holdings (holdings_count ..)
      · split
        · exact hf.of_holdings (holdings_count ..)
        · exact hf.noteTracked ⟨hs, hactive s hs⟩ x

end Heap

end EagerHeap
