import EagerHeap.Proofs.Heap.Caches
import EagerHeap.Proofs.Run.Attendance
import EagerHeap.Proofs.Run.Partition
/-!
# Free lists in a run

In every state of a run the entries of the free lists of the live workers are exactly the cached
cells, each of them once.

Main result: `free_lists_exact`.
-/

namespace EagerHeap

namespace Heap

/-- The entry at a position of a free list of a live worker. -/
def entryAt (h : Heap) (p : Nat × Span × Nat) : Option FreeEntry :=
  (h.worker? p.1).bind fun w => (w.freeLists.get p.2.1)[p.2.2]?

/-- The entries of the free lists of the live workers are exactly the cached cells. So a worker finds
a cached cell when it takes an entry, sweeping does not touch the cells of free lists, and there are no
such cells without workers. -/
structure FreeListsExact (h : Heap) : Prop where
  found : ∀ b i hd, h.arena.header? b i = some hd → hd.state = .cached →
    ∃! p : Nat × Span × Nat, ∃ e, h.entryAt p = some e ∧ e.block = b ∧ e.cell = i
  cached : ∀ p e, h.entryAt p = some e →
    e.Fits h.arena p.2.1 ∧ ∃ hd, h.arena.header? e.block e.cell = some hd ∧ hd.state = .cached
  total : (h.workers.map Worker.freeListLength).sum = h.census.cells.cached
  apart : ∀ p q e d, h.entryAt p = some e → h.entryAt q = some d → e.addr = d.addr → p = q
  reuse : ∀ id s o, ((reuse id s).run h).1 ≠ .error o
  sweep : ∀ n b i hd, h.arena.header? b i = some hd → hd.state = .cached →
    (h.sweepStep n).arena.header? b i = some hd
  last : h.workers = [] → ∀ b i hd, h.arena.header? b i = some hd → hd.state ≠ .cached

variable {h : Heap} {p q : Nat × Span × Nat} {e d : FreeEntry} {b i : Nat} {hd : Header}

theorem entryAt_eq_some
    (he : h.entryAt p = some e) :
    ∃ w ∈ h.workers, w.id = p.1 ∧ (w.freeLists.get p.2.1)[p.2.2]? = some e := by
  obtain ⟨w, hw, hentry⟩ := Option.bind_eq_some_iff.1 he
  obtain ⟨hmem, hid⟩ := worker?_eq_some hw
  exact ⟨w, hmem, hid, hentry⟩

theorem Shelved.entryAt_unique
    (hf : h.Shelved)
    (he : h.entryAt p = some e)
    (hd : h.entryAt q = some d)
    (haddr : e.addr = d.addr) :
    p = q := by
  obtain ⟨w, hw, hid, hi⟩ := entryAt_eq_some he
  obtain ⟨v, hv, hid', hj⟩ := entryAt_eq_some hd
  obtain ⟨hsame, hspan⟩ := hf.apart w hw v hv p.2.1 q.2.1 e (List.mem_of_getElem? hi) d
    (List.mem_of_getElem? hj) haddr
  obtain rfl := hf.worker_unique hw hv hsame
  rw [← hspan] at hj
  -- In one list, equal addresses are at one position.
  have hposition : p.2.2 = q.2.2 := by
    refine (List.getElem?_inj ?_ (hf.nodup w hw p.2.1)).1 ?_
    · rw [List.length_map]
      exact (List.getElem?_eq_some_iff.1 hi).1
    · rw [List.getElem?_map, List.getElem?_map, hi, hj, Option.map_some, Option.map_some, haddr]
  exact Prod.ext (hid.symm.trans hid') (Prod.ext hspan hposition)

theorem Shelved.entryAt_cached
    (hs : h.Sound)
    (hf : h.Shelved)
    (he : h.entryAt p = some e) :
    e.Fits h.arena p.2.1 ∧
      ∃ hd, h.arena.header? e.block e.cell = some hd ∧ hd.state = .cached := by
  obtain ⟨w, hw, -, hi⟩ := entryAt_eq_some he
  have hmem := List.mem_of_getElem? hi
  have hfits := hs.stocked.entries w hw p.2.1 e hmem
  obtain ⟨hd, hhd, hcell⟩ := hfits.cell? hs.layout
  obtain ⟨c, hc, hcached⟩ := hf.cached w hw p.2.1 e hmem
  obtain rfl := Option.some.inj (hc.symm.trans hcell)
  exact ⟨hfits, hd, hhd, hcached⟩

/-- Every cached cell is in one entry. -/
theorem Stored.existsUnique_entryAt
    (hst : h.Stored)
    (hs : h.Sound)
    (hf : h.Shelved)
    (hhd : h.arena.header? b i = some hd)
    (hcached : hd.state = .cached) :
    ∃! p : Nat × Span × Nat, ∃ e, h.entryAt p = some e ∧ e.block = b ∧ e.cell = i := by
  obtain ⟨x, c, hx, rfl, rfl, rfl⟩ := hs.layout.exists_cell hhd (by simp [hcached])
  obtain ⟨w, hw, s, e, he, rfl⟩ := lists_iff.1 (hst x ⟨c, hx, hcached⟩)
  obtain ⟨hd, -, hcell⟩ := (hs.stocked.entries w hw s e he).cell? hs.layout
  obtain rfl := Option.some.inj (hx.symm.trans hcell)
  obtain ⟨j, hj⟩ := List.mem_iff_getElem?.1 he
  have hentry : h.entryAt (w.id, s, j) = some e := by
    rw [entryAt, hf.worker?_eq hw]
    exact hj
  refine ⟨(w.id, s, j), ⟨e, hentry, rfl, rfl⟩, ?_⟩
  rintro q ⟨d, hq, hblock, hindex⟩
  -- Two entries for one cell have the same span, so they have the same address.
  obtain ⟨⟨hspan, -, haddr⟩, -⟩ := hf.entryAt_cached hs hq
  obtain ⟨⟨hspan', -, haddr'⟩, -⟩ := hf.entryAt_cached hs hentry
  rw [hblock] at hspan haddr
  rw [hindex, hspan.unique hspan', ← haddr'] at haddr
  exact hf.entryAt_unique hq hentry haddr

theorem Stored.exact
    (hst : h.Stored)
    (hs : h.Sound)
    (hf : h.Shelved) :
    h.FreeListsExact where
  found := fun _ _ _ hhd hcached => hst.existsUnique_entryAt hs hf hhd hcached
  cached := fun _ _ he => hf.entryAt_cached hs he
  total := hst.sum_freeListLength hs hf
  apart := fun _ _ _ _ he hd haddr => hf.entryAt_unique he hd haddr
  reuse := hf.reuse_ne_error hs
  sweep := fun n _ _ _ hhd hcached => header?_sweepStep hs hhd hcached n
  last := by
    intro hnone b i hd hhd hcached
    obtain ⟨p, ⟨e, he, -⟩, -⟩ := hst.existsUnique_entryAt hs hf hhd hcached
    obtain ⟨w, hw, -⟩ := entryAt_eq_some he
    rw [hnone] at hw
    cases hw

end Heap

namespace Machine

variable {P : Machine → Move → Prop} {m : Machine} {e : Ends} {y : Move} {ys : List Move}
  {memory : Nat} {c : Config} {h : Heap}

open Heap

/-- Every move that the owners of workers keep to keeps the cached cells in free lists. -/
theorem Heeds.stored
    (hy : m.Heeds e y)
    (hm : m.Proper)
    (hf : m.heap.Shelved)
    (hmanned : m.Manned e)
    (hst : m.heap.Stored)
    (hal : m.Allows y) :
    (m.apply y).heap.Stored := by
  have hs := hm.sound
  -- A move that parks nothing and drops no entry.
  have hquiet : (∀ x, ¬ y.Does (.park x)) →
      (∀ x, m.heap.Lists x → (m.apply y).heap.Lists x) → (m.apply y).heap.Stored :=
    fun hpark hlists => hst.of_steps hs (hm.steps hal) hpark hlists
  by_cases hstock : y.OfStock
  · cases y with
    | addWorker => exact hquiet (by simp [Move.Does]) fun x hx => hx.addWorker
    | flushWorker id => exact hst.flushWorker hs hf id
    | retireWorker id =>
        refine apply_retireWorker (R := Heap.Stored) hst fun g hr => ?_
        refine hst.retireWorker hr fun u hu hid s => ?_
        exact (hmanned.emptied u hu (hid ▸ hy) s).1
    | reuse id s => exact hst.reuse hs hf id s
    | claim id s => exact hquiet (by simp [Move.Does]) fun x hx => lists_claim hx
    | setCursor id s block =>
        exact hquiet (by simp [Move.Does]) fun x hx => hx.setCursor id s ⟨block, 0⟩
    | free id addr size shape => exact hst.free hs hy.1
    | drainScope k =>
        obtain ⟨s, hopen⟩ := hy
        exact hst.drainScope hs hopen.1 (hmanned.serving k _ hopen.post?_eq rfl).1
    | _ => cases hstock
  · have hfree : ¬ y.FreesEagerly := by
      intro hfree
      cases y with
      | free | drainScope => exact hstock trivial
      | _ => cases hfree
    exact hquiet (not_does_park hfree) fun x hx => (lists_of_stock (stock_apply hstock)).2 hx

/-- Free lists are the cached cells. In every state of a run in which the owners of workers and
registries keep to what they guarantee, the entries of the free lists of the live workers are exactly
the cached cells. -/
theorem free_lists_exact
    (hc : Heap.create memory c = .ok h)
    (hl : Legal P (start h) ys)
    (ha : (start h).Attended {} ys) :
    ((start h).run ys).heap.FreeListsExact := by
  have hstart : (start h).heap.Stored := by
    obtain ⟨-, rfl⟩ := create_eq_ok hc
    rintro x ⟨k, hk, -⟩
    rw [show (start (Heap.empty c)).heap.arena.cell? x = none from Arena.cell?_empty _ _] at hk
    cases hk
  obtain ⟨hm, hf, -, hst⟩ := ha.preserves
    (R := fun m e => m.Proper ∧ m.heap.Shelved ∧ m.Manned e ∧ m.heap.Stored) hl
    ⟨proper_start hc, shelved_start hc, manned_start hc, hstart⟩
    fun m e y ⟨hm, hf, hmanned, hst⟩ hal hy =>
      ⟨hm.apply hal, hm.shelved hf hal, hmanned.apply hy, hy.stored hm hf hmanned hst hal⟩
  exact hst.exact hm.sound hf

/-- A worker frees an object of another one and reuses its cell, a scope is drained while the
collector sweeps, and one of the workers ends. -/
theorem free_lists_exact_shared :
    let ys : List Move :=
      [.addWorker, .addWorker, .carveBlock quarterBlock, .setCursor 0 quarterBlock 0,
        .claim 0 quarterBlock, .claim 0 quarterBlock, .claim 0 quarterBlock,
        .free 1 Arena.start 4096 none, .reuse 1 quarterBlock, .free 1 Arena.start 4096 none,
        .makeRegistry 2, .enterScope 0 0, .recordTracked 0 (Arena.start + 4096) 0,
        .attachCollector, .begin, .shadeRoots [Arena.start + 4096, Arena.start + 8192], .terminate,
        .finishMarking [Arena.start + 4096, Arena.start + 8192], .resurrect, .enterSweep,
        .zeroSlots, .startSweep, .drainScope 0, .sweepStep 1, .finish, .closeCycle,
        .free 0 (Arena.start + 8192) 4096 none, .flushWorker 0, .retireWorker 0]
    ((start (.empty fourBlocks)).run ys).heap.FreeListsExact := by
  intro ys
  have hlegal : Legal (fun _ _ => True) (start (.empty fourBlocks)) ys := by
    decide +kernel
  have hattended : (start (.empty fourBlocks)).Attended {} ys := by
    decide +kernel
  exact free_lists_exact create_fourBlocks hlegal hattended

end Machine

end EagerHeap
