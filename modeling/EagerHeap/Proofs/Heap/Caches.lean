import EagerHeap.Proofs.Arena.Occupancy
import EagerHeap.Proofs.Arena.Partition
import EagerHeap.Proofs.Heap.Stock
/-!
# Cached cells

Every cached cell is in a free list of a live worker. So no cell is lost: an eager free adds an entry
for the cell that it parks, a worker takes an entry off its list only when it hands the cell out, and a
worker makes the cells of its free lists free before it ends. Sweeping leaves cached cells as they are.

Main results: `Stored.reuse`, `Stored.free`, `Stored.flushWorker`, `Stored.sum_freeListLength` and
`header?_sweepStep`.
-/

namespace EagerHeap

/-- Sweeping concerns the cells of the objects that it visits. -/
theorem CellChange.of_ne
    {p : Phase} {l : Act} {x y : Nat} {o o' : Option Cell}
    (h : CellChange p l y o o')
    (hl : l = .still ∨ l = .finalize x ∨ l = .cleanup x ∨ l = .reclaim x)
    (hne : y ≠ x) :
    o' = o := by
  cases h with
  | absent => rfl
  | kept hc =>
      cases hc with
      | same => rfl
      | finalize | cleanup | reclaim =>
          rcases hl with hl | hl | hl | hl <;> cases hl
          exact absurd rfl hne
      | _ => rcases hl with hl | hl | hl | hl <;> cases hl
  | carved ha => rcases hl with rfl | rfl | rfl | rfl <;> cases ha
  | born ha => rcases hl with rfl | rfl | rfl | rfl <;> cases ha
  | removed ha =>
      rcases hl with rfl | rfl | rfl | rfl <;> cases ha
      exact absurd rfl hne

theorem Span.nodup_all : Span.all.Nodup := by decide

theorem Span.mem_all (s : Span) : s ∈ Span.all := by
  obtain ⟨⟨i⟩, shape⟩ := s
  have hall : ∀ i : Fin 14, ∀ a : Shape, Span.mk ⟨i⟩ a ∈ Span.all := by
    intro i a
    cases a with
    | scan => revert i; decide
    | noScan => revert i; decide
  exact hall i shape

/-- The values of a table are those of all spans. -/
theorem SpanTable.toList_eq
    {α : Type}
    (t : SpanTable α) :
    t.toList = Span.all.map t.get := by
  have hall : Span.all.map Span.index = List.finRange 28 := by decide
  have hget : t.get = (fun i : Fin 28 => t.entries[i]) ∘ Span.index := rfl
  rw [hget, ← List.map_map, hall, toList]
  refine List.ext_getElem (by simp) fun i hi _ => ?_
  simp

/-- The entries of the free lists of a worker, one span after the other. -/
theorem Worker.freeEntries_eq (w : Worker) :
    w.freeEntries = Span.all.flatMap fun s => (w.freeLists.get s).reverse := by
  rw [freeEntries, SpanTable.toList_eq, List.flatMap_map]

theorem Worker.freeListLength_eq (w : Worker) : w.freeListLength = w.freeEntries.length := by
  have hfold : ∀ (ls : List (List FreeEntry)) (n : Nat),
      ls.foldl (fun n l => n + l.length) n = n + (ls.flatMap List.reverse).length := by
    intro ls
    induction ls with
    | nil => exact fun _ => rfl
    | cons l ls ih =>
        intro n
        rw [List.foldl_cons, ih, List.flatMap_cons, List.length_append, List.length_reverse,
          Nat.add_assoc]
  rw [freeListLength, hfold, Nat.zero_add]
  rfl

namespace Heap

/-- Every cached cell is in a free list of a live worker. -/
def Stored (h : Heap) : Prop := ∀ x, h.CachedAt x → h.Lists x

variable {h h' g : Heap} {x y id k n : Nat} {c d : Cell} {s : Span} {e : FreeEntry} {P : Act → Prop}
  {xs : List Nat} {cs : List Cell}

/-! ### Cells that become cached -/

/-- A cell that is cached after changes was cached before, or an object was parked in it. -/
theorem Steps.cachedAt_of
    (hsteps : Steps P h h')
    (hs : h.Sound)
    (hpark : ¬ P (.park x))
    (hx : h'.CachedAt x) :
    h.CachedAt x := by
  by_contra hnot
  refine (hsteps.induct (R := fun g => ¬ g.CachedAt x) hs hnot ?_).2 hx
  rintro g l g' hg hbefore hl ht ⟨c, hc, hst⟩
  have hchange := ht.cellChange hg x
  rw [hc] at hchange
  cases ho : g.arena.cell? x with
  | none =>
      rw [ho] at hchange
      cases hchange with
      | carved _ hfresh | born _ hfresh =>
          rw [hfresh] at hst
          cases hst
  | some d =>
      rw [ho] at hchange
      refine hbefore ⟨d, ho, ?_⟩
      cases hchange with
      | kept hhd =>
          cases hhd with
          | birth | uncache | reclaim => cases hst
          | park => exact absurd hl hpark
          | _ => exact hst

/-- The cell that is handed out is not cached any more. -/
theorem HandsOut.not_cachedAt
    (ho : HandsOut h x h')
    (hs : h.Sound) :
    ¬ h'.CachedAt x := by
  obtain ⟨-, k, hk, -⟩ := ho.fresh hs
  exact not_cachedAt_of_cell? hk.1 (by rw [hk.2]; exact CellState.noConfusion)

/-! ### Operations of workers -/

/-- What parks no cell and drops no entry keeps all cached cells in free lists. -/
theorem Stored.of_steps
    (hst : h.Stored)
    (hs : h.Sound)
    (hsteps : Steps P h h')
    (hpark : ∀ x, ¬ P (.park x))
    (hlists : ∀ x, h.Lists x → h'.Lists x) :
    h'.Stored :=
  fun x hx => hlists x (hst x (hsteps.cachedAt_of hs (hpark x) hx))

/-- A worker takes a cell off its free list and hands it out, or its free list is empty. -/
theorem Shelved.reuse_run_cases
    (hs : h.Sound)
    (hf : h.Shelved)
    (id : Nat) (s : Span) :
    (h.popFree id s = (none, h) ∧ (Heap.reuse id s).run h = (.ok none, h)) ∨
      ∃ e g, h.popFree id s = (some e, g) ∧ (Heap.reuse id s).run h =
        (.ok (some e.addr),
          (g.publish e.block e.cell e.addr s.cellSize).count id .freeListHits 1) := by
  rw [reuse_run]
  rcases hp : h.popFree id s with ⟨_ | e, g⟩
  · have hsame : g = h := by
      rw [Heap.popFree] at hp
      split at hp <;> cases hp
      rfl
    rw [hsame]
    exact Or.inl ⟨rfl, rfl⟩
  · exact Or.inr ⟨e, g, rfl, if_pos (hf.header?_popFree hs hp)⟩

theorem Stored.reuse
    (hst : h.Stored)
    (hs : h.Sound)
    (hf : h.Shelved)
    (id : Nat) (s : Span) :
    ((Heap.reuse id s).run h).2.Stored := by
  intro x hx
  rcases hf.reuse_run_cases hs id s with ⟨-, hrun⟩ | ⟨e, g, hp, hrun⟩
  · rw [hrun] at hx ⊢
    exact hst x hx
  · rcases reuse_cases hs id s with ⟨y, hy, ho⟩ | ⟨hnone, -⟩
    · rw [hrun] at hy hx ho ⊢
      obtain rfl : e.addr = y := Option.some.inj (Except.ok.inj hy)
      -- The entry that is taken is the one of the cell that is handed out.
      have hne : x ≠ e.addr := by
        rintro rfl
        exact ho.not_cachedAt hs hx
      refine (lists_of_stock ?_).2
        ((hst x (ho.steps.cachedAt_of hs (by simp) hx)).popFree hf hp hne)
      rw [stock_count, stock_publish]
    · exact absurd (congrArg Prod.fst hrun) (hnone e.addr)

theorem lists_claim
    (hx : h.Lists x) :
    (h.claim id s).2.Lists x := by
  rw [claim]
  split
  · next b j _ =>
      refine (lists_of_stock ?_).2 (hx.setCursor id s ⟨b, j + 1⟩)
      rw [stock_count, stock_noteAllocation, stock_publish]
  · exact hx

theorem Stored.free
    {shape : Option Shape}
    (hst : h.Stored)
    (hs : h.Sound)
    (hid : ∃ w ∈ h.workers, w.id = id) :
    (h.free id x n shape).2.Stored := by
  intro y hy
  have hsteps := free_steps hs id x n shape
  rw [Heap.free] at hy hsteps ⊢
  split at hy
  · next t e hok =>
      obtain ⟨c, hcell, -, -, -, rfl⟩ := freeable_eq_ok hs.layout hok
      simp only [hok] at hsteps ⊢
      refine (lists_of_stock (stock_count ..)).2 ?_
      by_cases hyx : y = x
      · rw [hyx]
        exact lists_park hid t ⟨x, c.block, c.index⟩
      · exact (hst y (hsteps.cachedAt_of hs (by simp [hyx]) hy)).park id t _
  · next reason herr =>
      simp only [herr] at hsteps ⊢
      refine (lists_of_stock (stock_count ..)).2 (hst y ?_)
      exact (still_count h id _ 1).steps.cachedAt_of hs (by simp) hy

theorem Stored.freeTracked
    (addrs : List Nat)
    (hst : h.Stored)
    (hs : h.Sound)
    (hid : ∃ w ∈ h.workers, w.id = id) :
    (h.freeTracked id addrs).2.Stored := by
  refine (freeTracked_preserves
    (R := fun g => g.Stored ∧ g.Sound ∧ g.holdings = h.holdings) ⟨hst, hs, rfl⟩ ?_ addrs).1
  rintro g x size shape ⟨hst, hs, hsame⟩
  refine ⟨hst.free hs ?_, (free_steps hs id x size shape).sound hs,
    (holdings_free g id x size shape).trans hsame⟩
  exact List.mem_map.1 (ids_of_holdings hsame ▸ List.mem_map.2 hid)

theorem Stored.drainScope
    {scope : Scope}
    (hst : h.Stored)
    (hs : h.Sound)
    (hk : h.scopes[k]? = some scope)
    (hid : ∃ w ∈ h.workers, w.id = scope.worker) :
    (h.drainScope k).2.Stored := by
  rcases drainScope_eq hk with ⟨-, heq⟩ | ⟨registry, owner, -, -, heq⟩
  · rw [heq]
    exact hst
  · rw [heq]
    have hsound := (closing_steps h k scope).sound hs
    have hfreed := Stored.freeTracked (h := h.closing k scope)
      (registry.addresses scope.used) hst hsound hid
    refine hfreed.of_steps (P := (· = .still)) ?_ ?_ (by simp) fun y hy => ?_
    · exact (freeTracked_steps _ hsound scope.worker).sound hsound
    · exact (still_deregister ..).steps.trans
        ((still_count ..).steps.trans (still_count ..).steps)
    · refine (lists_of_stock ?_).2 hy
      rw [stock_count, stock_count, stock_deregister]

/-! ### The end of a worker -/

/-- The cell of an entry that is given up is free. -/
theorem not_cachedAt_uncache
    (hs : h.Sound)
    (he : e.Fits h.arena s) :
    ¬ (h.uncache e).2.CachedAt e.addr := by
  intro hafter
  obtain ⟨hd, hhd, hcell⟩ := he.cell? hs.layout
  rw [uncache] at hafter
  split at hafter
  · next hbefore =>
      -- The header is that of a free cell, and offering the block leaves it.
      rw [hhd] at hbefore
      have ht := Tick.uncache hcell (of_decide_eq_true hbefore)
      have hfreed := (still_offer (ht.sound hs).layout e.block).steps.cachedAt_of
        (ht.sound hs) (by simp) hafter
      obtain ⟨c, hc, hst⟩ := hfreed
      have hnow := Arena.cell?_modifyHeader_of_cell hcell (·.withState .free) e.addr
      rw [if_pos rfl] at hnow
      obtain rfl := Option.some.inj (hc.symm.trans hnow)
      cases hst
  · next hnot =>
      obtain ⟨c, hc, hst⟩ := hafter
      obtain rfl := Option.some.inj (hc.symm.trans hcell)
      exact hnot (by simp [hhd, show hd.state = .cached from hst])

/-- The cells of entries that are given up are free. -/
theorem not_cachedAt_uncacheAll
    (entries : List FreeEntry)
    (hs : h.Sound)
    (hfits : ∀ e ∈ entries, ∃ s, e.Fits h.arena s)
    (he : e ∈ entries) :
    ¬ (h.uncacheAll entries).2.CachedAt e.addr := by
  induction entries generalizing h with
  | nil => cases he
  | cons d rest ih =>
      obtain ⟨t, hd⟩ := hfits d (List.mem_cons_self ..)
      have hfirst := uncache_steps hs hd
      have hrest : ∀ a ∈ rest, ∃ s, a.Fits (h.uncache d).2.arena s := by
        intro a ha
        obtain ⟨r, h₁, h₂, h₃⟩ := hfits a (List.mem_cons_of_mem _ ha)
        exact ⟨r, hfirst.hasSpan hs h₁, h₂, h₃⟩
      rw [uncacheAll]
      rcases List.mem_cons.1 he with rfl | he
      · intro hcached
        exact not_cachedAt_uncache hs hd ((uncacheAll_steps rest (hfirst.sound hs) hrest).cachedAt_of
          (hfirst.sound hs) (by simp) hcached)
      · exact ih (hfirst.sound hs) hrest he

theorem Stored.flushWorker
    (hst : h.Stored)
    (hs : h.Sound)
    (hf : h.Shelved)
    (id : Nat) :
    (h.flushWorker id).2.Stored := by
  intro x hx
  obtain ⟨u, hu, s, e, he, rfl⟩ := hst x ((flushWorker_steps hs id).cachedAt_of hs (by simp) hx)
  by_cases hid : u.id = id
  · -- The worker has given the cell up.
    obtain ⟨w, hw, rfl⟩ := mem_stock_iff.1 hu
    have hentry : e ∈ w.freeEntries := by
      rw [Worker.freeEntries_eq]
      exact List.mem_flatMap.2 ⟨s, Span.mem_all s, List.mem_reverse.2 he⟩
    have hfits : ∀ d ∈ w.freeEntries, ∃ t, d.Fits h.arena t := fun d hd =>
      freeEntries_fit hs.stocked hw hd
    rw [Heap.flushWorker, ← show w.id = id from hid, hf.worker?_eq hw] at hx
    refine absurd ?_ (not_cachedAt_uncacheAll w.freeEntries hs hfits hentry)
    refine (offerAll_steps (w.cursors.toList.filterMap fun c => c.map Cursor.block)
      ((uncacheAll_steps w.freeEntries hs hfits).sound hs)).cachedAt_of
        ((uncacheAll_steps w.freeEntries hs hfits).sound hs) (by simp) ?_
    exact hx
  · have hmem : u ∈ h.stockOfOthers id := List.mem_filter.2 ⟨hu, decide_eq_true hid⟩
    rw [← stockOfOthers_flushWorker] at hmem
    exact ⟨u, (List.mem_filter.1 hmem).1, s, e, he, rfl⟩

/-- A worker that leaves the heap with empty free lists leaves no cached cell behind. -/
theorem Stored.retireWorker
    (hst : h.Stored)
    (hr : h.retireWorker id = .ok g)
    (hempty : ∀ u ∈ h.stock, u.id = id → ∀ s, u.freeLists.get s = []) :
    g.Stored := by
  rcases retireWorker_cases hr with rfl | ⟨retired, rfl⟩
  · exact hst
  · intro x hx
    obtain ⟨u, hu, s, e, he, haddr⟩ := hst x hx
    obtain ⟨w, hw, rfl⟩ := mem_stock_iff.1 hu
    refine lists_iff.2 ⟨w, List.mem_filter.2 ⟨hw, decide_eq_true fun hid => ?_⟩, s, e, he, haddr⟩
    rw [hempty _ hu hid s] at he
    cases he

/-! ### The number of entries -/

/-- The addresses in all free lists of live workers. -/
def listed (h : Heap) : List Nat := h.workers.flatMap fun w => w.freeEntries.map FreeEntry.addr

theorem mem_listed_iff : x ∈ h.listed ↔ h.Lists x := by
  rw [lists_iff, listed, List.mem_flatMap]
  simp only [Worker.freeEntries_eq, List.mem_map, List.mem_flatMap, List.mem_reverse]
  constructor
  · rintro ⟨w, hw, e, ⟨s, -, he⟩, haddr⟩
    exact ⟨w, hw, s, e, he, haddr⟩
  · rintro ⟨w, hw, s, e, he, haddr⟩
    exact ⟨w, hw, e, ⟨s, Span.mem_all s, he⟩, haddr⟩

/-- No address is in two entries. -/
theorem Shelved.nodup_listed
    (hf : h.Shelved) :
    h.listed.Nodup := by
  have hentry : ∀ (w : Worker) z, z ∈ w.freeEntries.map FreeEntry.addr →
      ∃ s, ∃ e ∈ w.freeLists.get s, e.addr = z := by
    intro w z hz
    obtain ⟨e, he, rfl⟩ := List.mem_map.1 hz
    rw [Worker.freeEntries_eq] at he
    obtain ⟨s, -, he⟩ := List.mem_flatMap.1 he
    exact ⟨s, e, List.mem_reverse.1 he, rfl⟩
  refine List.nodup_flatMap.2 ⟨fun w hw => ?_, ?_⟩
  · rw [Worker.freeEntries_eq, List.map_flatMap]
    refine List.nodup_flatMap.2 ⟨fun s _ => ?_, Span.nodup_all.imp fun {s t} hne z hz hz' => ?_⟩
    · rw [List.map_reverse]
      exact List.nodup_reverse.2 (hf.nodup w hw s)
    · obtain ⟨e, he, rfl⟩ := List.mem_map.1 hz
      obtain ⟨d, hd, haddr⟩ := List.mem_map.1 hz'
      exact hne (hf.apart w hw w hw s t e (List.mem_reverse.1 he) d (List.mem_reverse.1 hd)
        haddr.symm).2
  · refine (List.pairwise_map.1 hf.ids).imp_of_mem fun {w v} hw hv hne z hz hz' => hne ?_
    obtain ⟨s, e, he, rfl⟩ := hentry w z hz
    obtain ⟨t, d, hd, haddr⟩ := hentry v _ hz'
    exact (hf.apart w hw v hv s t e he d hd haddr.symm).1

/-- The free lists together have as many entries as an occupancy report counts cached cells. -/
theorem Stored.sum_freeListLength
    (hst : h.Stored)
    (hs : h.Sound)
    (hf : h.Shelved) :
    (h.workers.map Worker.freeListLength).sum = h.census.cells.cached := by
  have hlength : (h.workers.map Worker.freeListLength).sum = h.listed.length := by
    rw [listed, List.length_flatMap]
    refine congrArg List.sum (List.map_congr_left fun w _ => ?_)
    rw [Worker.freeListLength_eq, List.length_map]
  -- Both lists hold the addresses of the cached cells, each of them once.
  have hmem : ∀ z, z ∈ h.listed ↔ z ∈ h.arena.cells.filter
      (h.arena.holdsAt (·.state = .cached)) := by
    intro z
    rw [mem_listed_iff, List.mem_filter, Arena.mem_cells hs.layout, Arena.holdsAt_iff]
    constructor
    · intro hz
      obtain ⟨w, hw, s, e, he, rfl⟩ := lists_iff.1 hz
      obtain ⟨hd, -, hcell⟩ := (hs.stocked.entries w hw s e he).cell? hs.layout
      obtain ⟨c, hc, hcached⟩ := hf.cached w hw s e he
      obtain rfl := Option.some.inj (hc.symm.trans hcell)
      exact ⟨⟨_, hc⟩, _, hc, rfl, decide_eq_true hcached⟩
    · rintro ⟨-, c, hc, -, hcached⟩
      exact hst z ⟨c, hc, of_decide_eq_true hcached⟩
  have hperm := (List.perm_ext_iff_of_nodup hf.nodup_listed
    ((Arena.nodup_cells hs.layout).filter _)).2 hmem
  rw [hlength, hperm.length_eq, ← List.countP_eq_length_filter, hs.layout.countP_cells,
    h.census_cells.1]

/-! ### Sweeping -/

/-- A visit leaves a cell that holds no object as it is. -/
theorem Visit.cell?_eq
    (hv : Visit h x cs g)
    (hs : h.Sound)
    (hy : h.arena.cell? y = some c)
    (hst : c.header.state ≠ .allocated) :
    g.arena.cell? y = some c := by
  have hne : ∀ {d}, h.arena.Object x d → y ≠ x := by
    rintro d ho rfl
    obtain rfl := Option.some.inj (hy.symm.trans ho.1)
    exact hst ho.2
  cases hv with
  | spare => exact hy
  | keep ho hw hf =>
      have hchange := (Tick.finalize (h := h) x).cellChange hs y
      exact (hchange.of_ne (Or.inr (Or.inl rfl)) (hne ho)).trans hy
  | free ho hw hf ht =>
      exact ((ht.cellChange hs y).of_ne (Or.inr (Or.inr (Or.inr rfl))) (hne ho)).trans hy
  | cleanup ho hw hf ht =>
      have hqueued := Tick.cleanup hf
      have hbefore := (hqueued.cellChange hs y).of_ne (Or.inr (Or.inr (Or.inl rfl))) (hne ho)
      exact ((ht.cellChange (hqueued.sound hs) y).of_ne (Or.inr (Or.inr (Or.inr rfl)))
        (hne ho)).trans (hbefore.trans hy)

theorem Visits.cell?_eq
    (hv : Visits h xs cs g)
    (hs : h.Sound)
    (hy : h.arena.cell? y = some c)
    (hst : c.header.state ≠ .allocated) :
    g.arena.cell? y = some c := by
  induction hv with
  | nil => exact hy
  | visit hv _ ih => exact ih (hv.steps.sound hs) (hv.cell?_eq hs hy hst)
  | offer b hstill _ ih =>
      refine ih (hstill.steps.sound hs) ?_
      have hchange := (Tick.still hstill).cellChange hs y
      by_cases h0 : y = 0
      · exact (hchange.of_ne (x := 1) (Or.inl rfl) (by rw [h0]; exact Nat.zero_ne_one)).trans hy
      · exact (hchange.of_ne (x := 0) (Or.inl rfl) h0).trans hy

/-- Sweeping leaves a cell that holds no object as it is, in whatever phase. -/
theorem header?_sweepStep
    {b i : Nat} {hd : Header}
    (hs : h.Sound)
    (hhd : h.arena.header? b i = some hd)
    (hst : hd.state = .cached)
    (n : Nat) :
    (h.sweepStep n).arena.header? b i = some hd := by
  rcases sweepStep_cases hs n with ⟨-, heq⟩ | ⟨k, cs, g, -, hv, heq⟩
  · rwa [heq]
  · rw [heq]
    obtain ⟨x, c, hx, rfl, rfl, rfl⟩ := hs.layout.exists_cell hhd (by simp [hst])
    exact Arena.header?_of_cell? (hv.cell?_eq hs hx (by simp [hst]))

end Heap

end EagerHeap
