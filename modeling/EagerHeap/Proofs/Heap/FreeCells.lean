import EagerHeap.Proofs.Heap.Caches
import EagerHeap.Proofs.Heap.Offers
/-!
# Free cells

A free cell can be claimed if its block is offered to all workers, or if the cursor of a live worker is
on its block and has not passed the cell. A worker whose cursor leaves a block has passed all of its free
cells; sweeping and the end of a worker offer the blocks in which they make cells free.

Main results: `Steps.freeCell_of`, `Supplied.settles`, `tidies_sweepStep` and `tidies_flushWorker`.
-/

namespace EagerHeap

theorem Block.hasFree_of_header?
    {b : Block} {i : Nat} {hd : Header}
    (hhd : b.header? i = some hd)
    (hfree : hd.state = .free) :
    b.hasFree = true := by
  cases b with
  | small s cells q =>
      rw [Block.header?] at hhd
      obtain ⟨hi, rfl⟩ := Array.getElem?_eq_some_iff.1 hhd
      exact Array.any_eq_true.2 ⟨i, hi, decide_eq_true hfree⟩
  | large h n a =>
      rw [Block.header?] at hhd
      split at hhd
      · cases hhd
        exact decide_eq_true hfree
      · cases hhd

namespace Heap

/-- The cell is free in a block of small cells of the span. -/
def FreeCell (h : Heap) (s : Span) (b i : Nat) : Prop :=
  h.arena.HasSpan b s ∧ ∃ hd, h.arena.header? b i = some hd ∧ hd.state = .free

/-- The block is offered to all workers, or the cursor of a live worker is on the block and has not
passed the cell. -/
def Finds (h : Heap) (s : Span) (b i : Nat) : Prop :=
  b ∈ h.central.get s ∨ ∃ id k, h.Claims id s k ∧ k.block = b ∧ k.cell ≤ i

/-- Every free cell is found, and the marks of the blocks agree with the lists of offered blocks. -/
structure Supplied (h : Heap) : Prop where
  offers : h.offers.Consistent
  found : ∀ s b i, h.FreeCell s b i → h.Finds s b i

variable {h h' g : Heap} {b i id n x : Nat} {c : Cell} {s t : Span} {e : FreeEntry} {k : Cursor}
  {P : Act → Prop} {f : Worker → Worker} {w : Worker}

/-! ### Cells that become free -/

theorem FreeCell.exists_cell
    (hc : h.FreeCell s b i)
    (hl : h.arena.Layout) :
    ∃ c, h.arena.cell? (Arena.blockBase b + i * s.cellSize) = some c ∧ c.block = b ∧ c.index = i ∧
      c.header.state = .free := by
  obtain ⟨hspan, hd, hhd, hfree⟩ := hc
  have hi : i < Block.cellsPer s := by
    obtain ⟨cells, q, hb, hsize⟩ := hl.exists_getElem?_of_hasSpan hspan
    rw [Arena.header?, hb] at hhd
    rw [← hsize]
    exact (Array.getElem?_eq_some_iff.1 hhd).1
  obtain ⟨hd', hhd', hcell⟩ := hl.cell?_small hspan hi
  obtain rfl := Option.some.inj (hhd.symm.trans hhd')
  exact ⟨_, hcell, rfl, rfl, hfree⟩

/-- A free cell is a small cell, as live runs hold objects. -/
theorem exists_freeCell
    (hl : h.arena.Layout)
    (hx : h.arena.cell? x = some c)
    (hfree : c.header.state = .free) :
    ∃ s, h.FreeCell s c.block c.index := by
  rcases hl.cell?_cases hx with ⟨s, hspan, -⟩ | ⟨n, sh, -, -, -, -, -, -, -, hst⟩
  · exact ⟨s, hspan, c.header, Arena.header?_of_cell? hx, hfree⟩
  · rw [hfree] at hst
    cases hst

/-- A cell that is free after changes was free before, or it was made free. -/
theorem Steps.freeCell_of
    (hsteps : Steps P h h')
    (hs : h.Sound)
    (hcarve : ¬ P .carve)
    (huncache : ¬ P (.uncache (Arena.blockBase b + i * s.cellSize)))
    (hreclaim : ¬ P (.reclaim (Arena.blockBase b + i * s.cellSize)))
    (hc : h'.FreeCell s b i) :
    h.FreeCell s b i := by
  obtain ⟨c', hx', hblock, hindex, hfree'⟩ := hc.exists_cell (hsteps.sound hs).layout
  have hbefore : ∃ c, h.arena.cell? (Arena.blockBase b + i * s.cellSize) = some c ∧ c.block = b ∧
      c.index = i ∧ c.header.state = .free := by
    by_contra hnot
    refine (hsteps.induct (R := fun g => ¬ ∃ c,
      g.arena.cell? (Arena.blockBase b + i * s.cellSize) = some c ∧ c.block = b ∧ c.index = i ∧
        c.header.state = .free) hs hnot ?_).2 ⟨c', hx', hblock, hindex, hfree'⟩
    rintro g l g' hg hno hl ht ⟨d, hd, hdb, hdi, hdfree⟩
    have hchange := ht.cellChange hg (Arena.blockBase b + i * s.cellSize)
    rw [hd] at hchange
    cases ho : g.arena.cell? (Arena.blockBase b + i * s.cellSize) with
    | none =>
        rw [ho] at hchange
        cases hchange with
        | carved hcarved => exact hcarve (hcarved ▸ hl)
        | born _ hfresh =>
            rw [hfresh] at hdfree
            cases hdfree
    | some a =>
        rw [ho] at hchange
        refine hno ⟨a, ho, ?_⟩
        cases hchange with
        | kept hhd =>
            refine ⟨hdb, hdi, ?_⟩
            cases hhd with
            | birth | park => cases hdfree
            | uncache => exact absurd hl huncache
            | reclaim => exact absurd hl hreclaim
            | _ => exact hdfree
  obtain ⟨c, hx, rfl, rfl, hfree⟩ := hbefore
  obtain ⟨t, ht⟩ := exists_freeCell hs.layout hx hfree
  rwa [(hsteps.hasSpan hs ht.1).unique hc.1] at ht

/-- Cells of different blocks have different addresses. -/
theorem FreeCell.ne_addr
    (hc : h.FreeCell s b i)
    (hl : h.arena.Layout)
    (hx : h.arena.cell? x = some c)
    (hne : c.block ≠ b) :
    Arena.blockBase b + i * s.cellSize ≠ x := by
  obtain ⟨d, hd, hblock, -⟩ := hc.exists_cell hl
  rintro rfl
  obtain rfl := Option.some.inj (hx.symm.trans hd)
  exact hne hblock

/-! ### Cursors -/

/-- The cursors of the live workers. -/
def cursors (h : Heap) : List (Nat × SpanTable (Option Cursor)) :=
  h.workers.map fun w => (w.id, w.cursors)

theorem claims_iff_cursors :
    h.Claims id s k ↔ ∃ t, (id, t) ∈ h.cursors ∧ t.get s = some k := by
  constructor
  · rintro ⟨u, hu, rfl, hk⟩
    obtain ⟨w, hw, rfl⟩ := mem_stock_iff.1 hu
    exact ⟨w.cursors, List.mem_map_of_mem hw, hk⟩
  · rintro ⟨t, ht, hk⟩
    obtain ⟨w, hw, heq⟩ := List.mem_map.1 ht
    cases heq
    exact ⟨w.supplies, mem_stock_of_mem hw, rfl, hk⟩

theorem claims_of_cursors
    (hsame : h'.cursors = h.cursors) :
    h'.Claims id s k ↔ h.Claims id s k := by
  rw [claims_iff_cursors, claims_iff_cursors, hsame]

theorem claims_of_stock
    (hsame : h'.stock = h.stock) :
    h'.Claims id s k ↔ h.Claims id s k := by
  rw [Claims, hsame]
  rfl

theorem claims_of_stockOfOthers
    {other : Nat}
    (hsame : h'.stockOfOthers id = h.stockOfOthers id)
    (hne : other ≠ id) :
    h'.Claims other s k ↔ h.Claims other s k := by
  have hmem : ∀ u : Supplies, u.id = other → (u ∈ h'.stock ↔ u ∈ h.stock) := by
    intro u hu
    have hiff : u ∈ h'.stockOfOthers id ↔ u ∈ h.stockOfOthers id := by rw [hsame]
    rw [stockOfOthers, stockOfOthers, List.mem_filter, List.mem_filter] at hiff
    have hdec : decide (u.id ≠ id) = true := decide_eq_true (hu ▸ hne)
    simpa only [hdec, and_true] using hiff
  constructor
  · rintro ⟨u, hu, hid, hk⟩
    exact ⟨u, (hmem u hid).1 hu, hid, hk⟩
  · rintro ⟨u, hu, hid, hk⟩
    exact ⟨u, (hmem u hid).2 hu, hid, hk⟩

theorem cursors_of_workers
    (hsame : h'.workers = h.workers) :
    h'.cursors = h.cursors := by
  rw [cursors, hsame]
  rfl

theorem cursors_modifyWorker
    (hf : ∀ w, (f w).id = w.id ∧ (f w).cursors = w.cursors) :
    (h.modifyWorker id f).cursors = h.cursors := by
  rw [cursors, modifyWorker, List.map_map]
  refine List.map_congr_left fun w _ => ?_
  rw [Function.comp_apply]
  split
  · rw [(hf w).1, (hf w).2]
  · rfl

@[simp] theorem cursors_count (h : Heap) (id : Nat) (k : Counter) (n : Nat) :
    (h.count id k n).cursors = h.cursors :=
  cursors_modifyWorker fun _ => ⟨rfl, rfl⟩

@[simp] theorem cursors_publish (h : Heap) (block cell addr size : Nat) :
    (h.publish block cell addr size).cursors = h.cursors :=
  cursors_of_workers (publish_lists h block cell addr size).1

theorem cursors_reuse (h : Heap) (id : Nat) (s : Span) :
    ((reuse id s).run h).2.cursors = h.cursors := by
  have hpop : (h.popFree id s).2.cursors = h.cursors := by
    rw [popFree]
    split
    · exact cursors_modifyWorker fun _ => ⟨rfl, rfl⟩
    · rfl
  rw [reuse_run]
  rcases hp : h.popFree id s with ⟨_ | e, g⟩
  · rwa [hp] at hpop
  · rw [hp] at hpop
    dsimp only
    split
    · rw [cursors_count, cursors_publish, hpop]
    · exact hpop

theorem cursors_free (h : Heap) (id addr size : Nat) (shape : Option Shape) :
    (h.free id addr size shape).2.cursors = h.cursors := by
  rw [free]
  split
  · refine (cursors_count ..).trans ?_
    exact cursors_modifyWorker fun _ => ⟨rfl, rfl⟩
  · exact cursors_count ..

theorem cursors_freeTracked (addrs : List Nat) (h : Heap) (id : Nat) :
    (h.freeTracked id addrs).2.cursors = h.cursors :=
  freeTracked_preserves (R := fun g => g.cursors = h.cursors) rfl
    (fun g x size shape hg => (cursors_free g id x size shape).trans hg) addrs

theorem cursors_drainScope (h : Heap) (c : Nat) : (h.drainScope c).2.cursors = h.cursors := by
  rcases drainScope_cases h c with ⟨-, heq⟩ | ⟨scope, -, heq | ⟨registry, owner, _, _, heq⟩⟩
  · rw [heq]
  · rw [heq]
    rfl
  · rw [heq]
    have hfreed := cursors_freeTracked (registry.addresses scope.used) (h.closing c scope)
      scope.worker
    rw [cursors_count, cursors_count, deregister, cursors_modifyWorker]
    · exact hfreed
    · exact fun _ => ⟨rfl, rfl⟩

/-! ### Settling free cells -/

/-- A cell that is free in the second heap lies in a block that is offered there, or it was free in the
first heap, in a block that was not offered, and the cursors that had not passed it have stayed. -/
def Settles (h g : Heap) : Prop :=
  ∀ s b i, g.FreeCell s b i → b ∈ g.central.get s ∨
    (h.FreeCell s b i ∧ b ∉ h.central.get s ∧
      ∀ id k, h.Claims id s k → k.block = b → k.cell ≤ i → g.Claims id s k)

theorem Settles.refl (h : Heap) : h.Settles h := by
  intro s b i hc
  by_cases hb : b ∈ h.central.get s
  · exact Or.inl hb
  · exact Or.inr ⟨hc, hb, fun _ _ hk _ _ => hk⟩

theorem Settles.trans
    (hset : h.Settles h')
    (hset' : h'.Settles g) :
    h.Settles g := by
  intro s b i hc
  rcases hset' s b i hc with hb | ⟨hc', hb', hclaims'⟩
  · exact Or.inl hb
  · rcases hset s b i hc' with hb | ⟨hc, hb, hclaims⟩
    · exact absurd hb hb'
    · exact Or.inr ⟨hc, hb, fun id k hk hblock hle =>
        hclaims' id k (hclaims id k hk hblock hle) hblock hle⟩

/-- Free cells stay found if they settle. -/
theorem Supplied.settles
    (hsup : h.Supplied)
    (hset : h.Settles g)
    (ho : g.offers.Consistent) :
    g.Supplied := by
  refine ⟨ho, fun s b i hc => ?_⟩
  rcases hset s b i hc with hb | ⟨hc, hb, hclaims⟩
  · exact Or.inl hb
  · obtain ⟨id, k, hk, hblock, hle⟩ := (hsup.found s b i hc).resolve_left hb
    exact Or.inr ⟨id, k, hclaims id k hk hblock hle, hblock, hle⟩

/-- Changes that make no cell free. -/
theorem settles_of_steps
    (hs : h.Sound)
    (hsteps : Steps P h h')
    (hcarve : ¬ P .carve)
    (hfree : ∀ x, ¬ P (.uncache x) ∧ ¬ P (.reclaim x))
    (hoffers : h'.offers = h.offers)
    (hclaims : ∀ id s k, h.Claims id s k → h'.Claims id s k) :
    h.Settles h' := by
  intro s b i hc
  have hbefore := hsteps.freeCell_of hs hcarve (hfree _).1 (hfree _).2 hc
  rw [central_of_offers hoffers]
  by_cases hb : b ∈ h.central.get s
  · exact Or.inl hb
  · exact Or.inr ⟨hbefore, hb, fun id k hk _ _ => hclaims id s k hk⟩

theorem settles_addWorker
    (hs : h.Sound) :
    h.Settles h.addWorker.2 := by
  refine settles_of_steps hs (still_addWorker h).steps (by simp) (by simp) rfl ?_
  rintro id s k ⟨u, hu, hk⟩
  obtain ⟨w, hw, rfl⟩ := mem_stock_iff.1 hu
  exact ⟨w.supplies, mem_stock_of_mem (List.mem_append_left _ hw), hk⟩

/-- A worker that leaves the heap without cursors takes no cell along. -/
theorem settles_retireWorker
    (hs : h.Sound)
    (hr : h.retireWorker id = .ok g)
    (hempty : ∀ u ∈ h.stock, u.id = id → ∀ s, u.cursors.get s = none) :
    h.Settles g := by
  have hstill := (still_retireWorker hr).steps
  rcases retireWorker_cases hr with rfl | ⟨retired, rfl⟩
  · exact Settles.refl _
  · refine settles_of_steps hs hstill (by simp) (by simp) rfl ?_
    rintro other s k ⟨u, hu, hother, hk⟩
    obtain ⟨w, hw, rfl⟩ := mem_stock_iff.1 hu
    refine ⟨w.supplies, mem_stock_of_mem (List.mem_filter.2 ⟨hw, decide_eq_true ?_⟩), hother, hk⟩
    rintro hid
    rw [hempty _ hu hid s] at hk
    cases hk

/-! ### Blocks that are offered -/

/-- Free cells settle, and in the second heap the marks of the blocks agree with the lists of offered
blocks. -/
structure Tidies (h g : Heap) : Prop where
  settles : h.Settles g
  consistent : g.offers.Consistent

theorem Tidies.refl
    (ho : h.offers.Consistent) :
    h.Tidies h :=
  ⟨Settles.refl h, ho⟩

theorem Tidies.trans
    (ht : h.Tidies h')
    (ht' : h'.Tidies g) :
    h.Tidies g :=
  ⟨ht.settles.trans ht'.settles, ht'.consistent⟩

/-- If cells of one block only became free, offering the block settles them. -/
theorem tidies_offer
    (hs : g.Sound)
    (ho : h.offers.Consistent)
    (hspan : g.arena.HasSpan b s)
    (hoffers : g.offers = h.offers)
    (hother : ∀ t j i, j ≠ b → g.FreeCell t j i → h.FreeCell t j i)
    (hclaims : ∀ id t k, h.Claims id t k → g.Claims id t k) :
    h.Tidies (g.offer b) := by
  rw [← hoffers] at ho
  refine ⟨fun t j i hc => ?_, consistent_offer hs ho hspan⟩
  have hbefore := (still_offer hs.layout b).steps.freeCell_of hs (by simp) (by simp) (by simp) hc
  by_cases hj : j = b
  · subst hj
    rw [hbefore.1.unique hspan]
    exact Or.inl (mem_central_offer hs ho hspan)
  · by_cases hcentral : j ∈ h.central.get t
    · rw [← central_of_offers hoffers] at hcentral
      exact Or.inl (mem_central_offer_of_mem hs.layout hspan hcentral)
    · refine Or.inr ⟨hother t j i hj hbefore, hcentral, fun id k hk _ _ => ?_⟩
      exact (claims_of_stock (stock_of_clients (clients_offer g b))).2 (hclaims id t k hk)

theorem tidies_offerIfFree
    (hs : h.Sound)
    (ho : h.offers.Consistent)
    (hspan : h.arena.HasSpan b s) :
    h.Tidies (h.offerIfFree b) := by
  rw [Heap.offerIfFree]
  split
  · exact tidies_offer hs ho hspan rfl (fun _ _ _ _ hc => hc) fun _ _ _ hk => hk
  · exact Tidies.refl ho

/-- Blocks with free cells are in the lists after they were offered. -/
theorem tidies_offerAll
    (blocks : List Nat)
    (hs : h.Sound)
    (ho : h.offers.Consistent)
    (hspan : ∀ b ∈ blocks, ∃ s, h.arena.HasSpan b s) :
    h.Tidies (blocks.foldl Heap.offerIfFree h) ∧
      (∀ t b, b ∈ h.central.get t → b ∈ (blocks.foldl Heap.offerIfFree h).central.get t) ∧
      ∀ t b i, b ∈ blocks → h.FreeCell t b i →
        b ∈ (blocks.foldl Heap.offerIfFree h).central.get t := by
  induction blocks generalizing h with
  | nil => exact ⟨Tidies.refl ho, fun _ _ => id, fun _ _ _ hb => nomatch hb⟩
  | cons a rest ih =>
      obtain ⟨s, ha⟩ := hspan a (List.mem_cons_self ..)
      have hfirst : Steps (· = .still) h (h.offerIfFree a) := offerAll_steps [a] hs
      have htidy := tidies_offerIfFree hs ho ha
      obtain ⟨htidies, hkept, hoffered⟩ := ih (hfirst.sound hs) htidy.consistent
        fun b hb => (hspan b (List.mem_cons_of_mem _ hb)).imp fun _ => hfirst.hasSpan hs
      refine ⟨htidy.trans htidies, fun t b hb => hkept t b ?_, fun t b i hb hc => ?_⟩
      · rw [Heap.offerIfFree]
        split
        · exact mem_central_offer_of_mem hs.layout ha hb
        · exact hb
      · by_cases hba : b = a
        · subst hba
          refine hkept t b ?_
          have hfree : h.arena.blocks[b]?.any Block.hasFree = true := by
            obtain ⟨-, hd, hhd, hst⟩ := hc
            obtain ⟨block, hblock, hcell⟩ := Option.bind_eq_some_iff.1 hhd
            rw [hblock]
            exact Block.hasFree_of_header? hcell hst
          rw [Heap.offerIfFree, if_pos hfree]
          exact mem_central_offer hs ho hc.1
        · refine hoffered t b i ((List.mem_cons.1 hb).resolve_left hba) ?_
          -- Offering a block changes no cell, so the offer can be undone for the cell.
          obtain ⟨hspan, hd, hhd, hst⟩ := hc
          refine ⟨hfirst.hasSpan hs hspan, hd, ?_, hst⟩
          rw [Heap.offerIfFree]
          split
          · rw [(still_offer hs.layout a).headers, hhd]
          · exact hhd

/-! ### Sweeping -/

theorem Visits.steps_of_nil
    {xs : List Nat}
    (hv : Visits h xs [] g) :
    Steps (fun l => l = .still ∨ ∃ x, l = .finalize x) h g := by
  generalize hcs : ([] : List Cell) = cs at hv
  induction hv with
  | nil => exact Steps.refl _
  | visit hv _ ih =>
      obtain ⟨rfl, rfl⟩ := List.append_eq_nil_iff.1 hcs.symm
      refine Steps.trans ?_ (ih rfl)
      cases hv with
      | spare => exact Steps.refl _
      | @keep x c => exact Steps.single (Or.inr ⟨_, rfl⟩) (.finalize _)
  | offer b hst _ ih => exact (hst.steps.mono fun _ hl => Or.inl hl).trans (ih hcs)

/-- Sweeping the cells of a block makes cells of that block free, and then it offers the block. -/
theorem tidies_sweepSmall
    {cells : Array Header} {q : Bool}
    (hs : h.Sound)
    (ho : h.offers.Consistent)
    (hb : h.arena.blocks[b]? = some (.small s cells q)) :
    h.Tidies (h.sweepBlock b).2 := by
  have hspan := hs.layout.hasSpan_of_getElem? hb
  obtain ⟨cs, hv, hlen, -⟩ := sweepCells_visits cells.size 0 hs hspan
    (by rw [hs.layout.full b s cells q hb, Nat.zero_add])
  have hg := hv.steps.sound hs
  have hoffers := offers_sweepCells b s.cellSize cells.size 0 h
  have hclaims : ∀ id t k, h.Claims id t k →
      (h.sweepCells b s.cellSize 0 cells.size).2.Claims id t k := fun id t k hk =>
    (claims_of_stock (stock_of_clients (clients_sweepCells ..))).2 hk
  rw [Heap.sweepBlock, hb]
  dsimp only
  split
  · refine tidies_offer hg ho (hv.steps.hasSpan hs hspan) hoffers ?_ hclaims
    intro t j i hj hc
    -- Only cells of the block are visited.
    have hout : Arena.blockBase j + i * t.cellSize ∉
        (List.range' 0 cells.size).map fun k => Arena.blockBase b + k * s.cellSize := by
      intro hmem
      obtain ⟨m, hm, haddr⟩ := List.mem_map.1 hmem
      have hlt := (List.mem_range'_1.1 hm).2
      rw [Nat.zero_add, hs.layout.full b s cells q hb] at hlt
      obtain ⟨hd, -, hcell⟩ := hg.layout.cell?_small (hv.steps.hasSpan hs hspan) hlt
      exact hc.ne_addr hg.layout hcell (fun e => hj e.symm) haddr.symm
    exact hv.steps.freeCell_of hs (by simp [SweepsAmong]) (by simp [SweepsAmong])
      (by simpa [SweepsAmong] using hout) hc
  · next hnone =>
      obtain rfl : cs = [] := List.length_eq_zero_iff.1 (by omega)
      exact ⟨settles_of_steps hs hv.steps_of_nil (by simp) (by simp) hoffers hclaims, hoffers ▸ ho⟩

/-- Sweeping a run makes no small cell free. -/
theorem tidies_sweepLarge
    {hd : Header} {sh : Shape}
    (hs : h.Sound)
    (ho : h.offers.Consistent)
    (hb : h.arena.blocks[b]? = some (.large hd n sh)) :
    h.Tidies (h.sweepBlock b).2 := by
  have hrun := Arena.hasRun_of_getElem? hb
  obtain ⟨cs, hv, -⟩ := sweepBlock_visits hs b
  rw [Heap.sweepBlock, hb, Arena.cellsOf_of_hasRun hrun] at hv
  rw [Heap.sweepBlock, hb]
  dsimp only at hv ⊢
  have hoffers := offers_sweepRun h b hd n
  refine ⟨fun t j i hc => ?_, hoffers ▸ ho⟩
  -- The block stays a block of runs, so the free cell lies in another block.
  have hout : Arena.blockBase j + i * t.cellSize ∉ if 0 < n then [Arena.blockBase b] else [] := by
    intro hmem
    split at hmem
    · next hn =>
        obtain ⟨c, hx, hblock, -⟩ := hc.exists_cell (hv.steps.sound hs).layout
        rw [List.mem_singleton.1 hmem] at hx
        have hat := Arena.block_of_cell? hx
        rw [hblock, Arena.block_of_base] at hat
        obtain ⟨m, hm⟩ := hv.steps.hasRun hs ⟨n, hrun⟩
        exact (hat ▸ hc.1).not_hasRun hm
    · cases hmem
  have hbefore := hv.steps.freeCell_of hs (by simp [SweepsAmong]) (by simp [SweepsAmong])
    (by simpa [SweepsAmong] using hout) hc
  rw [central_of_offers hoffers]
  by_cases hcentral : j ∈ h.central.get t
  · exact Or.inl hcentral
  · refine Or.inr ⟨hbefore, hcentral, fun id k hk _ _ => ?_⟩
    exact (claims_of_stock (stock_of_clients (clients_sweepRun ..))).2 hk

theorem tidies_sweepBlock
    (hs : h.Sound)
    (ho : h.offers.Consistent)
    (b : Nat) :
    h.Tidies (h.sweepBlock b).2 := by
  cases hb : h.arena.blocks[b]? with
  | none =>
      rw [Heap.sweepBlock, hb]
      exact Tidies.refl ho
  | some block =>
      cases block with
      | small s cells q => exact tidies_sweepSmall hs ho hb
      | large hd n sh => exact tidies_sweepLarge hs ho hb

theorem tidies_sweepBlocks
    (n b : Nat)
    (hs : h.Sound)
    (ho : h.offers.Consistent) :
    h.Tidies (h.sweepBlocks b n).2 := by
  induction n generalizing h b with
  | zero => exact Tidies.refl ho
  | succ n ih =>
      obtain ⟨cs, hv, -⟩ := sweepBlock_visits hs b
      have htidy := tidies_sweepBlock hs ho b
      exact htidy.trans (ih (b + 1) (hv.steps.sound hs) htidy.consistent)

theorem tidies_sweepStep
    (hs : h.Sound)
    (ho : h.offers.Consistent)
    (n : Nat) :
    h.Tidies (h.sweepStep n) := by
  rw [Heap.sweepStep]
  split
  · exact Tidies.refl ho
  · next k _ =>
      have htidy := tidies_sweepBlocks (min n (k.sweepLimit - k.sweepNext)) k.sweepNext hs ho
      exact ⟨htidy.settles, htidy.consistent⟩

/-! ### The end of a worker -/

theorem tidies_uncache
    (hs : h.Sound)
    (ho : h.offers.Consistent)
    (he : e.Fits h.arena s) :
    h.Tidies (h.uncache e).2 := by
  rw [Heap.uncache]
  split
  · next hcached =>
      obtain ⟨hd, hhd, hcell⟩ := he.cell? hs.layout
      have hst : hd.state = .cached := by
        rw [hhd] at hcached
        exact of_decide_eq_true hcached
      have ht : Steps (· = .uncache e.addr) h
          { h with arena := h.arena.modifyHeader e.block e.cell (·.withState .free) } :=
        Steps.single rfl (.uncache hcell hst)
      refine tidies_offer (ht.sound hs) ho (ht.hasSpan hs he.1)
        (offers_eq rfl (Arena.queued_modifyHeader ..)) (fun t j i hj hc => ?_) fun _ _ _ hk => hk
      obtain ⟨c, hc', hblock⟩ : ∃ c,
          (h.arena.modifyHeader e.block e.cell (·.withState .free)).cell? e.addr = some c ∧
            c.block = e.block := by
        have hnow := Arena.cell?_modifyHeader_of_cell hcell (·.withState .free) e.addr
        rw [if_pos rfl] at hnow
        exact ⟨_, hnow, rfl⟩
      have hne := hc.ne_addr (ht.sound hs).layout hc' (fun heq => hj (heq.symm.trans hblock))
      exact ht.freeCell_of hs (by simp) (by simpa using hne) (by simp) hc
  · exact Tidies.refl ho

theorem tidies_uncacheAll
    (entries : List FreeEntry)
    (hs : h.Sound)
    (ho : h.offers.Consistent)
    (hfits : ∀ e ∈ entries, ∃ s, e.Fits h.arena s) :
    h.Tidies (h.uncacheAll entries).2 := by
  induction entries generalizing h with
  | nil => exact Tidies.refl ho
  | cons e rest ih =>
      obtain ⟨s, he⟩ := hfits e (List.mem_cons_self ..)
      have hfirst := uncache_steps hs he
      have htidy := tidies_uncache hs ho he
      refine htidy.trans (ih (hfirst.sound hs) htidy.consistent fun d hd => ?_)
      obtain ⟨t, h₁, h₂, h₃⟩ := hfits d (List.mem_cons_of_mem _ hd)
      exact ⟨t, hfirst.hasSpan hs h₁, h₂, h₃⟩

/-- The blocks of a table of cursors are those at which a cursor stands. -/
theorem mem_blocks_iff
    {t : SpanTable (Option Cursor)} :
    b ∈ t.toList.filterMap (fun c => c.map Cursor.block) ↔
      ∃ s k, t.get s = some k ∧ k.block = b := by
  constructor
  · intro hb
    obtain ⟨o, ho, hk⟩ := List.mem_filterMap.1 hb
    obtain ⟨k, rfl, rfl⟩ := Option.map_eq_some_iff.1 hk
    obtain ⟨s, hget⟩ := SpanTable.exists_get_of_mem_toList ho
    exact ⟨s, k, hget, rfl⟩
  · rintro ⟨s, k, hget, rfl⟩
    refine List.mem_filterMap.2 ⟨some k, ?_, rfl⟩
    rw [SpanTable.toList_eq, List.mem_map]
    exact ⟨s, Span.mem_all s, hget⟩

/-- A worker that ends offers the blocks in which its cursors have not passed all free cells. -/
theorem tidies_flushWorker
    (hs : h.Sound)
    (hf : h.Shelved)
    (ho : h.offers.Consistent)
    (id : Nat) :
    h.Tidies (h.flushWorker id).2 := by
  have hothers : ∀ {other : Nat} {s : Span} {k : Cursor}, other ≠ id → h.Claims other s k →
      (h.flushWorker id).2.Claims other s k := fun hne hk =>
    (claims_of_stockOfOthers (stockOfOthers_flushWorker h id) hne).2 hk
  rw [Heap.flushWorker] at hothers ⊢
  split
  · exact Tidies.refl ho
  · next w hw =>
      rw [hw] at hothers
      obtain ⟨hmem, hid⟩ := worker?_eq_some hw
      have hfits : ∀ e ∈ w.freeEntries, ∃ s, e.Fits h.arena s := fun e he =>
        freeEntries_fit hs.stocked hmem he
      have hsteps := uncacheAll_steps w.freeEntries hs hfits
      have huncached := tidies_uncacheAll w.freeEntries hs ho hfits
      obtain ⟨htidies, -, hoffered⟩ := tidies_offerAll
          (w.cursors.toList.filterMap fun c => c.map Cursor.block) (hsteps.sound hs)
          huncached.consistent fun b hb => by
        obtain ⟨s, k, hget, rfl⟩ := mem_blocks_iff.1 hb
        exact ⟨s, hsteps.hasSpan hs (hs.stocked.cursors w hmem s k hget)⟩
      refine ⟨fun s b i hc => ?_, htidies.consistent⟩
      rcases (huncached.trans htidies).settles s b i hc with hb | ⟨hbefore, hb, -⟩
      · exact Or.inl hb
      · by_cases hown : ∃ k, w.cursors.get s = some k ∧ k.block = b
        · -- A cursor of the worker that ends is on the block, so the block was offered.
          refine Or.inl (hoffered s b i (mem_blocks_iff.2 ⟨s, hown⟩) ?_)
          exact (offerAll_steps _ (hsteps.sound hs)).freeCell_of (hsteps.sound hs) (by simp) (by simp)
            (by simp) hc
        · refine Or.inr ⟨hbefore, hb, fun other k hk hblock _ => hothers ?_ hk⟩
          rintro rfl
          obtain ⟨u, hu, hother, hget⟩ := hk
          obtain ⟨v, hv, rfl⟩ := mem_stock_iff.1 hu
          obtain rfl := hf.worker_unique hv hmem (hother.trans hid.symm)
          exact hown ⟨k, hget, hblock⟩

end Heap

end EagerHeap
