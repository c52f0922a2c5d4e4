import EagerHeap.Proofs.Allocation
import EagerHeap.Proofs.Heap.Refill
import EagerHeap.Proofs.Marking.Workload
/-!
# The search for a free cell

An allocation that finds no entry in the free list of its worker looks for a free cell: it claims at the
cursor of the worker, and as long as it can claim nothing the cursor moves on to an offered block, or at
last to a new block. `Claiming` says how such a search can go if nothing interrupts it, and that it comes
to an end.

Main results: `Staffed.exists_claiming`, `Claiming.tended` and `Claiming.outcome`.
-/

namespace EagerHeap

/-- The number of free cells of the block, if it serves the span. -/
def Block.freeCount (s : Span) (b : Block) : Nat :=
  if b.span? = some s then b.countCells (·.state = .free) else 0

theorem Block.freeCount_small (s : Span) (cells : Array Header) (q : Bool) :
    freeCount s (.small s cells q) = cells.toList.countP fun hd => decide (hd.state = .free) := by
  rw [freeCount, span?, if_pos rfl, countCells, Array.countP_toList]

/-- The number of free cells of a span. -/
def Heap.freeCells (h : Heap) (s : Span) : Nat :=
  (h.arena.blocks.toList.map (Block.freeCount s)).sum

namespace Heap

variable {h h' g : Heap} {b i j id other n x : Nat} {s t : Span} {k : Cursor} {a' : Arena}
  {r : Except Failure Nat}

/-! ### Counting free cells -/

theorem freeCells_eq_zero_iff
    (hl : h.arena.Layout) :
    h.freeCells s = 0 ↔ ∀ b i, ¬ h.FreeCell s b i := by
  rw [freeCells, List.sum_eq_zero_iff_forall_eq_nat]
  constructor
  · rintro hzero b i ⟨hspan, hd, hhd, hst⟩
    obtain ⟨cells, q, hb, -⟩ := hl.exists_getElem?_of_hasSpan hspan
    rw [Arena.header?, hb] at hhd
    have hnone := hzero _ (List.mem_map_of_mem (Array.mem_toList_iff.2 (Array.mem_of_getElem? hb)))
    rw [Block.freeCount_small, List.countP_eq_zero] at hnone
    exact hnone hd (Array.mem_toList_iff.2 (Array.mem_of_getElem? hhd)) (decide_eq_true hst)
  · intro hnone m hm
    obtain ⟨block, hblock, rfl⟩ := List.mem_map.1 hm
    obtain ⟨b, hb⟩ := List.mem_iff_getElem?.1 hblock
    rw [Array.getElem?_toList] at hb
    rw [Block.freeCount]
    split
    · next hspan =>
        cases block with
        | large => rfl
        | small r cells q =>
            obtain rfl := Option.some.inj hspan
            rw [Block.countCells, Array.countP_eq_zero]
            intro hd hmem hst
            obtain ⟨i, hi⟩ := Array.mem_iff_getElem?.1 hmem
            refine hnone b i ⟨hl.hasSpan_of_getElem? hb, hd, ?_, of_decide_eq_true hst⟩
            rw [Arena.header?, hb]
            exact hi
    · rfl

/-- Marking a block as offered or not leaves the numbers of free cells. -/
theorem freeCells_withQueued
    (hb : h'.arena = h.arena.modifyBlock i (Block.withQueued false))
    (s : Span) :
    h'.freeCells s = h.freeCells s := by
  rw [freeCells, freeCells, hb, Arena.modifyBlock, Array.toList_modify]
  refine congrArg List.sum (List.ext_getElem? fun j => ?_)
  rw [List.getElem?_map, List.getElem?_map, List.getElem?_modify]
  cases h.arena.blocks.toList[j]? with
  | none => rfl
  | some block =>
      split
      · cases block <;> rfl
      · rfl

theorem blocks_publish (h : Heap) (b k addr size : Nat) :
    (h.publish b k addr size).arena.blocks = h.arena.blocks.modify b
      (Block.modifyHeader (fun _ => Header.fresh h.phase.allocationColor) k) := by
  have hmemory : ∀ f, (h.arena.withMemory f).blocks = h.arena.blocks := fun _ => rfl
  rw [publish, Arena.publish, Arena.modifyHeader, Arena.modifyBlock]
  dsimp only
  rw [hmemory]

/-- Handing out a free cell leaves one free cell less. -/
theorem freeCells_publish
    (hl : h.arena.Layout)
    (hc : h.FreeCell s b j)
    (addr size : Nat) :
    (h.publish b j addr size).freeCells s + 1 = h.freeCells s := by
  obtain ⟨hspan, hd, hhd, hst⟩ := hc
  obtain ⟨cells, q, hb, -⟩ := hl.exists_getElem?_of_hasSpan hspan
  rw [Arena.header?, hb] at hhd
  have hsum := sum_map_modify (Block.freeCount s)
    (Block.modifyHeader (fun _ => Header.fresh h.phase.allocationColor) j)
    (l := h.arena.blocks.toList) (i := b) (b := .small s cells q)
    (by rw [Array.getElem?_toList]; exact hb)
  have hcount := countP_modify (fun hd : Header => decide (hd.state = .free))
    (fun _ => Header.fresh h.phase.allocationColor) (l := cells.toList) (i := j) (b := hd)
    (by rw [Array.getElem?_toList]; exact hhd)
  rw [if_pos (decide_eq_true hst), if_neg (by simp [Header.fresh])] at hcount
  rw [Block.modifyHeader, Block.freeCount_small, Block.freeCount_small, Array.toList_modify] at hsum
  rw [freeCells, freeCells, blocks_publish, Array.toList_modify]
  omega

/-! ### How a search goes -/

/-- The search for a free cell on behalf of a worker, with its outcome and the heap that it leaves. -/
inductive Claiming (id : Nat) (s : Span) : Heap → Except Failure Nat → Heap → Prop
  /-- A cell is claimed at the cursor. -/
  | claimed {h g : Heap} {x : Nat} (hc : h.claim id s = (some x, g)) : Claiming id s h (.ok x) g
  /-- The cursor moves to an offered block. -/
  | moved {h g h' : Heap} {b : Nat} {r : Except Failure Nat} (hnone : h.claimable? id s = none)
      (ht : h.takePartial s = (some b, g)) (hrest : Claiming id s (g.setCursor id s ⟨b, 0⟩) r h') :
      Claiming id s h r h'
  /-- No block is offered, and a cell of a new block is claimed. -/
  | carved {h g : Heap} {b x : Nat} {a' : Arena} (hnone : h.claimable? id s = none)
      (hempty : h.central.get s = []) (hb : h.arena.carveBlock s = (some b, a'))
      (hc : ({ h with arena := a' }.setCursor id s ⟨b, 0⟩).claim id s = (some x, g)) :
      Claiming id s h (.ok x) g
  /-- No block is offered, and none is left. -/
  | exhausted {h : Heap} (hnone : h.claimable? id s = none) (hempty : h.central.get s = [])
      (hfull : h.arena.pages.next = h.arena.pages.limit) :
      Claiming id s h (.error (.outOfMemory blockSize)) h

/-- A heap in which a worker lives that may look for free cells. -/
structure Tended (h : Heap) (id : Nat) : Prop where
  sound : h.Sound
  shelved : h.Shelved
  supplied : h.Supplied
  lives : ∃ w ∈ h.workers, w.id = id

/-- A heap in which the search of a worker comes to an end, whether or not all free cells are
found. -/
structure Staffed (h : Heap) (id : Nat) : Prop where
  sound : h.Sound
  shelved : h.Shelved
  offers : h.offers.Consistent
  lives : ∃ w ∈ h.workers, w.id = id

/-- Every free cell of the span lies at or after the cursor of another worker. -/
def TakenByOthers (h : Heap) (id : Nat) (s : Span) : Prop :=
  ∀ b i, h.FreeCell s b i → ∃ other k, other ≠ id ∧ h.Claims other s k ∧ k.block = b ∧ k.cell ≤ i

theorem Tended.staffed (ht : h.Tended id) : h.Staffed id :=
  ⟨ht.sound, ht.shelved, ht.supplied.offers, ht.lives⟩

theorem Staffed.tended (hr : h.Staffed id) (hsup : h.Supplied) : h.Tended id :=
  ⟨hr.sound, hr.shelved, hsup, hr.lives⟩

theorem lives_setCursor
    (hid : ∃ w ∈ h.workers, w.id = id) :
    ∃ w ∈ (h.setCursor other s k).workers, w.id = id := by
  refine List.mem_map.1 ?_
  rw [ids_of_holdings (holdings_setCursor h other s k)]
  exact List.mem_map.2 hid

theorem lives_takePartial
    (hid : ∃ w ∈ h.workers, w.id = id)
    (hb : h.takePartial s = (some b, g)) :
    ∃ w ∈ g.workers, w.id = id := by
  have hclients := clients_takePartial h s
  rw [hb] at hclients
  rw [workers_of_clients hclients]
  exact hid

theorem Staffed.claim
    (hr : h.Staffed id)
    (s : Span) :
    (h.claim id s).2.Staffed id where
  sound := by
    rcases claim_cases hr.sound id s with ⟨x, -, ho⟩ | ⟨-, hsame⟩
    · exact ho.steps.sound hr.sound
    · rw [hsame]
      exact hr.sound
  shelved := hr.shelved.claim hr.sound id s
  offers := by
    rw [offers_claim]
    exact hr.offers
  lives := by
    refine List.mem_map.1 ?_
    rw [ids_of_holdings (holdings_claim h id s)]
    exact List.mem_map.2 hr.lives

theorem Staffed.count
    (hr : h.Staffed id)
    (other : Nat) (c : Counter) (n : Nat) :
    (h.count other c n).Staffed id where
  sound := (still_count h other c n).steps.sound hr.sound
  shelved := hr.shelved.count other c n
  offers := by
    rw [offers_count]
    exact hr.offers
  lives := by
    refine List.mem_map.1 ?_
    rw [ids_of_holdings (holdings_count h other c n)]
    exact List.mem_map.2 hr.lives

theorem Tended.claim
    (ht : h.Tended id)
    (s : Span) :
    (h.claim id s).2.Tended id :=
  (ht.staffed.claim s).tended (ht.supplied.claim ht.sound ht.shelved id s)

theorem hasSpan_takePartial
    (hs : h.Sound)
    (hb : h.takePartial s = (some b, g)) :
    g.arena.HasSpan b s := by
  have hstill := still_takePartial h s
  rw [hb] at hstill
  rcases takePartial_cases h s with ⟨-, hsame⟩ | ⟨c, rest, hget, htake⟩
  · rw [hb] at hsame
    cases hsame
  · rw [hb] at htake
    obtain rfl := Option.some.inj (congrArg Prod.fst htake)
    exact hstill.outline.hasSpan.2 (hs.stocked.central s b (hget ▸ List.mem_cons_self ..))

/-- Moving the cursor to an offered block changes nothing that concerns objects. -/
theorem still_moved
    (hs : h.Sound)
    (hb : h.takePartial s = (some b, g))
    (id : Nat) :
    Still h (g.setCursor id s ⟨b, 0⟩) := by
  have hstill := still_takePartial h s
  rw [hb] at hstill
  exact hstill.trans (still_setCursor (hasSpan_takePartial hs hb))

theorem steps_moved
    (hs : h.Sound)
    (hb : h.takePartial s = (some b, g))
    (id : Nat) :
    Steps (· = .still) h (g.setCursor id s ⟨b, 0⟩) :=
  (still_moved hs hb id).steps

theorem Staffed.moved
    (hr : h.Staffed id)
    (hb : h.takePartial s = (some b, g)) :
    (g.setCursor id s ⟨b, 0⟩).Staffed id := by
  have hstill := still_takePartial h s
  have hclients := clients_takePartial h s
  have hconsistent := consistent_takePartial hr.sound hr.offers s
  rw [hb] at hstill hclients hconsistent
  have hshelved : g.Shelved := hr.shelved.frame (workers_of_clients hclients)
    (nextWorker_of_clients hclients) fun w hw s e he =>
      hstill.steps.cachedAt hr.sound (hr.shelved.cached w hw s e he) (by simp) (by simp)
  exact ⟨(steps_moved hr.sound hb id).sound hr.sound, hshelved.setCursor id s _, hconsistent,
    lives_setCursor (lives_takePartial hr.lives hb)⟩

theorem Tended.moved
    (ht : h.Tended id)
    (hnone : h.claimable? id s = none)
    (hb : h.takePartial s = (some b, g)) :
    (g.setCursor id s ⟨b, 0⟩).Tended id :=
  (ht.staffed.moved hb).tended (ht.supplied.takePartial ht.sound ht.shelved ht.lives hnone hb)

theorem Staffed.carved
    (hr : h.Staffed id)
    (hb : h.arena.carveBlock s = (some b, a')) :
    ({ h with arena := a' }.setCursor id s ⟨b, 0⟩).Staffed id := by
  have hcarve : Steps (· = .carve) h { h with arena := a' } := Steps.single rfl (.carve hb)
  obtain ⟨hl', -, -, -, hself, -⟩ := hr.sound.layout.carveBlock hb
  have hmove : Still { h with arena := a' } ({ h with arena := a' }.setCursor id s ⟨b, 0⟩) :=
    still_setCursor (hl'.hasSpan_of_getElem? hself)
  have hshelved : { h with arena := a' }.Shelved := hr.shelved.frame rfl rfl fun w hw s e he =>
    hcarve.cachedAt hr.sound (hr.shelved.cached w hw s e he) (by simp) (by simp)
  have hoffers : { h with arena := a' }.offers = h.offers :=
    offers_eq rfl (Arena.queued_carveBlock hb)
  exact ⟨hmove.steps.sound (hcarve.sound hr.sound), hshelved.setCursor id s _, hoffers ▸ hr.offers,
    lives_setCursor (h := { h with arena := a' }) hr.lives⟩

theorem Tended.carved
    (ht : h.Tended id)
    (hnone : h.claimable? id s = none)
    (hb : h.arena.carveBlock s = (some b, a')) :
    ({ h with arena := a' }.setCursor id s ⟨b, 0⟩).Tended id :=
  (ht.staffed.carved hb).tended (ht.supplied.carveBlock ht.sound ht.shelved ht.lives hnone hb)

/-- A worker whose cursor is at the start of a new block claims its first cell. -/
theorem Staffed.claimable?_carved
    (hr : h.Staffed id)
    (hb : h.arena.carveBlock s = (some b, a')) :
    ({ h with arena := a' }.setCursor id s ⟨b, 0⟩).claimable? id s = some (b, 0) := by
  obtain ⟨-, -, -, -, hself, -⟩ := hr.sound.layout.carveBlock hb
  have hclaims : ({ h with arena := a' }.setCursor id s ⟨b, 0⟩).Claims id s ⟨b, 0⟩ :=
    claims_setCursor_self (h := { h with arena := a' }) hr.lives s ⟨b, 0⟩
  obtain ⟨w, hw, hget⟩ := hclaims.worker? (hr.carved hb).shelved
  have hfirst : (Block.ofSpan s).freeCell? 0 = some 0 := by
    have hpos : 0 < Block.cellsPer s := by
      have hsizes : ∀ i : Fin 14, 0 < blockSize / SizeClass.sizes[i] := by decide
      exact hsizes s.sizeClass.index
    obtain ⟨m, hm⟩ := Nat.exists_eq_succ_of_ne_zero hpos.ne'
    rw [Block.ofSpan, Block.freeCell?, Array.size_replicate, hm, Nat.sub_zero, Block.firstFree,
      if_pos]
    rw [Array.getElem?_replicate, if_pos (Nat.succ_pos m)]
    rfl
  have hblock : ({ h with arena := a' }.setCursor id s ⟨b, 0⟩).arena.blocks[b]? =
      some (Block.ofSpan s) := hself
  rw [claimable?, hw]
  simp only [Option.bind_eq_bind, Option.bind_some, hget, hblock, hfirst]
  rfl

/-! ### Searches end -/

theorem refillAlone_cases
    (hs : h.Sound)
    (s : Span) :
    (∃ b rest g, h.central.get s = b :: rest ∧ g.central.get s = rest ∧
        h.takePartial s = (some b, g) ∧ ExceptT.run (refillAlone s) h = (.ok b, g)) ∨
      (h.central.get s = [] ∧ ∃ b a', h.arena.carveBlock s = (some b, a') ∧
        ExceptT.run (refillAlone s) h = (.ok b, { h with arena := a' })) ∨
      (h.central.get s = [] ∧ h.arena.pages.next = h.arena.pages.limit ∧
        ExceptT.run (refillAlone s) h = (.error (.outOfMemory blockSize), h)) := by
  rcases takePartial_cases h s with ⟨hempty, htake⟩ | ⟨b, rest, hget, htake⟩
  · rcases hc : h.arena.carveBlock s with ⟨_ | b, a'⟩
    · refine Or.inr (Or.inr ⟨hempty, ?_, ?_⟩)
      · rw [Arena.carveBlock] at hc
        cases hbump : h.arena.pages.bump 1 with
        | some p =>
            rw [hbump] at hc
            cases hc
        | none =>
            rw [Pages.bump] at hbump
            split at hbump
            · have := hs.layout.inside
              omega
            · cases hbump
      · have hsame : a' = h.arena := by
          rw [Arena.carveBlock] at hc
          split at hc <;> cases hc
          rfl
        have hcarve := carveBlock_run h s
        rw [hc, hsame] at hcarve
        rw [refillAlone]
        simp [htake, hcarve]
    · obtain ⟨-, -, -, -, hself, -⟩ := hs.layout.carveBlock hc
      have hcarve := carveBlock_run h s
      rw [hc] at hcarve
      dsimp only at hcarve
      rw [hself, if_pos (by simp [Block.ofSpan, Block.span?])] at hcarve
      refine Or.inr (Or.inl ⟨hempty, b, a', rfl, ?_⟩)
      rw [refillAlone]
      simp [htake, hcarve]
  · refine Or.inl ⟨b, rest, _, hget, ?_, htake, ?_⟩
    · exact SpanTable.get_set_self ..
    · rw [refillAlone]
      simp [htake]

theorem claim_eq_none
    (hnone : h.claimable? id s = none) :
    h.claim id s = (none, h) := by
  rw [claim, hnone]

/-- A worker that can claim a cell does so. -/
theorem exists_claim
    {p : Nat × Nat}
    (hc : h.claimable? id s = some p) :
    ∃ x, h.claim id s = (some x, (h.claim id s).2) := by
  rw [claim, hc]
  exact ⟨_, rfl⟩

theorem run_claimOrMoveAlone_of_claim
    (hc : h.claim id s = (some x, g)) :
    ExceptT.run (claimOrMoveAlone id s) h = (.ok (some x), g) := by
  rw [claimOrMoveAlone, run_bind_operation, run_modifyGet_operation, hc]
  rfl

theorem run_claimOrMoveAlone_of_refill
    (hnone : h.claimable? id s = none)
    (hget : ExceptT.run (refillAlone s) h = (.ok b, g)) :
    ExceptT.run (claimOrMoveAlone id s) h = (.ok none, g.setCursor id s ⟨b, 0⟩) := by
  rw [claimOrMoveAlone, run_bind_operation, run_modifyGet_operation, claim_eq_none hnone]
  dsimp only
  rw [run_bind_operation, hget]
  rfl

theorem run_claimOrMoveAlone_of_error
    {o : Failure}
    (hnone : h.claimable? id s = none)
    (hget : ExceptT.run (refillAlone s) h = (.error o, g)) :
    ExceptT.run (claimOrMoveAlone id s) h = (.error o, g) := by
  rw [claimOrMoveAlone, run_bind_operation, run_modifyGet_operation, claim_eq_none hnone]
  dsimp only
  rw [run_bind_operation, hget]

/-- A worker that can claim a cell searches no further. -/
theorem exists_claiming_of_claimable
    {p : Nat × Nat}
    (hc : h.claimable? id s = some p) :
    ∃ r g, Turns (claimOrMoveAlone id s) h r g ∧ Claiming id s h r g := by
  obtain ⟨x, hclaim⟩ := exists_claim hc
  exact ⟨.ok x, _, .gives (run_claimOrMoveAlone_of_claim hclaim), .claimed hclaim⟩

/-- A search comes to an end, as every turn without a value but the last one takes an offered block. -/
theorem Staffed.exists_claiming
    (hr : h.Staffed id) :
    ∃ r g, Turns (claimOrMoveAlone id s) h r g ∧ Claiming id s h r g := by
  generalize hl : h.central.get s = l
  induction l generalizing h with
  | nil =>
      cases hc : h.claimable? id s with
      | some p => exact exists_claiming_of_claimable hc
      | none =>
          rcases refillAlone_cases hr.sound s with ⟨b, rest, g, hget, -⟩ | ⟨-, b, a', hcarve, hrun⟩ |
            ⟨-, hfull, hrun⟩
          · rw [hl] at hget
            cases hget
          · obtain ⟨x, hclaim⟩ := exists_claim (hr.claimable?_carved hcarve)
            exact ⟨.ok x, _, .goesOn (run_claimOrMoveAlone_of_refill hc hrun)
              (.gives (run_claimOrMoveAlone_of_claim hclaim)), .carved hc hl hcarve hclaim⟩
          · exact ⟨_, h, .fails (run_claimOrMoveAlone_of_error hc hrun), .exhausted hc hl hfull⟩
  | cons b rest ih =>
      cases hc : h.claimable? id s with
      | some p => exact exists_claiming_of_claimable hc
      | none =>
          rcases refillAlone_cases hr.sound s with ⟨b', rest', g, hget, hrest, htake, hrun⟩ |
            ⟨hempty, -⟩ | ⟨hempty, -⟩
          · obtain ⟨rfl, rfl⟩ := List.cons.inj (hl.symm.trans hget)
            obtain ⟨r, g', hturns, hclaiming⟩ := ih (hr.moved htake) hrest
            exact ⟨r, g', .goesOn (run_claimOrMoveAlone_of_refill hc hrun) hturns,
              .moved hc htake hclaiming⟩
          · rw [hl] at hempty
            cases hempty
          · rw [hl] at hempty
            cases hempty

/-- An allocation takes a cell off the free list of its worker, or its free list is empty and it looks
for a free cell. -/
theorem Staffed.allocate_cases
    (hr : h.Staffed id)
    (s : Span) :
    (∃ x, ExceptT.run (reuse id s) h = (.ok (some x), (ExceptT.run (allocateAlone id s) h).2) ∧
        (ExceptT.run (allocateAlone id s) h).1 = .ok x) ∨
      h.popFree id s = (none, h) ∧
        Claiming id s h (ExceptT.run (allocateAlone id s) h).1
          (ExceptT.run (allocateAlone id s) h).2 := by
  rw [allocateAlone]
  rcases hr.shelved.reuse_run_cases hr.sound id s with ⟨hpop, hrun⟩ | ⟨e, g, -, hrun⟩
  · refine Or.inr ⟨hpop, ?_⟩
    obtain ⟨r, g, hturns, hclaiming⟩ := hr.exists_claiming (s := s)
    rw [run_bind_operation, hrun]
    dsimp only
    rwa [searchAlone, hturns.run_untilSome]
  · refine Or.inl ⟨e.addr, ?_⟩
    rw [run_bind_operation, hrun]
    exact ⟨rfl, rfl⟩

/-! ### What a search leaves -/

theorem Claiming.tended
    (hc : Claiming id s h r g)
    (ht : h.Tended id) :
    g.Tended id := by
  induction hc with
  | @claimed h g x hc =>
      have hclaimed := ht.claim s
      rwa [hc] at hclaimed
  | moved hnone hb _ ih => exact ih (ht.moved hnone hb)
  | carved hnone hempty hb hc =>
      have hclaimed := (ht.carved hnone hb).claim s
      rwa [hc] at hclaimed
  | exhausted => exact ht

/-- A worker that can claim nothing and to which no block is offered has lost all free cells to
others. -/
theorem Tended.takenByOthers
    (ht : h.Tended id)
    (hnone : h.claimable? id s = none)
    (hempty : h.central.get s = []) :
    h.TakenByOthers id s := by
  intro b i hc
  rcases ht.supplied.elsewhere ht.shelved hnone hc with hb | ⟨other, k, hk, hblock, hle, hne⟩
  · rw [hempty] at hb
    cases hb
  · exact ⟨other, k, fun hid => hne ⟨hid, rfl⟩, hk, hblock, hle⟩

theorem arena_claim
    (hc : h.claimable? id s = some (b, j)) :
    (h.claim id s).2.arena = ((h.setCursor id s ⟨b, j + 1⟩).publish b j
      (Arena.blockBase b + j * s.cellSize) s.cellSize).arena := by
  rw [claim, hc]
  rfl

theorem freeCells_claim
    (hs : h.Sound)
    (hc : h.claim id s = (some x, g)) :
    g.freeCells s + 1 = h.freeCells s ∧ g.arena.pages = h.arena.pages := by
  cases hclaim : h.claimable? id s with
  | none =>
      rw [claim_eq_none hclaim] at hc
      cases hc
  | some p =>
      obtain ⟨b, j⟩ := p
      have harena := arena_claim hclaim
      rw [hc] at harena
      obtain ⟨hspan, -, hfree⟩ := claimable?_cases hs hclaim
      constructor
      · rw [freeCells, harena]
        exact freeCells_publish (h := h.setCursor id s ⟨b, j + 1⟩) hs.layout ⟨hspan, hfree⟩ _ _
      · rw [harena, publish]
        exact (Arena.sameOutline_publish ..).pages

/-- A search ends with a free cell and carves no block; or all free cells lie with other workers, and it
ends with a cell of a new block or because no block is left. -/
theorem Claiming.outcome
    (hc : Claiming id s h r g)
    (ht : h.Tended id) :
    ((∃ x, r = .ok x) ∧ g.arena.pages = h.arena.pages ∧ g.freeCells s + 1 = h.freeCells s) ∨
      h.TakenByOthers id s ∧
        ((∃ x, r = .ok x) ∧ g.arena.pages.next = h.arena.pages.next + 1 ∨
          r = .error (.outOfMemory blockSize) ∧ h.arena.pages.next = h.arena.pages.limit) := by
  induction hc with
  | claimed hc =>
      obtain ⟨hfree, hpages⟩ := freeCells_claim ht.sound hc
      exact Or.inl ⟨⟨_, rfl⟩, hpages, hfree⟩
  | @moved h g h' b r hnone hb _ ih =>
      have hstill := still_takePartial h s
      have hclients := clients_takePartial h s
      have hpages : g.arena.pages = h.arena.pages := by
        rw [hb] at hstill
        exact hstill.outline.pages
      have hfree : (g.setCursor id s ⟨b, 0⟩).freeCells s = h.freeCells s := by
        rcases takePartial_cases h s with ⟨-, hsame⟩ | ⟨c, rest, -, htake⟩
        · rw [hb] at hsame
          cases hsame
        · rw [hb] at htake
          have hg := congrArg (fun p : Option Nat × Heap => p.2) htake
          exact freeCells_withQueued (i := c) (congrArg (fun g : Heap => g.arena) hg) s
      rw [hb] at hstill hclients
      rcases ih (ht.moved hnone hb) with ⟨hok, hsame, hcount⟩ | ⟨htaken, hend⟩
      · exact Or.inl ⟨hok, hsame.trans hpages, hcount.trans hfree⟩
      · refine Or.inr ⟨fun b' i hcell => ?_, ?_⟩
        · have hafter : (g.setCursor id s ⟨b, 0⟩).FreeCell s b' i := by
            obtain ⟨hspan, hd, hhd, hst⟩ := hcell
            exact ⟨hstill.outline.hasSpan.2 hspan, hd, (hstill.headers b' i).trans hhd, hst⟩
          obtain ⟨other, k, hne, hk, hrest⟩ := htaken b' i hafter
          refine ⟨other, k, hne, (claims_of_stockOfOthers ?_ hne).1 hk, hrest⟩
          exact (stockOfOthers_setCursor g id s _).trans
            (stockOfOthers_of_stock (stock_of_clients hclients) id)
        · rw [← hpages]
          exact hend
  | @carved h g b x a' hnone hempty hb hc =>
      refine Or.inr ⟨ht.takenByOthers hnone hempty, Or.inl ⟨⟨_, rfl⟩, ?_⟩⟩
      obtain ⟨-, hpages⟩ := freeCells_claim (ht.carved hnone hb).sound hc
      rw [hpages]
      exact (Arena.carveBlock_eq_some hb).2.2
  | exhausted hnone hempty hfull =>
      exact Or.inr ⟨ht.takenByOthers hnone hempty, Or.inr ⟨rfl, hfull⟩⟩

end Heap

end EagerHeap
