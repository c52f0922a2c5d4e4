import EagerHeap.Proofs.Run.Reentry
import EagerHeap.Proofs.Run.Requests
import EagerHeap.Proofs.Run.Resolution
/-!
# How a search for a free cell ends

An allocation that finds its free list empty claims the first free cell at the cursor of its worker.
While there is none, it calls for a further block: an offered one, or at last a new one. Offered blocks
may have been filled by other workers since they were offered, and then they are left again. The list of
offered blocks gets shorter with each of them, so the search ends.

Main results: `Action.exists_seeks_iff`, `Action.exists_seeks` and `Machine.search_ends`.
-/

namespace EagerHeap

namespace Heap

variable {h m g : Heap} {b c i j x id n : Nat} {s : Span} {bs : List Nat} {r : Except Failure Nat}
  {a' : Arena}

/-- No cell of the block is free. -/
def Full (h : Heap) (b : Nat) : Prop := ∀ i hd, h.arena.header? b i = some hd → hd.state ≠ .free

/-- The block serves the span, and `j` is the first of its free cells from position `i` on. -/
structure FirstFree (h : Heap) (s : Span) (b i j : Nat) : Prop where
  le : i ≤ j
  free : h.FreeCell s b j
  first : ∀ l, i ≤ l → h.FreeCell s b l → j ≤ l

/-- The second heap results from the first one in that cell `j` of a block of the span becomes an object
at address `x`. All other cells stay as they are, and the other cells of a new block are free. -/
structure Yields (h : Heap) (s : Span) (b j x : Nat) (g : Heap) : Prop where
  addr : x = Arena.blockBase b + j * s.cellSize
  hasSpan : g.arena.HasSpan b s
  object : ∃ d, g.arena.Object x d ∧ d.block = b ∧ d.index = j ∧ d.size = s.cellSize ∧
    d.shape = s.shape
  kept : ∀ y d, y ≠ x → h.arena.cell? y = some d → g.arena.cell? y = some d
  new : ∀ y d, y ≠ x → h.arena.cell? y = none → g.arena.cell? y = some d →
    ¬ h.arena.HasSpan b s ∧ d.block = b ∧ d.header = {}
  words : ∀ k, k < Arena.wordIndex x ∨ Arena.wordIndex x + s.cellSize / Word.bytes ≤ k →
    g.arena.memory.read k = h.arena.memory.read k
  records : g.records = h.records
  shelves : ∀ other t, g.shelf other t = h.shelf other t

/-- How the search of a worker for a free cell of a span may end: how often it has called for a further
block, which blocks it has got, its outcome, and the heap that it leaves. -/
inductive EndOfSearch (id : Nat) (s : Span) (h : Heap) :
    Nat → List Nat → Except Failure Nat → Heap → Prop
  /-- A cell of the block at the cursor is claimed. -/
  | atCursor {b i j x : Nat} {g : Heap}
      (hk : h.Claims id s ⟨b, i⟩)
      (hfirst : h.FirstFree s b i j)
      (hy : h.Yields s b j x g)
      (hpages : g.arena.pages = h.arena.pages) :
      EndOfSearch id s h 0 [] (.ok x) g
  /-- A cell of an offered block is claimed, and the blocks that were taken before it are full. -/
  | offered {bs rest : List Nat} {b j x : Nat} {g : Heap}
      (hnone : h.claimable? id s = none)
      (hcentral : h.central.get s = bs ++ b :: rest)
      (hfull : ∀ c ∈ bs, h.Full c)
      (hfirst : h.FirstFree s b 0 j)
      (hy : h.Yields s b j x g)
      (hpages : g.arena.pages = h.arena.pages) :
      EndOfSearch id s h (bs.length + 1) (bs ++ [b]) (.ok x) g
  /-- All offered blocks are full, and the first cell of a new block is claimed. -/
  | carved {x : Nat} {g : Heap}
      (hnone : h.claimable? id s = none)
      (hfull : ∀ c ∈ h.central.get s, h.Full c)
      (hroom : h.arena.pages.next < h.arena.pages.limit)
      (hy : h.Yields s h.arena.pages.next 0 x g)
      (hpages : g.arena.pages.next = h.arena.pages.next + 1) :
      EndOfSearch id s h ((h.central.get s).length + 1) (h.central.get s ++ [h.arena.pages.next])
        (.ok x) g
  /-- All offered blocks are full, and no block is left. -/
  | exhausted {g : Heap}
      (hnone : h.claimable? id s = none)
      (hfull : ∀ c ∈ h.central.get s, h.Full c)
      (hend : h.arena.pages.next = h.arena.pages.limit)
      (hsame : h.Intact g) :
      EndOfSearch id s h ((h.central.get s).length + 1) (h.central.get s)
        (.error (.outOfMemory blockSize)) g

/-- A search gets an offered block or a new one each time, and all offered blocks before a new one. -/
theorem EndOfSearch.calls_le
    (he : h.EndOfSearch id s n bs r g) :
    n ≤ (h.central.get s).length + 1 := by
  cases he with
  | atCursor => exact Nat.zero_le _
  | offered hnone hcentral =>
      rw [hcentral, List.length_append, List.length_cons]
      omega
  | carved | exhausted => exact Nat.le_refl _

/-! ### Claiming at the cursor -/

theorem firstFree_of_claimable?
    (hs : h.Sound)
    (hc : h.claimable? id s = some (b, j)) :
    ∃ i, h.Claims id s ⟨b, i⟩ ∧ h.FirstFree s b i j := by
  obtain ⟨k, hk, rfl, hle, hfirst⟩ := claimable?_first hc
  obtain ⟨hspan, -, hfree⟩ := claimable?_cases hs hc
  exact ⟨k.cell, hk, hle, ⟨hspan, hfree⟩, fun l hl hcell => hfirst l hcell hl⟩

theorem records_claim (h : Heap) (id : Nat) (s : Span) : (h.claim id s).2.records = h.records := by
  rw [claim]
  split
  · next b j _ =>
      refine (still_count ..).records.trans ((still_noteAllocation ..).records.trans ?_)
      exact records_publish (h.setCursor id s ⟨b, j + 1⟩) b j
        (Arena.blockBase b + j * s.cellSize) s.cellSize
  · rfl

/-- A claim changes the cell that it hands out and no other one. -/
theorem yields_claim
    (hs : h.Sound)
    (hc : h.claimable? id s = some (b, j))
    (hclaim : h.claim id s = (some x, g)) :
    h.Yields s b j x g ∧ g.arena.pages = h.arena.pages := by
  have hsame := arena_claim hc
  rw [hclaim] at hsame
  obtain ⟨hspan, hk, -⟩ := claimable?_cases hs hc
  obtain ⟨ho, d, hobj, hsize, hshape, -⟩ := claim_object hs hclaim
  have haddr : x = Arena.blockBase b + j * s.cellSize := by
    rw [claim, hc] at hclaim
    exact (Option.some.inj (congrArg Prod.fst hclaim)).symm
  obtain ⟨d', hd', hb, hj⟩ := (ho.steps.sound hs).layout.exists_of_startsAt
    (ho.startsAt hs hspan hk haddr)
  obtain rfl := Option.some.inj (hobj.1.symm.trans hd')
  have hout : Arena.SameOutline h.arena g.arena := by
    rw [hsame, publish]
    exact Arena.sameOutline_publish ..
  have htouch : ∀ y, y ≠ x → ∀ l : Act, (l = .still ∨ l = .birth x) → ¬ l.Touches y := by
    rintro y hyx l (rfl | rfl) hl
    · exact hl
    · exact hyx hl.symm
  refine ⟨⟨haddr, ho.steps.hasSpan hs hspan, ⟨d, hobj, hb, hj, hsize, hshape⟩,
    fun y d hyx => (ho.steps.untouched hs (htouch y hyx)).1 d, fun y d _ hnone hd => ?_,
    fun k hk => ?_, ?_, fun other t => ?_⟩, hout.pages⟩
  · rw [hout.cell?_eq_none hnone] at hd
    cases hd
  · rw [hsame, memory_publish, Memory.read_clear, if_neg (by rw [← haddr]; omega)]
    rfl
  · have hrecords := records_claim h id s
    rwa [hclaim] at hrecords
  · have hshelf : (h.claim id s).2.shelf other t = h.shelf other t := shelf_claim h id s
    rwa [hclaim] at hshelf

/-! ### Offered blocks -/

theorem Still.freeCell_iff
    (hst : Still h m) :
    m.FreeCell s b i ↔ h.FreeCell s b i := by
  rw [FreeCell, FreeCell, hst.outline.hasSpan, hst.headers]

theorem Still.full
    (hst : Still h m)
    (hf : m.Full b) :
    h.Full b := fun i hd hhd => hf i hd ((hst.headers b i).trans hhd)

theorem FirstFree.of_still
    (hf : m.FirstFree s b i j)
    (hst : Still h m) :
    h.FirstFree s b i j :=
  ⟨hf.le, hst.freeCell_iff.1 hf.free, fun l hl hc => hf.first l hl (hst.freeCell_iff.2 hc)⟩

theorem Yields.of_still
    (hy : m.Yields s b j x g)
    (hst : Still h m)
    (hsame : h.Intact m) :
    h.Yields s b j x g where
  addr := hy.addr
  hasSpan := hy.hasSpan
  object := hy.object
  kept := fun y d hyx hd => hy.kept y d hyx ((hsame.cells y).trans hd)
  new := fun y d hyx hnone hd => by
    obtain ⟨hspan, hrest⟩ := hy.new y d hyx ((hsame.cells y).trans hnone) hd
    exact ⟨fun hs => hspan (hst.outline.hasSpan.2 hs), hrest⟩
  words := fun k hk => (hy.words k hk).trans (by rw [hsame.memory])
  records := hy.records.trans hsame.records
  shelves := fun other t => (hy.shelves other t).trans (hsame.shelves other t)

/-- A block whose start is at a cursor is full if nothing can be claimed there. -/
theorem full_of_claimable?_eq_none
    (hf : h.Shelved)
    (hnone : h.claimable? id s = none)
    (hk : h.Claims id s ⟨b, 0⟩)
    (hspan : h.arena.HasSpan b s) :
    h.Full b := fun _ hd hhd hst =>
  Nat.not_lt_zero _ (lt_of_claimable?_eq_none hf hnone hk ⟨hspan, hd, hhd, hst⟩)

/-- A search that goes on from an offered block ends as one that has got this block first. -/
theorem EndOfSearch.moved
    (hr : h.Staffed id)
    (hnone : h.claimable? id s = none)
    (ht : h.takePartial s = (some b, m))
    (hget : h.central.get s = b :: m.central.get s)
    (he : (m.setCursor id s ⟨b, 0⟩).EndOfSearch id s n bs r g) :
    h.EndOfSearch id s (n + 1) (b :: bs) r g := by
  have hmoved := hr.moved ht
  have hst := still_moved hr.sound ht id
  have hsame := intact_moved hr.sound ht id
  have hk := claims_setCursor_self (lives_takePartial hr.lives ht) s ⟨b, 0⟩
  have hcentral : h.central.get s = b :: (m.setCursor id s ⟨b, 0⟩).central.get s := hget
  generalize m.setCursor id s ⟨b, 0⟩ = m' at he hk hst hsame hcentral hmoved
  have hpages : m'.arena.pages = h.arena.pages := hsame.pages
  have hspan := hr.sound.stocked.central s b (hcentral ▸ List.mem_cons_self ..)
  -- The search leaves the block only if it finds no free cell there.
  have hfull : m'.claimable? id s = none →
      ∀ l : List Nat, (∀ c ∈ l, m'.Full c) → ∀ c ∈ b :: l, h.Full c := fun hnone' l hl =>
    List.forall_mem_cons.2
      ⟨hst.full (full_of_claimable?_eq_none hmoved.shelved hnone' hk (hst.outline.hasSpan.2 hspan)),
        fun c hc => hst.full (hl c hc)⟩
  cases he with
  | atCursor hk' hfirst hy hpages' =>
      obtain ⟨rfl, rfl⟩ := Cursor.mk.inj (hk'.unique hmoved.shelved hk)
      exact @EndOfSearch.offered _ _ _ [] _ _ _ _ _ hnone hcentral (by simp) (hfirst.of_still hst)
        (hy.of_still hst hsame) (hpages'.trans hpages)
  | @offered bs rest c j x g hnone' hcentral' hfull' hfirst hy hpages' =>
      rw [hcentral'] at hcentral
      exact @EndOfSearch.offered _ _ _ (b :: bs) _ _ _ _ _ hnone hcentral (hfull hnone' bs hfull')
        (hfirst.of_still hst) (hy.of_still hst hsame) (hpages'.trans hpages)
  | carved hnone' hfull' hroom hy hpages' =>
      have hall : ∀ c ∈ h.central.get s, h.Full c := hcentral ▸ hfull hnone' _ hfull'
      rw [hpages] at hroom hy hpages' ⊢
      have hend := EndOfSearch.carved hnone hall hroom (hy.of_still hst hsame) hpages'
      rwa [hcentral] at hend
  | exhausted hnone' hfull' hend hsame' =>
      have hall : ∀ c ∈ h.central.get s, h.Full c := hcentral ▸ hfull hnone' _ hfull'
      rw [hpages] at hend
      have hend' := EndOfSearch.exhausted hnone hall hend (hsame.trans hsame')
      rwa [hcentral] at hend'

/-! ### New blocks -/

/-- The cells of a new block are free, and all other cells are as before. -/
theorem cell?_carveBlock
    {y : Nat} {d : Cell}
    (hs : h.Sound)
    (hb : h.arena.carveBlock s = (some b, a')) :
    (h.arena.cell? y = some d → a'.cell? y = some d) ∧
      (h.arena.cell? y = none → a'.cell? y = some d → d.block = b ∧ d.header = {}) := by
  have hcarve : Steps (· = .carve) h { h with arena := a' } := Steps.single rfl (.carve hb)
  obtain ⟨hkept, hnew⟩ := hcarve.untouched (y := y) hs fun l hl => hl ▸ not_false
  refine ⟨hkept d, fun hnone hd => ⟨?_, hnew hnone d hd⟩⟩
  obtain ⟨-, -, hlimit, -, -, hother⟩ := hs.layout.carveBlock hb
  by_contra hne
  rw [Arena.block_of_cell? hd] at hne
  rw [Arena.cell?_congr hlimit (hother _ hne), hnone] at hd
  cases hd

theorem Yields.of_carveBlock
    (hy : ({ h with arena := a' }.setCursor id s ⟨b, 0⟩).Yields s b j x g)
    (hs : h.Sound)
    (hb : h.arena.carveBlock s = (some b, a')) :
    h.Yields s b j x g := by
  obtain ⟨hl', hmemory, -, hfresh, hblock, -⟩ := hs.layout.carveBlock hb
  have hself : a'.HasSpan b s := hl'.hasSpan_of_getElem? hblock
  have hspan : ¬ h.arena.HasSpan b s := by
    intro hspan
    rw [Arena.HasSpan, Arena.outline?, hfresh] at hspan
    cases hspan
  refine ⟨hy.addr, hy.hasSpan, hy.object, fun y d hyx hd => ?_, fun y d hyx hnone hd => ?_,
    fun k hk => (hy.words k hk).trans ?_, hy.records, fun other t => (hy.shelves other t).trans ?_⟩
  · exact hy.kept y d hyx ((cell?_carveBlock hs hb).1 hd)
  · cases hd' : a'.cell? y with
    | none => exact absurd hself (hy.new y d hyx hd' hd).1
    | some e =>
        obtain rfl := Option.some.inj ((hy.kept y e hyx hd').symm.trans hd)
        exact ⟨hspan, (cell?_carveBlock hs hb).2 hnone hd'⟩
  · exact congrArg (·.read k) hmemory
  · exact shelf_setCursor ..

/-- A search that finds no offered block and carves a new one claims the first cell of it. -/
theorem EndOfSearch.of_carveBlock
    (hr : h.Staffed id)
    (hnone : h.claimable? id s = none)
    (hempty : h.central.get s = [])
    (hb : h.arena.carveBlock s = (some b, a'))
    (hclaim : ({ h with arena := a' }.setCursor id s ⟨b, 0⟩).claim id s = (some x, g)) :
    h.EndOfSearch id s 1 [b] (.ok x) g := by
  obtain ⟨hy, hpages⟩ := yields_claim (hr.carved hb).sound (hr.claimable?_carved hb) hclaim
  have hyields := hy.of_carveBlock hr.sound hb
  obtain ⟨rfl, hroom, hnext⟩ := Arena.carveBlock_eq_some hb
  have hend := EndOfSearch.carved hnone (by simp [hempty]) hroom hyields (hpages.symm ▸ hnext)
  rwa [hempty] at hend

end Heap

namespace Action

variable {σ : Type} {k : Hooks σ} {w v v' : World σ} {id n n' x : Nat} {s : Span} {bs bs' : List Nat}
  {r r' : Except Failure Nat} {g : Heap}

open Heap

/-- The loop of an allocation that finds its free list empty: it claims a cell, or else it calls for a
further block, moves the cursor of its worker there and begins again. The number says how often it calls,
and the list says which blocks it gets. -/
inductive Seeks (k : Hooks σ) (id : Nat) (s : Span) :
    World σ → Nat → List Nat → Except Failure Nat → World σ → Prop
  /-- A cell is claimed. -/
  | claims {w v : World σ} {x : Nat}
      (hc : ExceptT.run (change (·.claim id s)) w = (.ok (some x), v)) :
      Seeks k id s w 0 [] (.ok x) v
  /-- No cell is claimed, and the call for a block fails. -/
  | fails {w u v : World σ} {o : Failure}
      (hc : ExceptT.run (change (·.claim id s)) w = (.ok none, u))
      (hr : ExceptT.run (refill k s) u = (.error o, v)) :
      Seeks k id s w 1 [] (.error o) v
  /-- No cell is claimed, and the cursor moves to the block that was called for. -/
  | goesOn {w u t v : World σ} {b n : Nat} {bs : List Nat} {r : Except Failure Nat}
      (hc : ExceptT.run (change (·.claim id s)) w = (.ok none, u))
      (hr : ExceptT.run (refill k s) u = (.ok b, t))
      (hrest : Seeks k id s { t with heap := t.heap.setCursor id s ⟨b, 0⟩ } n bs r v) :
      Seeks k id s w (n + 1) (b :: bs) r v

/-- The loop goes in one way only. -/
theorem Seeks.unique
    (h : Seeks k id s w n bs r v)
    (h' : Seeks k id s w n' bs' r' v') :
    n' = n ∧ bs' = bs ∧ r' = r ∧ v' = v := by
  induction h generalizing n' bs' r' v' with
  | claims hc =>
      cases h' with
      | claims hc' =>
          cases hc.symm.trans hc'
          exact ⟨rfl, rfl, rfl, rfl⟩
      | fails hc' | goesOn hc' => cases hc.symm.trans hc'
  | fails hc hr =>
      cases h' with
      | claims hc' => cases hc.symm.trans hc'
      | fails hc' hr' =>
          cases hc.symm.trans hc'
          cases hr.symm.trans hr'
          exact ⟨rfl, rfl, rfl, rfl⟩
      | goesOn hc' hr' =>
          cases hc.symm.trans hc'
          cases hr.symm.trans hr'
  | goesOn hc hr _ ih =>
      cases h' with
      | claims hc' => cases hc.symm.trans hc'
      | fails hc' hr' =>
          cases hc.symm.trans hc'
          cases hr.symm.trans hr'
      | goesOn hc' hr' hrest' =>
          cases hc.symm.trans hc'
          cases hr.symm.trans hr'
          obtain ⟨rfl, rfl, rfl, rfl⟩ := ih hrest'
          exact ⟨rfl, rfl, rfl, rfl⟩

/-- The loop takes the turns of the search. -/
theorem Seeks.turns
    (h : Seeks k id s w n bs r v) :
    Turns (claimOrMove k id s) w r v := by
  induction h with
  | claims hc => exact .gives (run_claimOrMove_eq_some_iff.2 hc)
  | fails hc hr => exact .fails (run_claimOrMove_eq_error_iff.2 ⟨_, hc, hr⟩)
  | goesOn hc hr _ ih => exact .goesOn (run_claimOrMove_eq_none_iff.2 ⟨_, hc, _, _, hr, rfl⟩) ih

/-- A turn without a value is a call for a block. -/
theorem Seeks.after_turn
    (hturn : ExceptT.run (claimOrMove k id s) w = (.ok none, v))
    (h : Seeks k id s v n bs r v') :
    ∃ b, Seeks k id s w (n + 1) (b :: bs) r v' := by
  obtain ⟨u, hc, b, t, hr, rfl⟩ := run_claimOrMove_eq_none_iff.1 hturn
  exact ⟨b, .goesOn hc hr h⟩

theorem exists_seeks_of_turns
    (h : Turns (claimOrMove k id s) w r v) :
    ∃ n bs, Seeks k id s w n bs r v := by
  induction h with
  | gives hturn => exact ⟨0, [], .claims (run_claimOrMove_eq_some_iff.1 hturn)⟩
  | fails hturn =>
      obtain ⟨u, hc, hr⟩ := run_claimOrMove_eq_error_iff.1 hturn
      exact ⟨1, [], .fails hc hr⟩
  | goesOn hturn _ ih =>
      obtain ⟨n, bs, hseeks⟩ := ih
      obtain ⟨b, hseeks'⟩ := hseeks.after_turn hturn
      exact ⟨n + 1, b :: bs, hseeks'⟩

/-- What is said of the loop with its calls and blocks is what the search of an allocation does. -/
theorem exists_seeks_iff :
    (∃ n bs, Seeks k id s w n bs r v) ↔ untilSome? w (claimOrMove k id s) = some (r, v) := by
  rw [untilSome?_eq_some_iff]
  exact ⟨fun ⟨_, _, h⟩ => h.turns, exists_seeks_of_turns⟩

/-! ### Searches end -/

/-- A search claims a cell at once if it can. -/
theorem exists_seeks_of_claimable
    {p : Nat × Nat}
    (hs : w.heap.Sound)
    (hc : w.heap.claimable? id s = some p) :
    ∃ n bs r v, Seeks k id s w n bs r v ∧ w.heap.EndOfSearch id s n bs r v.heap := by
  obtain ⟨b, j⟩ := p
  obtain ⟨x, hclaim⟩ := exists_claim hc
  obtain ⟨i, hk, hfirst⟩ := firstFree_of_claimable? hs hc
  obtain ⟨hy, hpages⟩ := yields_claim hs hc hclaim
  exact ⟨0, [], .ok x, _, .claims (run_claim_eq_some hclaim), .atCursor hk hfirst hy hpages⟩

/-- A search that finds no offered block calls for one more block, and it gets a new one or none. -/
theorem exists_seeks_of_empty
    (hk : k.Silent)
    (hr : w.heap.Staffed id)
    (hnone : w.heap.claimable? id s = none)
    (hempty : w.heap.central.get s = []) :
    ∃ n bs r v, Seeks k id s w n bs r v ∧ w.heap.EndOfSearch id s n bs r v.heap := by
  obtain ⟨u, hrefill, hheap⟩ := follows_refill hk s w
  rcases refillAlone_cases hr.sound s with ⟨b, rest, g, hget, -⟩ | ⟨-, b, a', hcarve, hrun⟩ |
    ⟨-, hfull, hrun⟩
  · rw [hempty] at hget
    cases hget
  · rw [hrun] at hrefill hheap
    obtain ⟨x, hclaim⟩ := exists_claim (hr.claimable?_carved hcarve)
    have hend := EndOfSearch.of_carveBlock hr hnone hempty hcarve hclaim
    rw [← show u.heap = { w.heap with arena := a' } from hheap] at hclaim hend
    exact ⟨1, [b], .ok x, _, .goesOn (run_claim_eq_none hnone) hrefill
      (.claims (run_claim_eq_some (w := { u with heap := _ }) hclaim)), hend⟩
  · rw [hrun] at hrefill hheap
    have hsame : u.heap = w.heap := hheap
    have hend := EndOfSearch.exhausted hnone (by simp [hempty]) hfull (Intact.refl w.heap)
    rw [hempty] at hend
    exact ⟨1, [], _, u, .fails (run_claim_eq_none hnone) hrefill, hsame ▸ hend⟩

/-- A search gets to its end, as the list of offered blocks gets shorter with each call but the last
one. -/
theorem exists_seeks
    (hk : k.Silent)
    (hr : w.heap.Staffed id) :
    ∃ n bs r v, Seeks k id s w n bs r v ∧ w.heap.EndOfSearch id s n bs r v.heap := by
  generalize hl : w.heap.central.get s = l
  induction l generalizing w with
  | nil =>
      cases hc : w.heap.claimable? id s with
      | some p => exact exists_seeks_of_claimable hr.sound hc
      | none => exact exists_seeks_of_empty hk hr hc hl
  | cons b rest ih =>
      cases hc : w.heap.claimable? id s with
      | some p => exact exists_seeks_of_claimable hr.sound hc
      | none =>
          obtain ⟨u, hrefill, hheap⟩ := follows_refill hk s w
          rcases refillAlone_cases hr.sound s with ⟨b', rest', g, hget, hrest, htake, hrun⟩ |
            ⟨hempty, -⟩ | ⟨hempty, -⟩
          · rw [hrun] at hrefill hheap
            obtain rfl : u.heap = g := hheap
            rw [hl] at hget
            obtain ⟨rfl, rfl⟩ := List.cons.inj hget
            obtain ⟨n, bs, r, v, hseeks, hend⟩ := ih
              (w := { u with heap := u.heap.setCursor id s ⟨b, 0⟩ }) (hr.moved htake) hrest
            exact ⟨n + 1, b :: bs, r, v, .goesOn (run_claim_eq_none hc) hrefill hseeks,
              hend.moved hr hc htake (hl.trans (by rw [hrest]))⟩
          · rw [hl] at hempty
            cases hempty
          · rw [hl] at hempty
            cases hempty

/-- An allocation that finds its free list empty does what its search does. -/
theorem Seeks.run_allocate
    (h : Seeks k id s w n bs r v)
    (hr : w.heap.Staffed id)
    (hpop : (w.heap.popFree id s).1 = none) :
    ExceptT.run (allocate k id s) w = (r, v) := by
  rw [allocate, run_bind_operation, run_update]
  rcases hr.shelved.reuse_run_cases hr.sound id s with ⟨-, hnone⟩ | ⟨e, g, hsome, -⟩
  · rw [show ExceptT.run (Heap.reuse id s) w.heap = _ from hnone]
    exact h.turns.run_untilSome
  · rw [hsome] at hpop
    cases hpop

end Action

namespace Machine

variable {ys : List Move} {id : Nat} {memory : Nat} {c : Config} {h : Heap}

open Heap

/-- In every state of a run the search of a worker for a free cell comes to an end if the client leaves
the heap alone meanwhile. It calls for a further block at most once for each block that was offered and
once more. It hands out the first free cell of a block of the span, or all offered blocks were full and no
block was left. -/
theorem search_ends
    {σ : Type} {hooks : Hooks σ}
    (hk : hooks.Silent)
    (hc : Heap.create memory c = .ok h)
    (hl : Legal (fun _ _ => True) (start h) ys)
    (hid : ∃ w ∈ ((start h).run ys).heap.workers, w.id = id)
    (s : Span) (client : σ) :
    let before := ((start h).run ys).heap
    let w : World σ := ⟨before, client⟩
    ∃ n bs r v, Action.Seeks hooks id s w n bs r v ∧
      (∀ n' bs' r' v', Action.Seeks hooks id s w n' bs' r' v' →
        n' = n ∧ bs' = bs ∧ r' = r ∧ v' = v) ∧
      untilSome? w (Action.claimOrMove hooks id s) = some (r, v) ∧
      ((before.popFree id s).1 = none → ExceptT.run (Action.allocate hooks id s) w = (r, v)) ∧
      n ≤ (before.central.get s).length + 1 ∧
      before.EndOfSearch id s n bs r v.heap := by
  intro before w
  have hr : w.heap.Staffed id := hl.staffed hc hid
  obtain ⟨n, bs, r, v, hseeks, hend⟩ := Action.exists_seeks hk hr
  exact ⟨n, bs, r, v, hseeks, fun _ _ _ _ hother => hseeks.unique hother,
    untilSome?_eq_some_iff.2 hseeks.turns, fun hpop => hseeks.run_allocate hr hpop, hend.calls_le, hend⟩

/-- A cycle with the given roots that sweeps one block. -/
def cycleOf (roots : List Nat) : List Move :=
  [.begin, .shadeRoots [], .terminate, .finishMarking roots, .resurrect, .enterSweep, .zeroSlots,
    .startSweep, .sweepStep 1, .finish, .closeCycle]

/-- Worker 0 fills a block. A cycle frees its cells but cell 2, and worker 1 takes two of them. The next
cycle frees cell 2, so that the block is offered once more, and worker 1 fills it. -/
def offeredFull : List Move :=
  let q := quarterBlock
  let cell := fun i => Arena.blockBase 0 + i * q.cellSize
  [.addWorker, .addWorker, .attachCollector, .carveBlock q, .setCursor 0 q 0, .claim 0 q, .claim 0 q,
    .claim 0 q, .claim 0 q] ++ cycleOf [cell 2] ++
  [.takePartial q, .setCursor 1 q 0, .claim 1 q, .claim 1 q] ++ cycleOf [cell 0, cell 1] ++
  [.claim 1 q, .claim 1 q]

/-- The search of worker 0 gets the block that is offered though it is full, leaves it again, and claims
the first cell of a new block. -/
theorem search_ends_offeredFull :
    let before := ((start (.empty fourBlocks)).run offeredFull).heap
    before.central.get quarterBlock = [0] ∧
      ∃ v, Action.Seeks idleClient 0 quarterBlock ⟨before, ()⟩ 2 [0, 1]
          (.ok (Arena.blockBase 1)) v ∧
        before.EndOfSearch 0 quarterBlock 2 [0, 1] (.ok (Arena.blockBase 1)) v.heap := by
  have hlegal : Legal (fun _ _ => True) (start (.empty fourBlocks)) offeredFull := by
    decide +kernel
  have hid : ∃ w ∈ ((start (.empty fourBlocks)).run offeredFull).heap.workers, w.id = 0 := by
    decide +kernel
  have hcentral :
      ((start (.empty fourBlocks)).run offeredFull).heap.central.get quarterBlock = [0] := by
    decide +kernel
  have hnext : ((start (.empty fourBlocks)).run offeredFull).heap.arena.pages.next = 1 := by
    decide +kernel
  have hroom : ((start (.empty fourBlocks)).run offeredFull).heap.arena.pages.limit ≠ 1 := by
    decide +kernel
  have hturns : (ExceptT.run (do
        let x ← Action.claimOrMove idleClient 0 quarterBlock
        let y ← Action.claimOrMove idleClient 0 quarterBlock
        return (x, y)) ⟨((start (.empty fourBlocks)).run offeredFull).heap, ()⟩).1 =
      .ok (none, none) := by
    decide +kernel
  obtain ⟨n, bs, r, v, hseeks, honly, hends, -, -, hend⟩ :=
    search_ends silent_idleClient create_fourBlocks hlegal hid quarterBlock ()
  generalize ((start (.empty fourBlocks)).run offeredFull).heap = before at *
  -- The first two turns claim nothing, so the search calls at least twice.
  have hcalls : 2 ≤ n := by
    rw [run_bind_operation] at hturns
    rcases hfirst : ExceptT.run (Action.claimOrMove idleClient 0 quarterBlock) ⟨before, ()⟩ with ⟨o | x, w⟩
    · rw [hfirst] at hturns
      cases hturns
    · rw [hfirst] at hturns
      dsimp only at hturns
      rw [run_bind_operation] at hturns
      rcases hsecond : ExceptT.run (Action.claimOrMove idleClient 0 quarterBlock) w with ⟨o | y, w'⟩
      · rw [hsecond] at hturns
        cases hturns
      · rw [hsecond] at hturns
        obtain ⟨rfl, rfl⟩ := Prod.mk.inj (Except.ok.inj hturns)
        rw [untilSome?_of_none hfirst, untilSome?_of_none hsecond, ← Action.exists_seeks_iff] at hends
        obtain ⟨m, cs, hlast⟩ := hends
        obtain ⟨b, hlast⟩ := hlast.after_turn hsecond
        obtain ⟨c, hlast⟩ := hlast.after_turn hfirst
        obtain ⟨rfl, -⟩ := honly _ _ _ _ hlast
        exact Nat.le_add_left 2 m
  refine ⟨hcentral, v, ?_⟩
  have hboth := And.intro hseeks hend
  cases hend with
  | atCursor => exact absurd hcalls (by decide)
  | offered _ hsplit =>
      have hlength := congrArg List.length (hsplit.symm.trans hcentral)
      simp only [List.length_append, List.length_cons, List.length_nil] at hlength
      omega
  | carved _ _ _ hy =>
      have haddr := hy.addr
      rw [Nat.zero_mul, Nat.add_zero] at haddr
      rwa [haddr, hcentral, hnext] at hboth
  | exhausted _ _ hfull => exact absurd (hfull.symm.trans hnext) hroom

end Machine

end EagerHeap
