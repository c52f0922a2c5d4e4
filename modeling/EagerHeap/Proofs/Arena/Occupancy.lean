import EagerHeap.Heap.Basic
import EagerHeap.Proofs.Arena.Objects
import Mathlib.Algebra.GroupWithZero.Nat
/-!
# Counting cells

How many cells satisfy a condition: the sum over the blocks, the cells in the list of all addresses,
and the numbers of an occupancy report.

Main results: `Layout.countP_satisfies`, `Heap.census_cells` and `Heap.census_objects`.
-/

namespace EagerHeap

/-- The number of cells of the block that satisfy a condition on their kind, large or not, and their
headers. -/
def Block.countBy (p : Bool → Header → Bool) : Block → Nat
  | .small _ cells _ => cells.countP (p false)
  | .large hd run _ => if 0 < run ∧ p true hd then 1 else 0

/-- The number of small cells of the block whose headers satisfy a condition. -/
def Block.countCells (p : Header → Bool) : Block → Nat
  | .small _ cells _ => cells.countP p
  | .large .. => 0

theorem Block.countCells_eq
    (p : Header → Bool)
    (b : Block) :
    b.countCells p = b.countBy fun large hd => !large && p hd := by
  cases b with
  | small s cells q => simp [countCells, countBy]
  | large hd n sh => simp [countCells, countBy]

theorem map_getElem?_range'
    {α : Type}
    (l : List α) :
    (List.range' 0 l.length).map (fun i => l[i]?) = l.map some := by
  refine List.ext_getElem (by simp) fun i hi _ => ?_
  simp only [List.length_map, List.length_range'] at hi
  simp [hi]

namespace Arena

variable {a : Arena} {i x : Nat} {s : Span} {c : Cell}

/-- The address is that of a cell that satisfies a condition on its kind and its header. -/
def satisfies (a : Arena) (p : Bool → Header → Bool) (x : Nat) : Bool :=
  (a.cell? x).any fun c => p c.isLarge c.header

/-- The address is that of a small cell whose header satisfies a condition. -/
def holdsAt (a : Arena) (p : Header → Bool) (x : Nat) : Bool :=
  (a.cell? x).any fun c => !c.isLarge && p c.header

theorem holdsAt_iff
    {p : Header → Bool} :
    a.holdsAt p x = true ↔ ∃ c, a.cell? x = some c ∧ c.isLarge = false ∧ p c.header = true := by
  rw [holdsAt]
  cases a.cell? x with
  | none => simp
  | some c => simp

namespace Layout

theorem countP_cellsOf
    (hl : a.Layout)
    (p : Bool → Header → Bool)
    (i : Nat) :
    (a.cellsOf i).countP (a.satisfies p) = (a.blocks[i]?.map (Block.countBy p)).getD 0 := by
  cases hb : a.blocks[i]? with
  | none =>
      rw [cellsOf, outline?, hb]
      rfl
  | some b =>
      cases b with
      | small s cells q =>
          have hspan := hl.hasSpan_of_getElem? hb
          have hholds : ∀ k ∈ List.range' 0 (Block.cellsPer s),
              a.satisfies p (blockBase i + k * s.cellSize) = cells.toList[k]?.any (p false) := by
            intro k hk
            have hlt := (List.mem_range'_1.1 hk).2
            rw [Nat.zero_add] at hlt
            obtain ⟨hd, hhd, hcell⟩ := hl.cell?_small hspan hlt
            rw [header?, hb] at hhd
            rw [satisfies, hcell, Array.getElem?_toList, show cells[k]? = some hd from hhd]
            rfl
          have hcount : (List.range' 0 cells.toList.length).countP
              (fun k => cells.toList[k]?.any (p false)) = cells.toList.countP (p false) := by
            have hmap := congrArg (List.countP (Option.any (p false)))
              (map_getElem?_range' cells.toList)
            rw [List.countP_map, List.countP_map] at hmap
            exact hmap
          rw [cellsOf_of_hasSpan hspan, List.countP_map, Option.map_some, Option.getD_some,
            Block.countBy, ← Array.countP_toList, ← hcount, Array.length_toList,
            hl.full i s cells q hb]
          exact List.countP_congr fun k hk => by rw [Function.comp_apply, hholds k hk]
      | large hd n sh =>
          rw [cellsOf_of_hasRun (hasRun_of_getElem? hb), Option.map_some, Option.getD_some,
            Block.countBy]
          split
          · next hn =>
              have hout : a.outline? i = some (.large {} n sh) := by
                rw [outline?, hb]
                rfl
              obtain ⟨hd', hhd, -, hcell⟩ := hl.cell?_large hout hn
              rw [header?, hb] at hhd
              obtain rfl : hd = hd' := Option.some.inj hhd
              rw [List.countP_singleton, satisfies, hcell, Option.any_some]
              simp only [hn, true_and]
          · next hn => rw [if_neg fun h => hn h.1, List.countP_nil]

/-- The blocks together have as many cells that satisfy a condition as there are addresses of such
cells. -/
theorem countP_satisfies
    (hl : a.Layout)
    (p : Bool → Header → Bool) :
    a.cells.countP (a.satisfies p) = (a.blocks.toList.map (Block.countBy p)).sum := by
  have hblocks := congrArg (List.map fun o => (o.map (Block.countBy p)).getD 0)
    (map_getElem?_range' a.blocks.toList)
  rw [List.map_map, List.map_map, Array.length_toList, hl.carved] at hblocks
  rw [cells, List.countP_flatMap]
  refine congrArg List.sum ((List.map_congr_left fun i _ => ?_).trans hblocks)
  rw [Function.comp_apply, Function.comp_apply, hl.countP_cellsOf, Array.getElem?_toList]

theorem countP_cells
    (hl : a.Layout)
    (p : Header → Bool) :
    a.cells.countP (a.holdsAt p) = (a.blocks.toList.map (Block.countCells p)).sum := by
  rw [List.map_congr_left fun b _ => b.countCells_eq p]
  exact hl.countP_satisfies fun large hd => !large && p hd

end Layout

end Arena

/-! ### Occupancy reports -/

theorem CellCount.foldl_count
    (l : List Header)
    (n : CellCount) :
    (l.foldl count n).cached = n.cached + l.countP (·.state = .cached) ∧
      (l.foldl count n).free = n.free + l.countP (·.state = .free) ∧
      (l.foldl count n).allocated =
        n.allocated + l.countP (·.state = .allocated) + l.countP (·.state = .init) := by
  induction l generalizing n with
  | nil => exact ⟨rfl, rfl, rfl⟩
  | cons hd l ih =>
      rw [List.foldl_cons, (ih _).1, (ih _).2.1, (ih _).2.2]
      simp only [List.countP_cons, count]
      cases hst : hd.state <;> simp <;> omega

/-- Every cell is counted once. -/
theorem CellCount.total_foldl_count
    (l : List Header)
    (n : CellCount) :
    (l.foldl count n).allocated + (l.foldl count n).cached + (l.foldl count n).free =
      n.allocated + n.cached + n.free + l.length := by
  induction l generalizing n with
  | nil => rfl
  | cons hd l ih =>
      rw [List.foldl_cons, ih, count, List.length_cons]
      cases hd.state <;> simp only <;> omega

theorem Census.foldl_count_cells
    (bs : List Block)
    (t : Census) :
    (bs.foldl count t).cells.cached =
        t.cells.cached + (bs.map (Block.countCells (·.state = .cached))).sum ∧
      (bs.foldl count t).cells.free =
        t.cells.free + (bs.map (Block.countCells (·.state = .free))).sum := by
  induction bs generalizing t with
  | nil => exact ⟨rfl, rfl⟩
  | cons b bs ih =>
      rw [List.foldl_cons, (ih _).1, (ih _).2, List.map_cons, List.map_cons, List.sum_cons,
        List.sum_cons]
      cases b with
      | small s cells q =>
          have hcells := CellCount.foldl_count cells.toList t.cells
          rw [Array.foldl_toList, Array.countP_toList, Array.countP_toList] at hcells
          simp only [count, Block.countCells, hcells.1, hcells.2.1]
          omega
      | large hd n sh =>
          simp only [count, Block.countCells]
          split <;> simp

/-- An occupancy report counts the cached cells and the free cells. -/
theorem Heap.census_cells (h : Heap) :
    h.census.cells.cached = (h.arena.blocks.toList.map
        (Block.countCells (·.state = .cached))).sum ∧
      h.census.cells.free = (h.arena.blocks.toList.map
        (Block.countCells (·.state = .free))).sum := by
  have hcount := Census.foldl_count_cells h.arena.blocks.toList
    { blocksCarved := h.arena.pages.next, freeLargeBlocks := h.arena.pages.releasedBlocks }
  rw [Array.foldl_toList] at hcount
  rw [census]
  simpa using hcount

theorem Census.foldl_count_objects
    (bs : List Block)
    (t : Census) :
    (bs.foldl count t).cells.allocated + (bs.foldl count t).largeObjects =
      t.cells.allocated + t.largeObjects +
        (bs.map (Block.countBy fun _ hd => hd.state = .allocated)).sum +
        (bs.map (Block.countCells (·.state = .init))).sum := by
  induction bs generalizing t with
  | nil => rfl
  | cons b bs ih =>
      rw [List.foldl_cons, ih, List.map_cons, List.map_cons, List.sum_cons, List.sum_cons]
      cases b with
      | small s cells q =>
          have hcells := (CellCount.foldl_count cells.toList t.cells).2.2
          rw [Array.foldl_toList, Array.countP_toList, Array.countP_toList] at hcells
          simp only [count, Block.countCells, Block.countBy, hcells]
          omega
      | large hd n sh =>
          simp only [count, Block.countCells, Block.countBy, decide_eq_true_eq]
          split
          · dsimp only
            omega
          · omega

/-- An occupancy report counts the objects, the small ones together with the cells that are being
claimed. -/
theorem Heap.census_objects (h : Heap) :
    h.census.cells.allocated + h.census.largeObjects =
      (h.arena.blocks.toList.map (Block.countBy fun _ hd => hd.state = .allocated)).sum +
        (h.arena.blocks.toList.map (Block.countCells (·.state = .init))).sum := by
  have hcount := Census.foldl_count_objects h.arena.blocks.toList
    { blocksCarved := h.arena.pages.next, freeLargeBlocks := h.arena.pages.releasedBlocks }
  rw [Array.foldl_toList] at hcount
  rw [census, hcount]
  simp

theorem Census.foldl_count_total
    (bs : List Block)
    (t : Census)
    (hfull : ∀ s cells q, Block.small s cells q ∈ bs → cells.size = Block.cellsPer s) :
    (bs.foldl count t).cells.allocated + (bs.foldl count t).cells.cached +
        (bs.foldl count t).cells.free =
      t.cells.allocated + t.cells.cached + t.cells.free +
        ((bs.filterMap Block.span?).map Block.cellsPer).sum := by
  induction bs generalizing t with
  | nil => rfl
  | cons b bs ih =>
      rw [List.foldl_cons, ih _ fun s cells q hb => hfull s cells q (List.mem_cons_of_mem _ hb)]
      cases b with
      | small s cells q =>
          have hcells := CellCount.total_foldl_count cells.toList t.cells
          have hsize := hfull s cells q (List.mem_cons_self ..)
          have hspan : (Block.small s cells q).span? = some s := rfl
          rw [Array.foldl_toList, Array.length_toList] at hcells
          rw [List.filterMap_cons_some hspan, List.map_cons, List.sum_cons, count]
          dsimp only
          omega
      | large hd n sh =>
          rw [List.filterMap_cons_none rfl, count]
          split <;> rfl

/-- An occupancy report counts every small cell once. -/
theorem Heap.census_total
    (h : Heap)
    (hl : h.arena.Layout) :
    h.census.cells.allocated + h.census.cells.cached + h.census.cells.free =
      ((h.arena.blocks.toList.filterMap Block.span?).map Block.cellsPer).sum := by
  have hcount := Census.foldl_count_total h.arena.blocks.toList
    { blocksCarved := h.arena.pages.next, freeLargeBlocks := h.arena.pages.releasedBlocks }
    fun s cells q hb => by
      obtain ⟨i, hi⟩ := List.mem_iff_getElem?.1 hb
      rw [Array.getElem?_toList] at hi
      exact hl.full i s cells q hi
  rw [Array.foldl_toList] at hcount
  rw [census, hcount]
  simp

end EagerHeap
