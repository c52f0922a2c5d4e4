import EagerHeap.Proofs.Arena.Colors
import Mathlib.Data.List.Nodup
/-!
# Lists of cells

The addresses of the cells of a block and of all cells, each of them once.

Main results: `mem_cellsOf`, `mem_cells` and `nodup_cells`.
-/

namespace EagerHeap

namespace Arena

/-- The addresses of the cells of a block. -/
def cellsOf (a : Arena) (i : Nat) : List Nat :=
  match a.outline? i with
  | some (.small s _ _) =>
      (List.range' 0 (Block.cellsPer s)).map fun k => blockBase i + k * s.cellSize
  | some (.large _ n _) => if 0 < n then [blockBase i] else []
  | none => []

variable {a a' : Arena} {x i n : Nat} {s : Span} {c : Cell}

theorem cellsOf_of_hasSpan
    (hs : a.HasSpan i s) :
    a.cellsOf i = (List.range' 0 (Block.cellsPer s)).map fun k => blockBase i + k * s.cellSize := by
  unfold cellsOf
  rw [show a.outline? i = some (.ofSpan s) from hs]
  rfl

theorem cellsOf_of_hasRun
    (hr : a.HasRun i n) :
    a.cellsOf i = if 0 < n then [blockBase i] else [] := by
  obtain ⟨sh, hr⟩ := hr
  unfold cellsOf
  rw [hr]

theorem cellsOf_congr
    (h : a'.outline? i = a.outline? i) :
    a'.cellsOf i = a.cellsOf i := by
  unfold cellsOf
  rw [h]

theorem mem_cellsOf
    (hl : a.Layout) :
    x ∈ a.cellsOf i ↔ ∃ c, a.cell? x = some c ∧ c.block = i := by
  constructor
  · intro hx
    cases ho : a.outline? i with
    | none =>
        unfold cellsOf at hx
        rw [ho] at hx
        cases hx
    | some b =>
        obtain ⟨b', hb', rfl⟩ := Option.map_eq_some_iff.1 ho
        cases b' with
        | small s cells q =>
            have hs := hl.hasSpan_of_getElem? hb'
            rw [cellsOf_of_hasSpan hs] at hx
            obtain ⟨k, hk, rfl⟩ := List.mem_map.1 hx
            have hlt := (List.mem_range'_1.1 hk).2
            rw [Nat.zero_add] at hlt
            obtain ⟨hd, -, hcell⟩ := hl.cell?_small hs hlt
            exact ⟨_, hcell, rfl⟩
        | large hd n sh =>
            rw [cellsOf_of_hasRun (hasRun_of_getElem? hb')] at hx
            split at hx
            · next hn =>
                obtain rfl := List.mem_singleton.1 hx
                obtain ⟨hd', -, -, hcell⟩ := hl.cell?_large ho hn
                exact ⟨_, hcell, rfl⟩
            · cases hx
  · rintro ⟨c, hc, rfl⟩
    rcases hl.cell?_cases hc with ⟨s, hs, hk, hx, -⟩ | ⟨n, sh, hr, hn, -, hx, -⟩
    · rw [cellsOf_of_hasSpan hs]
      exact List.mem_map.2 ⟨c.index, List.mem_range'_1.2 (by omega), hx.symm⟩
    · rw [cellsOf_of_hasRun ⟨sh, hr⟩, if_pos hn]
      exact List.mem_singleton.2 hx

/-- The cells of a block are listed once each. -/
theorem nodup_cellsOf (a : Arena) (i : Nat) : (a.cellsOf i).Nodup := by
  unfold cellsOf
  split
  · next s _ _ _ =>
      have hrange : (List.range' 0 (Block.cellsPer s)).Nodup := List.nodup_range' 1
      refine List.Pairwise.map _ (fun j k hne heq => hne ?_) hrange
      have hmul : j * s.cellSize = k * s.cellSize := Nat.add_left_cancel heq
      exact Nat.eq_of_mul_eq_mul_right s.cellSize_pos hmul
  · split
    · exact List.pairwise_singleton _ _
    · exact List.Pairwise.nil
  · exact List.Pairwise.nil

theorem block_of_mem_cellsOf
    (hl : a.Layout)
    (hx : x ∈ a.cellsOf i) :
    (x - start) / blockSize = i := by
  obtain ⟨c, hc, rfl⟩ := (mem_cellsOf hl).1 hx
  exact (block_of_cell? hc).symm

/-- The cells of different blocks are different. -/
theorem nodup_cellsOf_range
    (hl : a.Layout)
    (b n : Nat) :
    ((List.range' b n).flatMap a.cellsOf).Nodup := by
  refine List.nodup_flatMap.2 ⟨fun i _ => nodup_cellsOf a i, ?_⟩
  refine (List.nodup_range' 1).imp fun {i j} hij x hi hj => hij ?_
  exact (block_of_mem_cellsOf hl hi).symm.trans (block_of_mem_cellsOf hl hj)

/-! ### All cells -/

/-- The addresses of all cells. -/
def cells (a : Arena) : List Nat := (List.range' 0 a.pages.next).flatMap a.cellsOf

theorem mem_cells
    (hl : a.Layout) :
    x ∈ a.cells ↔ ∃ c, a.cell? x = some c := by
  unfold cells
  rw [List.mem_flatMap]
  constructor
  · rintro ⟨i, -, hx⟩
    obtain ⟨c, hc, -⟩ := (mem_cellsOf hl).1 hx
    exact ⟨c, hc⟩
  · rintro ⟨c, hc⟩
    refine ⟨c.block, List.mem_range'_1.2 ⟨Nat.zero_le _, ?_⟩, (mem_cellsOf hl).2 ⟨c, hc, rfl⟩⟩
    obtain ⟨-, b, hb, -, -, hblock, -⟩ := cell?_eq_some_iff.1 hc
    rw [← hl.carved, hblock, Nat.zero_add]
    exact (Array.getElem?_eq_some_iff.1 hb).1

theorem nodup_cells
    (hl : a.Layout) :
    a.cells.Nodup :=
  nodup_cellsOf_range hl _ _

/-- The cells are those of every arena with the same outline. -/
theorem SameOutline.cells
    (h : SameOutline a a') :
    a'.cells = a.cells := by
  have hcells : a'.cellsOf = a.cellsOf := funext fun i => cellsOf_congr (h.outline? i)
  unfold Arena.cells
  rw [h.pages, hcells]

end Arena

end EagerHeap
