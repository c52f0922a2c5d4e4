import EagerHeap.Proofs.Arena.Carving
import EagerHeap.Proofs.Arena.Partition
/-!
# Addresses and cells

The address of a small cell is the start of its block plus a multiple of the cell size, and the
address of a live run is the start of its head. Resolution is the inverse of this: an address that
was formed so resolves to the block and the position it was formed from, and every other address
resolves to nothing.

Main results: `Layout.startsAt_iff` says which addresses resolve to a cell, and
`Layout.cell?_eq_none_iff` lists those that resolve to nothing.
-/

namespace EagerHeap

namespace Arena

variable {a : Arena} {b i j k x y : Nat}

/-- The cell at a position of a block starts at an address: the address is that position of a block
of small cells, or the start of the block that heads a live run, which has no other position. -/
inductive StartsAt (a : Arena) : Nat → Nat → Nat → Prop
  | small {b i : Nat} {s : Span} (hs : a.HasSpan b s) (hi : i < blockSize / s.cellSize) :
      StartsAt a b i (start + b * blockSize + i * s.cellSize)
  | large {b n : Nat} (hr : a.HasRun b n) (hn : 0 < n) : StartsAt a b 0 (start + b * blockSize)

/-- The reasons for which no cell starts at an address. -/
inductive StartsNothing (a : Arena) (x : Nat) : Prop
  /-- The address lies before the arena. -/
  | before (hx : x < start)
  /-- The address is an interior one of a cell. -/
  | interior {y : Nat} {d : Cell} (hy : a.cell? y = some d) (hyx : y < x) (hx : x < y + d.size)
  /-- The address lies behind the last cell of a block of small cells. -/
  | unused {b : Nat} {s : Span} (hs : a.HasSpan b s)
      (hle : blockBase b + blockSize / s.cellSize * s.cellSize ≤ x) (hx : x < blockBase (b + 1))
  /-- The address lies in a block of a live run that is not its head. -/
  | tail {b n j : Nat} (hr : a.HasRun b n) (hbj : b < j) (hj : j < b + n)
      (hle : blockBase j ≤ x) (hx : x < blockBase (j + 1))
  /-- The address lies in a released run. -/
  | released {r : Run} (hr : r ∈ a.pages.released) (hle : blockBase r.start ≤ x)
      (hx : x < blockBase r.stop)
  /-- The address lies behind the carved blocks. -/
  | uncarved (hle : blockBase a.pages.next ≤ x)

/-- An address is not before the start of a block if it lies in this block or in a later one. -/
theorem blockBase_le_iff : blockBase b ≤ x ↔ start ≤ x ∧ b ≤ (x - start) / blockSize := by
  rw [Nat.le_div_iff_mul_le (by decide), blockBase]
  omega

theorem lt_blockBase_iff (hx : start ≤ x) : x < blockBase b ↔ (x - start) / blockSize < b := by
  rw [← Nat.not_le, blockBase_le_iff, ← Nat.not_le]
  simp [hx]

theorem block_of_bounds
    (hle : blockBase b ≤ x)
    (hx : x < blockBase (b + 1)) :
    (x - start) / blockSize = b := by
  obtain ⟨hstart, hb⟩ := blockBase_le_iff.1 hle
  exact Nat.le_antisymm (Nat.le_of_lt_succ ((lt_blockBase_iff hstart).1 hx)) hb

namespace Layout

/-- An address that was formed from a cell resolves to this cell. -/
theorem exists_of_startsAt
    (hl : a.Layout)
    (hx : a.StartsAt b i x) :
    ∃ c, a.cell? x = some c ∧ c.block = b ∧ c.index = i := by
  cases hx with
  | small hs hi =>
      obtain ⟨hd, -, hcell⟩ := hl.cell?_small hs hi
      exact ⟨_, hcell, rfl, rfl⟩
  | large hr hn =>
      obtain ⟨sh, hout⟩ := hr
      obtain ⟨hd, -, -, hcell⟩ := hl.cell?_large hout hn
      exact ⟨_, hcell, rfl, rfl⟩

/-- An address that resolves to a cell is the one that is formed from it. -/
theorem startsAt_of_cell?
    {c : Cell}
    (hl : a.Layout)
    (hx : a.cell? x = some c) :
    a.StartsAt c.block c.index x := by
  rcases hl.cell?_cases hx with ⟨s, hs, hk, rfl, -⟩ | ⟨n, sh, hout, hn, hk, rfl, -⟩
  · exact .small hs hk
  · rw [hk]
    exact .large ⟨sh, hout⟩ hn

/-- Resolution inverts the formation of addresses. -/
theorem startsAt_iff (hl : a.Layout) :
    (∃ c, a.cell? x = some c ∧ c.block = b ∧ c.index = i) ↔ a.StartsAt b i x := by
  constructor
  · rintro ⟨c, hx, rfl, rfl⟩
    exact hl.startsAt_of_cell? hx
  · exact hl.exists_of_startsAt

/-- A cell starts at one address. -/
theorem startsAt_addr_unique
    (hl : a.Layout)
    (hx : a.StartsAt b i x)
    (hy : a.StartsAt b i y) :
    x = y := by
  obtain ⟨c, hc, hcb, hci⟩ := hl.exists_of_startsAt hx
  obtain ⟨d, hd, hdb, hdi⟩ := hl.exists_of_startsAt hy
  exact cell_ext hc hd (hcb.trans hdb.symm) (hci.trans hdi.symm)

/-- Different cells start at different addresses. -/
theorem startsAt_cell_unique
    (hl : a.Layout)
    (hx : a.StartsAt b i x)
    (hy : a.StartsAt j k x) :
    b = j ∧ i = k := by
  obtain ⟨c, hc, hcb, hci⟩ := hl.exists_of_startsAt hx
  obtain ⟨d, hd, hdb, hdi⟩ := hl.exists_of_startsAt hy
  obtain rfl := Option.some.inj (hc.symm.trans hd)
  exact ⟨hcb.symm.trans hdb, hci.symm.trans hdi⟩

/-- No cell starts within another one. -/
theorem cell?_eq_none_of_interior
    {d : Cell}
    (hl : a.Layout)
    (hy : a.cell? y = some d)
    (hyx : y < x)
    (hx : x < y + d.size) :
    a.cell? x = none := by
  cases hc : a.cell? x with
  | none => rfl
  | some c =>
      rcases hl.disjoint hy hc (Nat.ne_of_lt hyx) with hle | hle <;> omega

/-- No cell starts behind the last cell of a block of small cells. -/
theorem cell?_eq_none_of_unused
    {s : Span}
    (hl : a.Layout)
    (hs : a.HasSpan b s)
    (hle : blockBase b + blockSize / s.cellSize * s.cellSize ≤ x)
    (hx : x < blockBase (b + 1)) :
    a.cell? x = none := by
  have hblock := block_of_bounds (Nat.le_of_add_right_le hle) hx
  cases hc : a.cell? x with
  | none => rfl
  | some c =>
      have hcb : c.block = b := (block_of_cell? hc).trans hblock
      rcases hl.cell?_cases hc with ⟨t, ht, hk, hxa, -⟩ | ⟨n, sh, hout, -⟩
      · rw [hcb] at ht hxa
        obtain rfl := hs.unique ht
        have hlt := Nat.mul_lt_mul_of_pos_right hk s.cellSize_pos
        rw [Block.cellsPer] at hlt
        omega
      · rw [hcb] at hout
        exact absurd ⟨sh, hout⟩ hs.not_hasRun

/-- No cell starts in a block of runs that heads none. -/
theorem cell?_eq_none_of_hasRun_zero
    (hl : a.Layout)
    (hr : a.HasRun j 0)
    (hle : blockBase j ≤ x)
    (hx : x < blockBase (j + 1)) :
    a.cell? x = none :=
  hl.cell?_eq_none_of_hasRun (block_of_bounds hle hx ▸ hr)

theorem cell?_eq_none_of_startsNothing
    (hl : a.Layout)
    (hx : a.StartsNothing x) :
    a.cell? x = none := by
  cases hx with
  | before hx =>
      cases hc : a.cell? x with
      | none => rfl
      | some c =>
          have := start_le_of_contains (contains_of_cell? hc)
          omega
  | interior hy hyx hx => exact hl.cell?_eq_none_of_interior hy hyx hx
  | unused hs hle hx => exact hl.cell?_eq_none_of_unused hs hle hx
  | tail hr hbj hj hle hx =>
      exact hl.cell?_eq_none_of_hasRun_zero (hl.tail _ _ _ hr hbj hj).1 hle hx
  | @released r hr hle hx =>
      -- The address lies in one of the blocks of the run, which is free.
      obtain ⟨hstart, hj⟩ := blockBase_le_iff.1 hle
      have hfree : a.pages.Free ((x - start) / blockSize) :=
        ⟨r, hr, hj, (lt_blockBase_iff hstart).1 hx⟩
      exact hl.cell?_eq_none_of_hasRun (hl.spare _ hfree)
  | uncarved hle =>
      refine cell?_eq_none_of_block (Array.getElem?_eq_none_iff.2 ?_)
      rw [hl.carved]
      exact (blockBase_le_iff.1 hle).2

/-- An address in a block of small cells starts a cell, lies within one, or is not used. -/
theorem startsAt_or_startsNothing_of_hasSpan
    {s : Span}
    (hl : a.Layout)
    (hs : a.HasSpan b s)
    (hle : blockBase b ≤ x)
    (hx : x < blockBase (b + 1)) :
    (∃ i, a.StartsAt b i x) ∨ a.StartsNothing x := by
  obtain ⟨o, rfl⟩ := Nat.exists_eq_add_of_le hle
  have hdm := Nat.div_add_mod' o s.cellSize
  have hmod := Nat.mod_lt o s.cellSize_pos
  rcases Nat.lt_or_ge (o / s.cellSize) (blockSize / s.cellSize) with hlt | hge
  · rcases Nat.eq_zero_or_pos (o % s.cellSize) with hz | hpos
    · refine Or.inl ⟨o / s.cellSize, ?_⟩
      have ho : blockBase b + o = start + b * blockSize + o / s.cellSize * s.cellSize := by
        simp only [blockBase]
        omega
      rw [ho]
      exact .small hs hlt
    · obtain ⟨hd, -, hcell⟩ := hl.cell?_small hs hlt
      refine Or.inr (.interior hcell ?_ ?_)
      · omega
      · show blockBase b + o < blockBase b + o / s.cellSize * s.cellSize + s.cellSize
        omega
  · have := Nat.mul_le_mul_right s.cellSize hge
    exact Or.inr (.unused hs (by omega) hx)

/-- At every address a cell starts, or there is a reason why none does. -/
theorem startsAt_or_startsNothing (hl : a.Layout) (x : Nat) :
    (∃ b i, a.StartsAt b i x) ∨ a.StartsNothing x := by
  rcases Nat.lt_or_ge x start with hlt | hge
  · exact Or.inr (.before hlt)
  rcases Nat.lt_or_ge x (blockBase a.pages.next) with hx | hx
  · have hle := blockBase_le_iff.2 ⟨hge, Nat.le_refl _⟩
    have hsucc := (lt_blockBase_iff hge).2 (Nat.lt_succ_self _)
    obtain ⟨u, hu⟩ := hl.exists_use ((lt_blockBase_iff hge).1 hx)
    generalize (x - start) / blockSize = j at hle hsucc hu
    cases u with
    | cells s =>
        rcases hl.startsAt_or_startsNothing_of_hasSpan hu hle hsucc with ⟨i, hat⟩ | hnothing
        · exact Or.inl ⟨j, i, hat⟩
        · exact Or.inr hnothing
    | live i n =>
        obtain ⟨hn, hij, hj, hr, -⟩ := hu
        rcases Nat.eq_or_lt_of_le hij with rfl | hlt
        · rcases Nat.eq_or_lt_of_le hle with rfl | hbase
          · exact Or.inl ⟨i, 0, .large hr hn⟩
          · obtain ⟨sh, hout⟩ := hr
            obtain ⟨hd, -, -, hcell⟩ := hl.cell?_large hout hn
            refine Or.inr (.interior hcell hbase (Nat.lt_of_lt_of_le hsucc ?_))
            show blockBase (i + 1) ≤ blockBase i + n * blockSize
            have := Nat.mul_le_mul_right blockSize hn
            simp only [blockBase, Nat.add_mul]
            omega
        · exact Or.inr (.tail hr hlt hj hle hsucc)
    | released r =>
        obtain ⟨hr, hrj, hjr, -⟩ := hu
        exact Or.inr (.released hr (Nat.le_trans (blockBase_le hrj) hle)
          (Nat.lt_of_lt_of_le hsucc (blockBase_le hjr)))
  · exact Or.inr (.uncarved hx)

/-- The addresses that resolve to nothing. -/
theorem cell?_eq_none_iff (hl : a.Layout) : a.cell? x = none ↔ a.StartsNothing x := by
  refine ⟨fun hx => ?_, hl.cell?_eq_none_of_startsNothing⟩
  rcases hl.startsAt_or_startsNothing x with ⟨b, i, hat⟩ | hnothing
  · obtain ⟨c, hc, -⟩ := hl.exists_of_startsAt hat
    rw [hx] at hc
    cases hc
  · exact hnothing

end Layout

end Arena

end EagerHeap
