import EagerHeap.Proofs.Arena.Cells
import EagerHeap.Proofs.Arena.Pages
/-!
# The layout of the arena

Every carved block is a full block of small cells, heads a live run, lies in the tail of a live run,
or is free. `Arena.Layout` states this partition. It decides which addresses are those of cells, and
it keeps cells apart from each other and from free blocks.

Main results: `Layout.cell?_cases` with its converses `cell?_small` and `cell?_large`, and
`Layout.disjoint`.
-/

namespace EagerHeap

namespace Span

theorem cellSize_pos (s : Span) : 0 < s.cellSize := by
  have hsizes : ∀ i : Fin 14, 0 < SizeClass.sizes[i] := by decide
  exact hsizes s.sizeClass.index

/-- The size of a cell is a whole number of words. -/
theorem cellSize_mod (s : Span) : s.cellSize % Word.bytes = 0 := by
  have hsizes : ∀ i : Fin 14, SizeClass.sizes[i] % Word.bytes = 0 := by decide
  exact hsizes s.sizeClass.index

end Span

namespace Block

theorem cell_lt_blockSize
    {s : Span} {k : Nat}
    (hk : k < cellsPer s) :
    k * s.cellSize + s.cellSize ≤ blockSize := by
  have hmul : (k + 1) * s.cellSize ≤ cellsPer s * s.cellSize := Nat.mul_le_mul_right _ hk
  have hle : cellsPer s * s.cellSize ≤ blockSize := Nat.div_mul_le_self ..
  rw [Nat.add_mul, Nat.one_mul] at hmul
  exact Nat.le_trans hmul hle

@[simp] theorem outline_spare : spare.outline = spare := rfl

theorem ofSpan_injective
    {s t : Span}
    (h : ofSpan s = ofSpan t) :
    s = t := by
  injection h

end Block

namespace Arena

/-- A block apart from its headers and its queue mark. -/
def outline? (a : Arena) (i : Nat) : Option Block := a.blocks[i]?.map Block.outline

/-- The block is one of small cells of a span. -/
def HasSpan (a : Arena) (i : Nat) (s : Span) : Prop := a.outline? i = some (.ofSpan s)

/-- The block takes part in runs; `n` is the length of the live run that it heads, or zero. -/
def HasRun (a : Arena) (i n : Nat) : Prop := ∃ sh, a.outline? i = some (.large {} n sh)

/-- The partition of the carved blocks. -/
structure Layout (a : Arena) : Prop where
  /-- Exactly the carved blocks have headers. -/
  carved : a.blocks.size = a.pages.next
  /-- The carved blocks lie in the arena. -/
  inside : a.pages.next ≤ a.pages.limit
  /-- The released runs are tidy. -/
  tidy : Run.Tidy a.pages.released
  /-- A block of small cells is full. -/
  full : ∀ (i : Nat) s cells q, a.blocks[i]? = some (Block.small s cells q) →
    cells.size = Block.cellsPer s
  /-- A free block takes part in runs and heads none. -/
  spare : ∀ j, a.pages.Free j → a.HasRun j 0
  /-- The other blocks of a live run head no run and are not free. -/
  tail : ∀ i n j, a.HasRun i n → i < j → j < i + n → a.HasRun j 0 ∧ ¬ a.pages.Free j
  /-- A block that heads no run is free or belongs to a live run. -/
  owned : ∀ j, a.HasRun j 0 → a.pages.Free j ∨ ∃ i n, a.HasRun i n ∧ i < j ∧ j < i + n
  /-- The head of a live run holds an object, and other blocks of runs hold none. -/
  head : ∀ i n, a.HasRun i n →
    ∃ hd, a.header? i 0 = some hd ∧ hd.state = if n = 0 then .free else .allocated

variable {a a' : Arena} {x y i j k n : Nat} {c d : Cell} {s : Span}

theorem SameOutline.outline? (h : SameOutline a a') (i : Nat) : a'.outline? i = a.outline? i :=
  h.blocks i

theorem SameOutline.hasSpan (h : SameOutline a a') : a'.HasSpan i s ↔ a.HasSpan i s := by
  unfold HasSpan
  rw [h.outline?]

theorem SameOutline.hasRun (h : SameOutline a a') : a'.HasRun i n ↔ a.HasRun i n := by
  unfold HasRun
  rw [h.outline?]

theorem lt_size_of_outline? {b : Block} (h : a.outline? i = some b) : i < a.blocks.size := by
  obtain ⟨b', hb', -⟩ := Option.map_eq_some_iff.1 h
  exact (Array.getElem?_eq_some_iff.1 hb').1

theorem hasRun_of_getElem? {hd : Header} {sh : Shape}
    (h : a.blocks[i]? = some (Block.large hd n sh)) :
    a.HasRun i n :=
  ⟨sh, by rw [outline?, h]; rfl⟩

theorem exists_getElem?_of_hasRun (h : a.HasRun i n) :
    ∃ hd sh, a.blocks[i]? = some (Block.large hd n sh) := by
  obtain ⟨sh, h⟩ := h
  obtain ⟨b, hb, hout⟩ := Option.map_eq_some_iff.1 h
  cases b with
  | small s cells q => cases hout
  | large hd m sh' =>
      cases hout
      exact ⟨hd, sh, hb⟩

theorem HasRun.unique {m : Nat} (h : a.HasRun i n) (h' : a.HasRun i m) : n = m := by
  obtain ⟨sh, h⟩ := h
  obtain ⟨sh', h'⟩ := h'
  rw [h] at h'
  injection Option.some.inj h'

theorem HasSpan.unique {t : Span} (h : a.HasSpan i s) (h' : a.HasSpan i t) : s = t :=
  Block.ofSpan_injective (Option.some.inj (h.symm.trans h'))

theorem HasSpan.not_hasRun (h : a.HasSpan i s) : ¬ a.HasRun i n := by
  rintro ⟨sh, h'⟩
  rw [h] at h'
  cases h'

theorem lt_blockBase_succ (h : k < blockSize) : blockBase i + k < blockBase (i + 1) := by
  simp only [blockBase, Nat.add_mul]
  omega

theorem blockBase_add_sub (i k : Nat) : blockBase i + k - start = i * blockSize + k := by
  simp only [blockBase]
  omega

theorem block_of_offset (h : k < blockSize) : (blockBase i + k - start) / blockSize = i := by
  rw [blockBase_add_sub]
  simp only [blockSize] at *
  omega

theorem offset_of_offset (h : k < blockSize) : (blockBase i + k - start) % blockSize = k := by
  rw [blockBase_add_sub]
  simp only [blockSize] at *
  omega

theorem block_of_base (i : Nat) : (blockBase i - start) / blockSize = i := by
  have h := block_of_offset (i := i) (k := 0) (by decide)
  rwa [Nat.add_zero] at h

theorem offset_of_base (i : Nat) : (blockBase i - start) % blockSize = 0 := by
  have h := offset_of_offset (i := i) (k := 0) (by decide)
  rwa [Nat.add_zero] at h

theorem blockBase_le (h : i ≤ j) : blockBase i ≤ blockBase j :=
  Nat.add_le_add_left (Nat.mul_le_mul_right _ h) _

namespace Layout

theorem hasSpan_of_getElem? (hl : a.Layout) {cells : Array Header} {q : Bool}
    (h : a.blocks[i]? = some (Block.small s cells q)) : a.HasSpan i s := by
  have hsize := hl.full i s cells q h
  simp [HasSpan, outline?, h, Block.outline, Block.ofSpan, hsize]

theorem exists_getElem?_of_hasSpan (hl : a.Layout) (h : a.HasSpan i s) :
    ∃ cells q, a.blocks[i]? = some (Block.small s cells q) ∧ cells.size = Block.cellsPer s := by
  obtain ⟨b, hb, hout⟩ := Option.map_eq_some_iff.1 h
  cases b with
  | small t cells q =>
      injection hout with hs
      subst hs
      exact ⟨cells, q, hb, hl.full i _ cells q hb⟩
  | large hd n sh => cases hout

theorem contains_of_lt (hl : a.Layout) (hi : i < a.blocks.size) (hk : k < blockSize) :
    a.contains (blockBase i + k) = true := by
  have hle : i + 1 ≤ a.pages.limit := by
    have := hl.inside
    rw [hl.carved] at hi
    omega
  have hlt := lt_blockBase_succ (i := i) hk
  have hstop : blockBase (i + 1) ≤ a.stop := Nat.add_le_add_left (Nat.mul_le_mul_right _ hle) _
  have hstart : start ≤ blockBase i + k := by
    simp only [blockBase]
    omega
  simp only [contains, Bool.and_eq_true, decide_eq_true_eq]
  exact ⟨hstart, Nat.lt_of_lt_of_le hlt hstop⟩

/-- The cells of a block of small cells are found at the multiples of their size. -/
theorem cell?_small (hl : a.Layout) (hs : a.HasSpan i s) (hk : k < Block.cellsPer s) :
    ∃ hd, a.header? i k = some hd ∧
      a.cell? (blockBase i + k * s.cellSize) =
        some { block := i, index := k, addr := blockBase i + k * s.cellSize, size := s.cellSize,
               shape := s.shape, isLarge := false, header := hd } := by
  obtain ⟨cells, q, hb, hsize⟩ := hl.exists_getElem?_of_hasSpan hs
  have hlt : k * s.cellSize < blockSize := by
    have := Block.cell_lt_blockSize hk
    have := s.cellSize_pos
    omega
  have hat : (Block.small s cells q).cellAt? (k * s.cellSize) = some k := by
    have hdiv : k * s.cellSize / s.cellSize = k := Nat.mul_div_cancel _ s.cellSize_pos
    simp [Block.cellAt?, hdiv, hsize, hk]
  obtain ⟨hd, hhd⟩ := Block.header?_isSome_of_cellAt? hat
  have hheader : a.header? i k = some hd := by
    rw [header?, hb]
    exact hhd
  refine ⟨hd, hheader, cell?_eq_some_iff.2 ⟨?_, .small s cells q, ?_, ?_, hhd, ?_⟩⟩
  · exact hl.contains_of_lt (lt_size_of_outline? hs) hlt
  · rw [block_of_offset hlt, hb]
  · rw [offset_of_offset hlt, hat]
  · exact ⟨(block_of_offset hlt).symm, rfl, rfl, rfl, rfl⟩

/-- A live run is found at the start of its head. -/
theorem cell?_large (hl : a.Layout) {sh : Shape} (hr : a.outline? i = some (.large {} n sh))
    (hn : 0 < n) :
    ∃ hd, a.header? i 0 = some hd ∧ hd.state = .allocated ∧
      a.cell? (blockBase i) =
        some { block := i, index := 0, addr := blockBase i, size := n * blockSize, shape := sh,
               isLarge := true, header := hd } := by
  obtain ⟨hd, hhd, hstate⟩ := hl.head i n ⟨sh, hr⟩
  rw [if_neg (by omega)] at hstate
  obtain ⟨b, hb, hout⟩ := Option.map_eq_some_iff.1 hr
  cases b with
  | small s cells q => cases hout
  | large hd' m sh' =>
      cases hout
      have hlt : 0 < blockSize := by decide
      have hheader : (Block.large hd' n sh).header? 0 = some hd := by
        rw [header?, hb] at hhd
        exact hhd
      refine ⟨hd, hhd, hstate, cell?_eq_some_iff.2 ⟨?_, .large hd' n sh, ?_, ?_, hheader, ?_⟩⟩
      · exact hl.contains_of_lt (lt_size_of_outline? hr) hlt
      · rw [block_of_base, hb]
      · rw [offset_of_base]
        simp [Block.cellAt?, hn]
      · exact ⟨(block_of_base i).symm, rfl, rfl, rfl, rfl⟩

/-- A resolved cell is a small cell of its block or a live run. -/
theorem cell?_cases (hl : a.Layout) (h : a.cell? x = some c) :
    (∃ s, a.HasSpan c.block s ∧ c.index < Block.cellsPer s ∧
        x = blockBase c.block + c.index * s.cellSize ∧ c.size = s.cellSize ∧
        c.shape = s.shape ∧ c.isLarge = false) ∨
      ∃ n sh, a.outline? c.block = some (.large {} n sh) ∧ 0 < n ∧ c.index = 0 ∧
        x = blockBase c.block ∧ c.size = n * blockSize ∧ c.shape = sh ∧ c.isLarge = true ∧
        c.header.state = .allocated := by
  obtain ⟨hc, b, hb, hk, hhd, hblock, haddr, hsize, hshape, hlarge⟩ := cell?_eq_some_iff.1 h
  have hx : x = blockBase c.block + (x - start) % blockSize := by
    have hle := start_le_of_contains hc
    have hdm := Nat.div_add_mod (x - start) blockSize
    rw [hblock, blockBase, Nat.mul_comm]
    omega
  rw [← hblock] at hb
  cases b with
  | small s cells q =>
      left
      simp only [Block.cellAt?] at hk
      split at hk
      · next hcond =>
          have hidx := Option.some.inj hk
          have hcells := hl.full _ s cells q hb
          have hmul := Nat.div_mul_cancel (Nat.dvd_of_mod_eq_zero hcond.1)
          refine ⟨s, hl.hasSpan_of_getElem? hb, ?_, ?_, hsize, hshape, hlarge⟩
          · rw [← hidx, ← hcells]
            exact hcond.2
          · rw [← hidx, hmul]
            exact hx
      · cases hk
  | large hd n sh =>
      right
      simp only [Block.cellAt?] at hk
      split at hk
      · next hcond =>
          have hout : a.outline? c.block = some (.large {} n sh) := by
            rw [outline?, hb]
            rfl
          obtain ⟨hd', hhd', hstate⟩ := hl.head _ n ⟨sh, hout⟩
          have hidx : c.index = 0 := (Option.some.inj hk).symm
          have hheader : c.header = hd' := by
            have hfound := header?_of_cell? h
            rw [hidx, hhd'] at hfound
            exact (Option.some.inj hfound).symm
          rw [if_neg (Nat.ne_of_gt hcond.2), ← hheader] at hstate
          have hbase : x = blockBase c.block := by
            rw [hcond.1] at hx
            exact hx
          exact ⟨n, sh, hout, hcond.2, hidx, hbase, hsize, hshape, hlarge, hstate⟩
      · cases hk

/-- A cell lies in the blocks that it occupies, of which there are `m`. -/
theorem exists_blocks (hl : a.Layout) (h : a.cell? x = some c) :
    ∃ m, 0 < m ∧ blockBase c.block ≤ x ∧ x + c.size ≤ blockBase (c.block + m) ∧
      (a.HasRun c.block m ∧ x = blockBase c.block ∨ m = 1 ∧ ∃ s, a.HasSpan c.block s) := by
  rcases hl.cell?_cases h with
    ⟨s, hs, hk, hx, hsize, -⟩ | ⟨n, sh, hr, hn, -, hx, hsize, -⟩
  · refine ⟨1, Nat.one_pos, ?_, ?_, Or.inr ⟨rfl, s, hs⟩⟩
    · rw [hx]
      exact Nat.le_add_right ..
    · have hle := Block.cell_lt_blockSize hk
      rw [hx, hsize]
      simp only [blockBase, Nat.add_mul]
      omega
  · refine ⟨n, hn, ?_, ?_, Or.inl ⟨⟨sh, hr⟩, hx⟩⟩
    · rw [hx]
    · rw [hx, hsize]
      simp only [blockBase, Nat.add_mul]
      omega

theorem stop_le_of_block_lt (hl : a.Layout) (hx : a.cell? x = some c) (hy : a.cell? y = some d)
    (hlt : c.block < d.block) : x + c.size ≤ y := by
  obtain ⟨m, -, -, hstop, hkind⟩ := hl.exists_blocks hx
  obtain ⟨m', hm', hbase, -, hkind'⟩ := hl.exists_blocks hy
  have hbeyond : c.block + m ≤ d.block := by
    rcases hkind with ⟨hr, -⟩ | ⟨rfl, -⟩
    · refine Nat.le_of_not_lt fun hin => ?_
      -- The second cell would start in the tail of the run of the first one.
      have hzero := (hl.tail _ _ _ hr hlt hin).1
      rcases hkind' with ⟨hr', -⟩ | ⟨-, s, hs⟩
      · exact Nat.ne_of_gt hm' (hr'.unique hzero)
      · exact hs.not_hasRun hzero
    · exact hlt
  exact Nat.le_trans hstop (Nat.le_trans (blockBase_le hbeyond) hbase)

/-- Two cells have no byte in common. -/
theorem disjoint (hl : a.Layout) (hx : a.cell? x = some c) (hy : a.cell? y = some d)
    (hne : x ≠ y) : x + c.size ≤ y ∨ y + d.size ≤ x := by
  rcases Nat.lt_trichotomy c.block d.block with hlt | heq | hlt
  · exact Or.inl (hl.stop_le_of_block_lt hx hy hlt)
  · rcases hl.cell?_cases hx with
      ⟨s, hs, -, hxa, hsize, -⟩ | ⟨n, sh, hr, -, -, hxa, -⟩
    · rcases hl.cell?_cases hy with
        ⟨t, ht, -, hya, hsize', -⟩ | ⟨n, sh, hr, -⟩
      · rw [← heq] at ht hya
        obtain rfl := hs.unique ht
        rw [hxa, hya, hsize, hsize']
        rw [hxa, hya] at hne
        rcases Nat.lt_trichotomy c.index d.index with hlt | hidx | hlt
        · left
          have := Nat.mul_le_mul_right s.cellSize hlt
          rw [Nat.succ_mul] at this
          omega
        · rw [hidx] at hne
          exact absurd rfl hne
        · right
          have := Nat.mul_le_mul_right s.cellSize hlt
          rw [Nat.succ_mul] at this
          omega
      · rw [← heq] at hr
        exact absurd ⟨sh, hr⟩ hs.not_hasRun
    · rcases hl.cell?_cases hy with ⟨t, ht, -⟩ | ⟨n', sh', -, -, -, hya, -⟩
      · rw [← heq] at ht
        exact absurd ⟨sh, hr⟩ ht.not_hasRun
      · rw [← heq, ← hxa] at hya
        exact absurd hya.symm hne
  · exact Or.inr (hl.stop_le_of_block_lt hy hx hlt)

/-- Cells lie in the carved part of the arena. -/
theorem stop_le_next (hl : a.Layout) (hx : a.cell? x = some c) :
    x + c.size ≤ blockBase a.pages.next := by
  obtain ⟨m, hm, -, hstop, hkind⟩ := hl.exists_blocks hx
  refine Nat.le_trans hstop (blockBase_le ?_)
  rw [← hl.carved]
  rcases hkind with ⟨hr, -⟩ | ⟨rfl, s, hs⟩
  · rcases Nat.eq_or_lt_of_le hm with rfl | hlt
    · obtain ⟨sh, hr⟩ := hr
      exact lt_size_of_outline? hr
    · have hlast := (hl.tail _ _ (c.block + m - 1) hr (by omega) (by omega)).1
      obtain ⟨sh, hlast⟩ := hlast
      have := lt_size_of_outline? hlast
      omega
  · exact lt_size_of_outline? hs

/-! ### Changes of headers -/

/-- A change of headers keeps the layout if the heads of runs keep their states. -/
theorem of_sameOutline (hl : a.Layout) (hout : SameOutline a a')
    (hheads : ∀ i n hd, a.HasRun i n → a.header? i 0 = some hd →
      ∃ hd', a'.header? i 0 = some hd' ∧ hd'.state = hd.state) : a'.Layout := by
  have hfree : ∀ j, a'.pages.Free j ↔ a.pages.Free j := fun j => by rw [hout.pages]
  refine ⟨?_, ?_, ?_, ?_, ?_, ?_, ?_, ?_⟩
  · have hnone : ∀ j : Nat, a'.blocks.size ≤ j ↔ a.blocks.size ≤ j := by
      intro j
      rw [← Array.getElem?_eq_none_iff, ← Option.map_eq_none_iff, hout.blocks,
        Option.map_eq_none_iff, Array.getElem?_eq_none_iff]
    have hsize : a'.blocks.size = a.blocks.size :=
      Nat.le_antisymm ((hnone _).2 (Nat.le_refl _)) ((hnone _).1 (Nat.le_refl _))
    rw [hsize, hout.pages, hl.carved]
  · rw [hout.pages]
    exact hl.inside
  · rw [hout.pages]
    exact hl.tidy
  · intro i s cells q hb
    obtain ⟨b, hb', hbout⟩ := hout.symm.exists_block hb
    cases b with
    | small t cells' q' =>
        simp only [Block.outline, Block.small.injEq, and_true] at hbout
        obtain ⟨rfl, hcells⟩ := hbout
        have hsize := congrArg Array.size hcells
        simp only [Array.size_replicate] at hsize
        rw [← hsize]
        exact hl.full i _ cells' q' hb'
    | large hd n sh => cases hbout
  · intro j hj
    exact hout.hasRun.2 (hl.spare j ((hfree j).1 hj))
  · intro i n j hr hlt hin
    obtain ⟨hzero, hnot⟩ := hl.tail i n j (hout.hasRun.1 hr) hlt hin
    exact ⟨hout.hasRun.2 hzero, fun hj => hnot ((hfree j).1 hj)⟩
  · intro j hr
    rcases hl.owned j (hout.hasRun.1 hr) with hj | ⟨i, n, hrun, hin⟩
    · exact Or.inl ((hfree j).2 hj)
    · exact Or.inr ⟨i, n, hout.hasRun.2 hrun, hin⟩
  · intro i n hr
    obtain ⟨hd, hhd, hstate⟩ := hl.head i n (hout.hasRun.1 hr)
    obtain ⟨hd', hhd', hsame⟩ := hheads i n hd (hout.hasRun.1 hr) hhd
    exact ⟨hd', hhd', hsame.trans hstate⟩

/-- A change of the header of one cell keeps the layout if the cell is small or keeps its state. -/
theorem modifyHeader (hl : a.Layout) (hx : a.cell? x = some c) {f : Header → Header}
    (hf : c.isLarge = false ∨ ∀ hd, (f hd).state = hd.state) :
    (a.modifyHeader c.block c.index f).Layout := by
  refine hl.of_sameOutline (sameOutline_modifyHeader ..) fun i n hd hr hhd => ?_
  rw [header?_modifyHeader, hhd]
  by_cases hi : i = c.block ∧ 0 = c.index
  · rw [if_pos hi]
    rcases hf with hsmall | hf
    · rcases hl.cell?_cases hx with ⟨s, hs, -⟩ | ⟨m, sh, -, -, -, -, -, -, hlarge, -⟩
      · rw [hi.1] at hr
        exact absurd hr hs.not_hasRun
      · rw [hsmall] at hlarge
        cases hlarge
    · exact ⟨f hd, rfl, hf hd⟩
  · rw [if_neg hi]
    exact ⟨hd, rfl, rfl⟩

theorem modifyHeaderAt (hl : a.Layout) (x : Nat) {f : Header → Header}
    (hf : ∀ hd, (f hd).state = hd.state) : (a.modifyHeaderAt x f).Layout := by
  unfold Arena.modifyHeaderAt
  split
  · next c hx => exact hl.modifyHeader hx (Or.inr hf)
  · exact hl

theorem withMemory (hl : a.Layout) (f : Memory → Memory) : (a.withMemory f).Layout :=
  hl.of_sameOutline (sameOutline_withMemory ..) fun _ _ hd _ hhd => ⟨hd, hhd, rfl⟩

theorem write (hl : a.Layout) (addr v : Nat) : (a.write addr v).Layout :=
  hl.withMemory fun m => m.write (wordIndex addr) v

theorem resetColors (hl : a.Layout) : a.resetColors.Layout := by
  refine hl.of_sameOutline (sameOutline_resetColors a) fun i n hd _ hhd => ?_
  rw [header?_resetColors, hhd]
  exact ⟨_, rfl, rfl⟩

end Layout

end Arena

end EagerHeap
