import EagerHeap.Arena.Basic
/-!
# Cells and their addresses

An address resolves to the cell that starts there. This module says which changes of an arena keep
that resolution and what they do to the header of the resolved cell.

Main statements: `cell?_eq_some_iff` takes a resolution apart, `cell?_modifyHeader` and its kin say
what a change of headers does to every resolved cell, and `cell_ext` says that a cell is known by
its block and its position there.
-/

namespace EagerHeap

namespace Block

/-- The block apart from its headers and its queue mark. -/
def outline : Block → Block
  | small s cells _ => small s (Array.replicate cells.size {}) false
  | large _ n a => large {} n a

@[simp] theorem cellAt?_outline (b : Block) (o : Nat) : b.outline.cellAt? o = b.cellAt? o := by
  cases b <;> simp [outline, cellAt?]

@[simp] theorem objectSize_outline (b : Block) : b.outline.objectSize = b.objectSize := by
  cases b <;> rfl

@[simp] theorem shape_outline (b : Block) : b.outline.shape = b.shape := by
  cases b <;> rfl

@[simp] theorem isLarge_outline (b : Block) : b.outline.isLarge = b.isLarge := by
  cases b <;> rfl

@[simp] theorem outline_modifyHeader (f : Header → Header) (i : Nat) (b : Block) :
    (b.modifyHeader f i).outline = b.outline := by
  cases b with
  | small s cells q => simp [modifyHeader, outline]
  | large h n a =>
    simp only [modifyHeader]
    split <;> rfl

@[simp] theorem outline_mapHeaders (f : Header → Header) (b : Block) :
    (b.mapHeaders f).outline = b.outline := by
  cases b <;> simp [mapHeaders, outline]

@[simp] theorem outline_withQueued (q : Bool) (b : Block) :
    (b.withQueued q).outline = b.outline := by
  cases b <;> rfl

theorem header?_modifyHeader (f : Header → Header) (i j : Nat) (b : Block) :
    (b.modifyHeader f i).header? j = if j = i then (b.header? j).map f else b.header? j := by
  cases b with
  | small s cells q =>
    simp only [modifyHeader, header?, Array.getElem?_modify, eq_comm (a := i)]
  | large h n a =>
    by_cases hi : i = 0
    · subst hi
      by_cases hj : j = 0 <;> simp [modifyHeader, header?, hj]
    · by_cases hj : j = 0
      · have hji : j ≠ i := fun e => hi (e ▸ hj)
        simp [modifyHeader, header?, hi, hji]
      · simp [modifyHeader, header?, hi, hj]

@[simp] theorem header?_mapHeaders (f : Header → Header) (j : Nat) (b : Block) :
    (b.mapHeaders f).header? j = (b.header? j).map f := by
  cases b with
  | small s cells q => simp [mapHeaders, header?]
  | large h n a =>
    by_cases hj : j = 0 <;> simp [mapHeaders, header?, hj]

@[simp] theorem header?_withQueued (q : Bool) (j : Nat) (b : Block) :
    (b.withQueued q).header? j = b.header? j := by
  cases b <;> rfl

/-- A cell of a block has a header. -/
theorem header?_isSome_of_cellAt? {b : Block} {o k : Nat} (h : b.cellAt? o = some k) :
    ∃ hd, b.header? k = some hd := by
  cases b with
  | small s cells q =>
    simp only [cellAt?] at h
    split at h
    · next hc =>
      obtain rfl := Option.some.inj h
      exact ⟨_, Array.getElem?_eq_getElem hc.2⟩
    · cases h
  | large hd n a =>
    simp only [cellAt?] at h
    split at h
    · obtain rfl := Option.some.inj h
      exact ⟨hd, rfl⟩
    · cases h

/-- Within a block, a position belongs to one offset only. -/
theorem cellAt?_inj {b : Block} {o p k : Nat} (ho : b.cellAt? o = some k)
    (hp : b.cellAt? p = some k) : o = p := by
  cases b with
  | small s cells q =>
    simp only [cellAt?] at ho hp
    split at ho
    · next h₁ =>
      split at hp
      · next h₂ =>
        have e : o / s.cellSize = p / s.cellSize :=
          (Option.some.inj ho).trans (Option.some.inj hp).symm
        have d₁ := Nat.div_add_mod o s.cellSize
        have d₂ := Nat.div_add_mod p s.cellSize
        rw [h₁.1, e] at d₁
        rw [h₂.1] at d₂
        exact d₁.symm.trans d₂
      · cases hp
    · cases ho
  | large hd n a =>
    simp only [cellAt?] at ho hp
    split at ho
    · next h₁ =>
      split at hp
      · next h₂ => exact h₁.1.trans h₂.1.symm
      · cases hp
    · cases ho

end Block

namespace Arena

variable {a a' : Arena} {x y : Nat} {c d : Cell}

/-- What it takes for an address to resolve to a cell. -/
theorem cell?_eq_some_iff :
    a.cell? x = some c ↔
      a.contains x = true ∧ ∃ b, a.blocks[(x - start) / blockSize]? = some b ∧
        b.cellAt? ((x - start) % blockSize) = some c.index ∧
        b.header? c.index = some c.header ∧
        c.block = (x - start) / blockSize ∧ c.addr = x ∧ c.size = b.objectSize ∧
        c.shape = b.shape ∧ c.isLarge = b.isLarge := by
  unfold cell?
  constructor
  · intro h
    split at h
    · next hc =>
      obtain ⟨b, hb, h⟩ := Option.bind_eq_some_iff.1 h
      obtain ⟨k, hk, h⟩ := Option.bind_eq_some_iff.1 h
      obtain ⟨hd, hhd, h⟩ := Option.bind_eq_some_iff.1 h
      obtain rfl := Option.some.inj h
      exact ⟨hc, b, hb, hk, hhd, rfl, rfl, rfl, rfl, rfl⟩
    · cases h
  · rintro ⟨hc, b, hb, hk, hhd, h₁, h₂, h₃, h₄, h₅⟩
    rw [if_pos hc]
    obtain ⟨block, index, addr, size, shape, isLarge, header⟩ := c
    simp only at hk hhd h₁ h₂ h₃ h₄ h₅
    subst h₁ h₂ h₃ h₄ h₅
    simp [hb, hk, hhd]

theorem contains_of_cell? (h : a.cell? x = some c) : a.contains x = true :=
  (cell?_eq_some_iff.1 h).1

theorem block_of_cell? (h : a.cell? x = some c) : c.block = (x - start) / blockSize := by
  obtain ⟨-, b, -, -, -, h, -⟩ := cell?_eq_some_iff.1 h
  exact h

theorem addr_of_cell? (h : a.cell? x = some c) : c.addr = x := by
  obtain ⟨-, b, -, -, -, -, h, -⟩ := cell?_eq_some_iff.1 h
  exact h

theorem header?_of_cell? (h : a.cell? x = some c) : a.header? c.block c.index = some c.header := by
  obtain ⟨-, b, hb, -, hhd, hblock, -⟩ := cell?_eq_some_iff.1 h
  rw [header?, hblock, hb]
  exact hhd

theorem start_le_of_contains (h : a.contains x = true) : start ≤ x := by
  simp only [contains, Bool.and_eq_true, decide_eq_true_eq] at h
  exact h.1

/-- No object starts at address zero. -/
theorem ne_zero_of_contains (h : a.contains x = true) : x ≠ 0 := by
  have hle := start_le_of_contains h
  simp only [start] at hle
  omega

/-- A cell is known by its block and its position there. -/
theorem cell_ext (hx : a.cell? x = some c) (hy : a.cell? y = some d) (hb : c.block = d.block)
    (hi : c.index = d.index) : x = y := by
  obtain ⟨hcx, b, hbx, hkx, -, hblockx, -⟩ := cell?_eq_some_iff.1 hx
  obtain ⟨hcy, b', hby, hky, -, hblocky, -⟩ := cell?_eq_some_iff.1 hy
  have hquot : (x - start) / blockSize = (y - start) / blockSize := by
    rw [← hblockx, ← hblocky, hb]
  rw [← hquot, hbx] at hby
  obtain rfl := Option.some.inj hby
  rw [← hi] at hky
  have hrem := Block.cellAt?_inj hkx hky
  have hsub : x - start = y - start := by
    have dx := Nat.div_add_mod (x - start) blockSize
    have dy := Nat.div_add_mod (y - start) blockSize
    rw [hquot, hrem] at dx
    exact dx.symm.trans dy
  have := start_le_of_contains hcx
  have := start_le_of_contains hcy
  omega

/-! ### Changes that keep the outline of the blocks -/

/-- The second arena differs from the first one in headers, queue marks and words only. -/
structure SameOutline (a a' : Arena) : Prop where
  pages : a'.pages = a.pages
  blocks : ∀ i : Nat, a'.blocks[i]?.map Block.outline = a.blocks[i]?.map Block.outline

theorem SameOutline.refl (a : Arena) : SameOutline a a := ⟨rfl, fun _ => rfl⟩

theorem SameOutline.symm (h : SameOutline a a') : SameOutline a' a :=
  ⟨h.pages.symm, fun i => (h.blocks i).symm⟩

theorem SameOutline.trans {a'' : Arena} (h : SameOutline a a') (h' : SameOutline a' a'') :
    SameOutline a a'' :=
  ⟨h'.pages.trans h.pages, fun i => (h'.blocks i).trans (h.blocks i)⟩

theorem SameOutline.contains (h : SameOutline a a') (x : Nat) : a'.contains x = a.contains x := by
  unfold Arena.contains Arena.stop
  rw [h.pages]

/-- A block of one arena has a counterpart in the other one. -/
theorem SameOutline.exists_block {i : Nat} {b : Block} (h : SameOutline a a')
    (hb : a.blocks[i]? = some b) : ∃ b', a'.blocks[i]? = some b' ∧ b'.outline = b.outline := by
  have hout := h.blocks i
  rw [hb, Option.map_some, Option.map_eq_some_iff] at hout
  exact hout

/-- An address resolves to the same cell in both arenas, with a header of its own in each. -/
theorem SameOutline.cell?_eq_some (hout : SameOutline a a') (h : a.cell? x = some c) :
    ∃ hd, a'.header? c.block c.index = some hd ∧ a'.cell? x = some { c with header := hd } := by
  obtain ⟨hc, b, hb, hk, -, hblock, haddr, hsize, hshape, hlarge⟩ := cell?_eq_some_iff.1 h
  obtain ⟨b', hb', hbout⟩ := hout.exists_block hb
  have hk' : b'.cellAt? ((x - start) % blockSize) = some c.index := by
    rw [← Block.cellAt?_outline, hbout, Block.cellAt?_outline, hk]
  obtain ⟨hd, hhd⟩ := Block.header?_isSome_of_cellAt? hk'
  refine ⟨hd, ?_, ?_⟩
  · rw [header?, hblock, hb']
    exact hhd
  · refine cell?_eq_some_iff.2 ⟨?_, b', hb', hk', hhd, hblock, haddr, ?_, ?_, ?_⟩
    · rw [hout.contains, hc]
    · rw [hsize, ← Block.objectSize_outline, ← hbout, Block.objectSize_outline]
    · rw [hshape, ← Block.shape_outline, ← hbout, Block.shape_outline]
    · rw [hlarge, ← Block.isLarge_outline, ← hbout, Block.isLarge_outline]

theorem SameOutline.cell?_eq_none (hout : SameOutline a a') (h : a.cell? x = none) :
    a'.cell? x = none := by
  cases h' : a'.cell? x with
  | none => rfl
  | some c =>
    obtain ⟨hd, -, hcell⟩ := hout.symm.cell?_eq_some h'
    rw [h] at hcell
    cases hcell

/-- Headers that change in one way everywhere show so in every cell. -/
theorem SameOutline.cell?_eq_map (hout : SameOutline a a') (g : Nat → Nat → Header → Header)
    (hg : ∀ b k, a'.header? b k = (a.header? b k).map (g b k)) (x : Nat) :
    a'.cell? x = (a.cell? x).map fun c => { c with header := g c.block c.index c.header } := by
  cases h : a.cell? x with
  | none => exact hout.cell?_eq_none h
  | some c =>
    obtain ⟨hd, hhd, hcell⟩ := hout.cell?_eq_some h
    rw [hg, header?_of_cell? h] at hhd
    obtain rfl := Option.some.inj hhd
    exact hcell

theorem sameOutline_modifyBlock {f : Block → Block} (hf : ∀ b, (f b).outline = b.outline)
    (a : Arena) (i : Nat) : SameOutline a (a.modifyBlock i f) := by
  refine ⟨rfl, fun j => ?_⟩
  simp only [modifyBlock, Array.getElem?_modify]
  split
  · cases a.blocks[j]? <;> simp [hf]
  · rfl

theorem sameOutline_modifyHeader (a : Arena) (b k : Nat) (f : Header → Header) :
    SameOutline a (a.modifyHeader b k f) :=
  sameOutline_modifyBlock (Block.outline_modifyHeader f k) a b

theorem sameOutline_modifyHeaderAt (a : Arena) (x : Nat) (f : Header → Header) :
    SameOutline a (a.modifyHeaderAt x f) := by
  unfold modifyHeaderAt
  split
  · exact sameOutline_modifyHeader ..
  · exact SameOutline.refl a

theorem sameOutline_withQueued (a : Arena) (i : Nat) (q : Bool) :
    SameOutline a (a.modifyBlock i (Block.withQueued q)) :=
  sameOutline_modifyBlock (Block.outline_withQueued q) a i

theorem sameOutline_withMemory (a : Arena) (f : Memory → Memory) :
    SameOutline a (a.withMemory f) := ⟨rfl, fun _ => rfl⟩

theorem sameOutline_write (a : Arena) (addr v : Nat) : SameOutline a (a.write addr v) :=
  sameOutline_withMemory a fun m => m.write (wordIndex addr) v

theorem sameOutline_publish (a : Arena) (b k addr size : Nat) (col : Color) :
    SameOutline a (a.publish b k addr size col) :=
  (sameOutline_withMemory a _).trans (sameOutline_modifyHeader _ b k _)

theorem sameOutline_resetColors (a : Arena) : SameOutline a a.resetColors :=
  ⟨rfl, fun i => by simp [resetColors, Function.comp_def]⟩

theorem header?_modifyHeader (a : Arena) (b k b' k' : Nat) (f : Header → Header) :
    (a.modifyHeader b k f).header? b' k' =
      if b' = b ∧ k' = k then (a.header? b' k').map f else a.header? b' k' := by
  simp only [header?, modifyHeader, modifyBlock, Array.getElem?_modify]
  by_cases hb : b = b'
  · subst hb
    cases a.blocks[b]? with
    | none => simp
    | some block => by_cases hk : k' = k <;> simp [Block.header?_modifyHeader, hk]
  · have hb' : b' ≠ b := fun e => hb e.symm
    simp [hb, hb']

@[simp] theorem header?_withQueued (a : Arena) (i : Nat) (q : Bool) (b k : Nat) :
    (a.modifyBlock i (Block.withQueued q)).header? b k = a.header? b k := by
  simp only [header?, modifyBlock, Array.getElem?_modify]
  split
  · cases a.blocks[b]? <;> simp
  · rfl

theorem header?_resetColors (a : Arena) (b k : Nat) :
    a.resetColors.header? b k = (a.header? b k).map (·.withColor .white) := by
  simp only [header?, resetColors, Array.getElem?_map]
  cases a.blocks[b]? <;> simp

/-- A change of one header shows in the cell that has it, and nowhere else. -/
theorem cell?_modifyHeader (a : Arena) (b k : Nat) (f : Header → Header) (x : Nat) :
    (a.modifyHeader b k f).cell? x =
      (a.cell? x).map fun c =>
        { c with header := if c.block = b ∧ c.index = k then f c.header else c.header } := by
  refine (sameOutline_modifyHeader a b k f).cell?_eq_map
    (fun b' k' hd => if b' = b ∧ k' = k then f hd else hd) (fun b' k' => ?_) x
  rw [header?_modifyHeader]
  split <;> simp

/-- A change of the header of the cell at one address shows at that address only. -/
theorem cell?_modifyHeader_of_cell (h : a.cell? x = some c) (f : Header → Header) (y : Nat) :
    (a.modifyHeader c.block c.index f).cell? y =
      if y = x then some { c with header := f c.header } else a.cell? y := by
  rw [cell?_modifyHeader]
  by_cases hyx : y = x
  · subst hyx
    simp [h]
  · rw [if_neg hyx]
    cases hy : a.cell? y with
    | none => rfl
    | some d =>
      have hne : ¬ (d.block = c.block ∧ d.index = c.index) :=
        fun e => hyx (cell_ext hy h e.1 e.2)
      simp [hne]

theorem cell?_modifyHeaderAt (a : Arena) (x : Nat) (f : Header → Header) (y : Nat) :
    (a.modifyHeaderAt x f).cell? y =
      if y = x then (a.cell? x).map fun c => { c with header := f c.header } else a.cell? y := by
  unfold modifyHeaderAt
  cases h : a.cell? x with
  | none =>
    by_cases hyx : y = x
    · subst hyx
      simp [h]
    · simp [hyx]
  | some c => simp [cell?_modifyHeader_of_cell h]

@[simp] theorem cell?_withMemory (a : Arena) (f : Memory → Memory) (x : Nat) :
    (a.withMemory f).cell? x = a.cell? x := by
  have hsame : ∀ b k, (a.withMemory f).header? b k = (a.header? b k).map id := by
    intro b k
    rw [Option.map_id]
    rfl
  rw [(sameOutline_withMemory a f).cell?_eq_map (fun _ _ => id) hsame]
  simp

@[simp] theorem cell?_write (a : Arena) (addr v x : Nat) : (a.write addr v).cell? x = a.cell? x :=
  a.cell?_withMemory _ x

theorem cell?_resetColors (a : Arena) (x : Nat) :
    a.resetColors.cell? x =
      (a.cell? x).map fun c => { c with header := c.header.withColor .white } :=
  (sameOutline_resetColors a).cell?_eq_map (fun _ _ hd => hd.withColor .white)
    (header?_resetColors a) x

/-! ### Allocated objects -/

theorem isAllocated_iff :
    a.isAllocated x = true ↔ ∃ c, a.cell? x = some c ∧ c.header.state = .allocated := by
  unfold isAllocated
  cases a.cell? x <;> simp

theorem isReached_iff :
    a.isReached x = true ↔
      ∃ c, a.cell? x = some c ∧ c.header.state = .allocated ∧ c.header.color ≠ .white := by
  unfold isReached
  cases a.cell? x <;> simp [Header.isReached]

end Arena

end EagerHeap
