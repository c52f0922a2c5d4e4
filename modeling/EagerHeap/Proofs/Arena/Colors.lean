import EagerHeap.Proofs.Arena.Layout
/-!
# Changes of colors

Most operations of the collector leave objects and their words alone: `Arena.Alike`. Marking changes
nothing but the colors of objects, and it moves them up only: from white over gray to black.
`Arena.Recolored` is this relation between the arena before and after.
-/

namespace EagerHeap

theorem Header.withColor_self (h : Header) : h.withColor h.color = h := rfl

namespace Arena

/-- The second arena has the same cells in the same states, and the same words. Cells without an
object differ in their color at most. -/
structure Alike (a a' : Arena) : Prop where
  outline : SameOutline a a'
  memory : a'.memory = a.memory
  states : ∀ x c, a.cell? x = some c →
    ∃ hd, a'.cell? x = some { c with header := hd } ∧ hd.state = c.header.state
  spare : ∀ x c, a.cell? x = some c → c.header.state ≠ .allocated →
    ∃ d, a'.cell? x = some { c with header := c.header.withColor d }

namespace Alike

variable {a a' a'' : Arena} {x : Nat} {c : Cell}

theorem refl (a : Arena) : Alike a a :=
  ⟨SameOutline.refl a, rfl, fun _ c hx => ⟨c.header, hx, rfl⟩, fun _ c hx _ => ⟨c.header.color, hx⟩⟩

theorem trans
    (h : Alike a a')
    (h' : Alike a' a'') :
    Alike a a'' := by
  refine ⟨h.outline.trans h'.outline, h'.memory.trans h.memory, fun x c hx => ?_,
    fun x c hx hst => ?_⟩
  · obtain ⟨hd, hcell, hst⟩ := h.states x c hx
    obtain ⟨hd', hcell', hst'⟩ := h'.states x _ hcell
    exact ⟨hd', hcell', hst'.trans hst⟩
  · obtain ⟨d, hcell⟩ := h.spare x c hx hst
    obtain ⟨d', hcell'⟩ := h'.spare x { c with header := c.header.withColor d } hcell hst
    exact ⟨d', hcell'⟩

theorem exists_cell?
    (h : Alike a a')
    (hx : a'.cell? x = some c) :
    ∃ b hd, a.cell? x = some b ∧ c = { b with header := hd } ∧ hd.state = b.header.state := by
  cases hb : a.cell? x with
  | none =>
      rw [h.outline.cell?_eq_none hb] at hx
      cases hx
  | some b =>
      obtain ⟨hd, hcell, hst⟩ := h.states x b hb
      obtain rfl := Option.some.inj (hcell.symm.trans hx)
      exact ⟨b, hd, rfl, rfl, hst⟩

theorem symm (h : Alike a a') : Alike a' a := by
  refine ⟨h.outline.symm, h.memory.symm, fun x c hx => ?_, fun x c hx hst => ?_⟩
  · obtain ⟨b, hd, hb, rfl, heq⟩ := h.exists_cell? hx
    exact ⟨b.header, hb, heq.symm⟩
  · obtain ⟨b, hd, hb, rfl, heq⟩ := h.exists_cell? hx
    obtain ⟨d, hcell⟩ := h.spare x b hb (heq ▸ hst)
    obtain rfl : b.header.withColor d = hd := by
      simpa using hcell.symm.trans hx
    exact ⟨b.header.color, hb⟩

theorem isAllocated
    (h : Alike a a')
    (x : Nat) :
    a'.isAllocated x = a.isAllocated x := by
  unfold Arena.isAllocated
  cases hx : a.cell? x with
  | none => rw [h.outline.cell?_eq_none hx]
  | some c =>
      obtain ⟨hd, hcell, hst⟩ := h.states x c hx
      rw [hcell]
      simp only [hst]

end Alike

theorem alike_resetColors (a : Arena) : Alike a a.resetColors := by
  have hcell : ∀ x c, a.cell? x = some c →
      a.resetColors.cell? x = some { c with header := c.header.withColor .white } := by
    intro x c hx
    rw [cell?_resetColors, hx]
    rfl
  exact ⟨sameOutline_resetColors a, rfl, fun x c hx => ⟨_, hcell x c hx, rfl⟩,
    fun x c hx _ => ⟨.white, hcell x c hx⟩⟩

/-- The second arena differs from the first one in the colors of objects only, and none of them has
moved down. -/
structure Recolored (a a' : Arena) : Prop where
  outline : SameOutline a a'
  memory : a'.memory = a.memory
  headers : ∀ b k hd, a.header? b k = some hd →
    ∃ c, a'.header? b k = some (hd.withColor c) ∧ hd.color.rank ≤ c.rank ∧
      (hd.state ≠ .allocated → c = hd.color)

namespace Recolored

variable {a a' a'' : Arena} {x : Nat} {c : Cell}

theorem refl (a : Arena) : Recolored a a :=
  ⟨SameOutline.refl a, rfl, fun _ _ hd h => ⟨hd.color, h, Nat.le_refl _, fun _ => rfl⟩⟩

theorem trans
    (h : Recolored a a')
    (h' : Recolored a' a'') :
    Recolored a a'' := by
  refine ⟨h.outline.trans h'.outline, h'.memory.trans h.memory, fun b k hd hhd => ?_⟩
  obtain ⟨c, hc, hrank, hkeep⟩ := h.headers b k hd hhd
  obtain ⟨d, hd', hrank', hkeep'⟩ := h'.headers b k _ hc
  refine ⟨d, hd', Nat.le_trans hrank hrank', fun hs => ?_⟩
  exact (hkeep' hs).trans (hkeep hs)

/-- A cell stays where it is, and its header changes in color only. -/
theorem cell?
    (h : Recolored a a')
    (hx : a.cell? x = some c) :
    ∃ d, a'.cell? x = some { c with header := c.header.withColor d } ∧
      c.header.color.rank ≤ d.rank ∧ (c.header.state ≠ .allocated → d = c.header.color) := by
  obtain ⟨hd, hhd, hcell⟩ := h.outline.cell?_eq_some hx
  obtain ⟨d, hd', hrank, hkeep⟩ := h.headers _ _ _ (header?_of_cell? hx)
  rw [hhd] at hd'
  obtain rfl := Option.some.inj hd'
  exact ⟨d, hcell, hrank, hkeep⟩

/-- Every cell of the recolored arena was there before. -/
theorem exists_cell?
    (h : Recolored a a')
    (hx : a'.cell? x = some c) :
    ∃ b d, a.cell? x = some b ∧ c = { b with header := b.header.withColor d } ∧
      b.header.color.rank ≤ d.rank ∧ (b.header.state ≠ .allocated → d = b.header.color) := by
  cases hb : a.cell? x with
  | none =>
      rw [h.outline.cell?_eq_none hb] at hx
      cases hx
  | some b =>
      obtain ⟨d, hcell, hrank, hkeep⟩ := h.cell? hb
      rw [hcell] at hx
      exact ⟨b, d, rfl, (Option.some.inj hx).symm, hrank, hkeep⟩

theorem layout
    (h : Recolored a a')
    (hl : a.Layout) :
    a'.Layout := by
  refine hl.of_sameOutline h.outline fun i n hd _ hhd => ?_
  obtain ⟨c, hc, -⟩ := h.headers i 0 hd hhd
  exact ⟨_, hc, rfl⟩

theorem alike (h : Recolored a a') : Alike a a' := by
  refine ⟨h.outline, h.memory, fun x c hx => ?_, fun x c hx _ => ?_⟩
  · obtain ⟨d, hcell, -⟩ := h.cell? hx
    exact ⟨_, hcell, rfl⟩
  · obtain ⟨d, hcell, -⟩ := h.cell? hx
    exact ⟨d, hcell⟩

theorem isAllocated
    (h : Recolored a a')
    (x : Nat) :
    a'.isAllocated x = a.isAllocated x :=
  h.alike.isAllocated x

/-- A cell without an object keeps its color as well. -/
theorem cell?_spare
    (h : Recolored a a')
    (hx : a.cell? x = some c)
    (hst : c.header.state ≠ .allocated) :
    a'.cell? x = some c := by
  obtain ⟨d, hcell, -, hkeep⟩ := h.cell? hx
  rw [hcell, hkeep hst, Header.withColor_self]

end Recolored

/-- Changing the color of one object upwards. -/
theorem recolored_modifyHeader
    {a : Arena} {x : Nat} {c : Cell} {d : Color}
    (hx : a.cell? x = some c)
    (hs : c.header.state = .allocated)
    (hrank : c.header.color.rank ≤ d.rank) :
    Recolored a (a.modifyHeader c.block c.index (·.withColor d)) := by
  refine ⟨sameOutline_modifyHeader .., rfl, fun b k hd hhd => ?_⟩
  rw [header?_modifyHeader, hhd]
  by_cases hbk : b = c.block ∧ k = c.index
  · rw [hbk.1, hbk.2, header?_of_cell? hx] at hhd
    obtain rfl := Option.some.inj hhd
    rw [if_pos hbk]
    exact ⟨d, rfl, hrank, fun hne => absurd hs hne⟩
  · rw [if_neg hbk]
    exact ⟨hd.color, rfl, Nat.le_refl _, fun _ => rfl⟩

end Arena

end EagerHeap
