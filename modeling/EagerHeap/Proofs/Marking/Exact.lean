import EagerHeap.Proofs.Arena.Objects
import EagerHeap.Proofs.Marking.Tricolor
import EagerHeap.Proofs.Marking.Workload
/-!
# What marking reaches exactly

Once the gray list is empty, the objects that marking has reached are black, and they are exactly
those that can be reached from the shaded roots. The marker has counted each of them once.

Main results: `Marker.exact_complete` and `Marker.Exact.marked`.
-/

namespace EagerHeap

/-- A condition that holds of one more element of a list counts one more. -/
theorem countP_of_one_more
    {α : Type}
    {l : List α} {p q : α → Bool} {x : α}
    (hn : l.Nodup)
    (hx : x ∈ l)
    (hp : p x = false)
    (hq : q x = true)
    (hother : ∀ y, y ≠ x → q y = p y) :
    l.countP q = l.countP p + 1 := by
  induction l with
  | nil => cases hx
  | cons y l ih =>
      obtain ⟨hy, hn⟩ := List.nodup_cons.1 hn
      rcases List.mem_cons.1 hx with rfl | hx
      · have hrest : l.countP q = l.countP p :=
          List.countP_congr fun z hz => by rw [hother z fun e => hy (e ▸ hz)]
        rw [List.countP_cons_of_pos hq, List.countP_cons_of_neg (by simp [hp]), hrest]
      · have hyx : y ≠ x := fun e => hy (e ▸ hx)
        rw [List.countP_cons, List.countP_cons, ih hn hx, hother y hyx]
        omega

namespace Arena

variable {a a' : Arena} {L : Nat → Prop} {x : Nat} {c : Cell}

/-- Whether an address is that of a black object. -/
def isBlack (a : Arena) (x : Nat) : Bool :=
  (a.cell? x).any fun c => c.header.state = .allocated && c.header.color = .black

/-- The number of black objects. -/
def blackCount (a : Arena) : Nat := a.cells.countP a.isBlack

/-- The objects that satisfy `L` are black, and the others are white. -/
def Marked (a : Arena) (L : Nat → Prop) : Prop :=
  ∀ x c, a.Object x c → (L x ∧ c.header.color = .black) ∨ (¬ L x ∧ c.header.color = .white)

theorem isBlack_iff :
    a.isBlack x = true ↔ ∃ c, a.Object x c ∧ c.header.color = .black := by
  unfold isBlack Object
  cases a.cell? x <;> simp

/-- Blackening an object that was not black counts one more. -/
theorem blackCount_modifyHeader
    (hl : a.Layout)
    (ho : a.Object x c)
    (hc : c.header.color ≠ .black) :
    (a.modifyHeader c.block c.index (·.withColor .black)).blackCount = a.blackCount + 1 := by
  unfold blackCount
  rw [(sameOutline_modifyHeader a c.block c.index _).cells]
  have hcells := cell?_modifyHeader_of_cell ho.1 (·.withColor .black)
  refine countP_of_one_more (x := x) (nodup_cells hl) ((mem_cells hl).2 ⟨c, ho.1⟩) ?_ ?_ ?_
  · unfold isBlack
    rw [ho.1]
    simp [hc]
  · unfold isBlack
    rw [hcells, if_pos rfl]
    simp [ho.2]
  · intro y hy
    unfold isBlack
    rw [hcells, if_neg hy]

/-- If exactly the objects of `L` are black, the black objects are the objects of `L`. -/
theorem Marked.isBlack_iff
    (hm : a.Marked L) :
    a.isBlack x = true ↔ a.isAllocated x = true ∧ L x := by
  rw [Arena.isBlack_iff]
  constructor
  · rintro ⟨c, ho, hc⟩
    rcases hm x c ho with ⟨hL, -⟩ | ⟨-, hw⟩
    · exact ⟨ho.isAllocated, hL⟩
    · rw [hw] at hc
      cases hc
  · rintro ⟨hal, hL⟩
    obtain ⟨c, ho⟩ := exists_object hal
    rcases hm x c ho with ⟨-, hb⟩ | ⟨hnot, -⟩
    · exact ⟨c, ho, hb⟩
    · exact absurd hL hnot

end Arena

namespace Marker

open Arena (Tricolor Within Marked)

variable {m : Marker} {L K : Nat → Prop} {x : Nat} {rest : List Nat}

/-- What holds while objects that satisfy `L` are being marked and nothing is stored. -/
structure Exact (m : Marker) (L : Nat → Prop) : Prop where
  layout : m.arena.Layout
  closed : ∀ x y, L x → m.arena.Points x y → m.arena.isAllocated y = true → L y
  tricolor : Tricolor m.arena m.gray fun _ => False
  within : Within m.arena L
  counted : m.marked = m.arena.blackCount

/-! ### What is black -/

theorem isBlack_shade (m : Marker) (x y : Nat) :
    (m.shade x).arena.isBlack y = m.arena.isBlack y := by
  unfold Arena.isBlack
  rw [cell?_shade]
  split
  · cases m.arena.cell? y with
    | none => rfl
    | some c =>
        simp only [Option.map_some, Option.any_some, Cell.shaded, Header.state_shaded]
        by_cases hu : c.header.isUnreached = true
        · obtain ⟨hst, hw⟩ := Header.isUnreached_iff.1 hu
          simp [Header.shaded, hu, hw]
        · simp [Header.shaded, hu]
  · rfl

theorem blackCount_shade (m : Marker) (x : Nat) :
    (m.shade x).arena.blackCount = m.arena.blackCount := by
  unfold Arena.blackCount
  rw [(recolored_shade m x).outline.cells, funext (isBlack_shade m x)]

theorem marked_shade (m : Marker) (x : Nat) : (m.shade x).marked = m.marked := by
  unfold shade
  split
  · split <;> rfl
  · rfl

theorem counted_shadeAll
    (xs : List Nat)
    (hc : m.marked = m.arena.blackCount) :
    (m.shadeAll xs).marked = (m.shadeAll xs).arena.blackCount := by
  induction xs generalizing m with
  | nil => exact hc
  | cons x xs ih =>
      refine ih (m := m.shade x) ?_
      rw [marked_shade, blackCount_shade]
      exact hc

theorem counted_blacken
    (hl : m.arena.Layout)
    (hc : m.marked = m.arena.blackCount)
    (x : Nat) :
    (m.blacken x).marked = (m.blacken x).arena.blackCount := by
  rcases blacken_cases m x with ⟨-, heq⟩ | ⟨c, ho, hg, heq⟩
  · rw [heq]
    exact hc
  · rw [heq]
    have hcount := Arena.blackCount_modifyHeader hl ho (by rw [hg]; exact Color.noConfusion)
    exact counted_shadeAll (m.arena.pointers c) (m := { m with
      arena := m.arena.modifyHeader c.block c.index (·.withColor .black)
      marked := m.marked + 1 }) (by rw [hcount, hc])

/-! ### The steps of the marker -/

theorem exact_shadeAll
    (xs : List Nat)
    (he : m.Exact L)
    (hxs : ∀ x ∈ xs, m.arena.isAllocated x = true → L x) :
    (m.shadeAll xs).Exact L := by
  have hr := recolored_shadeAll xs m
  refine ⟨hr.layout he.layout, fun x y hx hp hal => ?_, ?_, within_shadeAll xs he.within hxs,
    counted_shadeAll xs he.counted⟩
  · rw [hr.isAllocated] at hal
    exact he.closed x y hx (hr.points_iff.1 hp) hal
  · exact (tricolor_shadeAll xs he.tricolor).mono fun _ h => h.1

theorem exact_blacken
    (he : m.Exact L)
    (hgray : m.gray = x :: rest) :
    ({ m with gray := rest }.blacken x).Exact L := by
  have hr := recolored_blacken { m with gray := rest } x
  have ht := he.tricolor
  rw [hgray] at ht
  refine ⟨hr.layout he.layout, fun x y hx hp hal => ?_, tricolor_blacken he.layout ht, ?_, ?_⟩
  · rw [hr.isAllocated] at hal
    exact he.closed x y hx (hr.points_iff.1 hp) hal
  · exact within_blacken (m := { m with gray := rest }) he.layout he.closed he.within x
  · exact counted_blacken (m := { m with gray := rest }) he.layout he.counted x

theorem exact_advance
    (n : Nat)
    (he : m.Exact L) :
    (advance n m).Exact L := by
  induction n generalizing m with
  | zero => exact he
  | succ n ih =>
      unfold advance
      split
      · exact he
      · next x rest hgray => exact ih (exact_blacken he hgray)

theorem exact_complete (he : m.Exact L) : m.complete.Exact L := exact_advance _ he

/-- Marking may go on with more roots. -/
theorem Exact.widen
    (he : m.Exact L)
    (hLK : ∀ x, L x → K x)
    (hclosed : ∀ x y, K x → m.arena.Points x y → m.arena.isAllocated y = true → K y) :
    m.Exact K :=
  ⟨he.layout, hclosed, he.tricolor, fun x c ho hne => hLK x (he.within x c ho hne), he.counted⟩

/-- When no object is gray any more and the roots are marked, exactly what can be reached is
black. -/
theorem Exact.marked
    {roots : Nat → Prop}
    (he : m.Exact L)
    (hgray : m.gray = [])
    (hL : ∀ x, L x → m.arena.Reachable roots x)
    (hroots : ∀ x c, roots x → m.arena.Object x c → c.header.color ≠ .white) :
    Marked m.arena L := by
  have ht := he.tricolor
  rw [hgray] at ht
  intro x c ho
  cases hcol : c.header.color with
  | white =>
      refine Or.inr ⟨fun hx => ?_, rfl⟩
      exact ht.reached (fun y hy d hd => hroots y d hy hd) (hL x hx) c ho hcol
  | gray => exact absurd (ht.listed x c ho hcol) List.not_mem_nil
  | black =>
      refine Or.inl ⟨he.within x c ho ?_, rfl⟩
      rw [hcol]
      exact Color.noConfusion

end Marker

end EagerHeap
