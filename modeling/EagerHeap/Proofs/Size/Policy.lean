import EagerHeap.Proofs.Size.Reserved
import Mathlib.Order.ConditionallyCompleteLattice.Basic
import Mathlib.Order.Lattice.Nat
/-!
# The growth policy

The number of elements that the policy asks for is defined here in unbounded numbers. The policy computes
it in machine words, and fails if the count or the bytes leave their ranges. What it returns fills the
space that is reserved for it.

Main results: `nextCapacity_outcomes` and `nextCapacity_fills`.
-/

namespace EagerHeap

namespace Capacity

variable {old needed capacity count other size bytes v : Nat}

/-- The values of slow growth from a capacity that suffice. -/
def widenings (needed capacity : Nat) : Set Nat :=
  {v | needed ≤ v ∧ ∃ n, v = widened^[n] capacity}

/-- The policy asks for `count` elements, in unbounded numbers, of a buffer that grows from `old` to at
least `needed` elements. -/
inductive Demands (old needed : Nat) : Nat → Prop
  /-- More than twice the capacity is taken as it is. -/
  | jumped (hfar : old * 2 < needed) : Demands old needed needed
  /-- A short buffer is doubled, and gets room for an element at least. -/
  | doubled (hnear : needed ≤ old * 2) (hshort : old < doublingLimit) :
      Demands old needed (max (old * 2) 1)
  /-- A long buffer is widened until it suffices. -/
  | stretched {count : Nat} (hnear : needed ≤ old * 2) (hlong : doublingLimit ≤ old)
      (hleast : IsLeast (widenings needed old) count) : Demands old needed count

/-! ### Slow growth -/

theorem add_le_iterate_widened (capacity n : Nat) : capacity + n ≤ widened^[n] capacity := by
  induction n with
  | zero => exact Nat.le_refl _
  | succ n ih =>
      have hlt := lt_widened (widened^[n] capacity)
      rw [Function.iterate_succ_apply']
      omega

/-- Slow growth reaches every demand. -/
theorem exists_isLeast_widenings (needed capacity : Nat) :
    ∃ v, IsLeast (widenings needed capacity) v := by
  have henough := add_le_iterate_widened capacity needed
  have hmem : widened^[needed] capacity ∈ widenings needed capacity := ⟨by omega, needed, rfl⟩
  exact ⟨_, isLeast_csInf ⟨_, hmem⟩⟩

/-- A capacity that suffices is not widened. -/
theorem eq_of_isLeast_widenings
    (hleast : IsLeast (widenings needed capacity) v)
    (hle : needed ≤ capacity) :
    v = capacity := by
  obtain ⟨n, rfl⟩ := hleast.1.2
  have hpast := add_le_iterate_widened capacity n
  have hself : widened^[n] capacity ≤ capacity := hleast.2 ⟨hle, 0, rfl⟩
  omega

/-- A capacity that does not suffice is widened first. -/
theorem isLeast_widenings_widened
    (hleast : IsLeast (widenings needed capacity) v)
    (hlt : capacity < needed) :
    IsLeast (widenings needed (widened capacity)) v := by
  obtain ⟨⟨hle, n, rfl⟩, hlower⟩ := hleast
  cases n with
  | zero => exact absurd hle (Nat.not_le.2 hlt)
  | succ n =>
      refine ⟨⟨hle, n, rfl⟩, ?_⟩
      rintro _ ⟨henough, m, rfl⟩
      exact hlower ⟨henough, m + 1, rfl⟩

theorem le_of_mem_widenings
    (hv : v ∈ widenings needed capacity) :
    capacity ≤ v := by
  obtain ⟨-, n, rfl⟩ := hv
  exact (Nat.le_add_right capacity n).trans (add_le_iterate_widened capacity n)

/-- Slow growth in machine words reaches the least value that suffices, or leaves the range. -/
theorem stretch_of_isLeast
    (hleast : IsLeast (widenings needed capacity) v)
    (hcapacity : capacity < Word.bound) :
    stretch needed capacity = if v < Word.bound then .ok v else .error .sum := by
  -- Induction on the distance from the demand, which every step shortens.
  induction hdist : needed - capacity using Nat.strong_induction_on generalizing capacity with
  | _ dist ih =>
  rw [stretch_eq]
  by_cases hlt : capacity < needed
  · have hwider := lt_widened capacity
    have hnext := isLeast_widenings_widened hleast hlt
    rw [if_pos hlt]
    by_cases hword : widened capacity < Word.bound
    · rw [if_pos hword]
      exact ih (needed - widened capacity) (by omega) hnext hword rfl
    · have hpast := le_of_mem_widenings hnext.1
      rw [if_neg hword, if_neg (by omega)]
  · obtain rfl := eq_of_isLeast_widenings hleast (Nat.not_lt.1 hlt)
    rw [if_neg hlt, if_pos hcapacity]

/-! ### The demand -/

theorem exists_demands (old needed : Nat) : ∃ count, Demands old needed count := by
  by_cases hnear : needed ≤ old * 2
  · by_cases hshort : old < doublingLimit
    · exact ⟨_, .doubled hnear hshort⟩
    · obtain ⟨v, hleast⟩ := exists_isLeast_widenings needed old
      exact ⟨v, .stretched hnear (Nat.not_lt.1 hshort) hleast⟩
  · exact ⟨_, .jumped (Nat.not_le.1 hnear)⟩

namespace Demands

theorem unique
    (hcount : Demands old needed count)
    (hother : Demands old needed other) :
    count = other := by
  cases hcount with
  | jumped hfar =>
      cases hother with
      | jumped => rfl
      | doubled hnear | stretched hnear => omega
  | doubled hnear hshort =>
      cases hother with
      | jumped hfar => omega
      | doubled => rfl
      | stretched _ hlong => omega
  | stretched hnear hlong hleast =>
      cases hother with
      | jumped hfar => omega
      | doubled _ hshort => omega
      | stretched _ _ hleast' => exact hleast.unique hleast'

/-- The demand suffices, for one element at least, and the buffer does not shrink. -/
theorem max_le
    (hd : Demands old needed count) :
    max (max needed old) 1 ≤ count := by
  cases hd with
  | jumped hfar => omega
  | doubled hnear hshort => omega
  | stretched hnear hlong hleast =>
      have henough := hleast.1.1
      have hkept := le_of_mem_widenings hleast.1
      simp only [doublingLimit] at hlong
      omega

/-- A buffer that does not suffice grows by a quarter at least. -/
theorem grows
    (hd : Demands old needed count)
    (hlt : old < needed) :
    5 * old ≤ 4 * count ∧ old < count := by
  cases hd with
  | jumped hfar => omega
  | doubled hnear hshort => omega
  | stretched hnear hlong hleast =>
      have hwider := le_of_mem_widenings (isLeast_widenings_widened hleast hlt).1
      simp only [widened, doublingLimit] at hwider
      omega

end Demands

/-! ### Capacities in machine words -/

/-- The bytes of a buffer are reserved, unless it would exceed the greatest size of a buffer. -/
theorem filled_cases (count size : Nat) :
    (count * size ≤ Word.signedGreatest ∧
        ∃ bytes, reservedSize (count * size) = .ok bytes ∧ filled count size = .ok (bytes / size)) ∨
      (Word.signedGreatest < count * size ∧ filled count size = .error .capacityOverflow) := by
  rw [filled]
  by_cases hfits : count * size ≤ Word.signedGreatest
  · obtain ⟨bytes, hbytes⟩ := exists_reservedSize hfits
    refine Or.inl ⟨hfits, bytes, hbytes, ?_⟩
    rw [if_pos hfits, hbytes]
  · exact Or.inr ⟨Nat.not_le.1 hfits, if_neg hfits⟩

/-- The policy computes the demand, unless it is no machine word. -/
theorem nextCapacity_of_demands
    (hd : Demands old needed count)
    (hold : old < Word.bound)
    (hneeded : needed < Word.bound)
    (hsize : 0 < size) :
    nextCapacity old needed size =
      if count < Word.bound then filled count size else .error (.overflow .sum) := by
  have hgreatest : Word.greatest + 1 = Word.bound := rfl
  have hmax := hd.max_le
  rw [nextCapacity, if_neg hsize.ne']
  cases hd with
  | jumped hfar =>
      have hmany : min (old * 2) Word.greatest < needed := by omega
      have hsame : max (max needed needed) 1 = needed := by omega
      simp only [demanded, if_pos hmany, if_pos hneeded, hsame]
  | doubled hnear hshort =>
      have hfew : ¬ old * 2 < needed := by omega
      simp only [doublingLimit] at hshort
      have hword : max (old * 2) 1 < Word.bound := by
        simp only [Word.bound]
        omega
      have hexact : min (old * 2) Word.greatest = old * 2 := by omega
      have hsame : max (max (old * 2) needed) 1 = max (old * 2) 1 := by omega
      simp only [demanded, hexact, if_neg hfew, doublingLimit, if_pos hshort, if_pos hword, hsame]
  | stretched hnear hlong hleast =>
      have hfew : ¬ min (old * 2) Word.greatest < needed := by omega
      simp only [demanded, if_neg hfew, if_neg (Nat.not_lt.2 hlong), stretch_of_isLeast hleast hold]
      by_cases hword : count < Word.bound
      · have hsame : max (max count needed) 1 = count := by omega
        simp only [if_pos hword, hsame]
      · simp only [if_neg hword]

end Capacity

open Capacity

variable {old needed capacity count size : Nat}

/-- The capacity of a buffer that grows suffices. -/
theorem le_nextCapacity
    (hcapacity : nextCapacity old needed size = .ok capacity) :
    max needed 1 ≤ capacity := by
  rw [nextCapacity] at hcapacity
  split at hcapacity
  · cases hcapacity
  · next hsize =>
      split at hcapacity
      · cases hcapacity
      · next count hcount =>
          rcases filled_cases (max (max count needed) 1) size with
            ⟨-, bytes, hbytes, hok⟩ | ⟨-, hfails⟩
          · obtain rfl := Except.ok.inj (hcapacity.symm.trans hok)
            have hle := (Nat.le_div_iff_mul_le (Nat.pos_of_ne_zero hsize)).2 (le_reservedSize hbytes)
            omega
          · cases hcapacity.symm.trans hfails

/-- What the policy returns, and how it fails. -/
theorem nextCapacity_cases
    (hd : Demands old needed count)
    (hold : old < Word.bound)
    (hneeded : needed < Word.bound)
    (hsize : 0 < size) :
    (count * size ≤ Word.signedGreatest ∧
        ∃ bytes, reservedSize (count * size) = .ok bytes ∧
          nextCapacity old needed size = .ok (bytes / size)) ∨
      (count < Word.bound ∧ Word.signedGreatest < count * size ∧
        nextCapacity old needed size = .error .capacityOverflow) ∨
      (Word.bound ≤ count ∧ nextCapacity old needed size = .error (.overflow .sum)) := by
  rw [nextCapacity_of_demands hd hold hneeded hsize]
  by_cases hword : count < Word.bound
  · rw [if_pos hword]
    rcases filled_cases count size with hfits | ⟨hlarge, hfails⟩
    · exact Or.inl hfits
    · exact Or.inr (Or.inl ⟨hword, hlarge, hfails⟩)
  · rw [if_neg hword]
    exact Or.inr (Or.inr ⟨Nat.not_lt.1 hword, rfl⟩)

/-- The policy returns a capacity exactly if the elements that it asks for fit into a buffer. It fails with
a capacity overflow if their number is a machine word and their bytes do not fit, and in the sum of a
step of slow growth if their number is no machine word. -/
theorem nextCapacity_outcomes
    (hold : old < Word.bound)
    (hneeded : needed < Word.bound)
    (hsize : 0 < size) :
    ∃ count, (∀ other, Demands old needed other ↔ other = count) ∧
      ((∃ capacity, nextCapacity old needed size = .ok capacity) ↔
        count * size ≤ Word.signedGreatest) ∧
      (nextCapacity old needed size = .error .capacityOverflow ↔
        count < Word.bound ∧ Word.signedGreatest < count * size) ∧
      (nextCapacity old needed size = .error (.overflow .sum) ↔ Word.bound ≤ count) ∧
      ∀ o, nextCapacity old needed size = .error o → o = .capacityOverflow ∨ o = .overflow .sum := by
  obtain ⟨count, hd⟩ := exists_demands old needed
  refine ⟨count, fun other => ⟨fun hother => hother.unique hd, fun h => h ▸ hd⟩, ?_⟩
  have hbytes : count ≤ count * size := Nat.le_mul_of_pos_right count hsize
  have hrange : Word.signedGreatest < Word.bound := by decide
  rcases nextCapacity_cases hd hold hneeded hsize with
    ⟨hfits, bytes, -, hok⟩ | ⟨hword, hlarge, hfails⟩ | ⟨hpast, hfails⟩
  · simp [hok, hfits]
    omega
  · simp [hfails, hword, hlarge]
  · simp [hfails, hpast]
    omega

/-- At the top of the range, slow growth asks for more elements than machine words count. -/
theorem nextCapacity_outcomes_past :
    ∃ count, Demands (Word.greatest - 1) Word.greatest count ∧ Word.bound ≤ count ∧
      nextCapacity (Word.greatest - 1) Word.greatest 1 = .error (.overflow .sum) := by
  have hold : Word.greatest - 1 < Word.bound := by decide
  have hneeded : Word.greatest < Word.bound := by decide
  have hfails : nextCapacity (Word.greatest - 1) Word.greatest 1 = .error (.overflow .sum) := rfl
  obtain ⟨count, hunique, -, -, hsum, -⟩ := nextCapacity_outcomes hold hneeded Nat.one_pos
  exact ⟨count, (hunique count).2 rfl, hsum.1 hfails, hfails⟩

/-- The policy can fail in another way than with a capacity overflow. -/
theorem nextCapacity_overflows_sum :
    (¬ ∃ capacity, nextCapacity (Word.greatest - 1) Word.greatest 1 = .ok capacity) ∧
      nextCapacity (Word.greatest - 1) Word.greatest 1 ≠ .error .capacityOverflow ∧
      (nextCapacity (Word.greatest - 1) Word.greatest 1).mapError Failure.text =
        .error "attempt to add with overflow" := by
  have hfails : nextCapacity (Word.greatest - 1) Word.greatest 1 = .error (.overflow .sum) := rfl
  rw [hfails]
  refine ⟨?_, by decide, rfl⟩
  rintro ⟨capacity, hok⟩
  cases hok

/-- A capacity holds the elements that the policy asks for, it is all that fits into the space that is
reserved for them, and a request for it reserves that space again. -/
theorem nextCapacity_fills
    (hold : old < Word.bound)
    (hneeded : needed < Word.bound)
    (hcapacity : nextCapacity old needed size = .ok capacity) :
    0 < size ∧ ∃ count bytes, Demands old needed count ∧ count ≤ capacity ∧
      capacity = bytes / size ∧ reservedSize (capacity * size) = .ok bytes := by
  have hsize : 0 < size := by
    refine Nat.pos_of_ne_zero fun hzero => ?_
    rw [nextCapacity, if_pos hzero] at hcapacity
    cases hcapacity
  obtain ⟨count, hd⟩ := exists_demands old needed
  rcases nextCapacity_cases hd hold hneeded hsize with
    ⟨-, bytes, hbytes, hok⟩ | ⟨-, -, hfails⟩ | ⟨-, hfails⟩
  · obtain rfl := Except.ok.inj (hcapacity.symm.trans hok)
    have hcount : count ≤ bytes / size := (Nat.le_div_iff_mul_le hsize).2 (le_reservedSize hbytes)
    exact ⟨hsize, count, bytes, hd, hcount, rfl,
      reservedSize_of_le hbytes (Nat.mul_le_mul_right size hcount) (Nat.div_mul_le_self bytes size)⟩
  · cases hcapacity.symm.trans hfails
  · cases hcapacity.symm.trans hfails

end EagerHeap
