import EagerHeap.Proofs.Sweeping.Splitting
/-!
# Sweeping in steps of a budget

A step of the sweeper sweeps as many blocks as its budget says, or all that are left. So steps of any
budget but zero come to an end, and together they sweep each block that is left once, in ascending order.

Main results: `length_unswept_sweepStep`, `sweepAll_sweepStep` and `sweepAll_eq_foldl`.
-/

namespace EagerHeap

namespace Heap

variable {h : Heap} {k : Collector} {budget n : Nat}

/-- The blocks that the attached collector has yet to sweep, in ascending order. -/
def unswept (h : Heap) : List Nat :=
  (h.collector.map fun c => List.range' c.sweepNext (c.sweepLimit - c.sweepNext)).getD []

theorem sweepStep_of_detached
    (hk : h.collector = none)
    (n : Nat) :
    h.sweepStep n = h := by
  unfold sweepStep
  simp only [hk]

theorem length_unswept
    (hk : h.collector = some k) :
    h.unswept.length = k.sweepLimit - k.sweepNext := by
  rw [unswept, hk]
  exact List.length_range'

theorem sweepStep_eq_sweepAll
    (hn : h.unswept.length ≤ n) :
    h.sweepStep n = h.sweepAll := by
  cases hk : h.collector with
  | none => rw [sweepAll, sweepStep_of_detached hk, sweepStep_of_detached hk]
  | some k =>
      rw [length_unswept hk] at hn
      refine sweepStep_of_le hk hn ?_
      rw [sweepLimit, hk]
      exact Nat.sub_le _ _

theorem hasUnswept_sweepStep_iff (h : Heap) (n : Nat) :
    (h.sweepStep n).hasUnswept = true ↔ n < h.unswept.length := by
  cases hk : h.collector with
  | none =>
      rw [sweepStep_of_detached hk, hasUnswept, unswept, hk]
      exact ⟨fun hmore => (Bool.false_ne_true hmore).elim, fun hlt => absurd hlt (Nat.not_lt_zero n)⟩
  | some k => rw [hasUnswept_iff_after_step hk, length_unswept hk]

/-- A step sweeps as many blocks as its budget says, or all that are left. -/
theorem length_unswept_sweepStep
    (hmore : (h.sweepStep n).hasUnswept = true) :
    (h.sweepStep n).unswept.length + n = h.unswept.length := by
  have hlt := (hasUnswept_sweepStep_iff h n).1 hmore
  cases hk : h.collector with
  | none =>
      rw [unswept, hk] at hlt
      exact absurd hlt (Nat.not_lt_zero n)
  | some k =>
      rw [length_unswept hk] at hlt
      obtain ⟨l, hl, hlimit, hnext⟩ := collector_sweepStep hk n
      rw [length_unswept hl, length_unswept hk, hlimit, hnext]
      omega

theorem hasUnswept_sweepAll (h : Heap) : h.sweepAll.hasUnswept = false := by
  rw [← sweepStep_eq_sweepAll (Nat.le_refl _), ← Bool.not_eq_true, hasUnswept_sweepStep_iff]
  exact Nat.lt_irrefl _

/-- Steps beforehand make no difference to sweeping to the end. -/
theorem sweepAll_sweepStep (h : Heap) (n : Nat) : (h.sweepStep n).sweepAll = h.sweepAll := by
  rw [← sweepStep_eq_sweepAll (Nat.le_refl _), sweepStep_sweepStep]
  refine sweepStep_eq_sweepAll ?_
  rcases hmore : (h.sweepStep n).hasUnswept with _ | _
  · rw [← Bool.not_eq_true, hasUnswept_sweepStep_iff] at hmore
    omega
  · have hless := length_unswept_sweepStep hmore
    omega

/-- Steps of any budget but zero until no block is left sweep to the end. -/
theorem sweepLoop_eq_sweepAll
    (hbudget : 0 < budget)
    (h : Heap) :
    h.sweepLoop budget = h.sweepAll := by
  cases hk : h.collector with
  | none =>
      rw [sweepLoop, sweepSteps, sweepAll, sweepStep_of_detached hk, sweepStep_of_detached hk,
        sweepLimit, hasUnswept, hk]
      rfl
  | some k =>
      have hlimit : h.sweepLimit = k.sweepLimit := by
        rw [sweepLimit, hk]
        rfl
      rw [sweepLoop, sweepAll, hlimit]
      exact sweepSteps_eq_sweepStep hbudget hk (by omega) (Nat.sub_le _ _)

theorem sweepBlocks_eq_foldl (h : Heap) (b n : Nat) :
    (h.sweepBlocks b n).2 = (List.range' b n).foldl (fun g i => (g.sweepBlock i).2) h := by
  induction n generalizing h b with
  | zero => rfl
  | succ n ih =>
      rw [List.range'_succ, List.foldl_cons, ← ih]
      rfl

/-- Sweeping to the end sweeps each block that is left once, in ascending order. -/
theorem sweepAll_eq_foldl (h : Heap) :
    h.sweepAll.withCollector h.collector =
      h.unswept.foldl (fun g i => (g.sweepBlock i).2) h := by
  cases hk : h.collector with
  | none =>
      rw [sweepAll, sweepStep_of_detached hk, unswept, hk]
      change { h with collector := none } = h
      rw [← hk]
  | some k =>
      rw [← sweepStep_eq_sweepAll (Nat.le_refl _), length_unswept hk, sweepStep_eq hk (Nat.le_refl _),
        unswept, hk, Option.map_some, Option.getD_some, ← sweepBlocks_eq_foldl]
      change { (h.sweepBlocks _ _).2 with collector := some k } = _
      rw [← hk, ← collector_sweepBlocks h k.sweepNext (k.sweepLimit - k.sweepNext)]

end Heap

end EagerHeap
