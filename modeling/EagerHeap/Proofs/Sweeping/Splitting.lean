import EagerHeap.Proofs.Sweeping.Operations
/-!
# Sweeping in steps

A step of the sweeper goes on where the step before has stopped, and sweeping does not look at the
collector. So it does not matter into which steps a sweep is split.

Main results: `sweepBlocks_add`, `sweepStep_sweepStep` and `sweepSteps_eq_sweepStep`.
-/

namespace EagerHeap

namespace Heap

variable {h : Heap} {k : Collector} {b n m budget : Nat}

/-! ### Sweeping does not look at the collector -/

/-- The heap with another collector. -/
def withCollector (h : Heap) (k : Option Collector) : Heap := { h with collector := k }

theorem isDoomed_withCollector (h : Heap) (k : Option Collector) (hd : Header) (x : Nat) :
    (h.withCollector k).isDoomed hd x =
      ((h.isDoomed hd x).1, (h.isDoomed hd x).2.withCollector k) := by
  unfold isDoomed consultRecords withCollector
  split
  · dsimp only
    split
    · split <;> rfl
    · rfl
  · rfl

theorem sweepCell_withCollector (h : Heap) (k : Option Collector) (b i size : Nat) :
    (h.withCollector k).sweepCell b i size =
      ((h.sweepCell b i size).1, (h.sweepCell b i size).2.withCollector k) := by
  unfold sweepCell
  rw [show (h.withCollector k).arena = h.arena from rfl]
  split
  · split
    · rw [isDoomed_withCollector]
      dsimp only
      split <;> rfl
    · rfl
  · rfl

theorem sweepCells_withCollector (h : Heap) (k : Option Collector) (b size i n : Nat) :
    (h.withCollector k).sweepCells b size i n =
      ((h.sweepCells b size i n).1, (h.sweepCells b size i n).2.withCollector k) := by
  induction n generalizing h i with
  | zero => rfl
  | succ n ih =>
      unfold sweepCells
      rw [sweepCell_withCollector]
      dsimp only
      rw [ih]

theorem sweepRun_withCollector (h : Heap) (k : Option Collector) (b : Nat) (hd : Header) (n : Nat) :
    (h.withCollector k).sweepRun b hd n =
      ((h.sweepRun b hd n).1, (h.sweepRun b hd n).2.withCollector k) := by
  unfold sweepRun
  split
  · rw [isDoomed_withCollector]
    dsimp only
    split <;> rfl
  · rfl

theorem offer_withCollector (h : Heap) (k : Option Collector) (b : Nat) :
    (h.withCollector k).offer b = (h.offer b).withCollector k := by
  unfold offer
  rw [show (h.withCollector k).arena = h.arena from rfl]
  split <;> rfl

theorem sweepBlock_withCollector (h : Heap) (k : Option Collector) (b : Nat) :
    (h.withCollector k).sweepBlock b =
      ((h.sweepBlock b).1, (h.sweepBlock b).2.withCollector k) := by
  unfold sweepBlock
  rw [show (h.withCollector k).arena = h.arena from rfl]
  split
  · rw [sweepCells_withCollector]
    dsimp only
    split
    · rw [offer_withCollector]
    · rfl
  · exact sweepRun_withCollector ..
  · rfl

theorem sweepBlocks_withCollector (h : Heap) (k : Option Collector) (b n : Nat) :
    (h.withCollector k).sweepBlocks b n =
      ((h.sweepBlocks b n).1, (h.sweepBlocks b n).2.withCollector k) := by
  induction n generalizing h b with
  | zero => rfl
  | succ n ih =>
      unfold sweepBlocks
      rw [sweepBlock_withCollector]
      dsimp only
      rw [ih]

/-- Sweeping blocks leaves the collector alone. -/
theorem collector_sweepBlocks (h : Heap) (b n : Nat) :
    (h.sweepBlocks b n).2.collector = h.collector :=
  congrArg (fun r => r.2.collector) (sweepBlocks_withCollector h h.collector b n)

/-! ### Splitting a sweep -/

theorem sweepBlocks_add (h : Heap) (b n m : Nat) :
    h.sweepBlocks b (n + m) =
      ({ objects := (h.sweepBlocks b n).1.objects +
            ((h.sweepBlocks b n).2.sweepBlocks (b + n) m).1.objects
         bytes := (h.sweepBlocks b n).1.bytes +
            ((h.sweepBlocks b n).2.sweepBlocks (b + n) m).1.bytes },
        ((h.sweepBlocks b n).2.sweepBlocks (b + n) m).2) := by
  induction n generalizing h b with
  | zero => simp [sweepBlocks]
  | succ n ih =>
      rw [Nat.succ_add]
      simp only [sweepBlocks]
      rw [ih]
      simp only [Nat.add_assoc, Nat.add_comm 1 n]

/-- What a step of the sweeper does, in terms of the blocks that it sweeps. -/
theorem sweepStep_eq
    (hk : h.collector = some k)
    (hn : n ≤ k.sweepLimit - k.sweepNext) :
    h.sweepStep n =
      (h.sweepBlocks k.sweepNext n).2.withCollector (some { k with
        sweepNext := k.sweepNext + n
        swept := k.swept + (h.sweepBlocks k.sweepNext n).1.objects
        bytes := k.bytes + (h.sweepBlocks k.sweepNext n).1.bytes }) := by
  unfold sweepStep
  simp only [hk, Nat.min_eq_left hn, modifyCollector, collector_sweepBlocks, Option.map_some]
  rfl

/-- A step sweeps no more blocks than there are left. -/
theorem sweepStep_min
    (hk : h.collector = some k)
    (n : Nat) :
    h.sweepStep n = h.sweepStep (min n (k.sweepLimit - k.sweepNext)) := by
  unfold sweepStep
  simp only [hk, Nat.min_assoc, Nat.min_self]

/-- A step of the sweeper goes on where the step before has stopped. -/
theorem sweepStep_sweepStep (h : Heap) (n m : Nat) :
    (h.sweepStep n).sweepStep m = h.sweepStep (n + m) := by
  cases hk : h.collector with
  | none =>
      have hnone : ∀ n, h.sweepStep n = h := fun n => by
        unfold sweepStep
        simp only [hk]
      rw [hnone, hnone, hnone]
  | some k =>
      rw [sweepStep_min hk n, sweepStep_min hk (n + m)]
      obtain ⟨d, hd⟩ : ∃ d, d = min n (k.sweepLimit - k.sweepNext) := ⟨_, rfl⟩
      have hle : d ≤ k.sweepLimit - k.sweepNext := hd ▸ Nat.min_le_right ..
      have hfirst := sweepStep_eq hk hle
      rw [← hd]
      have hcollector := congrArg Heap.collector hfirst
      rw [sweepStep_min hcollector]
      obtain ⟨e, he⟩ : ∃ e, e = min m (k.sweepLimit - (k.sweepNext + d)) := ⟨_, rfl⟩
      have hle' : e ≤ k.sweepLimit - (k.sweepNext + d) := he ▸ Nat.min_le_right ..
      rw [← he, show min (n + m) (k.sweepLimit - k.sweepNext) = d + e by omega,
        sweepStep_eq hcollector hle', sweepStep_eq hk (show d + e ≤ _ by omega), hfirst,
        sweepBlocks_withCollector, sweepBlocks_add]
      simp only [Nat.add_assoc]
      rfl

/-- Steps that sweep as many blocks as there are left do the same. -/
theorem sweepStep_of_le
    (hk : h.collector = some k)
    (hn : k.sweepLimit - k.sweepNext ≤ n)
    (hm : k.sweepLimit - k.sweepNext ≤ m) :
    h.sweepStep n = h.sweepStep m := by
  rw [sweepStep_min hk n, sweepStep_min hk m, Nat.min_eq_right hn, Nat.min_eq_right hm]

/-- How far the sweeper is after a step. -/
theorem collector_sweepStep
    (hk : h.collector = some k)
    (n : Nat) :
    ∃ l, (h.sweepStep n).collector = some l ∧ l.sweepLimit = k.sweepLimit ∧
      l.sweepNext = k.sweepNext + min n (k.sweepLimit - k.sweepNext) := by
  rw [sweepStep_min hk, sweepStep_eq hk (Nat.min_le_right ..)]
  exact ⟨_, rfl, rfl, rfl⟩

theorem hasUnswept_iff_after_step
    (hk : h.collector = some k)
    (n : Nat) :
    (h.sweepStep n).hasUnswept = true ↔ n < k.sweepLimit - k.sweepNext := by
  obtain ⟨l, hl, hlimit, hnext⟩ := collector_sweepStep hk n
  unfold hasUnswept
  rw [hl, Option.any_some, decide_eq_true_iff, hlimit, hnext]
  omega

/-- Steps of a budget until nothing is left do what one step does. -/
theorem sweepSteps_eq_sweepStep
    (hbudget : 0 < budget)
    (hk : h.collector = some k)
    (hn : k.sweepLimit - k.sweepNext < n)
    (hm : k.sweepLimit - k.sweepNext ≤ m) :
    sweepSteps budget n h = h.sweepStep m := by
  induction n generalizing h k m with
  | zero => exact absurd hn (Nat.not_lt_zero _)
  | succ n ih =>
      unfold sweepSteps
      dsimp only
      split
      · next hmore =>
          have hlt := (hasUnswept_iff_after_step hk budget).1 hmore
          obtain ⟨l, hl, hlimit, hnext⟩ := collector_sweepStep hk budget
          rw [ih (m := m - budget) hl (by omega) (by omega), sweepStep_sweepStep,
            Nat.add_sub_cancel' (by omega)]
      · next hdone =>
          have hle : k.sweepLimit - k.sweepNext ≤ budget :=
            Nat.le_of_not_lt fun hlt => hdone ((hasUnswept_iff_after_step hk budget).2 hlt)
          exact sweepStep_of_le hk hle hm

end Heap

end EagerHeap
