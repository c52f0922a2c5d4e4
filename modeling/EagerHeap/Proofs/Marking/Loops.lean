import EagerHeap.Proofs.Run.Barrier
/-!
# Marking in steps of a budget

A step of the marker takes as many entries off the list as its budget says, or empties the list. What is
left to do is the length of the list together with the number of unreached objects: shading moves an
object from one to the other and adds nothing. So steps of any budget but zero come to an end, and they
leave what marking to the end leaves.

Main results: `workload_markStep`, `markAll_markStep` and `markLoop_eq_markAll`.
-/

namespace EagerHeap

namespace Marker

variable {m : Marker} {n k : Nat}

theorem advance_of_nil
    (hm : m.gray = [])
    (n : Nat) :
    advance n m = m := by
  cases n with
  | zero => rfl
  | succ n => rw [advance, hm]

theorem advance_add (n k : Nat) (m : Marker) : advance (n + k) m = advance k (advance n m) := by
  induction n generalizing m with
  | zero => rw [Nat.zero_add, advance]
  | succ n ih =>
      rw [Nat.succ_add]
      cases hgray : m.gray with
      | nil => rw [advance_of_nil hgray, advance_of_nil hgray, advance_of_nil hgray]
      | cons x rest =>
          rw [advance, advance, hgray]
          exact ih _

/-- Each entry that is taken off the list is one less to do. -/
theorem workload_advance (n : Nat) (m : Marker) :
    (advance n m).gray = [] ∨ (advance n m).workload + n = m.workload := by
  induction n generalizing m with
  | zero => exact Or.inr rfl
  | succ n ih =>
      cases hgray : m.gray with
      | nil =>
          rw [advance_of_nil hgray]
          exact Or.inl hgray
      | cons x rest =>
          rw [advance, hgray]
          refine (ih _).imp_right fun hwork => ?_
          rw [workload_blacken] at hwork
          simp only [workload, hgray, List.length_cons] at hwork ⊢
          omega

/-- Two markers that went on until their list was empty did the same. -/
theorem advance_eq_of_nil
    (hn : (advance n m).gray = [])
    (hk : (advance k m).gray = []) :
    advance n m = advance k m := by
  rw [← advance_of_nil hn k, ← advance_add, Nat.add_comm, advance_add, advance_of_nil hk]

theorem complete_of_nil
    (hm : m.gray = []) :
    m.complete = m :=
  advance_of_nil hm _

theorem complete_advance (n : Nat) (m : Marker) : (advance n m).complete = m.complete := by
  have hgray := gray_complete (advance n m)
  rw [complete, ← advance_add] at hgray
  rw [complete, ← advance_add]
  exact advance_eq_of_nil hgray (gray_complete m)

end Marker

namespace Heap

variable {h : Heap} {budget n : Nat} {f g : Marker → Marker}

theorem marking_marking (h : Heap) (f g : Marker → Marker) :
    (h.marking f).marking g = h.marking fun m => g (f m) := by
  cases hk : h.collector with
  | none => simp only [marking, hk]
  | some k => simp only [marking, hk]

theorem marking_congr
    (hfg : f h.marker = g h.marker) :
    h.marking f = h.marking g := by
  cases hk : h.collector with
  | none => simp only [marking, hk]
  | some k =>
      have hmarker : h.marker = ⟨h.arena, k.gray, k.marked⟩ := by
        rw [marker, grays, hk]
        rfl
      rw [hmarker] at hfg
      simp only [marking, hk, hfg]

theorem marking_id (h : Heap) : h.marking (fun m => m) = h := by
  cases hk : h.collector with
  | none => simp only [marking, hk]
  | some k =>
      simp only [marking, hk]
      rw [← hk]

theorem hasGray_eq (h : Heap) : h.hasGray = !h.marker.gray.isEmpty := by
  rw [hasGray, marker, grays]
  cases h.collector <;> rfl

theorem hasGray_eq_false : h.hasGray = false ↔ h.marker.gray = [] := by
  rw [hasGray_eq, Bool.not_eq_false', List.isEmpty_iff]

theorem gray_marking
    (hf : h.collector = none ∨ (f h.marker).gray = []) :
    (h.marking f).marker.gray = [] := by
  cases hk : h.collector with
  | none =>
      rw [marking, hk]
      simp only [marker, grays, hk]
      rfl
  | some k =>
      have hc : h.collector.isSome = true := by rw [hk]; rfl
      rw [marker_marking hc]
      exact hf.resolve_left (by rw [hk]; exact Option.some_ne_none k)

theorem drainBarrier_of_empty
    (hb : h.barrier = #[]) :
    h.drainBarrier = h := by
  have hsame : ({ h with barrier := #[] } : Heap) = h := by rw [← hb]
  rw [drainBarrier, hsame, hb]
  exact marking_id h

/-- Looking at the barrier buffer leaves as much to do. -/
theorem workload_drainBarrier (h : Heap) : h.drainBarrier.marker.workload = h.marker.workload := by
  cases hk : h.collector with
  | none =>
      rw [drainBarrier, marking]
      simp only [hk, marker, grays]
  | some k =>
      have hc : ({ h with barrier := #[] } : Heap).collector.isSome = true := by
        dsimp only
        rw [hk]
        rfl
      rw [drainBarrier, marker_marking hc, Marker.workload_shadeAll]
      rfl

/-- Looking at the barrier buffer is a step without a budget. -/
theorem markStep_zero (h : Heap) : h.markStep 0 = h.drainBarrier := marking_id _

/-- A step takes as many entries off the list as its budget says, or it empties the list. -/
theorem workload_markStep (h : Heap) (n : Nat) :
    (h.markStep n).hasGray = false ∨ (h.markStep n).marker.workload + n = h.marker.workload := by
  rw [markStep]
  cases hc : h.drainBarrier.collector.isSome with
  | false =>
      refine Or.inl (hasGray_eq_false.2 (gray_marking (Or.inl ?_)))
      exact Option.isSome_eq_false_iff.1 hc |> Option.isNone_iff_eq_none.1
  | true =>
      rw [hasGray_eq_false, marker_marking hc, ← workload_drainBarrier h]
      exact Marker.workload_advance n _

theorem hasGray_markAll (h : Heap) : h.markAll.hasGray = false :=
  hasGray_eq_false.2 (gray_marking (Or.inr (Marker.gray_complete _)))

/-- Steps beforehand make no difference to marking to the end. -/
theorem markAll_markStep (h : Heap) (n : Nat) : (h.markStep n).markAll = h.markAll := by
  rw [markAll, drainBarrier_of_empty (barrier_markStep h n), markStep, marking_marking]
  simp only [Marker.complete_advance]
  rfl

/-- A step after which nothing is gray has marked to the end. -/
theorem markStep_eq_markAll
    (hlast : (h.markStep n).hasGray = false) :
    h.markStep n = h.markAll := by
  rw [← markAll_markStep h n, markAll, drainBarrier_of_empty (barrier_markStep h n)]
  refine (marking_id _).symm.trans (marking_congr ?_)
  exact (Marker.complete_of_nil (hasGray_eq_false.1 hlast)).symm

theorem markAll_markAll (h : Heap) : h.markAll.markAll = h.markAll := by
  rw [markAll, drainBarrier_of_empty (barrier_markAll h)]
  refine (marking_congr ?_).trans (marking_id _)
  exact Marker.complete_of_nil (hasGray_eq_false.1 (hasGray_markAll h))

theorem markSteps_eq_markAll
    (hbudget : 0 < budget)
    (hn : h.marker.workload < n) :
    markSteps budget n h = h.markAll := by
  induction n generalizing h with
  | zero => exact absurd hn (Nat.not_lt_zero _)
  | succ n ih =>
      rw [markSteps]
      split
      · next hmore =>
          rcases workload_markStep h budget with hlast | hless
          · rw [hlast] at hmore
            cases hmore
          · rw [ih (by omega), markAll_markStep]
      · next hdone => exact markStep_eq_markAll (Bool.eq_false_iff.2 hdone)

/-- Steps of any budget but zero until nothing is gray mark to the end. -/
theorem markLoop_eq_markAll
    (hbudget : 0 < budget)
    (h : Heap) :
    h.markLoop budget = h.markAll := by
  refine markSteps_eq_markAll hbudget ?_
  have hcount : h.grayCount = h.marker.gray.length := by
    rw [grayCount, marker, grays]
    cases h.collector <;> rfl
  rw [markingWork, Marker.workload, hcount]
  change _ + Marker.unreachedCount h.arena < _
  omega

end Heap

end EagerHeap
