import EagerHeap.Proofs.Cycle.Outcomes
import EagerHeap.Proofs.Programs
/-!
# The loops of a cycle

A cycle marks as long as objects are gray, looks for stored addresses until there are none, and sweeps as
long as blocks are left. Here these loops are loops, which nothing bounds from outside. They come to an
end on every heap unless a budget is zero, and a cycle that is made of them is the cycle that marks and
sweeps to the end.

Main results: `markToEnd_eq`, `dropCollector_eq` and `loops_end`.
-/

namespace EagerHeap

namespace Heap

variable {h : Heap}

/-- No object is gray, and no address waits for the marker. -/
def MarkedUp (h : Heap) : Prop := h.hasGray = false ∧ h.barrier = #[]

theorem markedUp_markAll (h : Heap) : h.markAll.MarkedUp := ⟨hasGray_markAll h, barrier_markAll h⟩

theorem MarkedUp.resurrectAll
    (hm : h.MarkedUp) :
    h.resurrectAll.2.MarkedUp := by
  rw [Heap.resurrectAll]
  split
  · exact hm
  · exact markedUp_markAll _

theorem workload_shadeRoots (h : Heap) (roots : List Nat) :
    (h.shadeRoots roots).marker.workload = h.marker.workload := by
  cases hc : h.collector.isSome with
  | false =>
      have hnone := Option.isNone_iff_eq_none.1 (Option.isSome_eq_false_iff.1 hc)
      rw [shadeRoots, marking, hnone]
  | true => rw [shadeRoots, marker_marking hc, Marker.workload_shadeAll]

end Heap

namespace Program

variable {σ : Type} (k : Hooks σ)

/-! ### The loops -/

/-- Marks in steps of a budget as long as objects are gray. -/
def markLoop (budget : Nat) : Program σ Unit := repeatWhile (perform (Action.markStep budget))

/-- Sweeps in steps of a budget as long as blocks are left. -/
def sweepLoop (budget : Nat) : Program σ Unit := repeatWhile (perform (Action.sweepStep budget))

/-- Looks for stored addresses and marks, until nothing is gray after a look. -/
def markToEnd : Program σ Unit :=
  repeatWhile do
    perform (Action.adjust Heap.drainBarrier)
    if ← perform (Action.view Heap.hasGray) then
      markLoop Word.greatest
      return true
    else return false

/-- Marks, queues the finalizers of the unreached objects, and marks from these objects on. Gives their
number. -/
def resurrect : Program σ Nat := do
  markLoop Word.greatest
  let dead ← perform (Action.change fun h => (h.resurrectable, h.resurrectable.foldl Heap.resurrect h))
  if dead ≠ [] then
    perform (Action.adjust fun h => h.marking (·.shadeAll dead))
    markLoop Word.greatest
  return dead.length

/-- Shades the roots once more and marks to the end. -/
def finishMarking (roots : Action.Roots σ) : Program σ Unit := do
  perform (Action.require (·.phase = .mark) .phase)
  perform (Action.advancePhase k)
  perform (Action.shadeRoots roots)
  markToEnd

/-- Marks the unreached objects that have finalizers, and begins to sweep. -/
def beginSweep : Program σ Unit := do
  perform (Action.require (·.phase = .termination) .phase)
  let resurrected ← resurrect
  if resurrected ≠ 0 then perform (Action.emit k (.resurrected resurrected))
  perform (Action.advancePhase k)
  perform (Action.adjust Heap.startSweep)

/-- Runs a whole cycle in steps of the budgets that are configured at its beginning. -/
def collect (roots : Action.Roots σ) : Program σ Nat := do
  let config ← perform (Action.view Heap.config)
  perform (Action.beginCycle k roots)
  markLoop config.markBudget
  finishMarking k roots
  beginSweep k
  sweepLoop config.sweepBudget
  perform (Action.finishCycle k)

/-- Sweeps what is left and finishes the cycle. -/
def finishSweep : Program σ Unit := do
  sweepLoop Word.greatest
  let _ ← perform (Action.finishCycle k)

/-- Finishes a cycle that has come to a phase, without roots. -/
def completeCycle : Phase → Program σ Unit
  | .idle => return ()
  | .mark => do
    finishMarking k fun _ => []
    beginSweep k
    finishSweep k
  | .termination => do
    beginSweep k
    finishSweep k
  | .sweep => finishSweep k

/-- Finishes the cycle that is running and detaches the collector. -/
def dropCollector : Program σ Unit := do
  completeCycle k (← perform (Action.view Heap.phase))
  perform (Action.adjust fun h => { h with collector := none })

/-! ### What the loops do -/

variable {k} {budget : Nat} {w : World σ} {roots : Action.Roots σ}

theorem markLoop_eq
    (hbudget : 0 < budget) :
    (markLoop budget : Program σ Unit) = perform (Action.adjust Heap.markAll) := by
  refine repeatWhile_eq_perform fun w => repeats_of_measure (·.markStep budget)
    (fun h => (h.markStep budget).hasGray) (fun h => h.marker.workload) (fun _ => rfl)
    (fun h hmore => ?_) (fun h hlast => ?_) (fun h _ => Heap.markAll_markStep h budget) w
  · rcases Heap.workload_markStep h budget with hlast | hless
    · exact absurd (hmore.symm.trans hlast) Bool.noConfusion
    · omega
  · exact Heap.markStep_eq_markAll hlast

theorem sweepLoop_eq
    (hbudget : 0 < budget) :
    (sweepLoop budget : Program σ Unit) = perform (Action.adjust Heap.sweepAll) := by
  refine repeatWhile_eq_perform fun w => repeats_of_measure (·.sweepStep budget)
    (fun h => (h.sweepStep budget).hasUnswept) (fun h => h.unswept.length) (fun _ => rfl)
    (fun h hmore => ?_) (fun h hlast => ?_) (fun h _ => Heap.sweepAll_sweepStep h budget) w
  · have hless := Heap.length_unswept_sweepStep hmore
    omega
  · refine Heap.sweepStep_eq_sweepAll (Nat.le_of_not_lt fun hlt => ?_)
    rw [(Heap.hasUnswept_sweepStep_iff h budget).2 hlt] at hlast
    cases hlast

theorem markToEnd_eq : (markToEnd : Program σ Unit) = perform (Action.adjust Heap.markAll) := by
  rw [markToEnd, markLoop_eq (by decide)]
  simp only [pure_eq_perform, perform_bind, perform_ite]
  refine repeatWhile_eq_perform fun w => repeats_of_measure
    (fun h => if h.drainBarrier.hasGray then h.drainBarrier.markAll else h.drainBarrier)
    (fun h => h.drainBarrier.hasGray) (fun h => if h.drainBarrier.hasGray then 1 else 0)
    (fun w => ?_) (fun h hmore => ?_) (fun h hlast => ?_) (fun h hmore => ?_) w
  · rw [run_bind_operation]
    change ExceptT.run (ite (w.heap.drainBarrier.hasGray = true) _ _ : Action σ Bool) _ = _
    cases w.heap.drainBarrier.hasGray <;> rfl
  · rw [if_pos hmore, if_pos hmore, Heap.drainBarrier_of_empty (Heap.barrier_markAll _),
      Heap.hasGray_markAll]
    decide
  · rw [hlast]
    rw [← Heap.markStep_zero] at hlast ⊢
    exact Heap.markStep_eq_markAll hlast
  · rw [if_pos hmore, Heap.markAll_markAll, ← Heap.markStep_zero, Heap.markAll_markStep]

theorem resurrect_eq :
    (resurrect : Program σ Nat) =
      perform (Action.adjust Heap.markAll >>= fun _ => Action.change Heap.resurrectAll) := by
  rw [resurrect, markLoop_eq (by decide)]
  simp only [pure_eq_perform, perform_bind, perform_ite]
  refine congrArg (fun x => perform (Action.adjust Heap.markAll >>= x))
    (funext fun _ => funext fun w => ?_)
  refine (run_bind_operation _ _ w).trans ?_
  change ExceptT.run (ite (w.heap.resurrectable ≠ []) _ _ : Action σ Nat) _ =
    (Except.ok w.heap.resurrectAll.1, { w with heap := w.heap.resurrectAll.2 })
  rw [Heap.resurrectAll]
  cases w.heap.resurrectable <;> rfl

theorem finishMarking_eq (k : Hooks σ) (roots : Action.Roots σ) :
    finishMarking k roots = perform (Action.finishMarking k roots) := by
  rw [finishMarking, markToEnd_eq]
  simp only [perform_bind]
  rfl

theorem beginSweep_eq (k : Hooks σ) : beginSweep k = perform (Action.beginSweep k) := by
  rw [beginSweep, resurrect_eq]
  simp only [perform_bind, perform_ite, bind_assoc]
  rfl

theorem finishSweep_eq (k : Hooks σ) :
    finishSweep k = perform (do
      Action.adjust Heap.sweepAll
      let _ ← Action.finishCycle k) := by
  rw [finishSweep, sweepLoop_eq (by decide)]
  simp only [pure_eq_perform, perform_bind]

theorem dropCollector_eq (k : Hooks σ) : dropCollector k = perform (Action.dropCollector k) := by
  have hcomplete : ∀ p, completeCycle k p = perform (do
      if p = .mark then Action.finishMarking k fun _ => []
      if p = .mark ∨ p = .termination then Action.beginSweep k
      if p ≠ .idle then
        Action.adjust Heap.sweepAll
        let _ ← Action.finishCycle k) := by
    intro p
    cases p with
    | idle => rfl
    | mark =>
      rw [completeCycle, finishMarking_eq, beginSweep_eq, finishSweep_eq]
      simp only [perform_bind]
      rfl
    | termination =>
      rw [completeCycle, beginSweep_eq, finishSweep_eq]
      simp only [perform_bind]
      rfl
    | sweep =>
      rw [completeCycle, finishSweep_eq]
      rfl
  rw [dropCollector, Action.dropCollector, Action.completeCycle]
  simp only [hcomplete, perform_bind, bind_assoc]

end Program

/-! ### The ends of all loops -/

namespace Program

variable {σ : Type} {k : Hooks σ} {w : World σ} {budget : Nat}

theorem endsIn_of_eq_adjust
    {P : Program σ Unit} {f : Heap → Heap}
    (hP : P = perform (Action.adjust f))
    (w : World σ) :
    P.EndsIn w (.ok ()) { w with heap := f w.heap } :=
  hP ▸ perform_endsIn _ w

theorem collect_endsIn
    (hk : k.KeepsConfig)
    (hcheck : w.heap.config.check = .ok ())
    (roots : Action.Roots σ) :
    (collect k roots).EndsIn w (ExceptT.run (Action.collect k roots) w).1
      (ExceptT.run (Action.collect k roots) w).2 := by
  have hsame : collect k roots w = perform (Action.collect k roots) w := by
    refine (bind_eq_of_endsIn (perform_endsIn _ w)).trans ?_
    change (do
      perform (Action.beginCycle k roots)
      markLoop w.heap.config.markBudget
      finishMarking k roots
      beginSweep k
      sweepLoop w.heap.config.sweepBudget
      perform (Action.finishCycle k)) w = _
    rw [markLoop_eq (Config.markBudget_pos hcheck), sweepLoop_eq (Config.sweepBudget_pos hcheck),
      finishMarking_eq, beginSweep_eq]
    simp only [perform_bind]
    funext r v
    rw [perform, perform, Action.run_collect hk hcheck]
  intro r v
  rw [hsame]
  exact perform_endsIn _ w r v

/-- Without a budget, marking goes on for ever once an object is gray. -/
theorem not_markLoop_zero
    (hgray : w.heap.drainBarrier.hasGray = true)
    (r : Except Failure Unit) (v : World σ) :
    ¬ markLoop 0 w r v := by
  have hstep : ∀ {u : World σ} {a : Except Failure Bool} {u' : World σ},
      perform (Action.markStep 0) u a u' →
        a = .ok u.heap.drainBarrier.hasGray ∧ u'.heap = u.heap.drainBarrier := by
    intro u a u' hu
    rw [← Heap.markStep_zero]
    cases hu
    exact ⟨rfl, rfl⟩
  intro hloop
  induction hloop with
  | stops hu =>
      obtain ⟨heq, -⟩ := hstep hu
      rw [hgray] at heq
      cases heq
  | fails hu => cases (hstep hu).1
  | goesOn hu _ ih =>
      refine ih ?_
      rw [(hstep hu).2, Heap.drainBarrier_of_empty (Heap.barrier_drainBarrier _)]
      exact hgray

/-- Every loop of a cycle comes to an end. A step of the marker takes as much off the work as its
budget says or empties the list, and shading adds nothing to the work. The loops leave nothing gray
and nothing stored, and each block that is left is swept once. So a cycle ends, and a collector can be
dropped at any time. -/
theorem loops_end
    (hk : k.KeepsConfig)
    (hcheck : w.heap.config.check = .ok ())
    (roots : Action.Roots σ) :
    (∀ budget, 0 < budget →
      ((w.heap.markStep budget).hasGray = false ∨
        (w.heap.markStep budget).marker.workload + budget = w.heap.marker.workload) ∧
      Arena.Recolored w.heap.arena (w.heap.markStep budget).arena ∧
      (∃ g, (markLoop budget).EndsIn w (.ok ()) { w with heap := g } ∧ g.MarkedUp) ∧
      ∃ g, (sweepLoop budget).EndsIn w (.ok ()) { w with heap := g } ∧ g.hasUnswept = false ∧
        g.withCollector w.heap.collector =
          w.heap.unswept.foldl (fun h i => (h.sweepBlock i).2) w.heap) ∧
    (∀ addrs, (w.heap.shadeRoots addrs).marker.workload = w.heap.marker.workload) ∧
    (∃ g, markToEnd.EndsIn w (.ok ()) { w with heap := g } ∧ g.MarkedUp) ∧
    (∃ n g, resurrect.EndsIn w (.ok n) { w with heap := g } ∧ g.MarkedUp) ∧
    (∃ r v, (collect k roots).EndsIn w r v ∧ ExceptT.run (Action.collect k roots) w = (r, v) ∧
      ∀ o, r = .error o → o = .assertion .phase) ∧
    ∃ r v, (dropCollector k).EndsIn w r v ∧ ExceptT.run (Action.dropCollector k) w = (r, v) ∧
      ∀ o, r = .error o → o = .assertion .phase := by
  refine ⟨fun budget hbudget => ⟨Heap.workload_markStep _ _, ?_, ?_, ?_⟩, Heap.workload_shadeRoots _,
    ?_, ?_, ?_, ?_⟩
  · exact (Heap.markStep_steps _ _).recolored
  · exact ⟨_, endsIn_of_eq_adjust (markLoop_eq hbudget) w, Heap.markedUp_markAll _⟩
  · exact ⟨_, endsIn_of_eq_adjust (sweepLoop_eq hbudget) w, Heap.hasUnswept_sweepAll _,
      Heap.sweepAll_eq_foldl _⟩
  · exact ⟨_, endsIn_of_eq_adjust markToEnd_eq w, Heap.markedUp_markAll _⟩
  · refine ⟨w.heap.markAll.resurrectAll.1, w.heap.markAll.resurrectAll.2, ?_,
      (Heap.markedUp_markAll _).resurrectAll⟩
    rw [resurrect_eq]
    exact perform_endsIn _ w
  · refine ⟨_, _, collect_endsIn hk hcheck roots, rfl, fun o ho => ?_⟩
    exact Action.failsByPhase_collect k roots w o _ (Prod.ext ho rfl)
  · refine ⟨_, _, dropCollector_eq k ▸ perform_endsIn _ w, rfl, fun o ho => ?_⟩
    exact Action.failsByPhase_dropCollector k w o _ (Prod.ext ho rfl)

/-- In the middle of marking an address is stored. -/
def storedMidway : List Move :=
  Machine.linkedBuffers ++
    [.begin, .shadeRoots [Arena.blockBase 0], .write (Arena.blockBase 0) 5 (Arena.blockBase 2)]

theorem loops_end_midway :
    ∃ w : World Unit, w.heap = ((Machine.start (.empty Machine.fourBlocks)).run storedMidway).heap ∧
      w.heap.hasGray = true ∧ w.heap.barrier = #[Arena.blockBase 2] ∧
      (∃ g, (markLoop 1).EndsIn w (.ok ()) { w with heap := g } ∧ g.MarkedUp) ∧
      ∃ r v, (dropCollector Machine.idleClient).EndsIn w r v ∧
        ExceptT.run (Action.dropCollector Machine.idleClient) w = (r, v) ∧
        ∀ o, r = .error o → o = .assertion .phase := by
  have hconfig :
      ((Machine.start (.empty Machine.fourBlocks)).run storedMidway).heap.config =
        Machine.fourBlocks := by
    decide +kernel
  have hgray : ((Machine.start (.empty Machine.fourBlocks)).run storedMidway).heap.hasGray = true := by
    decide +kernel
  have hbarrier : ((Machine.start (.empty Machine.fourBlocks)).run storedMidway).heap.barrier =
      #[Arena.blockBase 2] := by
    decide +kernel
  generalize ((Machine.start (.empty Machine.fourBlocks)).run storedMidway).heap = h
    at hconfig hgray hbarrier
  have hcheck : h.config.check = .ok () := by
    rw [hconfig]
    rfl
  obtain ⟨hsteps, -, -, -, -, hdrop⟩ := loops_end (w := ⟨h, ()⟩) Machine.silent_idleClient.keepsConfig
    hcheck fun _ => []
  exact ⟨⟨h, ()⟩, rfl, hgray, hbarrier, (hsteps 1 Nat.one_pos).2.2.1, hdrop⟩

end Program

end EagerHeap
