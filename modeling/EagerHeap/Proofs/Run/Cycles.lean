import EagerHeap.Action.Records
import EagerHeap.Proofs.Cycle.Loops
import EagerHeap.Proofs.Run.Operations
/-!
# Operations of the collector as runs of moves

An operation of the collector stops at several stages, at which the client is told of transitions and
events. It unfolds into moves if the client leaves the collector where it is. The same holds of the side
records of a batch, each of which is run while the batch waits.

Main results: `unfolds_collect`, `unfolds_dropCollector` and `retains_runPending`.
-/

namespace EagerHeap

/-- A move of the collector. -/
def Move.OfCollector : Move → Prop
  | .begin | .shadeRoots _ | .markStep _ | .terminate | .finishMarking _ | .resurrect | .enterSweep
  | .zeroSlots | .startSweep | .sweepStep _ | .finish | .closeCycle => True
  | _ => False

/-- A move of a batch of side records. -/
def Move.OfBatches : Move → Prop
  | .startBatch | .fire | .endBatch | .breakBatch => True
  | _ => False

variable {σ : Type}

namespace Course

variable {c : Course σ} {y : Move} {s : Stage} {p : Phase}

/-- A collector is attached, and it stands at a stage in a phase. -/
structure At (s : Stage) (p : Phase) (c : Course σ) : Prop where
  stage : c.machine.stage = s
  phase : c.machine.heap.phase = p
  attached : c.machine.heap.collector.isSome = true

/-- A move of the collector leads to a stage, and to the phase that it enters if it enters one. -/
theorem At.apply
    (h : c.At s p)
    (hc : c.Sane)
    (hy : c.Admits y)
    (hne : y ≠ .detachCollector) :
    (c.apply y).At (c.machine.stageAfter y) (y.enters.getD p) where
  stage := rfl
  phase := by
    rw [← h.phase]
    exact (hc.proper.phase_apply hy.1).1
  attached := hc.proper.isSome_collector_apply hy.1 hne h.attached

/-- A move of the collector from one stage to another one keeps what the moves of the collector keep. -/
theorem At.moves
    {A : Course σ → Prop} {s' : Stage} {p' : Phase}
    (hA : Steady A Move.OfCollector)
    (hc : c.Sane)
    (h : A c ∧ c.At s p)
    (hof : y.OfCollector)
    (hy : c.Admits y)
    (hs : c.machine.stageAfter y = s')
    (hp : y.enters.getD p = p') :
    A (c.apply y) ∧ (c.apply y).At s' p' := by
  refine ⟨hA c y hc h.1 hof hy, ?_⟩
  rw [← hs, ← hp]
  exact h.2.apply hc hy (by rintro rfl; exact hof)

end Course

/-- The client leaves the collector where it is, and it does not undo that slots were zeroed. -/
structure Hooks.Leaves (k : Hooks σ) (A : Course σ → Prop) : Prop where
  abides : ∀ s p, k.Abides fun c => A c ∧ c.At s p
  zeroed : ∀ s p, k.Abides fun c => (A c ∧ c.At s p) ∧ c.ledger.zeroed = true

namespace Action

variable {k : Hooks σ} {A E : Course σ → Prop} {s s' : Stage} {p p' : Phase} {y : Move}

/-! ### Transitions -/

/-- What is reported of a transition after it has taken place. -/
def announcing (k : Hooks σ) (t : Transition) : Action σ Unit := do
  emit k (.phaseChanged t)
  let observers ← view Heap.observers
  if t.after = .sweep then
    let registries ← view fun h => h.knownRegistries.length
    let zeroed ← change Heap.invalidateSlots
    emit k (.slotsInvalidated t.epoch registries zeroed)
  announce k t observers

theorem advancePhase_eq (k : Hooks σ) :
    advancePhase k = (change Heap.nextPhase >>= announcing k : Action σ Unit) := rfl

/-- The collector stays where it is while a transition is announced. On the way into the sweeping phase the
slots are zeroed. -/
theorem unfolds_announcing
    (hA : Steady A Move.OfCollector)
    (hk : k.Leaves A)
    (t : Transition)
    (hs : t.after = .sweep → s = .entering) :
    Unfolds (announcing k t) (fun c => A c ∧ c.At s p)
      (fun _ c => (A c ∧ c.At s p) ∧ (t.after = .sweep → c.ledger.zeroed = true)) E := by
  rw [announcing]
  refine ((hk.abides s p).event.unfolds_emit _).bind fun _ => (unfolds_look _).bind fun observers => ?_
  refine unfolds_ite (fun hsweep => ?_) fun hother =>
    ((hk.abides s p).unfolds_announce t observers).post fun _ _ _ h =>
      ⟨h, fun hsweep => absurd hsweep hother⟩
  refine (unfolds_look _).bind fun registries => ?_
  have hadmits : ∀ c : Course σ, A c ∧ c.At s p → c.Admits .zeroSlots := fun c h =>
    ⟨h.2.stage.trans (hs hsweep), trivial⟩
  refine Unfolds.bind (Q := fun _ c => (A c ∧ c.At s p) ∧ c.ledger.zeroed = true)
    (unfolds_change .zeroSlots trivial (fun _ => rfl) (fun c _ h => hadmits c h)
      fun c hc h => ⟨?_, rfl⟩) fun zeroed => ?_
  · exact Course.At.moves hA hc h trivial (hadmits c h) h.2.stage rfl
  · refine ((hk.zeroed s p).event.unfolds_emit _).bind fun _ => ?_
    exact ((hk.zeroed s p).unfolds_announce t observers).post fun _ _ _ h => ⟨h.1, fun _ => h.2⟩

/-- A move that enters a phase, after which the transition is announced. -/
theorem unfolds_turning
    {f : Heap → Transition × Heap}
    (y : Move) (hplain : y.Plain) (s' : Stage) (p' : Phase)
    (hA : Steady A Move.OfCollector)
    (hk : k.Leaves A)
    (hafter : ∀ h, (f h).1.after = h.phase.next)
    (hf : ∀ m : Machine, (f m.heap).2 = (m.apply y).heap)
    (hof : y.OfCollector)
    (hadmits : ∀ c : Course σ, c.At s p → c.Admits y)
    (hs : ∀ m : Machine, m.stageAfter y = s')
    (hp : y.enters = some p')
    (hsweep : p' = .sweep → s' = .entering) :
    Unfolds (change f >>= announcing k) (fun c => A c ∧ c.At s p)
      (fun _ c => (A c ∧ c.At s' p') ∧ (p' = .sweep → c.ledger.zeroed = true)) E := by
  refine Unfolds.bind (Q := fun t c => (A c ∧ c.At s' p') ∧ t.after = p')
    (unfolds_change y hplain (fun c => hf c.machine) (fun c _ h => hadmits c h.2) fun c hc h => ?_)
    fun t => ?_
  · have hy := hadmits c h.2
    refine ⟨Course.At.moves hA hc h hof hy (hs _) (by rw [hp]; rfl), ?_⟩
    rw [hafter]
    exact (hc.proper.phase_apply hy.1).2 p' hp
  · rintro c hc ⟨h, rfl⟩
    exact unfolds_announcing hA hk t hsweep c hc h

/-! ### Marking -/

theorem beginCycle_eq (k : Hooks σ) (roots : Roots σ) :
    beginCycle k roots = (do
      require (·.phase = .idle) .phase
      (change fun h => h.resetCycle.nextPhase) >>= announcing k
      shadeRoots roots
      emit k (.cycleStarted (← view Heap.epoch) (← view Heap.grayCount))) := rfl

/-- The collector between two operations. -/
def Rests (A : Course σ → Prop) (c : Course σ) : Prop := ∃ p, A c ∧ c.At .resting p

theorem unfolds_shadeRoots
    (hA : Steady A Move.OfCollector)
    (roots : Roots σ) :
    Unfolds (shadeRoots roots) (fun c => A c ∧ c.At .beginning p) (fun _ c => A c ∧ c.At .resting p)
      E := by
  intro c hc h
  have hy : c.Admits (.shadeRoots (roots c.world)) := ⟨h.2.stage, trivial⟩
  exact ⟨_, hy.goes trivial, Or.inl ⟨(), rfl, Course.At.moves hA hc h trivial hy rfl rfl⟩⟩

theorem unfolds_beginCycle
    (hA : Steady A Move.OfCollector)
    (hk : k.Leaves A)
    (roots : Roots σ) :
    Unfolds (beginCycle k roots) (fun c => A c ∧ c.At .resting p)
      (fun _ c => A c ∧ c.At .resting .mark) (Rests A) := by
  rw [beginCycle_eq]
  refine Unfolds.bind (Q := fun _ c => A c ∧ c.At .resting .idle) (unfolds_require _
    (fun c _ h hidle => ⟨h.1, h.2.stage, of_decide_eq_true hidle, h.2.attached⟩)
    fun c _ h _ => ⟨p, h⟩) fun _ => ?_
  refine Unfolds.bind ((unfolds_turning .begin trivial .beginning .mark hA hk
    (fun _ => rfl) (fun _ => rfl) trivial
    (fun c h => ⟨⟨h.stage, h.phase, h.attached⟩, trivial⟩) (fun _ => rfl) rfl nofun).post
    fun _ _ _ h => h.1) fun _ => ?_
  refine Unfolds.bind (unfolds_shadeRoots hA roots) fun _ => ?_
  refine (unfolds_look _).bind fun epoch => (unfolds_look _).bind fun grays => ?_
  exact (hk.abides _ _).event.unfolds_emit _

/-- A step of the marker or of the sweeper is one move, and says what it has left. -/
theorem unfolds_step
    {f : Heap → Heap}
    (hA : Steady A Move.OfCollector)
    (more : Heap → Bool)
    (hplain : y.Plain)
    (hf : ∀ m : Machine, f m.heap = (m.apply y).heap)
    (hof : y.OfCollector)
    (hadmits : ∀ c : Course σ, c.At .resting p → c.Admits y)
    (hs : ∀ m : Machine, m.stageAfter y = m.stage)
    (hp : y.enters = none) :
    Unfolds (do adjust f; view more : Action σ Bool) (fun c => A c ∧ c.At .resting p)
      (fun _ c => A c ∧ c.At .resting p) E := by
  refine Unfolds.bind (Q := fun _ c => A c ∧ c.At .resting p) (unfolds_adjust y hplain
    (fun c => hf c.machine) (fun c _ h => hadmits c h.2) fun c hc h => ?_) fun _ => unfolds_look more
  exact Course.At.moves hA hc h hof (hadmits c h.2) ((hs _).trans h.2.stage) (by rw [hp]; rfl)

theorem unfolds_markStep
    (hA : Steady A Move.OfCollector)
    (n : Nat) :
    Unfolds (markStep n) (fun c => A c ∧ c.At .resting p) (fun _ c => A c ∧ c.At .resting p) E :=
  unfolds_step (y := .markStep n) hA Heap.hasGray trivial (fun _ => rfl) trivial
    (fun _ h => ⟨h.stage, trivial⟩) (fun _ => rfl) rfl

theorem unfolds_sweepStep
    (hA : Steady A Move.OfCollector)
    (n : Nat) :
    Unfolds (sweepStep n) (fun c => A c ∧ c.At .resting p) (fun _ c => A c ∧ c.At .resting p) E :=
  unfolds_step (y := .sweepStep n) hA Heap.hasUnswept trivial (fun _ => rfl) trivial
    (fun _ h => ⟨h.stage, trivial⟩) (fun _ => rfl) rfl

/-- A loop of steps is as many moves. The induction is on the number of steps that are left. -/
theorem unfolds_loop
    {f : Heap → Heap} {more : Heap → Bool}
    (y : Move) (hplain : y.Plain) (loop : Nat → Heap → Heap)
    (hA : Steady A Move.OfCollector)
    (hzero : ∀ h, loop 0 h = h)
    (hsucc : ∀ n h, loop (n + 1) h = if more (f h) then loop n (f h) else f h)
    (hf : ∀ m : Machine, f m.heap = (m.apply y).heap)
    (hof : y.OfCollector)
    (hadmits : ∀ c : Course σ, c.At .resting p → c.Admits y)
    (hs : ∀ m : Machine, m.stageAfter y = m.stage)
    (hp : y.enters = none)
    (limit : Heap → Nat) :
    Unfolds (adjust fun h => loop (limit h) h : Action σ Unit) (fun c => A c ∧ c.At .resting p)
      (fun _ c => A c ∧ c.At .resting p) E := by
  suffices hloop : ∀ n (c : Course σ), c.Sane → A c ∧ c.At .resting p → ∃ d, c.Goes d ∧
      d.world = ⟨loop n c.machine.heap, c.client⟩ ∧ A d ∧ d.At .resting p by
    intro c hc h
    obtain ⟨d, hg, hd, hA'⟩ := hloop (limit c.machine.heap) c hc h
    exact ⟨d, hg, Or.inl ⟨(), by rw [hd]; rfl, hA'⟩⟩
  intro n
  induction n with
  | zero => exact fun c _ h => ⟨c, .refl c, by rw [hzero]; rfl, h⟩
  | succ n ih =>
      intro c hc h
      have hy := hadmits c h.2
      have hstep : A (c.apply y) ∧ (c.apply y).At .resting p :=
        Course.At.moves hA hc h hof hy ((hs _).trans h.2.stage) (by rw [hp]; rfl)
      rw [hsucc, hf c.machine]
      split
      · obtain ⟨d, hg, hd, hA'⟩ := ih (c.apply y) (hc.apply hy) hstep
        exact ⟨d, (hy.goes hplain).trans hg, hd, hA'⟩
      · exact ⟨c.apply y, hy.goes hplain, rfl, hstep⟩

theorem unfolds_markLoop
    (hA : Steady A Move.OfCollector)
    (budget : Heap → Nat) :
    Unfolds (adjust fun h => h.markLoop (budget h) : Action σ Unit) (fun c => A c ∧ c.At .resting p)
      (fun _ c => A c ∧ c.At .resting p) E := by
  intro c hc h
  exact unfolds_loop (.markStep (budget c.machine.heap)) trivial
    (Heap.markSteps (budget c.machine.heap)) hA (fun _ => rfl) (fun _ _ => rfl) (fun _ => rfl)
    trivial (fun _ h => ⟨h.stage, trivial⟩) (fun _ => rfl) rfl Heap.markingWork c hc h

theorem unfolds_finishMarking
    (hA : Steady A Move.OfCollector)
    (hk : k.Leaves A)
    (roots : Roots σ) :
    Unfolds (finishMarking k roots) (fun c => A c ∧ c.At .resting p)
      (fun _ c => A c ∧ c.At .resting .termination) (Rests A) := by
  rw [finishMarking, advancePhase_eq]
  refine Unfolds.bind (Q := fun _ c => A c ∧ c.At .resting .mark) (unfolds_require _
    (fun c _ h hmark => ⟨h.1, h.2.stage, of_decide_eq_true hmark, h.2.attached⟩)
    fun c _ h _ => ⟨p, h⟩) fun _ => ?_
  refine Unfolds.bind ((unfolds_turning .terminate trivial .finishing .termination hA hk
    (fun _ => rfl) (fun _ => rfl) trivial (fun c h => ⟨⟨h.stage, h.phase⟩, trivial⟩) (fun _ => rfl) rfl
    nofun).post fun _ _ _ h => h.1) fun _ => ?_
  -- The roots are shaded and everything is marked in one piece.
  intro c hc h
  have hy : c.Admits (.finishMarking (roots c.world)) := ⟨h.2.stage, trivial⟩
  exact ⟨_, hy.goes trivial, Or.inl ⟨(), rfl, Course.At.moves hA hc h trivial hy rfl rfl⟩⟩

/-! ### Sweeping -/

theorem beginSweep_eq (k : Hooks σ) :
    beginSweep k = (do
      require (·.phase = .termination) .phase
      let resurrected ← change fun h => h.markAll.resurrectAll
      if resurrected ≠ 0 then emit k (.resurrected resurrected)
      change Heap.nextPhase >>= announcing k
      adjust Heap.startSweep) := rfl

theorem unfolds_beginSweep
    (hA : Steady A Move.OfCollector)
    (hk : k.Leaves A) :
    Unfolds (beginSweep k) (fun c => A c ∧ c.At .resting p) (fun _ c => A c ∧ c.At .resting .sweep)
      (Rests A) := by
  rw [beginSweep_eq]
  refine Unfolds.bind (Q := fun _ c => A c ∧ c.At .resting .termination) (unfolds_require _
    (fun c _ h hmarked => ⟨h.1, h.2.stage, of_decide_eq_true hmarked, h.2.attached⟩)
    fun c _ h _ => ⟨p, h⟩) fun _ => ?_
  have hadmits : ∀ c : Course σ, c.At .resting .termination → c.Admits .resurrect := fun c h =>
    ⟨⟨h.stage, h.phase⟩, trivial⟩
  refine Unfolds.bind (Q := fun _ c => A c ∧ c.At .resurrected .termination) (unfolds_change
    .resurrect trivial (fun _ => rfl) (fun c _ h => hadmits c h.2) fun c hc h =>
      Course.At.moves hA hc h trivial (hadmits c h.2) rfl rfl) fun resurrected => ?_
  have hrest : Unfolds (do change Heap.nextPhase >>= announcing k; adjust Heap.startSweep : Action σ Unit)
      (fun c => A c ∧ c.At .resurrected .termination) (fun _ c => A c ∧ c.At .resting .sweep)
      (Rests A) := by
    refine Unfolds.bind (unfolds_turning .enterSweep trivial .entering .sweep hA hk
      (fun _ => rfl) (fun _ => rfl) trivial (fun c h => ⟨h.stage, trivial⟩) (fun _ => rfl) rfl
      fun _ => rfl) fun _ => ?_
    refine unfolds_moves (·.apply .startSweep) (fun _ => .ok ()) (fun _ => rfl) (fun c _ h => ?_)
      (fun c _ hc h _ => ?_) fun _ _ _ _ h => nomatch h
    · exact Course.Admits.leads ⟨h.1.2.stage, trivial⟩ ⟨h.2 rfl, rfl⟩
    · exact Course.At.moves hA hc h.1 trivial ⟨h.1.2.stage, trivial⟩ rfl rfl
  exact unfolds_ite (fun _ => ((hk.abides _ _).event.unfolds_emit _).bind fun _ => hrest) fun _ => hrest

theorem unfolds_sweepLoop
    (hA : Steady A Move.OfCollector)
    (budget : Heap → Nat) :
    Unfolds (adjust fun h => h.sweepLoop (budget h) : Action σ Unit) (fun c => A c ∧ c.At .resting p)
      (fun _ c => A c ∧ c.At .resting p) E := by
  intro c hc h
  exact unfolds_loop (.sweepStep (budget c.machine.heap)) trivial
    (Heap.sweepSteps (budget c.machine.heap)) hA (fun _ => rfl) (fun _ _ => rfl) (fun _ => rfl)
    trivial (fun _ h => ⟨h.stage, trivial⟩) (fun _ => rfl) rfl (fun h => h.sweepLimit + 1) c hc h

theorem unfolds_finishCycle
    (hA : Steady A Move.OfCollector)
    (hk : k.Leaves A) :
    Unfolds (finishCycle k) (fun c => A c ∧ c.At .resting p) (fun _ c => A c ∧ c.At .resting .idle)
      (Rests A) := by
  rw [finishCycle, advancePhase_eq]
  refine Unfolds.bind (Q := fun _ c => A c ∧ c.At .resting .sweep) (unfolds_require _
    (fun c _ h hsweep => ⟨h.1, h.2.stage, of_decide_eq_true hsweep, h.2.attached⟩)
    fun c _ h _ => ⟨p, h⟩) fun _ => ?_
  refine Unfolds.bind ((unfolds_turning .finish trivial .closing .idle hA hk
    (fun _ => rfl) (fun _ => rfl) trivial (fun c h => ⟨⟨h.stage, h.phase⟩, trivial⟩) (fun _ => rfl) rfl
    nofun).post fun _ _ _ h => h.1) fun _ => ?_
  have hadmits : ∀ c : Course σ, c.At .closing .idle → c.Admits .closeCycle := fun c h =>
    ⟨h.stage, trivial⟩
  refine Unfolds.bind (Q := fun _ c => A c ∧ c.At .resting .idle) (unfolds_change .closeCycle trivial
    (fun _ => rfl) (fun c _ h => hadmits c h.2) fun c hc h =>
      Course.At.moves hA hc h trivial (hadmits c h.2) rfl rfl) fun report => ?_
  cases report with
  | some r => exact ((hk.abides _ _).event.unfolds_emit _).bind fun _ => unfolds_pure fun _ _ h => h
  | none => exact unfolds_pure fun _ _ h => h

/-! ### Whole cycles -/

theorem unfolds_collect
    (hA : Steady A Move.OfCollector)
    (hk : k.Leaves A)
    (roots : Roots σ) :
    Unfolds (collect k roots) (fun c => A c ∧ c.At .resting p) (fun _ c => A c ∧ c.At .resting .idle)
      (Rests A) := by
  rw [collect]
  refine Unfolds.bind (unfolds_beginCycle hA hk roots) fun _ => ?_
  refine Unfolds.bind (unfolds_markLoop hA fun h => h.config.markBudget) fun _ => ?_
  refine Unfolds.bind (unfolds_finishMarking hA hk roots) fun _ => ?_
  refine Unfolds.bind (unfolds_beginSweep hA hk) fun _ => ?_
  refine Unfolds.bind (unfolds_sweepLoop hA fun h => h.config.sweepBudget) fun _ => ?_
  exact unfolds_finishCycle hA hk

theorem retains_collectTimes
    (hA : Steady A Move.OfCollector)
    (hk : k.Leaves A)
    (roots : Roots σ) (n : Nat) :
    Retains (collectTimes k roots n) (Rests A) := by
  induction n with
  | zero => exact retains_pure ()
  | succ n ih =>
      rw [collectTimes]
      refine Unfolds.bind (Q := fun _ => Rests A) ?_ fun _ => ih
      rintro c hc ⟨p, h⟩
      exact ((unfolds_collect hA hk roots).post fun _ _ _ h => ⟨.idle, h⟩) c hc h

/-- The cycle that is running is finished, whatever its phase is. -/
theorem unfolds_completeCycle
    (hA : Steady A Move.OfCollector)
    (hk : k.Leaves A) :
    Unfolds (completeCycle k) (fun c => A c ∧ c.At .resting p) (fun _ c => A c ∧ c.At .resting .idle)
      (Rests A) := by
  rw [completeCycle]
  refine Unfolds.bind (Q := fun q c => (A c ∧ c.At .resting p) ∧ q = p)
    (unfolds_view fun c _ h => ⟨h, h.2.phase⟩) fun q => ?_
  have hfinish : Unfolds (do adjust Heap.sweepAll; let _ ← finishCycle k : Action σ Unit)
      (fun c => A c ∧ c.At .resting .sweep) (fun _ c => A c ∧ c.At .resting .idle) (Rests A) := by
    refine Unfolds.bind (Q := fun _ c => A c ∧ c.At .resting .sweep) ?_ fun _ =>
      (unfolds_finishCycle hA hk).bind fun _ => unfolds_pure fun _ _ h => h
    intro c hc h
    have hy : c.Admits (.sweepStep c.machine.heap.sweepLimit) := ⟨h.2.stage, trivial⟩
    exact ⟨_, hy.goes trivial, Or.inl ⟨(), rfl, Course.At.moves hA hc h trivial hy h.2.stage rfl⟩⟩
  rintro c hc ⟨h, rfl⟩
  revert c
  change Unfolds _ (fun c => A c ∧ c.At .resting q) _ _
  have hsweep : Unfolds (do beginSweep k; adjust Heap.sweepAll; let _ ← finishCycle k : Action σ Unit)
      (fun c => A c ∧ c.At .resting .termination) (fun _ c => A c ∧ c.At .resting .idle) (Rests A) :=
    Unfolds.bind (unfolds_beginSweep hA hk) fun _ => hfinish
  cases q with
  | idle => exact unfolds_pure fun _ _ h => h
  | mark => exact Unfolds.bind (unfolds_finishMarking hA hk _) fun _ => hsweep
  | termination => exact hsweep
  | sweep => exact hfinish

theorem unfolds_dropCollector
    {Q : Course σ → Prop}
    (hA : Steady A Move.OfCollector)
    (hk : k.Leaves A)
    (hdetach : ∀ c, c.Sane → A c → c.At .resting .idle → Q (c.apply .detachCollector)) :
    Unfolds (dropCollector k) (Rests A) (fun _ => Q) (Rests A) := by
  rw [dropCollector]
  refine Unfolds.bind (Q := fun _ c => A c ∧ c.At .resting .idle) ?_ fun _ => ?_
  · rintro c hc ⟨p, h⟩
    exact unfolds_completeCycle hA hk c hc h
  · exact unfolds_adjust .detachCollector trivial (fun _ => rfl)
      (fun c _ h => ⟨⟨h.2.stage, h.2.phase⟩, trivial⟩) fun c hc h => hdetach c hc h.1 h.2

theorem unfolds_attachCollector
    {P Q : Course σ → Prop}
    (hattach : ∀ c, c.Sane → P c → c.machine.heap.collector = none → Q (c.apply .attachCollector)) :
    Unfolds attachCollector P (fun _ => Q) P := by
  rw [attachCollector]
  refine Unfolds.bind (Q := fun b c => P c ∧ b = c.machine.heap.collector.isSome)
    (unfolds_view fun _ _ h => ⟨h, rfl⟩) fun b => ?_
  refine unfolds_ite (fun _ => unfolds_throw_bind _ fun _ _ h => h.1) fun hnone => ?_
  have hfree : ∀ c : Course σ, P c ∧ b = c.machine.heap.collector.isSome →
      c.machine.heap.collector = none := fun c h =>
    Option.not_isSome_iff_eq_none.1 (h.2 ▸ hnone)
  exact unfolds_adjust .attachCollector trivial (fun _ => rfl) (fun c _ h => ⟨hfree c h, trivial⟩)
    fun c hc h => hattach c hc h.1 (hfree c h)

/-- A collector that works in the background is attached first, and detached in the end. -/
theorem unfolds_collectInBackground
    {P Q : Course σ → Prop}
    (hA : Steady A Move.OfCollector)
    (hk : k.Leaves A)
    (hattach : ∀ c, c.Sane → P c → c.machine.heap.collector = none → A (c.apply .attachCollector))
    (hdetach : ∀ c, c.Sane → A c → c.At .resting .idle → Q (c.apply .detachCollector))
    (roots : Roots σ) (requests : Nat) :
    Unfolds (collectInBackground k roots requests) P (fun _ => Q) (fun c => P c ∨ Rests A c) := by
  rw [collectInBackground]
  refine Unfolds.bind (Q := fun _ => Rests A) ?_ fun _ => ?_
  · refine (unfolds_attachCollector fun c hc h hnone => ⟨.idle, hattach c hc h hnone, ?_⟩).mono
      (fun _ _ h => h) (fun _ _ _ h => h) fun _ _ h => Or.inl h
    obtain ⟨hstage, hphase⟩ := hc.proper.attached hnone
    exact ⟨hstage, hphase, rfl⟩
  · refine (unfolds_look _).bind fun due => ?_
    have hdone : Unfolds (do
        collectTimes k roots (if due = true then requests + 1 else requests)
        let totals ← view fun h => (h.collector.map Collector.totals).getD {}
        dropCollector k
        return totals : Action σ CycleTotals) (Rests A) (fun _ => Q) (Rests A) := by
      refine (retains_collectTimes hA hk roots _).bind fun _ => (unfolds_look _).bind fun totals => ?_
      exact (unfolds_dropCollector hA hk hdetach).bind fun _ => unfolds_pure fun _ _ h => h
    exact hdone.mono (fun _ _ h => h) (fun _ _ _ h => h) fun _ _ h => Or.inr h

/-! ### Batches -/

/-- The side records of a batch are run one after the other, and nothing that they do touches the batches
around it. -/
theorem retains_runPending
    {bs : List Batch}
    (hA : Steady A Move.OfBatches)
    (hk : ∀ bs r x, Retains (k.onRecord r x) fun c => A c ∧ c.machine.batches = bs) :
    Retains (runPending k) fun c => A c ∧ c.machine.batches = bs := by
  rw [runPending]
  refine Unfolds.bind (Q := fun batch c => A c ∧ c.machine.batches = ⟨batch, batch⟩ :: bs)
    (unfolds_change .startBatch trivial (fun _ => rfl) (fun _ _ _ => ⟨trivial, trivial⟩) fun c hc h =>
      ⟨hA c _ hc h.1 trivial ⟨trivial, trivial⟩, congrArg (List.cons _) h.2⟩) fun batch => ?_
  have hrun : ∀ left : List PendingRecord,
      Unfolds (left.forM fun p => k.onRecord p.record p.addr : Action σ PUnit)
        (fun c => A c ∧ c.machine.batches = ⟨batch, left⟩ :: bs)
        (fun _ c => A c ∧ c.machine.batches = ⟨batch, []⟩ :: bs)
        (fun c => A c ∧ c.machine.batches = bs) := by
    intro left
    induction left with
    | nil => exact unfolds_pure fun _ _ h => h
    | cons p left ih =>
        refine Unfolds.bind (f := fun _ => left.forM _)
          ((hk (⟨batch, left⟩ :: bs) p.record p.addr).beside ?_ ?_) fun _ => ih
        · intro c hc h
          have hy : c.Admits .fire := ⟨⟨_, _, h.2, List.cons_ne_nil _ _⟩, trivial⟩
          refine ⟨c.apply .fire, hy.goes trivial, rfl, hA c _ hc h.1 trivial hy, ?_⟩
          change c.machine.batchesAfter .fire = _
          rw [Machine.batchesAfter, h.2]
          rfl
        · intro c hc h
          have hy : c.Admits .breakBatch := by
            refine ⟨?_, trivial⟩
            rw [Machine.Allows, h.2]
            exact List.cons_ne_nil _ _
          refine ⟨c.apply .breakBatch, hy.goes trivial, rfl, hA c _ hc h.1 trivial hy, ?_⟩
          change c.machine.batches.tail = bs
          rw [h.2]
          rfl
  refine Unfolds.bind (hrun batch) fun _ => ?_
  refine Unfolds.bind (Q := fun _ c => A c ∧ c.machine.batches = bs) ?_ fun _ => retains_pure _
  intro c hc h
  have hy : c.Admits .endBatch := ⟨⟨_, _, h.2, rfl⟩, trivial⟩
  have hheap : c.machine.heap.endBatch batch = (c.machine.apply .endBatch).heap := by
    change _ = c.machine.heapAfter .endBatch
    rw [Machine.heapAfter, h.2]
  refine ⟨c.apply .endBatch, hy.goes trivial, Or.inl ⟨(), ?_, hA c _ hc h.1 trivial hy, ?_⟩⟩
  · exact congrArg (fun g => (Except.ok (), ({ heap := g, client := c.client } : World σ))) hheap
  · change c.machine.batches.tail = bs
    rw [h.2]
    rfl

end Action

end EagerHeap
