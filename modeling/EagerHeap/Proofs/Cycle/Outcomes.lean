import EagerHeap.Proofs.Cycle.Dropped
import EagerHeap.Proofs.Interrupted
import EagerHeap.Proofs.Marking.Loops
import EagerHeap.Proofs.Sweeping.Loops
/-!
# How a cycle comes out

If a client leaves the configuration as it is in the middle of a cycle, the budgets of the cycle are those
that were checked. A cycle, and the end of a collector, fail only if it is not the phase for one of their
parts.

Main results: `run_collect`, `failsByPhase_collect` and `failsByPhase_dropCollector`.
-/

namespace EagerHeap

/-! ### The configuration in the course of a cycle -/

/-- When it is told of events and transitions, the client leaves the configuration as it is. -/
structure Hooks.KeepsConfig {σ : Type} (k : Hooks σ) : Prop where
  event : ∀ e w, (k.onEvent e w).heap.config = w.heap.config
  transition : ∀ i t w, (k.onTransition i t w).heap.config = w.heap.config

theorem Hooks.Silent.keepsConfig
    {σ : Type} {k : Hooks σ}
    (hk : k.Silent) :
    k.KeepsConfig :=
  ⟨fun e w => congrArg Heap.config (hk.event e w),
    fun i t w => congrArg Heap.config (hk.transition i t w)⟩

namespace Action

variable {σ α β : Type} {k : Hooks σ} {x : Action σ α} {f : α → Action σ β} {w : World σ}
  {roots : Roots σ}

/-- The action leaves the configuration as it is. -/
def KeepsConfig (x : Action σ α) : Prop :=
  ∀ c, Ensures x (fun h => h.config = c) fun _ h => h.config = c

theorem KeepsConfig.bind
    (hx : KeepsConfig x)
    (hf : ∀ a, KeepsConfig (f a)) :
    KeepsConfig (x >>= f) :=
  fun c => (hx c).bind fun a => hf a c

theorem keepsConfig_change
    {f : Heap → α × Heap}
    (hf : ∀ h, (f h).2.config = h.config) :
    KeepsConfig (change f : Action σ α) :=
  fun _ => ensures_change fun h hh => (hf h).trans hh

theorem keepsConfig_adjust
    {f : Heap → Heap}
    (hf : ∀ h, (f h).config = h.config) :
    KeepsConfig (adjust f : Action σ Unit) :=
  fun _ => ensures_adjust fun h hh => (hf h).trans hh

theorem keepsConfig_view (f : Heap → α) : KeepsConfig (view f : Action σ α) :=
  fun _ => ensures_view f

theorem keepsConfig_require (p : Heap → Bool) (a : Assertion) :
    KeepsConfig (require p a : Action σ Unit) := by
  refine fun c => ensures_update fun h u g hh hrun => ?_
  rw [Update.run_require] at hrun
  obtain ⟨-, rfl⟩ := Prod.mk.inj hrun
  exact hh

theorem keepsConfig_emit
    (hk : k.KeepsConfig)
    (e : Event) :
    KeepsConfig (emit k e) :=
  fun _ => ensures_emit fun w hw => (hk.event e w).trans hw

theorem keepsConfig_announce
    (hk : k.KeepsConfig)
    (t : Transition) (n : Nat) :
    KeepsConfig (announce k t n) := by
  intro c w a v hw hrun
  cases hrun
  change (List.foldl _ w _).heap.config = c
  induction List.range n generalizing w with
  | nil => exact hw
  | cons i l ih => exact ih _ ((hk.transition i t w).trans hw)

theorem keepsConfig_shadeRoots (roots : Roots σ) : KeepsConfig (shadeRoots roots) := by
  intro c w a v hw hrun
  cases hrun
  exact (Heap.shadeRoots_steps w.heap _).config.trans hw

theorem keepsConfig_advancePhase
    (hk : k.KeepsConfig) :
    KeepsConfig (advancePhase k) := by
  unfold advancePhase
  refine (keepsConfig_change fun _ => rfl).bind fun t => (keepsConfig_emit hk _).bind fun _ =>
    (keepsConfig_view _).bind fun n => ?_
  split
  · refine (keepsConfig_view _).bind fun _ => (keepsConfig_change fun h => ?_).bind fun _ =>
      (keepsConfig_emit hk _).bind fun _ => keepsConfig_announce hk t n
    exact (Machine.invalidateSlots_steps h).config
  · exact keepsConfig_announce hk t n

theorem keepsConfig_beginCycle
    (hk : k.KeepsConfig)
    (roots : Roots σ) :
    KeepsConfig (beginCycle k roots) := by
  unfold beginCycle
  refine (keepsConfig_require _ _).bind fun _ => ?_
  refine (keepsConfig_adjust fun h => (rfl : h.resetCycle.config = h.config)).bind fun _ => ?_
  refine (keepsConfig_advancePhase hk).bind fun _ => (keepsConfig_shadeRoots roots).bind fun _ => ?_
  exact (keepsConfig_view _).bind fun _ => (keepsConfig_view _).bind fun _ => keepsConfig_emit hk _

theorem keepsConfig_finishMarking
    (hk : k.KeepsConfig)
    (roots : Roots σ) :
    KeepsConfig (finishMarking k roots) := by
  unfold finishMarking
  refine (keepsConfig_require _ _).bind fun _ => (keepsConfig_advancePhase hk).bind fun _ => ?_
  exact (keepsConfig_shadeRoots roots).bind fun _ =>
    keepsConfig_adjust fun h => (Heap.markAll_steps h).config

theorem keepsConfig_beginSweep
    (hk : k.KeepsConfig) :
    KeepsConfig (beginSweep k) := by
  have hrest : KeepsConfig (advancePhase k >>= fun _ => adjust Heap.startSweep) :=
    (keepsConfig_advancePhase hk).bind fun _ => keepsConfig_adjust fun _ => rfl
  unfold beginSweep
  refine (keepsConfig_require _ _).bind fun _ =>
    (keepsConfig_adjust fun h => (Heap.markAll_steps h).config).bind fun _ =>
      (keepsConfig_change fun h => (Heap.resurrectAll_steps h).config).bind fun n => ?_
  split
  · exact (keepsConfig_emit hk _).bind fun _ => hrest
  · exact hrest

theorem run_adjust_bind_congr
    {f g : Heap → Heap} {r : Unit → Action σ α}
    (hfg : f w.heap = g w.heap) :
    ExceptT.run (adjust f >>= r) w = ExceptT.run (adjust g >>= r) w :=
  congrArg (fun h => ExceptT.run (r ()) { w with heap := h }) hfg

/-- With budgets above zero, a cycle marks and sweeps to the end. -/
theorem run_collect
    (hk : k.KeepsConfig)
    (hcheck : w.heap.config.check = .ok ()) :
    ExceptT.run (collect k roots) w =
      ExceptT.run
        (do
          beginCycle k roots
          adjust Heap.markAll
          finishMarking k roots
          beginSweep k
          adjust Heap.sweepAll
          finishCycle k) w := by
  unfold collect
  refine (keepsConfig_beginCycle hk roots _).run_bind_congr rfl fun _ v hv => ?_
  have hmark : 0 < v.heap.config.markBudget := hv ▸ Config.markBudget_pos hcheck
  refine (run_adjust_bind_congr (Heap.markLoop_eq_markAll hmark _)).trans ?_
  have hmarked : KeepsConfig (adjust Heap.markAll : Action σ Unit) :=
    keepsConfig_adjust fun h => (Heap.markAll_steps h).config
  refine (hmarked _).run_bind_congr hv fun _ v hv => ?_
  refine (keepsConfig_finishMarking hk roots _).run_bind_congr hv fun _ v hv => ?_
  refine (keepsConfig_beginSweep hk _).run_bind_congr hv fun _ v hv => ?_
  have hsweep : 0 < v.heap.config.sweepBudget := hv ▸ Config.sweepBudget_pos hcheck
  exact run_adjust_bind_congr (Heap.sweepLoop_eq_sweepAll hsweep _)

/-! ### The failures of a cycle -/

/-- The action fails only because it is not the phase for it. -/
def FailsByPhase (x : Action σ α) : Prop :=
  ∀ w o v, ExceptT.run x w = (.error o, v) → o = .assertion .phase

theorem FailsByPhase.bind
    (hx : FailsByPhase x)
    (hf : ∀ a, FailsByPhase (f a)) :
    FailsByPhase (x >>= f) := by
  intro w o v hrun
  rw [run_bind_operation] at hrun
  rcases hfirst : ExceptT.run x w with ⟨o' | a, u⟩
  · rw [hfirst] at hrun
    obtain ⟨heq, -⟩ := Prod.mk.inj hrun
    cases heq
    exact hx w _ u hfirst
  · rw [hfirst] at hrun
    exact hf a u o v hrun

theorem failsByPhase_of_ok
    (hx : ∀ w, ∃ a v, ExceptT.run x w = (.ok a, v)) :
    FailsByPhase x := by
  intro w o v hrun
  obtain ⟨a, u, hok⟩ := hx w
  cases hok.symm.trans hrun

theorem failsByPhase_change (f : Heap → α × Heap) : FailsByPhase (change f : Action σ α) :=
  failsByPhase_of_ok fun _ => ⟨_, _, rfl⟩

theorem failsByPhase_adjust (f : Heap → Heap) : FailsByPhase (adjust f : Action σ Unit) :=
  failsByPhase_of_ok fun _ => ⟨_, _, rfl⟩

theorem failsByPhase_view (f : Heap → α) : FailsByPhase (view f : Action σ α) :=
  failsByPhase_of_ok fun _ => ⟨_, _, rfl⟩

theorem failsByPhase_emit (k : Hooks σ) (e : Event) : FailsByPhase (emit k e) :=
  failsByPhase_of_ok fun _ => ⟨_, _, rfl⟩

theorem failsByPhase_shadeRoots (roots : Roots σ) : FailsByPhase (shadeRoots roots) :=
  failsByPhase_of_ok fun _ => ⟨_, _, rfl⟩

theorem failsByPhase_require (p : Heap → Bool) :
    FailsByPhase (require p .phase : Action σ Unit) := by
  intro w o v hrun
  rw [require, run_update, Update.run_require] at hrun
  obtain ⟨heq, -⟩ := Prod.mk.inj hrun
  split at heq <;> cases heq
  rfl

theorem failsByPhase_advancePhase (k : Hooks σ) : FailsByPhase (advancePhase k) := by
  have hannounce : ∀ t n, FailsByPhase (announce k t n) := fun t n =>
    failsByPhase_of_ok fun _ => ⟨_, _, rfl⟩
  unfold advancePhase
  refine (failsByPhase_change _).bind fun t => (failsByPhase_emit k _).bind fun _ =>
    (failsByPhase_view _).bind fun n => ?_
  split
  · exact (failsByPhase_view _).bind fun _ => (failsByPhase_change _).bind fun _ =>
      (failsByPhase_emit k _).bind fun _ => hannounce t n
  · exact hannounce t n

theorem failsByPhase_beginCycle (k : Hooks σ) (roots : Roots σ) :
    FailsByPhase (beginCycle k roots) := by
  unfold beginCycle
  refine (failsByPhase_require _).bind fun _ => (failsByPhase_adjust _).bind fun _ => ?_
  refine (failsByPhase_advancePhase k).bind fun _ => (failsByPhase_shadeRoots roots).bind fun _ => ?_
  exact (failsByPhase_view _).bind fun _ => (failsByPhase_view _).bind fun _ => failsByPhase_emit k _

theorem failsByPhase_finishMarking (k : Hooks σ) (roots : Roots σ) :
    FailsByPhase (finishMarking k roots) := by
  unfold finishMarking
  refine (failsByPhase_require _).bind fun _ => (failsByPhase_advancePhase k).bind fun _ => ?_
  exact (failsByPhase_shadeRoots roots).bind fun _ => failsByPhase_adjust _

theorem failsByPhase_beginSweep (k : Hooks σ) : FailsByPhase (beginSweep k) := by
  have hrest : FailsByPhase (advancePhase k >>= fun _ => adjust Heap.startSweep) :=
    (failsByPhase_advancePhase k).bind fun _ => failsByPhase_adjust _
  unfold beginSweep
  refine (failsByPhase_require _).bind fun _ => (failsByPhase_adjust _).bind fun _ =>
    (failsByPhase_change _).bind fun n => ?_
  split
  · exact (failsByPhase_emit k _).bind fun _ => hrest
  · exact hrest

theorem failsByPhase_finishCycle (k : Hooks σ) : FailsByPhase (finishCycle k) := by
  unfold finishCycle
  refine (failsByPhase_require _).bind fun _ => (failsByPhase_advancePhase k).bind fun _ =>
    (failsByPhase_change _).bind fun r => ?_
  cases r with
  | none => exact failsByPhase_of_ok fun _ => ⟨_, _, rfl⟩
  | some r => exact (failsByPhase_emit k _).bind fun _ => failsByPhase_of_ok fun _ => ⟨_, _, rfl⟩

theorem failsByPhase_collect (k : Hooks σ) (roots : Roots σ) : FailsByPhase (collect k roots) := by
  unfold collect
  refine (failsByPhase_beginCycle k roots).bind fun _ => (failsByPhase_adjust _).bind fun _ => ?_
  refine (failsByPhase_finishMarking k roots).bind fun _ => (failsByPhase_beginSweep k).bind fun _ => ?_
  exact (failsByPhase_adjust _).bind fun _ => failsByPhase_finishCycle k

theorem failsByPhase_dropCollector (k : Hooks σ) : FailsByPhase (dropCollector k) := by
  have hsweep : FailsByPhase (do
      adjust Heap.sweepAll
      let _ ← finishCycle k) :=
    (failsByPhase_adjust _).bind fun _ => (failsByPhase_finishCycle k).bind fun _ =>
      failsByPhase_of_ok fun _ => ⟨_, _, rfl⟩
  unfold dropCollector completeCycle
  refine ((failsByPhase_view _).bind fun p => ?_).bind fun _ => failsByPhase_adjust _
  cases p with
  | idle => exact failsByPhase_of_ok fun _ => ⟨_, _, rfl⟩
  | mark =>
      exact (failsByPhase_finishMarking k _).bind fun _ =>
        (failsByPhase_beginSweep k).bind fun _ => hsweep
  | termination => exact (failsByPhase_beginSweep k).bind fun _ => hsweep
  | sweep => exact hsweep

end Action

end EagerHeap
