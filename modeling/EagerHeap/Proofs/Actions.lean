import EagerHeap.Action.Cycle
import EagerHeap.Proofs.Runs
/-!
# Actions that nothing interrupts

If a client leaves the heap alone when it is told of events and transitions, what an action gives
and what it makes of the heap depend on the heap only. `Action.Gives` is this relation, and the
operations of a cycle are composed from their uninterrupted parts.

Main results: `gives_beginCycle`, `gives_finishMarking`, `gives_beginSweep`, `gives_finishCycle`.
-/

namespace EagerHeap

/-- The client leaves the heap alone when it is told of events and transitions. -/
structure Hooks.Silent {σ : Type} (k : Hooks σ) : Prop where
  event : ∀ e w, (k.onEvent e w).heap = w.heap
  transition : ∀ i t w, (k.onTransition i t w).heap = w.heap

namespace Action

variable {σ α β : Type} {k : Hooks σ} {x : Action σ α} {f : α → Action σ β} {h g h' : Heap} {a : α}
  {b : β}

/-- On every world with the first heap, the action gives a result and leaves the second heap. -/
def Gives (x : Action σ α) (h : Heap) (a : α) (h' : Heap) : Prop :=
  ∀ w : World σ, w.heap = h → ∃ w', ExceptT.run x w = (.ok a, w') ∧ w'.heap = h'

theorem gives_pure (a : α) (h : Heap) : Gives (pure a : Action σ α) h a h :=
  fun w hw => ⟨w, rfl, hw⟩

theorem Gives.bind
    (hx : Gives x h a g)
    (hf : Gives (f a) g b h') :
    Gives (x >>= f) h b h' := by
  intro w hw
  obtain ⟨v, hrun, hv⟩ := hx w hw
  obtain ⟨u, hrun', hu⟩ := hf v hv
  refine ⟨u, ?_, hu⟩
  rw [run_bind_operation, hrun]
  exact hrun'

theorem gives_change (f : Heap → α × Heap) (h : Heap) :
    Gives (change f : Action σ α) h (f h).1 (f h).2 := by
  rintro w rfl
  exact ⟨_, rfl, rfl⟩

theorem gives_adjust (f : Heap → Heap) (h : Heap) :
    Gives (adjust f : Action σ Unit) h () (f h) := by
  rintro w rfl
  exact ⟨_, rfl, rfl⟩

theorem gives_view (f : Heap → α) (h : Heap) : Gives (view f : Action σ α) h (f h) h := by
  rintro w rfl
  exact ⟨w, rfl, rfl⟩

theorem run_update (u : Update α) (w : World σ) :
    ExceptT.run (update u : Action σ α) w =
      ((ExceptT.run u w.heap).1, { w with heap := (ExceptT.run u w.heap).2 }) := rfl

theorem gives_update
    {u : Update α}
    (hok : (ExceptT.run u h).1 = .ok a) :
    Gives (update u : Action σ α) h a (ExceptT.run u h).2 := by
  rintro w rfl
  exact ⟨_, (run_update u w).trans (by rw [hok]), rfl⟩

theorem gives_require
    {p : Heap → Bool}
    (hp : p h = true)
    (c : Assertion) :
    Gives (require p c : Action σ Unit) h () h := by
  rintro w rfl
  refine ⟨w, ?_, rfl⟩
  have hrun := Update.run_require p c w.heap
  rw [if_pos hp] at hrun
  unfold require
  rw [run_update, hrun]

theorem gives_emit
    (hk : k.Silent)
    (e : Event)
    (h : Heap) :
    Gives (emit k e) h () h :=
  fun w hw => ⟨_, rfl, (hk.event e w).trans hw⟩

theorem gives_announce
    (hk : k.Silent)
    (t : Transition) (n : Nat) (h : Heap) :
    Gives (announce k t n) h () h := by
  intro w hw
  refine ⟨_, rfl, ?_⟩
  induction List.range n generalizing w with
  | nil => exact hw
  | cons i l ih => exact ih _ ((hk.transition i t w).trans hw)

/-! ### The operations of a cycle -/

theorem gives_shadeRoots (roots : List Nat) (h : Heap) :
    Gives (shadeRoots fun _ : World σ => roots) h () (h.shadeRoots roots) := by
  rintro w rfl
  exact ⟨_, rfl, rfl⟩

/-- A change of phase, apart from the one that leads into the sweeping phase. -/
theorem gives_advancePhase
    (hk : k.Silent)
    (hphase : h.phase.next ≠ .sweep) :
    Gives (advancePhase k) h () h.nextPhase.2 := by
  unfold advancePhase
  refine (gives_change _ h).bind ((gives_emit hk _ _).bind ((gives_view _ _).bind ?_))
  have hne : h.nextPhase.1.after ≠ .sweep := hphase
  simp only [hne, if_false]
  exact gives_announce hk _ _ _

/-- The change into the sweeping phase zeroes slots. -/
theorem gives_advancePhase_sweep
    (hk : k.Silent)
    (hphase : h.phase.next = .sweep) :
    Gives (advancePhase k) h () h.nextPhase.2.invalidateSlots.2 := by
  unfold advancePhase
  refine (gives_change _ h).bind ((gives_emit hk _ _).bind ((gives_view _ _).bind ?_))
  have heq : h.nextPhase.1.after = .sweep := hphase
  simp only [heq, if_true]
  refine (gives_view _ _).bind ((gives_change _ _).bind ((gives_emit hk _ _).bind ?_))
  exact gives_announce hk _ _ _

theorem gives_beginCycle
    (hk : k.Silent)
    (roots : List Nat)
    (hphase : h.phase = .idle) :
    Gives (beginCycle k fun _ => roots) h () (h.resetCycle.nextPhase.2.shadeRoots roots) := by
  have hreset : h.resetCycle.phase.next ≠ .sweep := by
    change h.phase.next ≠ .sweep
    rw [hphase]
    exact Phase.noConfusion
  unfold beginCycle
  refine (gives_require (by simp [hphase]) _).bind ((gives_adjust _ _).bind ?_)
  refine (gives_advancePhase hk hreset).bind ((gives_shadeRoots roots _).bind ?_)
  exact (gives_view _ _).bind ((gives_view _ _).bind (gives_emit hk _ _))

theorem gives_finishMarking
    (hk : k.Silent)
    (roots : List Nat)
    (hphase : h.phase = .mark) :
    Gives (finishMarking k fun _ => roots) h () (h.nextPhase.2.shadeRoots roots).markAll := by
  have hnext : h.phase.next ≠ .sweep := by
    rw [hphase]
    exact Phase.noConfusion
  unfold finishMarking
  refine (gives_require (by simp [hphase]) _).bind ((gives_advancePhase hk hnext).bind ?_)
  exact (gives_shadeRoots roots _).bind (gives_adjust _ _)

theorem gives_beginSweep
    (hk : k.Silent)
    (hphase : h.phase = .termination)
    (hphase' : h.markAll.resurrectAll.2.phase = .termination) :
    Gives (beginSweep k) h ()
      h.markAll.resurrectAll.2.nextPhase.2.invalidateSlots.2.startSweep := by
  have hnext : h.markAll.resurrectAll.2.phase.next = .sweep := by
    rw [hphase']
    rfl
  unfold beginSweep
  refine (gives_require (by simp [hphase]) _).bind ((gives_adjust _ _).bind ?_)
  refine (gives_change _ _).bind ?_
  have hrest : Gives (do advancePhase k; adjust Heap.startSweep) h.markAll.resurrectAll.2 ()
      h.markAll.resurrectAll.2.nextPhase.2.invalidateSlots.2.startSweep :=
    (gives_advancePhase_sweep hk hnext).bind (gives_adjust _ _)
  split
  · exact (gives_emit hk _ _).bind hrest
  · exact hrest

theorem gives_finishCycle
    {c : Collector}
    (hk : k.Silent)
    (hphase : h.phase = .sweep)
    (hc : h.collector = some c) :
    Gives (finishCycle k) h c.bytes h.nextPhase.2.closeCycle.2 := by
  have hnext : h.phase.next ≠ .sweep := by
    rw [hphase]
    exact Phase.noConfusion
  unfold finishCycle
  refine (gives_require (by simp [hphase]) _).bind ((gives_advancePhase hk hnext).bind ?_)
  refine (gives_change _ _).bind ?_
  have hreport : ∃ r, h.nextPhase.2.closeCycle.1 = some r ∧ r.bytes = c.bytes := by
    unfold Heap.closeCycle Heap.nextPhase
    simp [hc]
  obtain ⟨r, hr, hbytes⟩ := hreport
  rw [hr, ← hbytes]
  exact (gives_emit hk _ _).bind (gives_pure _ _)

end Action

end EagerHeap
