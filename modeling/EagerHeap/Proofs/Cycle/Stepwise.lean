import EagerHeap.Proofs.Cycle.Collected
import EagerHeap.Proofs.Cycle.Confluence
import EagerHeap.Proofs.Heap.Clients
import EagerHeap.Proofs.Sweeping.Splitting
/-!
# Cycles of single steps

A client may run a cycle step by step, with budgets of its own, and leave off marking before no
object is gray. If nothing interrupts the cycle, it leaves the heap that a whole cycle leaves: what
is marked in the end is decided by what can be reached, and the steps of the sweeper add up.

Main results: `marking_finished_eq`, `gives_collectBy` and `collectBy_eq_collect`.
-/

namespace EagerHeap

namespace Action

variable {σ : Type} (k : Hooks σ)

/-- Marks in steps of the given budgets. -/
def markBy : List Nat → Action σ Unit
  | [] => return ()
  | n :: ns => do
    let _ ← markStep n
    markBy ns

/-- Sweeps in steps of the given budgets until no block is left. Says whether it came to that. -/
def sweepBy : List Nat → Action σ Bool
  | [] => return false
  | n :: ns => do
    if ← sweepStep n then sweepBy ns else return true

/-- Runs a cycle in steps of the given budgets. Gives the number of bytes that it freed, or nothing
if the sweep did not come to its end and the cycle is not finished. -/
def collectBy (roots : Roots σ) (marks sweeps : List Nat) : Action σ (Option Nat) := do
  beginCycle k roots
  markBy marks
  finishMarking k roots
  beginSweep k
  if ← sweepBy sweeps then
    let bytes ← finishCycle k
    return some bytes
  else return none

end Action

namespace Heap

variable {h g : Heap} {roots roots' : List Nat} {k : Collector} {σ : Type}

/-! ### Marking in any steps -/

/-- A state of marking that a cycle with the given roots can reach before marking is finished. -/
structure Midway (h : Heap) (roots : List Nat) (g : Heap) : Prop where
  marking : g.Marking (h.Reachable roots)
  painted : Painted h.resetCycle.nextPhase.2 g
  bleached : g.bleached = h.resetCycle.nextPhase.2.bleached

theorem midway_begin
    (hr : h.Ready)
    (roots : List Nat) :
    h.Midway roots (h.resetCycle.nextPhase.2.shadeRoots roots) := by
  have hbegun : h.resetCycle.nextPhase.2.Marking (h.Reachable roots) :=
    marking_begin hr.sound hr.attached hr.drained fun _ _ hx hp hal => .word hx hp hal
  refine ⟨hbegun.shadeRoots fun x hx hal => .root ?_ (List.mem_append.1 hx),
    painted_shadeRoots _ roots, bleached_shadeRoots _ roots⟩
  exact ((Arena.alike_resetColors h.arena).isAllocated x).symm.trans hal

theorem Midway.markStep
    (hg : h.Midway roots g)
    (n : Nat) :
    h.Midway roots (g.markStep n) :=
  ⟨hg.marking.markStep n, hg.painted.trans (painted_markStep g n),
    (bleached_markStep g n).trans hg.bleached⟩

theorem Midway.foldl_markStep
    (hg : h.Midway roots g)
    (ns : List Nat) :
    h.Midway roots (ns.foldl Heap.markStep g) := by
  induction ns generalizing g with
  | nil => exact hg
  | cons n ns ih => exact ih (hg.markStep n)

theorem Midway.markSteps
    (hg : h.Midway roots g)
    (budget n : Nat) :
    h.Midway roots (Heap.markSteps budget n g) :=
  ⟨hg.marking.markSteps budget n, hg.painted.trans (painted_markSteps budget n g),
    (bleached_markSteps budget n g).trans hg.bleached⟩

/-- What finishing marking makes of any state on the way. -/
theorem Midway.finished
    (hg : h.Midway roots g) :
    (g.nextPhase.2.shadeRoots roots).markAll.Marking (h.Reachable roots) ∧
      (g.nextPhase.2.shadeRoots roots).markAll.arena.Marked (h.Reachable roots) ∧
      Painted h.resetCycle.nextPhase.2 (g.nextPhase.2.shadeRoots roots).markAll ∧
      (g.nextPhase.2.shadeRoots roots).markAll.bleached =
        h.resetCycle.nextPhase.2.bleached.nextPhase.2 := by
  have hturned := hg.painted.trans (painted_nextPhase g)
  have hmarking := hg.marking.nextPhase
  rw [← reachable_of_painted hturned roots] at hmarking
  obtain ⟨hm, hmarked⟩ := hmarking.marked_shadeRoots
  rw [reachable_of_painted hturned roots] at hm hmarked
  refine ⟨hm, hmarked, hturned.trans ((painted_shadeRoots _ roots).trans (painted_markAll _)), ?_⟩
  rw [bleached_markAll, bleached_shadeRoots, bleached_nextPhase, hg.bleached]

/-- The objects that can be reached do not depend on the order and the repetitions of the roots. -/
theorem reachable_of_same_roots
    (hsame : ∀ x, x ∈ roots' ↔ x ∈ roots)
    (h : Heap) :
    h.Reachable roots' = h.Reachable roots := by
  unfold Reachable
  simp only [hsame]

/-- However marking went on before, finishing it leaves one heap. -/
theorem marking_finished_eq
    {g' : Heap}
    (hr : h.Ready)
    (hsame : ∀ x, x ∈ roots' ↔ x ∈ roots)
    (hg : h.Midway roots g)
    (hg' : h.Midway roots' g') :
    (g.nextPhase.2.shadeRoots roots).markAll = (g'.nextPhase.2.shadeRoots roots').markAll := by
  obtain ⟨hm, hmarked, hp, hb⟩ := hg.finished
  obtain ⟨hm', hmarked', hp', hb'⟩ := hg'.finished
  rw [reachable_of_same_roots hsame] at hm' hmarked'
  have hshaded : ∀ {g : Heap} {roots : List Nat}, h.Midway roots g →
      (g.nextPhase.2.shadeRoots roots).collector.isSome = true := by
    intro g roots hg
    refine (isSome_collector_marking _ _).trans ?_
    exact hg.marking.attached
  exact hm.eq_of_marked hm' hp hp' ((Tick.begin h).layout hr.sound) hmarked hmarked'
    (grays_markAll (hshaded hg)) (grays_markAll (hshaded hg')) (hb.trans hb'.symm)
    (congrArg Heap.arena hb)

theorem midway_afterMarkLoop
    (hr : h.Ready)
    (roots : List Nat) :
    h.Midway roots (h.afterMarkLoop roots) :=
  (midway_begin hr roots).markSteps _ _

theorem gives_markBy (ns : List Nat) (h : Heap) :
    Action.Gives (Action.markBy ns : Action σ Unit) h () (ns.foldl markStep h) := by
  induction ns generalizing h with
  | nil => exact Action.gives_pure () h
  | cons n ns ih =>
      have hstep : Action.Gives (Action.markStep n : Action σ Bool) h
          (h.markStep n).hasGray (h.markStep n) :=
        (Action.gives_adjust _ h).bind (Action.gives_view _ _)
      exact hstep.bind (ih _)

/-! ### Sweeping in any steps -/

theorem sweepStep_zero
    (hk : h.collector = some k) :
    h.sweepStep 0 = h := by
  rw [sweepStep_eq hk (Nat.zero_le _)]
  exact congrArg h.withCollector hk.symm

/-- Steps of the sweeper add up, and stop once no block is left. -/
theorem gives_sweepBy
    (ns : List Nat)
    (hk : h.collector = some k) :
    Action.Gives (Action.sweepBy ns : Action σ Bool) h
      (decide (ns ≠ [] ∧ k.sweepLimit - k.sweepNext ≤ ns.sum)) (h.sweepStep ns.sum) := by
  induction ns generalizing h k with
  | nil =>
      rw [List.sum_nil, sweepStep_zero hk]
      exact Action.gives_pure _ h
  | cons n ns ih =>
      have hstep : Action.Gives (Action.sweepStep n : Action σ Bool) h
          (h.sweepStep n).hasUnswept (h.sweepStep n) :=
        (Action.gives_adjust _ h).bind (Action.gives_view _ _)
      refine hstep.bind ?_
      rw [List.sum_cons]
      cases hmore : (h.sweepStep n).hasUnswept with
      | true =>
          obtain ⟨l, hl, hlimit, hnext⟩ := collector_sweepStep hk n
          have hlt := (hasUnswept_iff_after_step hk n).1 hmore
          have hdone : (n :: ns ≠ [] ∧ k.sweepLimit - k.sweepNext ≤ n + ns.sum) ↔
              (ns ≠ [] ∧ l.sweepLimit - l.sweepNext ≤ ns.sum) := by
            rw [hlimit, hnext]
            cases ns with
            | nil =>
                simp only [List.sum_nil, ne_eq, List.cons_ne_nil, not_true_eq_false, not_false_eq_true,
                  true_and, false_and, iff_false]
                omega
            | cons m ns =>
                simp only [ne_eq, List.cons_ne_nil, not_false_eq_true, true_and]
                omega
          rw [decide_eq_decide.2 hdone, ← sweepStep_sweepStep]
          exact ih hl
      | false =>
          have hle : k.sweepLimit - k.sweepNext ≤ n := Nat.le_of_not_lt fun hlt => by
            rw [(hasUnswept_iff_after_step hk n).2 hlt] at hmore
            cases hmore
          rw [sweepStep_of_le hk hle (m := n + ns.sum) (by omega),
            decide_eq_true ⟨List.cons_ne_nil n ns, by omega⟩]
          exact Action.gives_pure true _

/-! ### The whole cycle -/

/-- Where the sweep of a cycle begins and ends. -/
theorem exists_sweeper
    (hr : h.Ready)
    (roots : List Nat) :
    ∃ l, (h.beforeSweep roots).collector = some l ∧
      l.sweepLimit - l.sweepNext = h.arena.pages.next := by
  obtain ⟨hm, l, hl, hnext, hlimit⟩ := marks_beforeSweep hr roots
  refine ⟨l, hl, ?_⟩
  rw [hnext, hlimit, hm.alike.outline.pages, Nat.sub_zero]

/-- The sweep of a whole cycle is one step of the sweeper over all blocks. -/
theorem afterSweep_eq
    {n : Nat}
    (hr : h.Ready)
    (hbudget : 0 < h.config.sweepBudget)
    (roots : List Nat)
    (hn : h.arena.pages.next ≤ n) :
    h.afterSweep roots = (h.beforeSweep roots).sweepStep n := by
  obtain ⟨l, hl, hleft⟩ := exists_sweeper hr roots
  have hlimit : (h.beforeSweep roots).sweepLimit = l.sweepLimit := by
    unfold sweepLimit
    rw [hl]
    rfl
  rw [← (steps_beforeSweep hr.idle roots).config] at hbudget
  unfold afterSweep sweepLoop
  exact sweepSteps_eq_sweepStep hbudget hl (by omega) (hleft.trans_le hn)

/-- A cycle of single steps goes through the heaps of a whole cycle, from the end of marking on. -/
theorem gives_collectBy
    {hooks : Hooks σ}
    (hk : hooks.Silent)
    (hr : h.Ready)
    (hbudget : 0 < h.config.sweepBudget)
    (hsame : ∀ x, x ∈ roots' ↔ x ∈ roots)
    (hsweep : (h.afterSweep roots').phase = .sweep)
    (hc : (h.afterSweep roots').collector = some k)
    (marks sweeps : List Nat) :
    Action.Gives (Action.collectBy hooks (fun _ => roots) marks sweeps) h
      (if sweeps ≠ [] ∧ h.arena.pages.next ≤ sweeps.sum then some k.bytes else none)
      (if sweeps ≠ [] ∧ h.arena.pages.next ≤ sweeps.sum then h.afterCycle roots'
        else (h.beforeSweep roots').sweepStep sweeps.sum) := by
  have hmid := (midway_begin hr roots).foldl_markStep marks
  have hphase : (marks.foldl markStep (h.resetCycle.nextPhase.2.shadeRoots roots)).phase = .mark := by
    refine (congrArg Heap.phase hmid.bleached).trans ?_
    change h.phase.next = _
    rw [hr.idle]
    rfl
  unfold Action.collectBy
  refine (Action.gives_beginCycle hk roots hr.idle).bind ((gives_markBy marks _).bind ?_)
  refine (Action.gives_finishMarking hk roots hphase).bind ?_
  rw [marking_finished_eq hr hsame hmid (midway_afterMarkLoop hr roots')]
  refine (Action.gives_beginSweep hk (phase_afterMarking hr.idle)
    (phase_afterResurrection hr.idle)).bind ?_
  obtain ⟨l, hl, hleft⟩ := exists_sweeper hr roots'
  have hswept := gives_sweepBy (σ := σ) sweeps hl
  rw [hleft] at hswept
  refine hswept.bind ?_
  split
  · next hdone =>
      rw [if_pos (of_decide_eq_true hdone), if_pos (of_decide_eq_true hdone),
        ← afterSweep_eq hr hbudget roots' (of_decide_eq_true hdone).2]
      exact (Action.gives_finishCycle hk hsweep hc).bind (Action.gives_pure _ _)
  · next hdone =>
      rw [if_neg fun h => hdone (decide_eq_true h), if_neg fun h => hdone (decide_eq_true h)]
      exact Action.gives_pure _ _

/-- A cycle takes four transitions. -/
theorem epoch_afterCycle
    (hr : h.Ready)
    (hbudget : 0 < h.config.sweepBudget)
    (roots : List Nat) :
    (h.afterCycle roots).epoch = h.epoch + 4 := by
  obtain ⟨-, -, -, hb⟩ := (midway_afterMarkLoop hr roots).finished
  have hmarking : (h.afterMarking roots).epoch = h.epoch + 2 := congrArg Heap.epoch hb
  have hresurrection : (h.afterResurrection roots).epoch = h.epoch + 2 := by
    unfold afterResurrection
    rw [epoch_of_clients (clients_resurrectAll _), epoch_of_clients (clients_markAll _), hmarking]
  have hbefore : (h.beforeSweep roots).epoch = h.epoch + 3 := by
    obtain ⟨registries, slots, heq⟩ := exists_invalidateSlots (h.afterResurrection roots).nextPhase.2
    unfold beforeSweep
    rw [heq]
    exact congrArg (· + 1) hresurrection
  unfold afterCycle
  rw [epoch_of_clients (clients_closeCycle _), afterSweep_eq hr hbudget roots (Nat.le_refl _)]
  change ((h.beforeSweep roots).sweepStep _).epoch + 1 = _
  rw [epoch_of_clients (clients_sweepStep _ _), hbefore]

end Heap

namespace Machine

open Heap

variable {P : Machine → Move → Prop} {ys : List Move}

/-- In every idle state that a run reaches with nothing left to mark, a cycle of single steps leaves
the same heap as a whole cycle, whatever the steps are and in whatever order and how often the roots
are given. -/
theorem collectBy_eq_collect
    {σ : Type} {hooks : Hooks σ} {memory : Nat} {cfg : Config} {h : Heap} {w : World σ}
    {roots roots' : List Nat}
    (hk : hooks.Silent)
    (hc : Heap.create memory cfg = .ok h)
    (hl : Legal P (start h) ys)
    (hw : w.heap = ((start h).run ys).heap)
    (hidle : w.heap.phase = .idle)
    (hattached : w.heap.collector.isSome = true)
    (hbarrier : w.heap.barrier = #[])
    (hroots : ∀ x, x ∈ roots' ↔ x ∈ roots)
    (marks sweeps : List Nat) :
    ∃ bytes w₁ w₂,
      ExceptT.run (Action.collect hooks fun _ => roots') w = (.ok bytes, w₁) ∧
        w₁.heap.phase = .idle ∧ w₁.heap.epoch = w.heap.epoch + 4 ∧
        ExceptT.run (Action.collectBy hooks (fun _ => roots) marks sweeps) w =
          (.ok (if sweeps ≠ [] ∧ w.heap.arena.pages.next ≤ sweeps.sum then some bytes else none),
            w₂) ∧
        (sweeps ≠ [] ∧ w.heap.arena.pages.next ≤ sweeps.sum → w₂.heap = w₁.heap) := by
  have hproper := proper_start hc
  have hs : w.heap.Sound := hw ▸ (hl.proper hproper).sound
  have hbudget : 0 < w.heap.config.sweepBudget := by
    obtain ⟨hcheck, rfl⟩ := create_eq_ok hc
    rw [hw, hl.config hproper]
    exact Config.sweepBudget_pos hcheck
  have hr : w.heap.Ready := ⟨hs, hidle, hattached, hbarrier⟩
  obtain ⟨k, live, lost, hafter, hsweep, hcollected⟩ := collected_afterCycle hr hbudget roots'
  obtain ⟨w₁, hrun₁, hw₁⟩ := gives_collect hk hidle hsweep hafter w rfl
  obtain ⟨w₂, hrun₂, hw₂⟩ :=
    gives_collectBy hk hr hbudget hroots hsweep hafter marks sweeps w rfl
  refine ⟨k.bytes, w₁, w₂, hrun₁, ?_, ?_, hrun₂, fun hdone => ?_⟩
  · rw [hw₁]
    exact hcollected.phase
  · rw [hw₁]
    exact epoch_afterCycle hr hbudget roots'
  · rw [hw₂, hw₁, if_pos hdone]

/-- Marking is left off after one object, the sweep pauses twice, and the root is given once here and
twice there. -/
theorem collectBy_eq_collect_linked :
    ∃ bytes w₁ w₂,
      ExceptT.run (Action.collect idleClient fun _ => [Arena.blockBase 0, Arena.blockBase 0])
          ⟨((start (.empty fourBlocks)).run linkedBuffers).heap, ()⟩ = (.ok bytes, w₁) ∧
        ExceptT.run (Action.collectBy idleClient (fun _ => [Arena.blockBase 0]) [0, 1] [2, 0, 1])
          ⟨((start (.empty fourBlocks)).run linkedBuffers).heap, ()⟩ = (.ok (some bytes), w₂) ∧
        w₂.heap = w₁.heap := by
  have hlegal : Legal (fun _ _ => True) (start (.empty fourBlocks)) linkedBuffers := by
    decide +kernel
  have hidle : ((start (.empty fourBlocks)).run linkedBuffers).heap.phase = .idle := by
    decide +kernel
  have hattached :
      ((start (.empty fourBlocks)).run linkedBuffers).heap.collector.isSome = true := by
    decide +kernel
  have hbarrier : ((start (.empty fourBlocks)).run linkedBuffers).heap.barrier = #[] := by
    decide +kernel
  have hblocks : ((start (.empty fourBlocks)).run linkedBuffers).heap.arena.pages.next = 3 := by
    decide +kernel
  generalize hm : (start (.empty fourBlocks)).run linkedBuffers = m at *
  have hdone : [2, 0, 1] ≠ [] ∧ m.heap.arena.pages.next ≤ [2, 0, 1].sum := by
    rw [hblocks]
    decide
  have hroots : ∀ x, x ∈ [Arena.blockBase 0, Arena.blockBase 0] ↔ x ∈ [Arena.blockBase 0] := by
    simp
  obtain ⟨bytes, w₁, w₂, hrun₁, -, -, hrun₂, heq⟩ :=
    collectBy_eq_collect (w := ⟨m.heap, ()⟩) silent_idleClient create_fourBlocks hlegal
      (congrArg Machine.heap hm).symm hidle hattached hbarrier hroots [0, 1] [2, 0, 1]
  rw [if_pos hdone] at hrun₂
  exact ⟨bytes, w₁, w₂, hrun₁, hrun₂, heq hdone⟩

end Machine

end EagerHeap
