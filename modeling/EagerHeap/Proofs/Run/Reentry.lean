import EagerHeap.Proofs.Run.Capacities
import EagerHeap.Proofs.Run.Supplied
import EagerHeap.Proofs.Run.Windows
/-!
# Allocations that are reentered

Whatever the client does while it is told of a block, the allocation goes on with the heap that the
client leaves, and it hands out a cell that is no object there. A free cell is lost only if the worker
reenters: then the outer allocation moves the cursor away that the inner one has left, and the free cells
of the block are neither offered nor at a cursor.

Main results: `search_allocate`, `refills_reentered` and `cells_lost_by_reentry`.
-/

namespace EagerHeap

/-- The event that tells of a block that was obtained for the span. -/
def Heap.supplyEvent (h : Heap) (s : Span) (b : Nat) : Event :=
  if (h.central.get s).isEmpty then .carved b s else .refilled b s

namespace Action

variable {σ : Type} {k : Hooks σ} {w w' u : World σ} {g : Heap} {id b x n : Nat} {s : Span}

open Heap

/-- The world in which an allocation goes on after the client was told of the block. -/
def afterWindow (k : Hooks σ) (id : Nat) (s : Span) (b : Nat) (g : Heap) (w : World σ) : World σ :=
  let u := k.onEvent (w.heap.supplyEvent s b) { w with heap := g }
  { u with heap := u.heap.setCursor id s ⟨b, 0⟩ }

/-- A refill obtains a block and tells the client of it. -/
theorem run_refill_eq_ok_iff :
    ExceptT.run (refill k s) w = (.ok b, u) ↔
      ∃ g, ExceptT.run (refillAlone s) w.heap = (.ok b, g) ∧
        u = k.onEvent (w.heap.supplyEvent s b) { w with heap := g } := by
  have htaken : ExceptT.run (change (·.takePartial s) : Action σ (Option Nat)) w =
      (.ok (w.heap.takePartial s).1, { w with heap := (w.heap.takePartial s).2 }) := rfl
  rw [refill, refillAlone, run_bind_operation, run_bind_operation, run_modifyGet_operation, htaken]
  rcases takePartial_cases w.heap s with ⟨hempty, htake⟩ | ⟨i, rest, hget, htake⟩
  · rw [htake]
    dsimp only
    rw [run_bind_operation, run_bind_operation, run_update]
    have hevent : ∀ b, w.heap.supplyEvent s b = .carved b s := fun b => by
      rw [Heap.supplyEvent, hempty]
      rfl
    rcases ExceptT.run (carveBlock s) w.heap with ⟨o | o, g⟩
    · constructor
      · intro h
        cases h
      · rintro ⟨g', h, -⟩
        cases h
    · cases o with
      | none =>
          constructor
          · intro h
            cases h
          · rintro ⟨g', h, -⟩
            cases h
      | some i =>
          constructor
          · intro h
            cases h
            exact ⟨g, rfl, by rw [hevent]⟩
          · rintro ⟨g', h, rfl⟩
            cases h
            rw [hevent]
            rfl
  · have hevent : ∀ b, w.heap.supplyEvent s b = .refilled b s := fun b => by
      rw [Heap.supplyEvent, hget]
      rfl
    rw [htake]
    constructor
    · intro h
      cases h
      exact ⟨_, rfl, by rw [hevent]⟩
    · rintro ⟨g', h, rfl⟩
      cases h
      rw [hevent]
      rfl

/-- The search of an allocation for a free cell leads from one world to another, through any number of
windows in which the client has acted. -/
inductive Search (k : Hooks σ) (id : Nat) (s : Span) : World σ → World σ → Prop
  | here (w : World σ) : Search k id s w w
  /-- The worker can claim nothing, and it moves on to a block of which the client is told. -/
  | window {w v : World σ} {b : Nat} {g : Heap} (hnone : w.heap.claimable? id s = none)
      (hget : ExceptT.run (refillAlone s) w.heap = (.ok b, g))
      (hrest : Search k id s (afterWindow k id s b g w) v) : Search k id s w v

theorem run_claim_eq_none
    (hnone : w.heap.claimable? id s = none) :
    ExceptT.run (change (·.claim id s) : Action σ (Option Nat)) w = (.ok none, w) := by
  change (Except.ok (w.heap.claim id s).1, { w with heap := (w.heap.claim id s).2 }) = _
  rw [claim_eq_none hnone]

theorem run_claim_eq_some
    (hclaim : w.heap.claim id s = (some x, g)) :
    ExceptT.run (change (·.claim id s) : Action σ (Option Nat)) w =
      (.ok (some x), { w with heap := g }) := by
  change (Except.ok (w.heap.claim id s).1, { w with heap := (w.heap.claim id s).2 }) = _
  rw [hclaim]

/-- A turn of a worker that can claim nothing is a window. -/
theorem run_claimOrMove_window
    (hnone : w.heap.claimable? id s = none)
    (hget : ExceptT.run (refillAlone s) w.heap = (.ok b, g)) :
    ExceptT.run (claimOrMove k id s) w = (.ok none, afterWindow k id s b g w) := by
  rw [claimOrMove, run_bind_operation, run_claim_eq_none hnone]
  dsimp only
  rw [run_bind_operation, run_refill_eq_ok_iff.2 ⟨g, hget, rfl⟩]
  rfl

/-- A turn claims a cell, or it moves the cursor to a block for which it calls, or this call fails. -/
theorem claimOrMove_cases (k : Hooks σ) (id : Nat) (s : Span) (w : World σ) :
    (∃ x u, ExceptT.run (change (·.claim id s)) w = (.ok (some x), u) ∧
        ExceptT.run (claimOrMove k id s) w = (.ok (some x), u)) ∨
      ∃ u, ExceptT.run (change (·.claim id s)) w = (.ok none, u) ∧
        ((∃ b t, ExceptT.run (refill k s) u = (.ok b, t) ∧ ExceptT.run (claimOrMove k id s) w =
            (.ok none, { t with heap := t.heap.setCursor id s ⟨b, 0⟩ })) ∨
          ∃ o t, ExceptT.run (refill k s) u = (.error o, t) ∧
            ExceptT.run (claimOrMove k id s) w = (.error o, t)) := by
  rw [claimOrMove, run_bind_operation]
  rcases hc : ExceptT.run (change (·.claim id s)) w with ⟨o | _ | x, u⟩
  · cases hc
  · dsimp only
    rw [run_bind_operation]
    rcases hr : ExceptT.run (refill k s) u with ⟨o | b, t⟩
    · exact Or.inr ⟨u, rfl, Or.inr ⟨o, t, hr, rfl⟩⟩
    · exact Or.inr ⟨u, rfl, Or.inl ⟨b, t, hr, rfl⟩⟩
  · exact Or.inl ⟨x, u, rfl, rfl⟩

theorem run_claimOrMove_eq_some_iff :
    ExceptT.run (claimOrMove k id s) w = (.ok (some x), u) ↔
      ExceptT.run (change (·.claim id s)) w = (.ok (some x), u) := by
  rcases claimOrMove_cases k id s w with ⟨y, v, hc, hrun⟩ | ⟨v, hc, ⟨b, t, -, hrun⟩ | ⟨o, t, -, hrun⟩⟩
  · rw [hc, hrun]
  · rw [hc, hrun]
    exact iff_of_false nofun nofun
  · rw [hc, hrun]
    exact iff_of_false nofun nofun

theorem run_claimOrMove_eq_none_iff :
    ExceptT.run (claimOrMove k id s) w = (.ok none, u) ↔
      ∃ v, ExceptT.run (change (·.claim id s)) w = (.ok none, v) ∧
        ∃ b t, ExceptT.run (refill k s) v = (.ok b, t) ∧
          { t with heap := t.heap.setCursor id s ⟨b, 0⟩ } = u := by
  rcases claimOrMove_cases k id s w with ⟨y, v, hc, hrun⟩ | ⟨v, hc, ⟨b, t, hr, hrun⟩ | ⟨o, t, hr, hrun⟩⟩
  · rw [hc, hrun]
    exact iff_of_false nofun nofun
  · rw [hc, hrun]
    constructor
    · rintro ⟨⟩
      exact ⟨v, rfl, b, t, hr, rfl⟩
    · rintro ⟨_, ⟨⟩, b', t', hr', rfl⟩
      cases hr.symm.trans hr'
      rfl
  · rw [hc, hrun]
    refine iff_of_false nofun ?_
    rintro ⟨_, ⟨⟩, b', t', hr', -⟩
    cases hr.symm.trans hr'

theorem run_claimOrMove_eq_error_iff
    {o : Failure} :
    ExceptT.run (claimOrMove k id s) w = (.error o, u) ↔
      ∃ v, ExceptT.run (change (·.claim id s)) w = (.ok none, v) ∧
        ExceptT.run (refill k s) v = (.error o, u) := by
  rcases claimOrMove_cases k id s w with ⟨y, v, hc, hrun⟩ | ⟨v, hc, ⟨b, t, hr, hrun⟩ | ⟨o, t, hr, hrun⟩⟩
  · rw [hc, hrun]
    exact iff_of_false nofun nofun
  · rw [hc, hrun]
    refine iff_of_false nofun ?_
    rintro ⟨_, ⟨⟩, hr'⟩
    cases hr.symm.trans hr'
  · rw [hc, hrun]
    constructor
    · rintro ⟨⟩
      exact ⟨v, rfl, hr⟩
    · rintro ⟨_, ⟨⟩, hr'⟩
      cases hr.symm.trans hr'
      rfl

/-- A turn that claims nothing is a window. -/
theorem exists_window_of_turn
    (hturn : ExceptT.run (claimOrMove k id s) w = (.ok none, u)) :
    w.heap.claimable? id s = none ∧
      ∃ b g, ExceptT.run (refillAlone s) w.heap = (.ok b, g) ∧ u = afterWindow k id s b g w := by
  obtain ⟨v, hc, b, t, hr, rfl⟩ := run_claimOrMove_eq_none_iff.1 hturn
  cases hclaimable : w.heap.claimable? id s with
  | some p =>
      obtain ⟨x, hclaim⟩ := exists_claim hclaimable
      cases hc.symm.trans (run_claim_eq_some hclaim)
  | none =>
      cases hc.symm.trans (run_claim_eq_none hclaimable)
      obtain ⟨g, hget, rfl⟩ := run_refill_eq_ok_iff.1 hr
      exact ⟨rfl, b, g, hget, rfl⟩

/-- A turn that gives a cell claims it. -/
theorem claim_of_turn
    (hturn : ExceptT.run (claimOrMove k id s) w = (.ok (some x), u)) :
    w.heap.claim id s = (some x, u.heap) := by
  obtain ⟨hfirst, rfl⟩ := Prod.mk.inj (run_claimOrMove_eq_some_iff.1 hturn)
  exact Prod.ext (Except.ok.inj hfirst) rfl

/-- The turns of an allocation hand out a free cell of the heap that they have reached. -/
theorem search_of_turns
    {r : Except Failure Nat}
    (hk : k.Stepwise)
    (hs : w.heap.Sound)
    (hturns : Turns (claimOrMove k id s) w r w')
    (hr : r = .ok x) :
    ∃ v, Search k id s w v ∧ HandsOut v.heap x w'.heap ∧ v.heap.Sound := by
  induction hturns with
  | @gives w w' y hturn =>
      cases hr
      exact ⟨w, .here w, (claim_object hs (claim_of_turn hturn)).1, hs⟩
  | fails => cases hr
  | @goesOn w u w' r hturn _ ih =>
      obtain ⟨hnone, b, g, hget, rfl⟩ := exists_window_of_turn hturn
      obtain ⟨hu, hspan⟩ := (lasting_sound hk id s).ensures_refill w b _ hs
        (run_refill_eq_ok_iff.2 ⟨g, hget, rfl⟩)
      obtain ⟨v, hsearch, hv⟩ := ih ((lasting_sound hk id s).moved _ b hu hspan) hr
      exact ⟨v, .window hnone hget hsearch, hv⟩

/-- An allocation hands out a cell that is no object in the heap that its search has reached. -/
theorem search_allocate
    (hk : k.Stepwise)
    (hs : w.heap.Sound)
    (hf : w.heap.Shelved)
    (hrun : ExceptT.run (allocate k id s) w = (.ok x, w')) :
    ∃ v, Search k id s w v ∧ HandsOut v.heap x w'.heap ∧ v.heap.Sound := by
  rw [allocate, run_bind_operation, run_update] at hrun
  rcases hf.reuse_run_cases hs id s with ⟨-, hnone⟩ | ⟨e, g, -, hsome⟩
  · rw [show ExceptT.run (Heap.reuse id s) w.heap = _ from hnone] at hrun
    exact search_of_turns hk hs (turns_of_run_untilSome hrun) rfl
  · rw [show ExceptT.run (Heap.reuse id s) w.heap = _ from hsome] at hrun
    cases hrun
    exact ⟨w, .here w, (reuse_object hs hsome).1, hs⟩

end Action

namespace Scene

variable {P : Scene → Segment → Prop} {S : Scene} {zs xs : List Segment} {id b : Nat} {s : Span}
  {g h : Heap} {memory : Nat} {c : Config}

open Heap
open Machine (fourBlocks create_fourBlocks quarterBlock greedyClient stepwise_greedyClient)

/-- After a script of the client the allocation below it moves the cursor of its worker. -/
theorem heap_resumed
    (hget : ExceptT.run (refillAlone s) S.heap = (.ok b, g))
    (hl : (S.window id s).Legal P zs)
    (hdone : ((S.window id s).run zs).waiting = []) :
    (S.run (.refill id s :: (zs ++ [.resume]))).heap =
      ((S.window id s).run zs).heap.setCursor id s ⟨b, 0⟩ := by
  have hrefill : S.apply (.refill id s) = (S.window id s).above (⟨id, s, b⟩ :: S.waiting) := by
    rw [window, apply, hget]
    rfl
  rw [run, List.foldl_cons, hrefill, List.foldl_append]
  change (((S.window id s).above (⟨id, s, b⟩ :: S.waiting)).run zs |>.apply .resume).heap = _
  rw [hl.run_above, above, hdone]
  rfl

/-- The allocation of a worker that has obtained a block goes on with the heap that the script of the
client leaves. The script changes the heap step by step, and a cell that the allocation hands out then is
no object that the script has left. -/
structure Resumes (S : Scene) (id : Nat) (s : Span) (b : Nat) (zs : List Segment) : Prop where
  steps : Steps (fun _ => True) (S.window id s).heap ((S.window id s).run zs).heap
  goesOn : ∀ (σ : Type) (k : Hooks σ) (c c' : σ),
    k.onEvent (S.heap.supplyEvent s b) ⟨(S.window id s).heap, c⟩ =
        ⟨((S.window id s).run zs).heap, c'⟩ →
      untilSome? ⟨S.heap, c⟩ (Action.claimOrMove k id s) =
        untilSome? ⟨(S.run (.refill id s :: (zs ++ [.resume]))).heap, c'⟩ (Action.claimOrMove k id s)
  fresh : ∀ x g', (S.run (.refill id s :: (zs ++ [.resume]))).heap.claim id s = (some x, g') →
    ((S.window id s).run zs).heap.arena.isAllocated x = false ∧ g'.arena.isAllocated x = true

theorem Kept.resumes
    (hk : S.Kept)
    (hz : S.Permits (.refill id s))
    (hget : ExceptT.run (refillAlone s) S.heap = (.ok b, g))
    (hl : (S.window id s).Legal P zs)
    (hdone : ((S.window id s).run zs).waiting = []) :
    S.Resumes id s b zs := by
  have hkept := hk.window hz
  have hsteps := hl.steps hkept
  obtain ⟨hobtains, hwindow⟩ := obtains_of_refill hk.proper.sound hget id
  have hresumed := heap_resumed hget hl hdone
  refine ⟨hsteps, fun σ k c c' hevent => ?_, fun x g' hclaim => ?_⟩
  · rw [untilSome?_of_none (Action.run_claimOrMove_window hz.2 hget), Action.afterWindow, ← hwindow,
      hresumed]
    dsimp only
    rw [hevent]
  · rw [hresumed] at hclaim
    have hs := (hl.kept hkept).proper.sound
    have hspan := hsteps.hasSpan hkept.proper.sound (hwindow ▸ hobtains.hasSpan)
    have hmoved : Still _ (((S.window id s).run zs).heap.setCursor id s ⟨b, 0⟩) :=
      still_setCursor (k := ⟨b, 0⟩) hspan
    rcases claim_cases (hmoved.steps.sound hs) id s with ⟨y, hy, ho⟩ | ⟨hnone, -⟩
    · rw [hclaim] at hy ho
      cases hy
      obtain ⟨hfresh, d, hobj, -⟩ := ho.fresh (hmoved.steps.sound hs)
      exact ⟨hfresh, Arena.isAllocated_iff.2 ⟨d, hobj⟩⟩
    · rw [hclaim] at hnone
      cases hnone

/-- An allocation may be reentered while the client is told of a block. In every state of a run,
whatever the client does, the allocation hands out a cell that is no object in the heap in which its
search has ended, and this is its last change of the heap. What the client does in a window is a run of
its own, and the allocation goes on with the heap at the end of this run. If its worker does not refill
for the same span there, the cursor that moves away can be given up; and if no worker reenters anywhere,
no free cell is stranded once no allocation waits. -/
theorem refills_reentered
    (hc : Heap.create memory c = .ok h)
    (hl : (start h).Legal (fun _ _ => True) xs)
    (hS : (start h).run xs = S) :
    (∀ (σ : Type) (k : Hooks σ) id s x (w w' : World σ), k.Stepwise → w.heap = S.heap →
        ExceptT.run (Action.allocate k id s) w = (.ok x, w') →
        ∃ v, Action.Search k id s w v ∧ HandsOut v.heap x w'.heap ∧
          v.heap.arena.isAllocated x = false ∧ w'.heap.arena.isAllocated x = true) ∧
      (∀ id s b g zs, S.Permits (.refill id s) →
        ExceptT.run (refillAlone s) S.heap = (.ok b, g) →
        (S.window id s).Legal (fun _ _ => True) zs → ((S.window id s).run zs).waiting = [] →
        S.Resumes id s b zs ∧
          ((S.window id s).Legal (Orderly [(id, s)]) zs →
            ((S.window id s).run zs).heap.Expendable id s)) ∧
      ((start h).Legal (Orderly []) xs → S.waiting = [] → S.heap.NothingStranded) := by
  subst hS
  have hk := hl.kept (kept_start hc)
  refine ⟨fun σ k id s x w w' hstep hw hrun => ?_, fun id s b g zs hz hget hzs hdone => ?_,
    fun hquiet hdone => ?_⟩
  · have hs : w.heap.Sound := hw ▸ hk.proper.sound
    obtain ⟨v, hsearch, ho, hv⟩ := Action.search_allocate hstep hs (hw ▸ hk.shelved) hrun
    obtain ⟨hfresh, d, hobj, -⟩ := ho.fresh hv
    exact ⟨v, hsearch, ho, hfresh, Arena.isAllocated_iff.2 ⟨d, hobj⟩⟩
  · exact ⟨hk.resumes hz hget hzs hdone, fun hquiet => hk.expendable hz hquiet hdone⟩
  · have hsup := hquiet.supplied (kept_start hc) List.nodup_nil (fun s b i hfree => ?_) hdone
    · exact hsup.nothingStranded hk.proper.sound
    · obtain ⟨hspan, -⟩ := hfree
      obtain ⟨-, rfl⟩ := create_eq_ok hc
      cases hspan

/-- A worker waits with a new block, while its cursor is on a block in which a cycle makes three cells
free. Another worker takes this block over. -/
theorem refills_reentered_swept :
    let cycle (roots : List Nat) : List Segment :=
      [.begin, .shadeRoots roots, .terminate, .finishMarking roots, .resurrect, .enterSweep, .zeroSlots,
        .startSweep, .sweepStep 4, .finish, .closeCycle].map .move
    let before : List Segment :=
      [.move .addWorker, .move .addWorker, .move .attachCollector, .refill 0 quarterBlock, .resume,
        .move (.claim 0 quarterBlock)] ++ cycle [] ++ [.refill 1 quarterBlock, .resume] ++
          List.replicate 4 (.move (.claim 1 quarterBlock))
    let script : List Segment := cycle [Arena.blockBase 0] ++
      [.refill 1 quarterBlock, .resume, .move (.claim 1 quarterBlock)]
    let S := (start (.empty fourBlocks)).run before
    let T := (S.window 0 quarterBlock).run script
    S.heap.NothingStranded ∧ S.Resumes 0 quarterBlock 1 script ∧
      T.heap.Expendable 0 quarterBlock ∧
      T.heap.workers.map (fun w => w.cursors.get quarterBlock) = [some ⟨0, 1⟩, some ⟨0, 2⟩] ∧
      (∃ hd, T.heap.arena.header? 0 2 = some hd ∧ hd.state = .free) ∧
      ∃ x w v, ExceptT.run (Action.allocate greedyClient 0 quarterBlock) ⟨S.heap, ()⟩ = (.ok x, w) ∧
        Action.Search greedyClient 0 quarterBlock ⟨S.heap, ()⟩ v ∧ HandsOut v.heap x w.heap ∧
        v.heap.arena.isAllocated x = false ∧ w.heap.arena.isAllocated x = true := by
  intro cycle before script S T
  have hlegal : (start (.empty fourBlocks)).Legal (fun _ _ => True) before ∧
      (start (.empty fourBlocks)).Legal (Orderly []) before ∧ S.waiting = [] := by
    decide +kernel
  have hrefill : S.Permits (.refill 0 quarterBlock) ∧
      (ExceptT.run (refillAlone quarterBlock) S.heap).1 = .ok 1 := by
    decide +kernel
  have hscript : (S.window 0 quarterBlock).Legal (fun _ _ => True) script ∧
      (S.window 0 quarterBlock).Legal (Orderly [(0, quarterBlock)]) script ∧ T.waiting = [] := by
    decide +kernel
  have hcells : T.heap.workers.map (fun w => w.cursors.get quarterBlock) =
      [some ⟨0, 1⟩, some ⟨0, 2⟩] ∧ ∃ hd, T.heap.arena.header? 0 2 = some hd ∧ hd.state = .free := by
    decide +kernel
  have hgiven : (ExceptT.run (Action.allocate greedyClient 0 quarterBlock) ⟨S.heap, ()⟩).1 =
      .ok (Arena.blockBase 1) := by
    decide +kernel
  obtain ⟨hfresh, hwindow, hstranded⟩ := refills_reentered create_fourBlocks hlegal.1 (rfl : _ = S)
  rcases hget : ExceptT.run (refillAlone quarterBlock) S.heap with ⟨o, g⟩
  rw [hget] at hrefill
  obtain ⟨hpermits, rfl⟩ := hrefill
  obtain ⟨hresumes, hexpendable⟩ :=
    hwindow 0 quarterBlock 1 g script hpermits hget hscript.1 hscript.2.2
  rcases hrun : ExceptT.run (Action.allocate greedyClient 0 quarterBlock) ⟨S.heap, ()⟩ with ⟨o, w⟩
  rw [hrun] at hgiven
  obtain rfl : o = _ := hgiven
  obtain ⟨v, hsearch, hbefore, hafter⟩ :=
    hfresh Unit greedyClient 0 quarterBlock (Arena.blockBase 1) ⟨S.heap, ()⟩ w
      stepwise_greedyClient rfl hrun
  exact ⟨hstranded hlegal.2.1 hlegal.2.2, hresumes, hexpendable hscript.2.1, hcells.1, hcells.2,
    Arena.blockBase 1, w, v, rfl, hsearch, hbefore, hafter⟩

/-- Half a block. -/
def halfBlock : Span := ⟨⟨13, by decide⟩, .scan⟩

/-- A heap with two blocks. -/
def twoBlocks : Config := { Config.standard with arenaSize := 2 * blockSize }

/-- A client that allocates an object for worker 0 when it is told of an event for the first time. -/
def nestingClient : Hooks Bool where
  onEvent _ w :=
    if w.client then ⟨(ExceptT.run (allocateAlone 0 halfBlock) w.heap).2, false⟩ else w
  onTransition _ _ w := w
  onRecord _ _ := pure ()

/-- A worker that is alone cannot give up the cursor at a free cell if its block is not offered. -/
theorem not_expendable_of_lone
    {i : Nat}
    (hcursor : ∃ w ∈ h.workers, w.id = id ∧ w.cursors.get s = some ⟨b, i⟩)
    (honly : ∀ w ∈ h.workers, w.id = id)
    (hfree : h.FreeCell s b i)
    (hcentral : h.central.get s = []) :
    ¬ h.Expendable id s := by
  obtain ⟨w, hw, hid, hget⟩ := hcursor
  intro hexpendable
  rcases hexpendable ⟨b, i⟩ i ⟨w.supplies, mem_stock_of_mem hw, hid, hget⟩ hfree le_rfl with
    hb | ⟨other, k, hne, ⟨u, hu, rfl, -⟩, -⟩
  · rw [hcentral] at hb
    cases hb
  · obtain ⟨v, hv, rfl⟩ := mem_stock_iff.1 hu
    exact hne (honly v hv)

/-- A worker reenters and loses the free cell of the block that its inner allocation has left. Then its
allocations run out of memory, although the cell is free. -/
theorem cells_lost_by_reentry :
    let S := (start (.empty twoBlocks)).run [.move .addWorker]
    let script : List Segment := [.refill 0 halfBlock, .resume, .move (.claim 0 halfBlock)]
    let T := (S.window 0 halfBlock).run script
    (S.Permits (.refill 0 halfBlock) ∧ (S.window 0 halfBlock).Legal (fun _ _ => True) script ∧
        T.waiting = [] ∧ ¬ T.heap.Expendable 0 halfBlock) ∧
      ∃ w, ExceptT.run (Action.allocateEach nestingClient 0 halfBlock 2) ⟨S.heap, true⟩ =
          (.ok [Arena.blockBase 0, Arena.blockBase 0 + 8192], w) ∧
        w.heap.FreeCell halfBlock 1 1 ∧
        (ExceptT.run (Action.allocate nestingClient 0 halfBlock) w).1 =
          .error (.outOfMemory blockSize) := by
  intro S script T
  have hwindow : (S.Permits (.refill 0 halfBlock) ∧
      (S.window 0 halfBlock).Legal (fun _ _ => True) script ∧ T.waiting = []) ∧
      (∃ w ∈ T.heap.workers, w.id = 0 ∧ w.cursors.get halfBlock = some ⟨1, 1⟩) ∧
      (∀ w ∈ T.heap.workers, w.id = 0) ∧
      (∃ hd, T.heap.arena.header? 1 1 = some hd ∧ hd.state = .free) ∧
      T.heap.arena.outline? 1 = some (.ofSpan halfBlock) ∧ T.heap.central.get halfBlock = [] := by
    decide +kernel
  obtain ⟨⟨hpermits, hlegal, hdone⟩, hcursor, honly, hhead, hspan, hcentral⟩ := hwindow
  refine ⟨⟨hpermits, hlegal, hdone, not_expendable_of_lone hcursor honly ⟨hspan, hhead⟩ hcentral⟩,
    ?_⟩
  have hgiven :
      (ExceptT.run (Action.allocateEach nestingClient 0 halfBlock 2) ⟨S.heap, true⟩).1 =
        .ok [Arena.blockBase 0, Arena.blockBase 0 + 8192] := by
    decide +kernel
  have hspan' : (ExceptT.run (Action.allocateEach nestingClient 0 halfBlock 2)
      ⟨S.heap, true⟩).2.heap.arena.outline? 1 = some (.ofSpan halfBlock) := by
    decide +kernel
  have hhead' : ∃ hd, (ExceptT.run (Action.allocateEach nestingClient 0 halfBlock 2)
      ⟨S.heap, true⟩).2.heap.arena.header? 1 1 = some hd ∧ hd.state = .free := by
    decide +kernel
  have hout : (ExceptT.run (Action.allocate nestingClient 0 halfBlock)
      (ExceptT.run (Action.allocateEach nestingClient 0 halfBlock 2) ⟨S.heap, true⟩).2).1 =
        .error (.outOfMemory blockSize) := by
    decide +kernel
  rcases hrun : ExceptT.run (Action.allocateEach nestingClient 0 halfBlock 2) ⟨S.heap, true⟩ with ⟨r, w⟩
  rw [hrun] at hgiven hspan' hhead' hout
  obtain rfl : r = _ := hgiven
  exact ⟨w, rfl, ⟨hspan', hhead'⟩, hout⟩

end Scene

end EagerHeap
