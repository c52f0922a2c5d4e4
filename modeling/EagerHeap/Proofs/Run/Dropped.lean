import EagerHeap.Proofs.Cycle.Dropped
import EagerHeap.Proofs.Run.Retention
/-!
# Objects that a dropped collector was told of

A dropped collector asks for no roots, so it knows of an object only what it was told before: that
the object was a root when the cycle began, that it was handed out since then, or that its address
was stored since then. It keeps what can be reached from such objects. An object that was there
before, and became a root since then, is freed unless something of this kind leads to it.

Main results: `drop_collector_keeps` and `new_root_freed`.
-/

namespace EagerHeap

namespace Heap

variable {h h' : Heap} {x : Nat} {P : Act → Prop}

/-- The collector was told of the object at an address, if there is one: it remembers the address, or
the object is reached. -/
def Told (h : Heap) (x : Nat) : Prop :=
  x ∈ h.barrier ∨ ∀ c, h.arena.Object x c → c.header.color ≠ .white

theorem Told.kept
    (ht : h.Told x)
    (hal : h.arena.isAllocated x = true) :
    h.Kept x := by
  refine .root hal ?_
  rcases ht with hb | hw
  · exact Or.inr (Or.inl hb)
  · obtain ⟨c, ho⟩ := Arena.exists_object hal
    exact Or.inl (Arena.isReached_iff.2 ⟨c, ho.1, ho.2, hw c ho⟩)

/-- While the collector marks, no address gets a white object. -/
theorem Steps.not_white
    (hsteps : Steps P h h')
    (hs : h.Sound)
    (hmark : h.phase.isMarking = true)
    (hbegin : ¬ P .begin)
    (hturn : ¬ P .turn)
    (hx : ∀ c, h.arena.Object x c → c.header.color ≠ .white) :
    ∀ c, h'.arena.Object x c → c.header.color ≠ .white := by
  refine (hsteps.induct (R := fun g => g.phase.isMarking = true ∧
    ∀ c, g.arena.Object x c → c.header.color ≠ .white) hs ⟨hmark, hx⟩ ?_).2.2
  rintro g l g' hg ⟨hgm, hgx⟩ hl ht
  refine ⟨?_, fun d hd => ?_⟩
  · rw [ht.phase (fun e => hbegin (e ▸ hl)) fun e => hturn (e ▸ hl)]
    exact hgm
  · have hchange := ht.cellChange hg x
    rw [hd.1] at hchange
    by_cases hal : g.arena.isAllocated x = true
    · obtain ⟨c, hc⟩ := Arena.exists_object hal
      rw [hc.1] at hchange
      cases hchange with
      | kept hheader =>
          exact Color.ne_white_of_rank (hheader.rank_le hc.2 fun e => hbegin (e ▸ hl)) (hgx c hc)
    · -- A new object is black.
      have hnew := (hchange.birth hd.2 fun c hc hst => ?_).2
      · rw [hnew]
        cases hp : g.phase with
        | idle =>
            rw [hp] at hgm
            cases hgm
        | _ => exact Color.noConfusion
      · exact hal (Arena.isAllocated_iff.2 ⟨c, hc, hst⟩)

end Heap

namespace Machine

variable {P : Machine → Move → Prop} {m : Machine} {y : Move} {ys : List Move} {x : Nat}
  {memory : Nat} {c : Config} {h : Heap}

open Heap

/-- The addresses that a move tells the collector while it marks: that of the object that it hands
out, and those that it stores. -/
def tells (m : Machine) (y : Move) : List Nat := (m.handsOut y).toList ++ m.stored y

/-- The addresses that a run tells the collector. -/
def toldIn : Machine → List Move → List Nat
  | _, [] => []
  | m, y :: ys => m.tells y ++ toldIn (m.apply y) ys

/-- The collector rests in the marking phase. -/
structure InMark (m : Machine) : Prop where
  phase : m.heap.phase = .mark
  stage : m.stage = .resting

/-- In the marking phase nothing is legal that changes the phase, but to terminate it. -/
theorem InMark.not_turning
    (hin : m.InMark)
    (hy : m.Allows y)
    (hterm : y ≠ .terminate) :
    ¬ y.Does .begin ∧ ¬ y.Does .turn ∧ m.stageAfter y = .resting := by
  have hphase := hin.phase
  have hstage := hin.stage
  cases y <;>
    simp [Allows, Move.Does, stageAfter, hphase, hstage] at hy hterm ⊢

theorem InMark.apply
    (hin : m.InMark)
    (hm : m.Proper)
    (hy : m.Allows y)
    (hterm : y ≠ .terminate) :
    (m.apply y).InMark := by
  obtain ⟨hbegin, hturn, hstage⟩ := hin.not_turning hy hterm
  exact ⟨((hm.steps hy).phase hbegin hturn).trans hin.phase, hstage⟩

/-- What the collector was told, it knows until the marking phase ends. -/
theorem Proper.told
    (hm : m.Proper)
    (hin : m.InMark)
    (hy : m.Allows y)
    (hterm : y ≠ .terminate)
    (hx : m.heap.Told x) :
    (m.apply y).heap.Told x := by
  have hmark : m.heap.phase.isMarking = true := by
    rw [hin.phase]
    rfl
  obtain ⟨hbegin, hturn, -⟩ := hin.not_turning hy hterm
  rcases hx with hb | hw
  · by_cases hlooks : y.Looks
    · have hstep : ∃ n, y = .markStep n := by
        have hphase := hin.phase
        have hstage := hin.stage
        cases y <;> simp [Allows, Move.Looks, hphase, hstage] at hy hlooks ⊢
      obtain ⟨n, rfl⟩ := hstep
      refine Or.inr fun d hd => ?_
      have hal := (painted_markStep m.heap n).recolored.isAllocated x
      obtain ⟨c, hc, hst, hne⟩ := Arena.isReached_iff.1
        (hm.isReached_of_looks hlooks hmark (hal.symm.trans hd.isAllocated) hb)
      exact hd.unique ⟨hc, hst⟩ ▸ hne
    · refine Or.inl ?_
      rw [← Array.mem_toList_iff, hm.toList_barrier_apply hy hlooks]
      exact List.mem_append_left _ (Array.mem_toList_iff.2 hb)
  · exact Or.inr ((hm.steps hy).not_white hm.sound hmark hbegin hturn hw)

/-- The collector is told of new objects and of stored addresses. -/
theorem Proper.told_of_tells
    (hm : m.Proper)
    (hin : m.InMark)
    (hy : m.Allows y)
    (hx : x ∈ m.tells y) :
    (m.apply y).heap.Told x := by
  rcases List.mem_append.1 hx with hout | hst
  · obtain ⟨-, c, hc, hfresh, -⟩ :=
      (hm.handsOut hy (Option.mem_toList.1 hout)).fresh hm.sound
    refine Or.inr fun d hd => ?_
    rw [hd.unique hc, hfresh, hin.phase]
    exact Color.noConfusion
  · have hlooks : ¬ y.Looks := by
      cases y <;> simp [stored, Move.Looks] at hst ⊢
    by_cases hcontains : m.heap.arena.contains x = true
    · refine Or.inl ?_
      rw [← Array.mem_toList_iff, hm.toList_barrier_apply hy hlooks]
      refine List.mem_append_right _ (List.mem_filter.2 ⟨hst, ?_⟩)
      rw [hcontains, hin.phase]
      rfl
    · have hin' := (hm.steps hy).contains hm.sound x
      refine Or.inr fun d hd => absurd ?_ hcontains
      rw [← hin']
      exact Arena.contains_of_cell? hd.1

theorem Legal.inMark
    (hl : Legal P m ys)
    (hm : m.Proper)
    (hin : m.InMark)
    (hterm : .terminate ∉ ys) :
    (m.run ys).InMark := by
  induction ys generalizing m with
  | nil => exact hin
  | cons y ys ih =>
      have hne : y ≠ .terminate := fun e => hterm (e ▸ List.mem_cons_self ..)
      have hrest : Move.terminate ∉ ys := fun h => hterm (List.mem_cons_of_mem _ h)
      exact ih hl.2.2 (hm.apply hl.1) (hin.apply hm hl.1 hne) hrest

theorem Legal.told
    (hl : Legal P m ys)
    (hm : m.Proper)
    (hin : m.InMark)
    (hterm : .terminate ∉ ys)
    (hx : m.heap.Told x ∨ x ∈ m.toldIn ys) :
    (m.run ys).heap.Told x := by
  induction ys generalizing m with
  | nil => exact hx.resolve_right List.not_mem_nil
  | cons y ys ih =>
      have hne : y ≠ .terminate := fun e => hterm (e ▸ List.mem_cons_self ..)
      have hrest : Move.terminate ∉ ys := fun h => hterm (List.mem_cons_of_mem _ h)
      refine ih hl.2.2 (hm.apply hl.1) (hin.apply hm hl.1 hne) hrest ?_
      rcases hx with hx | hx
      · exact Or.inl (hm.told hin hl.1 hne hx)
      · exact (List.mem_append.1 hx).imp_left (hm.told_of_tells hin hl.1)

/-- The collector was told of the roots once it has shaded them. -/
theorem Proper.told_of_root
    {roots : List Nat}
    (hm : m.Proper)
    (hy : m.Allows (.shadeRoots roots))
    (hx : x ∈ roots) :
    (m.apply (.shadeRoots roots)).heap.Told x := by
  have hattached := hm.isSome_collector (Or.inl (by rw [hy]; exact Stage.noConfusion))
  exact Or.inr fun d hd => shadeRoots_marks hattached (List.mem_append_left _ hx) hd

theorem Proper.inMark_shadeRoots
    {roots : List Nat}
    (hm : m.Proper)
    (hy : m.Allows (.shadeRoots roots)) :
    (m.apply (.shadeRoots roots)).InMark := by
  exact ⟨(phase_shadeRoots m.heap roots).trans (hm.fits (s := .beginning) hy), rfl⟩

/-- A collector that is dropped in the marking phase leaves an idle heap, to which a new one can be
attached. It keeps exactly the objects of `Kept`, so it keeps everything that can be reached from
objects that it was told of: the roots with which the cycle began, and the objects that were handed
out or the addresses of which were stored since then. -/
theorem drop_collector_keeps
    {σ : Type} {hooks : Hooks σ} {w : World σ} {before mid : List Move} {roots : List Nat}
    (hk : hooks.Silent)
    (hc : Heap.create memory c = .ok h)
    (hl : Legal WholeWords (start h) (before ++ .shadeRoots roots :: mid))
    (hterm : .terminate ∉ mid)
    (hw : w.heap = ((start h).run (before ++ .shadeRoots roots :: mid)).heap) :
    ∃ w' w'', ExceptT.run (Action.dropCollector hooks) w = (.ok (), w') ∧
      ExceptT.run Action.attachCollector w' = (.ok (), w'') ∧
      w.heap.Dropped w'.heap ∧
      ∀ held : List Nat,
        (∀ x ∈ held, x ∈ roots ∨
          x ∈ ((start h).run (before ++ [.shadeRoots roots])).toldIn mid) →
        ∀ x k, w.heap.arena.Object x k → w.heap.arena.Reachable (· ∈ held) x →
          ∃ hd, w'.heap.arena.Object x { k with header := hd } := by
  have hinv : ((start h).run (before ++ .shadeRoots roots :: mid)).Proper ∧
      ((start h).run (before ++ .shadeRoots roots :: mid)).Marks := by
    refine hl.preserves (R := fun m => m.Proper ∧ m.Marks) ⟨proper_start hc, marks_start hc⟩ ?_
    rintro m y ⟨hm, ht⟩ hy hwhole
    exact ⟨hm.apply hy, hm.marks hy hwhole ht⟩
  obtain ⟨hbefore, hy, -, hmid⟩ := legal_append.1 hl
  have hm := hbefore.proper (proper_start hc)
  simp only [run_append, run_cons, run_nil] at hw hinv ⊢
  generalize (start h).run before = m at hw hinv hy hmid hm
  obtain ⟨hproper, hmarks⟩ := hinv
  have hin := hmid.inMark (hm.apply hy) (hm.inMark_shadeRoots hy) hterm
  have hu : w.heap.Underway := by
    rw [hw]
    refine ⟨hproper.sound, hin.phase, hproper.isSome_collector (Or.inr ?_), hmarks ?_⟩
    · rw [hin.phase]
      exact Phase.noConfusion
    · rw [hin.phase]
      rfl
  obtain ⟨w', hrun, hw'⟩ := hu.gives_dropCollector hk w rfl
  have hdropped : w.heap.Dropped w'.heap := by
    rw [hw']
    exact hu.dropped
  obtain ⟨w'', hattach, -⟩ := gives_attachCollector hdropped.detached w' rfl
  refine ⟨w', w'', hrun, hattach, hdropped, fun held hheld x k ho hx => ?_⟩
  have htold : ∀ y ∈ held, w.heap.Told y := by
    intro y hyheld
    rw [hw]
    refine hmid.told (hm.apply hy) (hm.inMark_shadeRoots hy) hterm ?_
    exact (hheld y hyheld).imp_left (hm.told_of_root hy)
  have hkept : w.heap.Kept x := by
    induction hx generalizing k with
    | root hal hr => exact (htold _ hr).kept hal
    | word hreach hp hal ih =>
        obtain ⟨d, hd, -⟩ := id hp
        exact .word (ih d hd) hp hal
  obtain ⟨hd, hobj, -⟩ := hdropped.kept x k ho hkept
  exact ⟨hd, hobj⟩

/-- Three objects are there when a cycle is begun. -/
def threeBuffers : List Move :=
  [.attachCollector, .carveRun 1 .scan, .carveRun 1 .noScan, .carveRun 1 .noScan, .begin]

/-- The marker works, and a fourth object is handed out that holds the address of the second one. -/
def fourthBuffer : List Move :=
  [.markStep 1, .carveRun 1 .scan, .write (Arena.blockBase 3) 5 (Arena.blockBase 1)]

/-- The cycle is begun with the first object, and the collector is dropped when the fourth object
was handed out. -/
theorem drop_collector_keeps_new :
    ∃ w' w'', ExceptT.run (Action.dropCollector idleClient)
          ⟨((start (.empty fourBlocks)).run (threeBuffers ++
            .shadeRoots [Arena.blockBase 0] :: fourthBuffer)).heap, ()⟩ = (.ok (), w') ∧
      ExceptT.run Action.attachCollector w' = (.ok (), w'') ∧
      ((start (.empty fourBlocks)).run (threeBuffers ++
        .shadeRoots [Arena.blockBase 0] :: fourthBuffer)).heap.Dropped w'.heap ∧
      ∀ x k, ((start (.empty fourBlocks)).run (threeBuffers ++
          .shadeRoots [Arena.blockBase 0] :: fourthBuffer)).heap.arena.Object x k →
        ((start (.empty fourBlocks)).run (threeBuffers ++
          .shadeRoots [Arena.blockBase 0] :: fourthBuffer)).heap.arena.Reachable
            (· ∈ [Arena.blockBase 0, Arena.blockBase 3]) x →
        ∃ hd, w'.heap.arena.Object x { k with header := hd } := by
  have hlegal : Legal WholeWords (start (.empty fourBlocks)) (threeBuffers ++
      .shadeRoots [Arena.blockBase 0] :: fourthBuffer) := by
    decide +kernel
  have hheld : ∀ x ∈ [Arena.blockBase 0, Arena.blockBase 3], x ∈ [Arena.blockBase 0] ∨
      x ∈ ((start (.empty fourBlocks)).run (threeBuffers ++
        [.shadeRoots [Arena.blockBase 0]])).toldIn fourthBuffer := by
    decide +kernel
  have hterm : Move.terminate ∉ fourthBuffer := by decide
  generalize hm : (start (.empty fourBlocks)).run (threeBuffers ++
    .shadeRoots [Arena.blockBase 0] :: fourthBuffer) = m
  obtain ⟨w', w'', hrun, hattach, hdropped, hkeeps⟩ :=
    drop_collector_keeps (w := ⟨m.heap, ()⟩) silent_idleClient create_fourBlocks hlegal hterm
      (congrArg Machine.heap hm).symm
  exact ⟨w', w'', hrun, hattach, hdropped, hkeeps _ hheld⟩

/-- A client that holds the roots and does nothing else. -/
def rootHolder : Hooks (List Nat) where
  onEvent _ w := w
  onTransition _ _ w := w
  onRecord _ _ := pure ()

/-- An object becomes a root after the cycle was begun. Dropping the collector frees it, although
finishing the marking with the same roots would keep it. -/
theorem new_root_freed :
    let m := (start (.empty fourBlocks)).run [.attachCollector, .carveRun 1 .scan]
    let begun := (ExceptT.run (Action.beginCycle rootHolder World.client) ⟨m.heap, []⟩).2
    let rooted : World (List Nat) := { begun with client := [Arena.blockBase 0] }
    let dropped := (ExceptT.run (Action.dropCollector rootHolder) rooted).2
    let marked := (ExceptT.run (Action.finishMarking rootHolder World.client) rooted).2
    rooted.heap.phase = .mark ∧ rooted.heap.arena.isAllocated (Arena.blockBase 0) = true ∧
      Arena.blockBase 0 ∈ rooted.client ∧
      dropped.heap.phase = .idle ∧ dropped.heap.arena.isAllocated (Arena.blockBase 0) = false ∧
      marked.heap.arena.isReached (Arena.blockBase 0) = true := by
  decide +kernel

end Machine

end EagerHeap
