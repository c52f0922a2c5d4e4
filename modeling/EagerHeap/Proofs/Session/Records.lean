import EagerHeap.Proofs.Session.Fields
/-!
# Commands on side records as runs of moves

The side records of a batch are run in the middle of a command, and each of them may run a script. The
batches around are as they were when it is over.

Main result: `retains_performRecord`.
-/

namespace EagerHeap

/-- The course with other batches that are being run. -/
def Course.withBatches {σ : Type} (c : Course σ) (batches : List Batch) : Course σ :=
  { c with machine := { c.machine with batches } }

namespace Session

open Exec

variable {quiet : Prop} {ctx : Context} {c₀ c : Course Session} {run : Runner}

/-! ### Batches -/

theorem Stands.rebatch
    {bs bs' : List Batch}
    (h : Returns quiet ctx (c₀.withBatches bs) c)
    (hbatches : c.machine.batches = bs') :
    Returns quiet ctx (c₀.withBatches bs') c :=
  ⟨{ h.keeps with batches := hbatches },
    ⟨h.parked.stage, h.parked.locked, h.parked.ready, h.parked.zeroed⟩⟩

/-- The session is where it was, apart from the batches that are being run. -/
def Reruns (quiet : Prop) (ctx : Context) (c₀ c : Course Session) : Prop :=
  Returns quiet ctx (c₀.withBatches c.machine.batches) c

theorem Stands.reruns
    (h : Returns quiet ctx c₀ c) :
    Reruns quiet ctx c₀ c :=
  Stands.rebatch (show Returns quiet ctx (c₀.withBatches c₀.machine.batches) c from h) rfl

theorem Reruns.returns
    (h : Reruns quiet ctx c₀ c)
    (hbatches : c.machine.batches = c₀.machine.batches) :
    Returns quiet ctx c₀ c :=
  Stands.rebatch h hbatches

theorem lasts_reruns (bs : List Batch) :
    Lasts quiet ctx fun c => Reruns quiet ctx c₀ c ∧ c.machine.batches = bs where
  returns c hc h := (lasts_returns (.refl ctx)).returns c hc h.1
  stays _ _ h hd := ⟨(h.1.rebatch hd.keeps.batches.symm).trans hd, hd.keeps.batches.trans h.2⟩

/-- A move of a batch touches nothing but the batches. -/
theorem steady_reruns : Steady (Reruns quiet ctx c₀) Move.OfBatches := by
  intro c y hc h hbatch hy
  obtain ⟨hposts, hserves, hdrop, hdetach, hstage, henters⟩ :
      (∀ k, (c.apply y).machine.heap.post? k = c.machine.heap.post? k) ∧ (∀ id, y ≠ .flushWorker id) ∧
        (∀ r, y ≠ .dropRegistry r) ∧ y ≠ .detachCollector ∧
          c.machine.stageAfter y = c.machine.stage ∧ y.enters = none := by
    cases y with
    | startBatch | fire | endBatch | breakBatch =>
        exact ⟨Machine.post?_apply c.machine _, nofun, nofun, nofun, rfl, rfl⟩
    | _ => exact hbatch.elim
  have hparked : Parked ctx c₀ c :=
    ⟨h.parked.stage, h.parked.locked, h.parked.ready, h.parked.zeroed⟩
  have hmoved := hparked.apply hc hy hstage henters hdetach
  refine ⟨⟨?_, h.keeps.scripts, fun hctx id hid => ?_, fun hctx k id r hp => ?_, rfl⟩,
    ⟨hmoved.stage, hmoved.locked, hmoved.ready, hmoved.zeroed⟩⟩
  · exact h.keeps.names.apply hc hy (fun a _ => hserves a.2) (fun a _ => hdrop a.2) hposts
      fun _ => hdetach
  · exact hy.2.serves (h.keeps.serving hctx id hid) (hserves id)
  · rw [hposts]
    exact h.keeps.holding hctx k id r hp

theorem retains_batch
    (hrun : Runner.Faithful quiet run)
    (bs : List Batch) :
    Retains (Action.runPending (hooks run ctx)) fun c =>
      Reruns quiet ctx c₀ c ∧ c.machine.batches = bs :=
  Action.retains_runPending steady_reruns fun bs => retains_fire hrun (lasts_reruns bs)

/-- The records that ran are reported, also if one of them failed. -/
theorem retains_runPending
    (hrun : Runner.Faithful quiet run) :
    Retains (Session.runPending (hooks run ctx)) (Returns quiet ctx c₀) := by
  intro c hc h
  have hclient : ∀ {d : Course Session} (fired : Array (Fired Outcome)), Returns quiet ctx c₀ d →
      Returns quiet ctx c₀ (d.withClient { d.client with fired }) := fun fired hd =>
    hd.client ⟨rfl, rfl, rfl, rfl⟩
      ⟨hd.keeps.scripts.armed, hd.keeps.scripts.records, hd.keeps.scripts.observers⟩
  let emptied := c.withClient { c.client with fired := #[] }
  obtain ⟨d, hg, hres⟩ := retains_batch hrun c.machine.batches emptied (hc.withClient _)
    ⟨(hclient #[] h).reruns, rfl⟩
  refine ⟨d.withClient { d.client with fired := c.client.fired },
    ((c.goes_withClient _).trans hg).trans (d.goes_withClient _), ?_⟩
  let fired := reportOrder d.client.fired.toList []
  rcases hres with ⟨n, hok, hd, hbatches⟩ | ⟨o, herror, hd, hbatches⟩
  · refine Or.inl ⟨.batch n fired, ?_, hclient _ (hd.returns (hbatches.trans h.keeps.batches))⟩
    change Session.runPending (hooks run ctx) c.world = _
    dsimp only [emptied, Course.withClient, Course.world] at hok
    simp only [Session.runPending, Course.world, hok]
    rfl
  · refine Or.inl ⟨.brokenBatch o fired, ?_, hclient _ (hd.returns (hbatches.trans h.keeps.batches))⟩
    change Session.runPending (hooks run ctx) c.world = _
    dsimp only [emptied, Course.withClient, Course.world] at herror
    simp only [Session.runPending, Course.world, herror]
    rfl

/-! ### Commands -/

theorem retains_performRecord
    (hrun : Runner.Faithful quiet run)
    (command : RecordCommand Script)
    (hcareful : ¬ quiet → (Command.record command).Careful) :
    Retains (performRecord (hooks run ctx) command) (Returns quiet ctx c₀) := by
  cases command with
  | attach kind addr label script failure =>
      refine (retains_word _ addr).bind fun addr => (retains_need _ label).bind fun label => ?_
      refine unfolds_need_bind (fun _ _ h => h) fun commands hscript => ?_
      refine (retains_need _ failure).bind fun failure => ?_
      have htame : Tame quiet commands := by
        intro hloud
        cases hcareful hloud with
        | record _ h => exact h commands hscript
      refine Unfolds.bind (Q := fun _ => Returns quiet ctx c₀) (unfolds_act (Action.unfolds_change
        (.attach addr kind) trivial (fun _ => rfl) (fun _ _ _ => ⟨trivial, trivial⟩) fun c hc h =>
          steady_returns c _ hc h trivial ⟨trivial, trivial⟩)) fun attached => ?_
      cases attached with
      | none => exact retains_pure _
      | some _ =>
          refine Retains.bind (retains_modifySession (lasts_returns (.refl ctx)) (fun s => ?_)
            fun s h => ?_) fun _ => retains_pure _
          · exact ⟨rfl, rfl, rfl, rfl⟩
          · refine ⟨h.armed, fun r hr => ?_, h.observers⟩
            rcases Array.mem_push.1 hr with hr | rfl
            · exact h.records r hr
            · exact htame
  | runPending => exact retains_runPending hrun
  | pending => exact (retains_view _).bind fun _ => retains_pure _

end Session

end EagerHeap
