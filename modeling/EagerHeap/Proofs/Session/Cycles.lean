import EagerHeap.Proofs.Session.Fields
/-!
# Commands on the collector as runs of moves

An operation of the collector may run the scripts of observers. Those of the collector of the session are
run while it is busy; those of a collector that is dropped or works in the background belong to no
session. In both cases no script moves the collector.

Main result: `retains_performCycle`.
-/

namespace EagerHeap

namespace Session

open Exec

variable {quiet : Prop} {ctx ctx' : Context} {c₀ c : Course Session} {run : Runner} {has : Bool}

/-! ### The collector in the middle of an operation -/

/-- The session in an operation of the collector, which is its own one or not. -/
structure Tends (quiet : Prop) (ctx : Context) (c₀ : Course Session) (has : Bool) (c : Course Session) :
    Prop where
  keeps : Keeps quiet ctx c₀ [] c
  owns : c.client.hasCollector = has
  resting : c₀.machine.stage = .resting
  unlocked : ¬ Locked ctx c₀

theorem steady_tends : Steady (Tends quiet ctx c₀ has) Move.OfCollector := by
  intro c y hc h hof hy
  have hgentle : Gentle y := by
    cases y with
    | flushWorker | dropRegistry | enterScope | drainScope | leakScope | detachCollector | startBatch
    | fire | endBatch | breakBatch => exact hof
    | _ => trivial
  exact { h with keeps := h.keeps.apply hc hy hgentle }

/-- No script moves the collector, since it is busy or belongs to no session. -/
theorem Tends.locked
    {s : Stage} {p : Phase}
    (h : Tends quiet ctx c₀ has c ∧ c.At s p)
    (hleft : ctx'.collectorBusy = true ∨ has = false) :
    Locked ctx' c :=
  ⟨hleft.imp_right fun hnone => h.1.owns.trans hnone, h.2.attached⟩

theorem lasts_tends
    {s : Stage} {p : Phase}
    (hduring : ctx.inDuring = true → ctx'.inDuring = true)
    (hscopes : ctx.scopesBusy = true → ctx'.scopesBusy = true)
    (hleft : ctx'.collectorBusy = true ∨ has = false) :
    Lasts quiet ctx' fun c => Tends quiet ctx c₀ has c ∧ c.At s p where
  returns c _ h := by
    refine ⟨h.1.keeps.self ctx', rfl, fun hlocked => ⟨rfl, hlocked.2, rfl⟩, fun hfree hhas => ?_,
      fun _ h => h⟩
    rcases hleft with hbusy | hnone
    · exact absurd (hbusy.symm.trans hfree) nofun
    · exact absurd (hhas.symm.trans (h.1.owns.trans hnone)) nofun
  stays c d h hd := by
    obtain ⟨hphase, hsome, howns⟩ := hd.parked.locked (Tends.locked h hleft)
    exact ⟨⟨h.1.keeps.trans (hd.keeps.shallower hduring hscopes), howns.trans h.1.owns, h.1.resting,
        h.1.unlocked⟩,
      ⟨hd.parked.stage.trans h.2.stage, hphase.trans h.2.phase, hsome⟩⟩

theorem leaves_tends
    (ctx ctx' : Context)
    (hrun : Runner.Faithful quiet run)
    (hduring : ctx.inDuring = true → ctx'.inDuring = true)
    (hscopes : ctx.scopesBusy = true → ctx'.scopesBusy = true)
    (hleft : ctx'.collectorBusy = true ∨ has = false) :
    (hooks run ctx').Leaves (Tends quiet ctx c₀ has) := by
  have hlasts (s : Stage) (p : Phase) :
      Lasts quiet ctx' fun c => Tends quiet ctx c₀ has c ∧ c.At s p :=
    lasts_tends hduring hscopes hleft
  have hhears (s : Stage) (p : Phase) :
      Lasts quiet { ctx' with inDuring := true } fun c => Tends quiet ctx c₀ has c ∧ c.At s p :=
    lasts_tends (fun _ => rfl) hscopes hleft
  exact ⟨fun s p => abides_hooks hrun (hlasts s p) (hhears s p), fun s p =>
    abides_hooks hrun ((hlasts s p).zeroed fun _ h => Tends.locked h hleft)
      ((hhears s p).zeroed fun _ h => Tends.locked h hleft)⟩

/-- Between two operations the session is where it was. -/
theorem returns_of_rests
    (h : Action.Rests (Tends quiet ctx c₀ has) c) :
    Returns quiet ctx c₀ c := by
  obtain ⟨p, h, hat⟩ := h
  exact ⟨h.keeps, .of_unlocked h.unlocked (hat.stage.trans h.resting.symm) fun _ _ => hat.stage⟩

/-- A session that has a collector which is not busy can begin an operation of it. -/
theorem rests_of_returns
    (h : Returns quiet ctx c₀ c)
    (hfree : ctx.collectorBusy = false)
    (hhas : c.client.hasCollector = true) :
    Action.Rests (Tends quiet ctx c₀ true) c := by
  have hstage := h.parked.ready hfree hhas
  refine ⟨c.machine.heap.phase, ⟨h.keeps, hhas, h.parked.stage.symm.trans hstage, ?_⟩, hstage, rfl,
    h.keeps.names.collector hhas⟩
  intro hlocked
  rcases hlocked.1 with hbusy | hnone
  · exact absurd (hbusy.symm.trans hfree) nofun
  · obtain ⟨-, -, howns⟩ := h.parked.locked hlocked
    exact absurd (hhas.symm.trans (howns.trans hnone)) nofun

/-! ### Commands on the collector of the session -/

/-- The rest of a command for which the session needs its collector. -/
theorem unfolds_needCollector_bind
    {α : Type} {f : Unit → Exec α}
    (hf : Unfolds (f ()) (Action.Rests (Tends quiet ctx c₀ true)) (fun _ => Returns quiet ctx c₀)
      (Returns quiet ctx c₀)) :
    Retains (needCollector ctx >>= f) (Returns quiet ctx c₀) := by
  simp only [needCollector, bind_assoc]
  refine unfolds_refuseIf_bind (fun _ _ h => h) fun hfree => Unfolds.bind (unfolds_session _) fun hhas => ?_
  refine unfolds_refuseIf_bind (fun _ _ h => h.1) fun hneeded => hf.pre ?_
  rintro c - ⟨h, rfl⟩
  exact rests_of_returns h hfree (by simpa using hneeded)

/-- The collector of the session rests after the command again. -/
theorem retains_needCollector_bind
    {α : Type} {f : Unit → Exec α}
    (hf : Retains (f ()) (Action.Rests (Tends quiet ctx c₀ true))) :
    Retains (needCollector ctx >>= f) (Returns quiet ctx c₀) :=
  unfolds_needCollector_bind (hf.mono (fun _ _ h => h) (fun _ _ _ h => returns_of_rests h)
    fun _ _ h => returns_of_rests h)

/-- An operation of the collector leads from one phase to another one. -/
theorem retains_operation
    {α : Type} {a : Action Session α} (next : Phase → Phase)
    (ha : ∀ p, Unfolds a (fun c => Tends quiet ctx c₀ has c ∧ c.At .resting p)
      (fun _ c => Tends quiet ctx c₀ has c ∧ c.At .resting (next p))
      (Action.Rests (Tends quiet ctx c₀ has))) :
    Retains (act a) (Action.Rests (Tends quiet ctx c₀ has)) := by
  refine unfolds_act ?_
  rintro c hc ⟨p, h⟩
  exact ((ha p).post fun _ _ _ h => ⟨next p, h⟩) c hc h

theorem retains_resolveRoots {A : Course Session → Prop} (f : Field RootsRef) :
    Retains (resolveRoots f) A := by
  refine (retains_need _ f).bind fun roots => ?_
  cases roots with
  | none | rootSet => exact retains_pure _
  | words refs => exact (retains_mapM (fun _ => retains_word _ _) refs).bind fun _ => retains_pure _

/-! ### Collectors that come and go -/

/-- A collector that is attached is not the session's yet. -/
theorem tends_attachCollector
    (hc : c.Sane)
    (h : Returns quiet ctx c₀ c)
    (hnone : c.machine.heap.collector = none) :
    Tends quiet ctx c₀ false (c.apply .attachCollector) where
  keeps := h.keeps.apply hc ⟨hnone, trivial⟩ trivial
  owns := by
    refine Bool.eq_false_iff.2 fun hhas => ?_
    have hsome := h.keeps.names.collector hhas
    rw [hnone] at hsome
    cases hsome
  resting := h.parked.stage.symm.trans (hc.proper.attached hnone).1
  unlocked hlocked := by
    obtain ⟨-, hsome, -⟩ := h.parked.locked hlocked
    rw [hnone] at hsome
    cases hsome

theorem returns_withCollector
    (h : Action.Rests (Tends quiet ctx c₀ has) c) :
    Returns quiet ctx c₀ (c.withClient { c.client with hasCollector := true }) := by
  obtain ⟨p, h, hat⟩ := h
  have hnames := h.keeps.names
  have hscripts := h.keeps.scripts
  exact ⟨{ h.keeps with
      names := ⟨hnames.workers, hnames.kept, hnames.apart, hnames.opened, hnames.distinct,
        hnames.unnamed, fun _ => hat.attached⟩
      scripts := ⟨hscripts.armed, hscripts.records, hscripts.observers⟩ },
    .of_unlocked h.unlocked (hat.stage.trans h.resting.symm) fun _ _ => hat.stage⟩

/-- A collector that the session gives away is still there. -/
theorem rests_withoutCollector
    (h : Action.Rests (Tends quiet ctx c₀ has) c) :
    Action.Rests (Tends quiet ctx c₀ false) (c.withClient { c.client with hasCollector := false }) := by
  obtain ⟨p, h, hat⟩ := h
  have hnames := h.keeps.names
  have hscripts := h.keeps.scripts
  exact ⟨p, ⟨{ h.keeps with
      names := ⟨hnames.workers, hnames.kept, hnames.apart, hnames.opened, hnames.distinct,
        hnames.unnamed, nofun⟩
      scripts := ⟨hscripts.armed, hscripts.records, hscripts.observers⟩ }, rfl, h.resting, h.unlocked⟩,
    ⟨hat.stage, hat.phase, hat.attached⟩⟩

/-- A collector that is detached is not the session's any more. -/
theorem returns_detachCollector
    (hc : c.Sane)
    (h : Tends quiet ctx c₀ false c)
    (hat : c.At .resting .idle) :
    Returns quiet ctx c₀ (c.apply .detachCollector) := by
  have hy : c.Admits .detachCollector := ⟨⟨hat.stage, hat.phase⟩, trivial⟩
  have hposts := Machine.post?_apply c.machine .detachCollector
  have hnone : c.client.hasCollector = true → False := fun hhas =>
    absurd (hhas.symm.trans h.owns) nofun
  refine ⟨h.keeps.move (h.keeps.names.apply hc hy nofun nofun hposts fun hhas => (hnone hhas).elim)
    (fun _ id hid => hy.2.serves hid nofun) (fun _ => hposts) rfl, ?_⟩
  exact .of_unlocked h.unlocked (hat.stage.trans h.resting.symm) fun _ hhas => (hnone hhas).elim

/-! ### Commands -/

theorem retains_performCycle
    (hrun : Runner.Faithful quiet run)
    (command : CycleCommand Script)
    (hcareful : ¬ quiet → (Command.cycle command).Careful) :
    Retains (performCycle (hooks run ctx) (hooks run { ctx with collectorBusy := true }) ctx command)
      (Returns quiet ctx c₀) := by
  have hsteady : Steady (Tends quiet ctx c₀ true) Move.OfCollector := steady_tends
  have hbusy : (hooks run { ctx with collectorBusy := true }).Leaves (Tends quiet ctx c₀ true) :=
    leaves_tends ctx { ctx with collectorBusy := true } hrun (fun h => h) (fun h => h) (Or.inl rfl)
  have hfree : (hooks run ctx).Leaves (Tends quiet ctx c₀ false) :=
    leaves_tends ctx ctx hrun (fun h => h) (fun h => h) (Or.inr rfl)
  cases command with
  | attach =>
      refine Unfolds.bind (Q := fun _ => Action.Rests (Tends quiet ctx c₀ false)) (unfolds_act
        (Action.unfolds_attachCollector fun c hc h hnone => ⟨.idle, tends_attachCollector hc h hnone, ?_⟩))
        fun _ => ?_
      · obtain ⟨hstage, hphase⟩ := hc.proper.attached hnone
        exact ⟨hstage, hphase, rfl⟩
      · exact Unfolds.bind (unfolds_modifySession fun c _ h => returns_withCollector h) fun _ =>
          retains_pure _
  | drop =>
      refine unfolds_needCollector_bind (Unfolds.bind
        (Q := fun _ => Action.Rests (Tends quiet ctx c₀ false))
        (unfolds_modifySession fun c _ h => rests_withoutCollector h) fun _ => ?_)
      refine Unfolds.bind (Q := fun _ => Returns quiet ctx c₀) ?_ fun _ => retains_pure _
      exact (unfolds_act (Action.unfolds_dropCollector steady_tends hfree fun c hc h hat =>
        returns_detachCollector hc h hat)).mono (fun _ _ h => h) (fun _ _ _ h => h)
          fun _ _ h => returns_of_rests h
  | begin roots =>
      refine (retains_resolveRoots roots).bind fun roots => retains_needCollector_bind ?_
      exact (retains_operation (fun _ => .mark) fun _ =>
        Action.unfolds_beginCycle hsteady hbusy roots).bind fun _ => retains_pure _
  | mark n =>
      refine (retains_need _ n).bind fun n => retains_needCollector_bind ?_
      exact (retains_operation id fun _ => Action.unfolds_markStep hsteady n).bind fun _ =>
        retains_pure _
  | finishMarking roots =>
      refine (retains_resolveRoots roots).bind fun roots => retains_needCollector_bind ?_
      exact (retains_operation (fun _ => .termination) fun _ =>
        Action.unfolds_finishMarking hsteady hbusy roots).bind fun _ => retains_pure _
  | beginSweep =>
      exact retains_needCollector_bind ((retains_operation (fun _ => .sweep) fun _ =>
        Action.unfolds_beginSweep hsteady hbusy).bind fun _ => retains_pure _)
  | sweep n =>
      refine (retains_need _ n).bind fun n => retains_needCollector_bind ?_
      exact (retains_operation id fun _ => Action.unfolds_sweepStep hsteady n).bind fun _ =>
        retains_pure _
  | finish =>
      exact retains_needCollector_bind ((retains_operation (fun _ => .idle) fun _ =>
        Action.unfolds_finishCycle hsteady hbusy).bind fun _ => retains_pure _)
  | collect roots =>
      refine (retains_resolveRoots roots).bind fun roots => retains_needCollector_bind ?_
      exact (retains_operation (fun _ => .idle) fun _ =>
        Action.unfolds_collect hsteady hbusy roots).bind fun _ => retains_pure _
  | stats =>
      refine retains_needCollector_bind ((retains_view _).bind fun _ => (retains_view _).bind fun _ => ?_)
      exact (retains_view _).bind fun _ => retains_pure _
  | observe phase script =>
      refine (retains_need _ phase).bind fun phase => ?_
      refine unfolds_need_bind (fun _ _ h => h) fun commands hscript => ?_
      have htame : Tame quiet commands := by
        intro hloud
        cases hcareful hloud with
        | cycle _ h => exact h commands hscript
      refine Retains.bind (retains_modifySession (lasts_returns (.refl ctx)) (fun s => ?_)
        fun s h => ?_) fun _ => ?_
      · exact ⟨rfl, rfl, rfl, rfl⟩
      · refine ⟨h.armed, h.records, fun o ho => ?_⟩
        rcases Array.mem_push.1 ho with ho | rfl
        · exact h.observers o ho
        · exact htame
      · refine Unfolds.bind (Q := fun _ => Returns quiet ctx c₀) (unfolds_act (Action.unfolds_adjust
          .observe trivial (fun _ => rfl) (fun _ _ _ => ⟨trivial, trivial⟩) fun c hc h =>
            steady_returns c _ hc h trivial ⟨trivial, trivial⟩)) fun _ => ?_
        exact (retains_view _).bind fun _ => retains_pure _
  | events =>
      refine (retains_session _).bind fun notes => ?_
      refine Retains.bind (retains_modifySession (lasts_returns (.refl ctx)) (fun s => ?_)
        fun s h => ?_) fun _ => retains_pure _
      · exact ⟨rfl, rfl, rfl, rfl⟩
      · exact ⟨h.armed, h.records, h.observers⟩
  | background requests =>
      refine (retains_need _ requests).bind fun requests => (retains_session _).bind fun scripted => ?_
      refine (retains_view _).bind fun untriggered => (retains_refuseIf _ _).bind fun _ => ?_
      refine Unfolds.bind (Q := fun _ => Returns quiet ctx c₀) ?_ fun _ => retains_pure _
      exact (unfolds_act (Action.unfolds_collectInBackground steady_tends hfree
        (fun c hc h hnone => tends_attachCollector hc h hnone)
        (fun c hc h hat => returns_detachCollector hc h hat) rootSet requests)).mono
          (fun _ _ h => h) (fun _ _ _ h => h) fun _ _ h => h.elim id returns_of_rests

end Session

end EagerHeap
