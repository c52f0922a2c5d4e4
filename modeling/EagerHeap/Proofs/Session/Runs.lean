import EagerHeap.Proofs.Session.Cycles
import EagerHeap.Proofs.Session.Objects
import EagerHeap.Proofs.Session.Records
import EagerHeap.Proofs.Session.Scopes
/-!
# Sessions are runs of moves

Every session takes a new heap through a legal run of moves in which the owners keep to what they
guarantee, and in which the moves come in the order of their operations. So whatever is preserved by all
moves, or holds of all such runs, holds of every session. There is one exception: if a script runs in the
middle of a step, no command may append words to a buffer one by one, for the script may free the buffer
while it is being filled.

Main results: `faithful_runScript`, `exists_run_of_steps`, `exists_accounted_run_of_steps` and
`sound_runSteps`.
-/

namespace EagerHeap

/-! ### Steps -/

/-- No script runs in the middle of the step. -/
def Step.Quiet (s : Step) : Prop := ∀ i, s.during ≠ some (some i)

/-- The command of the step is careful, and so are those of the script in the middle of it. -/
structure Step.Careful (s : Step) : Prop where
  command : s.command.Careful
  during : ∀ i script, s.during = some (some i) → i.script = some script → ∀ d ∈ script, d.Careful

namespace Session

open Exec

variable {quiet : Prop} {ctx : Context} {c₀ c : Course Session} {run : Runner}

/-! ### Commands and scripts -/

/-- Every command unfolds into moves, and the session returns from it. -/
theorem retains_perform
    (hrun : Runner.Faithful quiet run)
    (command : Command)
    (hcareful : ¬ quiet → command.Careful) :
    Retains (perform run ctx command) (Returns quiet ctx c₀) := by
  cases command with
  | worker command => exact retains_performWorker hrun command hcareful
  | object command => exact retains_performObject command
  | record command => exact retains_performRecord hrun command hcareful
  | root command => exact retains_performRoot (lasts_returns (.refl ctx)) command
  | scope command => exact retains_performScope hrun command
  | cycle command => exact retains_performCycle hrun command hcareful
  | view command => exact retains_performView command
  | unknown => exact retains_throw _

/-- A script unfolds into moves. The induction is on its commands. -/
theorem faithful_performAll
    (hrun : Runner.Faithful quiet run) :
    Runner.Faithful quiet (performAll run) := by
  intro ctx script c hc htame h
  suffices hall : ∀ d, d.Sane → Returns quiet ctx c d →
      ∃ f, d.Goes f ∧ (performAll run ctx script d.world).2 = f.world ∧ Returns quiet ctx c f from
    hall c hc h
  clear hc h
  induction script with
  | nil => exact fun d _ hd => ⟨d, .refl d, rfl, hd⟩
  | cons command rest ih =>
      intro d hd h
      have hcommand : Retains (perform run ctx command) (Returns quiet ctx c) :=
        retains_perform hrun command fun hloud => htame hloud command List.mem_cons_self
      obtain ⟨f, hg, heq, hf⟩ := hcommand.leaves hd h
      obtain ⟨g, hg', heq', hg''⟩ := ih (fun hloud d hd => htame hloud d (List.mem_cons_of_mem _ hd)) f
        (hg.sane hd) hf
      refine ⟨g, hg.trans hg', ?_, hg''⟩
      rw [← heq', ← heq]
      rfl

/-- Scripts within scripts unfold into moves, down to the last level, where nothing is done. -/
theorem faithful_runScript (depth : Nat) : Runner.Faithful quiet (runScript depth) := by
  induction depth with
  | zero => exact fun _ _ c _ _ h => ⟨c, .refl c, rfl, h⟩
  | succ depth ih => exact faithful_performAll ih

/-! ### Steps -/

/-- The script of a step waits from the beginning of the step on. -/
theorem retains_arm
    {f : Field (Option Interruption)}
    (hscript : ∀ i script, f = some (some i) → i.script = some script →
      ¬ quiet ∧ ∀ d ∈ script, d.Careful) :
    Retains (arm f) (Returns quiet ctx c₀) := by
  refine unfolds_need_bind (fun _ _ h => h) fun interruption hf => ?_
  cases interruption with
  | none => exact retains_pure ()
  | some i =>
      refine (retains_need _ _).bind fun message => unfolds_need_bind (fun _ _ h => h) fun script hi => ?_
      refine unfolds_modifySession fun c _ h => h.client ⟨rfl, rfl, rfl, rfl⟩ ?_
      have hscripts := h.keeps.scripts
      refine ⟨?_, hscripts.records, hscripts.observers⟩
      rintro a ⟨⟩
      exact (hscript i script hf hi).imp_right fun hcareful _ => hcareful

theorem retains_performStep
    {s : Step}
    (hquiet : quiet → s.Quiet)
    (hcareful : ¬ quiet → s.Careful) :
    Retains (performStep s) (Returns quiet {} c₀) := by
  refine Retains.bind (retains_arm fun i script hi hscript => ?_) fun _ =>
    retains_perform (faithful_runScript depthLimit) s.command fun hloud => (hcareful hloud).command
  have hloud : ¬ quiet := fun hq => hquiet hq i hi
  exact ⟨hloud, (hcareful hloud).during i script hi hscript⟩

theorem exists_goes_runStep
    {s : Step}
    (hquiet : quiet → s.Quiet)
    (hcareful : ¬ quiet → s.Careful)
    (watched : Bool)
    (hc : c.Sane)
    (h : Returns quiet {} c₀ c) :
    ∃ d, c.Goes d ∧ (runStep watched s c.world).2 = d.world ∧ Returns quiet {} c₀ d := by
  let reset : Session := { c.client with log := #[], armed := none, during := none }
  have hscripts := h.keeps.scripts
  have hreset : Returns quiet {} c₀ (c.withClient reset) :=
    h.client ⟨rfl, rfl, rfl, rfl⟩ ⟨nofun, hscripts.records, hscripts.observers⟩
  obtain ⟨d, hg, heq, hd⟩ := (retains_performStep hquiet hcareful).leaves (hc.withClient reset) hreset
  exact ⟨d, (c.goes_withClient reset).trans hg, heq, hd⟩

/-- Steps unfold into moves one after the other. -/
theorem exists_goes_runSteps
    {steps : List Step}
    (quiet : Prop)
    (hquiet : quiet → ∀ s ∈ steps, s.Quiet)
    (hcareful : ¬ quiet → ∀ s ∈ steps, s.Careful)
    (watched : Bool)
    (hc : c.Sane)
    (h : Returns quiet {} c₀ c) :
    ∃ d, c.Goes d ∧ (runSteps watched steps c.world).2 = d.world ∧ Returns quiet {} c₀ d := by
  induction steps generalizing c with
  | nil => exact ⟨c, .refl c, rfl, h⟩
  | cons s rest ih =>
      obtain ⟨d, hg, heq, hd⟩ := exists_goes_runStep (fun hq => hquiet hq s List.mem_cons_self)
        (fun hloud => hcareful hloud s List.mem_cons_self) watched hc h
      obtain ⟨f, hg', heq', hf⟩ := ih (fun hq t ht => hquiet hq t (List.mem_cons_of_mem _ ht))
        (fun hloud t ht => hcareful hloud t (List.mem_cons_of_mem _ ht)) (hg.sane hc) hd
      refine ⟨f, hg.trans hg', ?_, hf⟩
      rw [← heq', ← heq]
      rfl

/-! ### Sessions -/

/-- A session of a new heap is in order: no scope is open, and nothing has a name. -/
theorem returns_start
    {memory : Nat} {config : Config} {h : Heap}
    (hc : Heap.create memory config = .ok h) :
    Returns quiet {} (Course.start h ({} : Session)) (Course.start h {}) := by
  obtain ⟨-, rfl⟩ := Heap.create_eq_ok hc
  refine ⟨⟨⟨nofun, nofun, nofun, fun k => iff_of_false ?_ ?_, nofun, nofun, nofun⟩,
    ⟨nofun, nofun, nofun⟩, nofun, nofun, rfl⟩, rfl, nofun, nofun, nofun⟩
  · rintro ⟨id, r, hp⟩
    exact absurd (post?_lt hp) (Nat.not_lt_zero k)
  · rintro (hk | ⟨a, ha, -⟩)
    · cases hk
    · cases ha

variable {memory : Nat} {config : Config} {h : Heap} {steps : List Step}

theorem exists_leads_of_steps
    (hc : Heap.create memory config = .ok h)
    (hsteps : (∀ s ∈ steps, s.Quiet) ∨ ∀ s ∈ steps, s.Careful)
    (watched : Bool) :
    ∃ ys d, (Course.start h ({} : Session)).Leads ys d ∧
      (runSteps watched steps ⟨h, {}⟩).2.heap = ((Machine.start h).run ys).heap ∧
        Returns (∀ s ∈ steps, s.Quiet) {} (Course.start h {}) d := by
  obtain ⟨d, ⟨ys, hl⟩, heq, hd⟩ := exists_goes_runSteps (∀ s ∈ steps, s.Quiet) id
    (fun hloud => hsteps.resolve_left hloud) watched (Course.sane_start hc {}) (returns_start hc)
  exact ⟨ys, d, hl, (congrArg World.heap heq).trans (congrArg Machine.heap hl.machine.symm), hd⟩

/-- A session takes a new heap through a legal run in which the owners keep to what they guarantee, and
every move comes in the order of its operation. After the last step no operation of the collector and no
batch is going on. -/
theorem exists_run_of_steps
    (hc : Heap.create memory config = .ok h)
    (hsteps : (∀ s ∈ steps, s.Quiet) ∨ ∀ s ∈ steps, s.Careful)
    (watched : Bool) :
    ∃ ys, Machine.Legal (fun _ _ => True) (.start h) ys ∧ (Machine.start h).Attended {} ys ∧
      (Machine.start h).Sequenced {} {} ys ∧
        (runSteps watched steps ⟨h, {}⟩).2.heap = ((Machine.start h).run ys).heap ∧
          ((Machine.start h).run ys).stage = .resting ∧ ((Machine.start h).run ys).batches = [] := by
  obtain ⟨ys, d, hl, heq, hd⟩ := exists_leads_of_steps hc hsteps watched
  refine ⟨ys, hl.legal, hl.attended, hl.sequenced, heq, ?_, ?_⟩
  · exact (congrArg Machine.stage hl.machine).trans hd.parked.stage
  · exact (congrArg Machine.batches hl.machine).trans hd.keeps.batches

/-- The run of a session meets what the accounts of allocations ask for. When it is over, only large
allocations that got no run of blocks are due, and none in a scope is owed. The run is orderly if no
command frees by itself what a scope tracks, and then it reserves what scopes track if no command
attaches a side record to it. -/
theorem exists_accounted_run_of_steps
    (hc : Heap.create memory config = .ok h)
    (hsteps : (∀ s ∈ steps, s.Quiet) ∨ ∀ s ∈ steps, s.Careful)
    (watched : Bool) :
    ∃ ys, Machine.Legal (fun _ _ => True) (.start h) ys ∧
      (runSteps watched steps ⟨h, {}⟩).2.heap = ((Machine.start h).run ys).heap ∧
      ((Machine.start h).Booked 0 ys ∧ (Machine.start h).dueIn 0 ys = (Machine.start h).refusedIn ys) ∧
      ((Machine.start h).Upheld ys ∧
        (Machine.notes Machine.Docket.after (.start h) {} ys).owed = []) ∧
      (Machine.Legal Machine.FreesUntracked (.start h) ys → (Machine.start h).Orderly {} ys ∧
        (Machine.Legal Machine.AttachesUntracked (.start h) ys → (Machine.start h).Reserved ys)) := by
  obtain ⟨ys, d, hl, heq, -⟩ := exists_leads_of_steps hc hsteps watched
  obtain ⟨hbooked, hupheld⟩ := hl.settled
  refine ⟨ys, hl.legal, heq, hbooked, hupheld, fun hfrees => ?_⟩
  have horderly := hl.sequenced.orderly hl.attended hfrees (Machine.manned_start hc) rfl
  exact ⟨horderly, hl.sequenced.reserved horderly⟩

/-- What holds of a new heap and is preserved by every move holds after a session. -/
theorem runSteps_preserves
    {R : Machine → Ends → Prop}
    (hc : Heap.create memory config = .ok h)
    (hsteps : (∀ s ∈ steps, s.Quiet) ∨ ∀ s ∈ steps, s.Careful)
    (hstart : R (.start h) {})
    (hstep : ∀ m e y, R m e → m.Allows y → m.Heeds e y → R (m.apply y) (e.after y))
    (watched : Bool) :
    ∃ m e, m.heap = (runSteps watched steps ⟨h, {}⟩).2.heap ∧ R m e := by
  obtain ⟨ys, hl, ha, -, heq, -⟩ := exists_run_of_steps hc hsteps watched
  exact ⟨_, _, heq.symm, ha.preserves hl hstart hstep⟩

/-- The heap is sound after every session, whatever its commands and scripts are. -/
theorem sound_runSteps
    (hc : Heap.create memory config = .ok h)
    (hsteps : (∀ s ∈ steps, s.Quiet) ∨ ∀ s ∈ steps, s.Careful)
    (watched : Bool) :
    (runSteps watched steps ⟨h, {}⟩).2.heap.Sound := by
  obtain ⟨ys, hl, -, -, heq, -⟩ := exists_run_of_steps hc hsteps watched
  rw [heq]
  exact (hl.proper (Machine.proper_start hc)).sound

end Session

end EagerHeap
