import EagerHeap.Proofs.Run.Cycles
import EagerHeap.Session.Run
/-!
# Where a session stands

A session uses a worker, slots or a scope only by a name, and drops the name before the thing ends. While
a script runs in the middle of an operation, the contexts in which it is nested keep from it what the
operation still needs: the workers, if the script runs in the middle of an allocation; the scopes, if it
runs in the middle of an allocation in a scope; and the collector, if it runs in the middle of a cycle.

Main definition: `Returns`, which relates the courses before and after a script. Main results:
`Stands.trans`, `hears_hooks` and `abides_hooks`.
-/

namespace EagerHeap

/-! ### Scripts -/

/-- The script that a command on side records carries. -/
def RecordCommand.script? {σ : Type} : RecordCommand σ → Option σ
  | .attach _ _ _ script _ => script
  | _ => none

/-- The script that a command on the collector carries. -/
def CycleCommand.script? {σ : Type} : CycleCommand σ → Option σ
  | .observe _ script => script
  | _ => none

/-- Neither the command nor one in a script that it carries appends machine words to a buffer one by one.
In the middle of that a script could free the buffer. -/
inductive Command.Careful : Command → Prop
  | worker (c : WorkerCommand)
      (h : ∀ w shape count target, c ≠ .growLoop w (some Word.bytes) shape count target) :
      Careful (.worker c)
  | object (c : ObjectCommand) : Careful (.object c)
  | record (c : RecordCommand Script)
      (h : ∀ script, c.script? = some script → ∀ d ∈ script, Careful d) : Careful (.record c)
  | root (c : RootCommand) : Careful (.root c)
  | scope (c : ScopeCommand) : Careful (.scope c)
  | cycle (c : CycleCommand Script)
      (h : ∀ script, c.script? = some script → ∀ d ∈ script, Careful d) : Careful (.cycle c)
  | view (c : ViewCommand) : Careful (.view c)
  | unknown : Careful .unknown

namespace Session

/-- The commands of a script are careful, unless no script of a step is ever run in the middle of it. -/
def Tame (quiet : Prop) (script : Script) : Prop := ¬ quiet → ∀ d ∈ script, d.Careful

/-- The registries by name. -/
def registries (s : Session) : List (String × Nat) := s.slots.map fun a => (a.1, a.2.registry)

/-- The scripts of a session are tame, and none waits for an event of a step that is quiet. -/
structure Scripted (quiet : Prop) (s : Session) : Prop where
  armed : ∀ a, s.armed = some a → ¬ quiet ∧ Tame quiet a.script
  records : ∀ r ∈ s.recordScripts, Tame quiet r.script
  observers : ∀ o ∈ s.observerScripts, Tame quiet o.script

/-- The names of a session stand for workers that serve, for registries that were not dropped and for
all the open scopes, apart from some that have no name. -/
structure Names (unnamed : List Nat) (c : Course Session) : Prop where
  workers : ∀ a ∈ c.client.workers, c.Serves a.2
  kept : ∀ a ∈ c.client.registries,
    a.2 < c.machine.heap.registries.size ∧ a.2 ∉ c.ends.registries
  apart : ∀ a ∈ c.client.registries, ∀ b ∈ c.client.registries, a.2 = b.2 → a.1 = b.1
  opened : ∀ k, (∃ id r, c.machine.heap.post? k = some ⟨id, r, .active⟩) ↔
    k ∈ unnamed ∨ ∃ a ∈ c.client.scopes, a.2 = k
  distinct : ∀ a ∈ c.client.scopes, ∀ b ∈ c.client.scopes, a.1 = b.1 ↔ a.2 = b.2
  unnamed : ∀ a ∈ c.client.scopes, a.2 ∉ unnamed
  collector : c.client.hasCollector = true → c.machine.heap.collector.isSome = true

variable {quiet : Prop} {ctx ctx' : Context} {c₀ c d : Course Session} {y : Move} {extra : List Nat}

/-- A move that ends no worker, registry or collector that has a name. -/
theorem Names.move
    {unnamed : List Nat}
    (h : Names extra c)
    (hc : c.Sane)
    (hy : c.Admits y)
    (hworkers : ∀ a ∈ c.client.workers, y ≠ .flushWorker a.2)
    (hregistries : ∀ a ∈ c.client.registries, y ≠ .dropRegistry a.2)
    (hdetach : c.client.hasCollector = true → y ≠ .detachCollector)
    (hopened : ∀ k, (∃ id r, (c.apply y).machine.heap.post? k = some ⟨id, r, .active⟩) ↔
      k ∈ unnamed ∨ ∃ a ∈ c.client.scopes, a.2 = k)
    (hunnamed : ∀ a ∈ c.client.scopes, a.2 ∉ unnamed) :
    Names unnamed (c.apply y) where
  workers a ha := hy.2.serves (h.workers a ha) (hworkers a ha)
  kept a ha := by
    obtain ⟨hlt, hnot⟩ := h.kept a ha
    refine ⟨hlt.trans_le (Machine.size_registries_apply c.machine y), ?_⟩
    cases y with
    | dropRegistry r =>
        intro hmem
        rcases List.mem_cons.1 hmem with hr | hmem
        · exact hregistries a ha (by rw [hr])
        · exact hnot hmem
    | _ => exact hnot
  apart := h.apart
  opened := hopened
  distinct := h.distinct
  unnamed := hunnamed
  collector hhas := hc.proper.isSome_collector_apply hy.1 (hdetach hhas) (h.collector hhas)

/-- A move that ends nothing that has a name. -/
theorem Names.apply
    (h : Names extra c)
    (hc : c.Sane)
    (hy : c.Admits y)
    (hworkers : ∀ a ∈ c.client.workers, y ≠ .flushWorker a.2)
    (hregistries : ∀ a ∈ c.client.registries, y ≠ .dropRegistry a.2)
    (hposts : ∀ k, (c.apply y).machine.heap.post? k = c.machine.heap.post? k)
    (hdetach : c.client.hasCollector = true → y ≠ .detachCollector) :
    Names extra (c.apply y) := by
  refine h.move hc hy hworkers hregistries hdetach (fun k => ?_) h.unnamed
  rw [hposts]
  exact h.opened k

/-- A change of the client that leaves the names alone. -/
structure Alike (s t : Session) : Prop where
  workers : t.workers = s.workers
  registries : t.registries = s.registries
  scopes : t.scopes = s.scopes
  hasCollector : t.hasCollector = s.hasCollector

theorem Names.client
    {t : Session}
    (h : Names extra c)
    (ht : Alike c.client t) :
    Names extra (c.withClient t) where
  workers a ha := h.workers a (ht.workers ▸ ha)
  kept a ha := h.kept a (ht.registries ▸ ha)
  apart a ha b hb := h.apart a (ht.registries ▸ ha) b (ht.registries ▸ hb)
  opened k := by
    rw [show (c.withClient t).client.scopes = c.client.scopes from ht.scopes]
    exact h.opened k
  distinct a ha b hb := h.distinct a (ht.scopes ▸ ha) b (ht.scopes ▸ hb)
  unnamed a ha := h.unnamed a (ht.scopes ▸ ha)
  collector hhas := h.collector (ht.hasCollector ▸ hhas)

/-- If no scope that has a name satisfies a condition, no open one does. -/
theorem Names.forall_open
    {p : Scope → Bool}
    (h : Names [] c)
    (hnone : (c.client.scopes.any fun a => c.machine.heap.scopes[a.2]?.any p) = false) :
    ∀ s ∈ c.machine.heap.openScopes, p s = false := by
  intro s hs
  obtain ⟨k, hopen⟩ := Heap.exists_open_of_mem hs
  rcases (h.opened k).1 ⟨_, _, hopen.post?_eq⟩ with hmem | ⟨a, ha, rfl⟩
  · cases hmem
  · have hany := List.any_eq_false.1 hnone a ha
    rw [hopen.1] at hany
    exact Bool.eq_false_iff.2 hany

/-! ### What a script gives back -/

/-- The names and the scripts of the session are in order, and what is in use outside of the script is
still there. -/
structure Keeps (quiet : Prop) (ctx : Context) (c₀ : Course Session) (extra : List Nat)
    (c : Course Session) : Prop where
  names : Names extra c
  scripts : Scripted quiet c.client
  serving : ctx.inDuring = true → ∀ id, c₀.Serves id → c.Serves id
  holding : ctx.scopesBusy = true → ∀ k id r, c₀.machine.heap.post? k = some ⟨id, r, .active⟩ →
    c.machine.heap.post? k = some ⟨id, r, .active⟩
  batches : c.machine.batches = c₀.machine.batches

/-- The script leaves the collector alone, since it is in the middle of an operation or belongs to no
session. -/
def Locked (ctx : Context) (c : Course Session) : Prop :=
  (ctx.collectorBusy = true ∨ c.client.hasCollector = false) ∧
    c.machine.heap.collector.isSome = true

/-- The collector stands where it stood. -/
structure Parked (ctx : Context) (c₀ c : Course Session) : Prop where
  stage : c.machine.stage = c₀.machine.stage
  locked : Locked ctx c₀ → c.machine.heap.phase = c₀.machine.heap.phase ∧
    c.machine.heap.collector.isSome = true ∧ c.client.hasCollector = c₀.client.hasCollector
  ready : ctx.collectorBusy = false → c.client.hasCollector = true → c.machine.stage = .resting
  zeroed : Locked ctx c₀ → c₀.ledger.zeroed = true → c.ledger.zeroed = true

/-- What holds in the middle of a script, given the course before it, while some open scopes have no
name. -/
structure Stands (quiet : Prop) (ctx : Context) (c₀ : Course Session) (extra : List Nat)
    (c : Course Session) : Prop where
  keeps : Keeps quiet ctx c₀ extra c
  parked : Parked ctx c₀ c

/-- What holds of the course after a script, given the course before it. -/
abbrev Returns (quiet : Prop) (ctx : Context) (c₀ c : Course Session) : Prop :=
  Stands quiet ctx c₀ [] c

theorem Keeps.trans
    (h : Keeps quiet ctx c₀ extra c)
    (hd : Keeps quiet ctx c [] d) :
    Keeps quiet ctx c₀ [] d where
  names := hd.names
  scripts := hd.scripts
  serving hctx id hid := hd.serving hctx id (h.serving hctx id hid)
  holding hctx k id r hp := hd.holding hctx k id r (h.holding hctx k id r hp)
  batches := hd.batches.trans h.batches

/-- A collector that is left alone is left alone afterwards. -/
theorem Parked.locks
    (h : Parked ctx c₀ c)
    (hlocked : Locked ctx c₀) :
    Locked ctx c := by
  obtain ⟨-, hsome, hhas⟩ := h.locked hlocked
  exact ⟨hhas ▸ hlocked.1, hsome⟩

theorem Parked.trans
    (h : Parked ctx c₀ c)
    (hd : Parked ctx c d) :
    Parked ctx c₀ d where
  stage := hd.stage.trans h.stage
  locked hlocked := by
    obtain ⟨hphase, -, hhas⟩ := h.locked hlocked
    obtain ⟨hphase', hsome', hhas'⟩ := hd.locked (h.locks hlocked)
    exact ⟨hphase'.trans hphase, hsome', hhas'.trans hhas⟩
  ready := hd.ready
  zeroed hlocked hzeroed := hd.zeroed (h.locks hlocked) (h.zeroed hlocked hzeroed)

theorem Stands.trans
    (h : Stands quiet ctx c₀ extra c)
    (hd : Returns quiet ctx c d) :
    Returns quiet ctx c₀ d :=
  ⟨h.keeps.trans hd.keeps, h.parked.trans hd.parked⟩

/-- Every course from which a script starts returns to itself. -/
theorem Keeps.self
    (h : Keeps quiet ctx c₀ extra c)
    (ctx' : Context) :
    Keeps quiet ctx' c extra c :=
  ⟨h.names, h.scripts, fun _ _ h => h, fun _ _ _ _ h => h, rfl⟩

theorem Parked.self
    (h : Parked ctx c₀ c)
    (hctx : ctx'.collectorBusy = false → ctx.collectorBusy = false) :
    Parked ctx' c c :=
  ⟨rfl, fun hlocked => ⟨rfl, hlocked.2, rfl⟩, fun hfree => h.ready (hctx hfree), fun _ h => h⟩

/-- Where the collector stands is all that counts if it is not left alone. -/
theorem Parked.of_unlocked
    (hlocked : ¬ Locked ctx c₀)
    (hstage : c.machine.stage = c₀.machine.stage)
    (hready : ctx.collectorBusy = false → c.client.hasCollector = true → c.machine.stage = .resting) :
    Parked ctx c₀ c :=
  ⟨hstage, fun h => absurd h hlocked, hready, fun h => absurd h hlocked⟩

/-- A context that is nested deeper keeps more from its scripts. -/
structure Deeper (ctx ctx' : Context) : Prop where
  inDuring : ctx.inDuring = true → ctx'.inDuring = true
  collectorBusy : ctx'.collectorBusy = ctx.collectorBusy
  scopesBusy : ctx.scopesBusy = true → ctx'.scopesBusy = true

theorem Deeper.refl (ctx : Context) : Deeper ctx ctx := ⟨id, rfl, id⟩

theorem deeper_inDuring (ctx : Context) : Deeper ctx { ctx with inDuring := true } :=
  ⟨fun _ => rfl, rfl, fun h => h⟩

theorem Keeps.shallower
    (h : Keeps quiet ctx' c₀ extra c)
    (hduring : ctx.inDuring = true → ctx'.inDuring = true)
    (hscopes : ctx.scopesBusy = true → ctx'.scopesBusy = true) :
    Keeps quiet ctx c₀ extra c :=
  { h with
    serving := fun hctx => h.serving (hduring hctx)
    holding := fun hctx => h.holding (hscopes hctx) }

theorem Stands.shallower
    (h : Stands quiet ctx' c₀ extra c)
    (hctx : Deeper ctx ctx') :
    Stands quiet ctx c₀ extra c where
  keeps := h.keeps.shallower hctx.inDuring hctx.scopesBusy
  parked :=
    { stage := h.parked.stage
      locked := fun hlocked => h.parked.locked ⟨hctx.collectorBusy ▸ hlocked.1, hlocked.2⟩
      ready := fun hfree => h.parked.ready (hctx.collectorBusy ▸ hfree)
      zeroed := fun hlocked => h.parked.zeroed ⟨hctx.collectorBusy ▸ hlocked.1, hlocked.2⟩ }

/-! ### Single moves -/

/-- A move that is no end of anything that has a name, and enters no scope. -/
def Gentle : Move → Prop
  | .flushWorker _ | .dropRegistry _ | .enterScope .. | .drainScope _ | .leakScope _
  | .detachCollector | .startBatch | .fire | .endBatch | .breakBatch => False
  | _ => True

theorem gentle_of_routine
    (hy : y.Routine) :
    Gentle y := by
  cases y with
  | flushWorker | dropRegistry | enterScope | drainScope | leakScope | detachCollector | startBatch | fire
  | endBatch | breakBatch => exact hy
  | _ => trivial

theorem post?_of_gentle
    (hy : Gentle y)
    (k : Nat) :
    (c.apply y).machine.heap.post? k = c.machine.heap.post? k := by
  refine (Machine.post?_apply c.machine y k).trans ?_
  cases y with
  | enterScope | drainScope | leakScope => exact hy.elim
  | _ => rfl

/-- A move of the owners keeps what is in use if the names are in order afterwards. -/
theorem Keeps.move
    {unnamed : List Nat}
    (h : Keeps quiet ctx c₀ extra c)
    (hnames : Names unnamed (c.apply y))
    (hserving : ctx.inDuring = true → ∀ id, c.Serves id → (c.apply y).Serves id)
    (hposts : ctx.scopesBusy = true → ∀ k,
      (c.apply y).machine.heap.post? k = c.machine.heap.post? k)
    (hbatches : c.machine.batchesAfter y = c.machine.batches) :
    Keeps quiet ctx c₀ unnamed (c.apply y) where
  names := hnames
  scripts := h.scripts
  serving hctx id hid := hserving hctx id (h.serving hctx id hid)
  holding hctx k id r hp := by
    rw [hposts hctx]
    exact h.holding hctx k id r hp
  batches := hbatches.trans h.batches

theorem Keeps.apply
    (h : Keeps quiet ctx c₀ extra c)
    (hc : c.Sane)
    (hy : c.Admits y)
    (hgentle : Gentle y) :
    Keeps quiet ctx c₀ extra (c.apply y) := by
  have hposts := post?_of_gentle (c := c) hgentle
  refine h.move (h.names.apply hc hy ?_ ?_ hposts ?_) (fun _ id hid => hy.2.serves hid ?_)
    (fun _ => hposts) ?_
  · rintro a - rfl
    exact hgentle
  · rintro a - rfl
    exact hgentle
  · rintro - rfl
    exact hgentle
  · rintro rfl
    exact hgentle
  · cases y with
    | startBatch | fire | endBatch | breakBatch => exact hgentle.elim
    | _ => rfl

theorem Parked.apply
    (h : Parked ctx c₀ c)
    (hc : c.Sane)
    (hy : c.Admits y)
    (hstage : c.machine.stageAfter y = c.machine.stage)
    (henters : y.enters = none)
    (hne : y ≠ .detachCollector) :
    Parked ctx c₀ (c.apply y) where
  stage := hstage.trans h.stage
  locked hlocked := by
    obtain ⟨hphase, hsome, hhas⟩ := h.locked hlocked
    refine ⟨?_, hc.proper.isSome_collector_apply hy.1 hne hsome, hhas⟩
    rw [← hphase]
    refine (hc.proper.phase_apply hy.1).1.trans ?_
    rw [henters]
    rfl
  ready hfree hhas := hstage.trans (h.ready hfree hhas)
  zeroed hlocked hzeroed := by
    have hkept := h.zeroed hlocked hzeroed
    cases y with
    | zeroSlots => rfl
    | enterSweep => cases henters
    | _ => exact hkept

/-- The moves of workers and of single steps leave a session where it stands. -/
theorem steady_returns : Steady (Returns quiet ctx c₀) Move.Routine := by
  intro c y hc h hroutine hy
  refine ⟨h.keeps.apply hc hy (gentle_of_routine hroutine), h.parked.apply hc hy ?_ ?_ ?_⟩
  · cases y <;> first | rfl | exact hroutine.elim
  · cases y <;> first | rfl | exact hroutine.elim
  · rintro rfl
    exact hroutine

/-- A move with which an owner begins or ends something that has a name. -/
def OfOwners : Move → Prop
  | .flushWorker _ | .dropRegistry _ | .enterScope .. | .drainScope _ | .leakScope _ => True
  | _ => False

/-- A session stands where it was if the names are in order after a move of an owner, and if what others
use is no concern of the move. -/
theorem Stands.move
    {unnamed : List Nat}
    (h : Stands quiet ctx c₀ extra c)
    (hc : c.Sane)
    (hy : c.Admits y)
    (howner : OfOwners y)
    (hnames : Names unnamed (c.apply y))
    (hserving : ctx.inDuring = true → ∀ id, y ≠ .flushWorker id)
    (hposts : ctx.scopesBusy = true → ∀ k,
      (c.apply y).machine.heap.post? k = c.machine.heap.post? k) :
    Stands quiet ctx c₀ unnamed (c.apply y) := by
  refine ⟨h.keeps.move hnames (fun hctx id hid => hy.2.serves hid (hserving hctx id)) hposts ?_,
    h.parked.apply hc hy ?_ ?_ ?_⟩
  · cases y <;> first | rfl | exact howner.elim
  · cases y <;> first | rfl | exact howner.elim
  · cases y <;> first | rfl | exact howner.elim
  · rintro rfl
    exact howner

/-! ### Changes of the client -/

theorem Parked.client
    {t : Session}
    (h : Parked ctx c₀ c)
    (ht : t.hasCollector = c.client.hasCollector) :
    Parked ctx c₀ (c.withClient t) where
  stage := h.stage
  locked hlocked := by
    obtain ⟨hphase, hsome, hhas⟩ := h.locked hlocked
    exact ⟨hphase, hsome, ht.trans hhas⟩
  ready hfree hhas := h.ready hfree (ht ▸ hhas)
  zeroed := h.zeroed

/-- The names of the session change. -/
theorem Stands.renamed
    {unnamed : List Nat} {t : Session}
    (h : Stands quiet ctx c₀ extra c)
    (hnames : Names unnamed (c.withClient t))
    (hscripts : Scripted quiet t)
    (ht : t.hasCollector = c.client.hasCollector) :
    Stands quiet ctx c₀ unnamed (c.withClient t) where
  keeps :=
    { h.keeps with
      names := hnames
      scripts := hscripts }
  parked := h.parked.client ht

theorem Stands.client
    {t : Session}
    (h : Stands quiet ctx c₀ extra c)
    (ht : Alike c.client t)
    (hscripts : Scripted quiet t) :
    Stands quiet ctx c₀ extra (c.withClient t) :=
  h.renamed (h.keeps.names.client ht) hscripts ht.hasCollector

/-! ### Scripts in the middle of operations -/

/-- A script that is run unfolds into moves, and the session returns from it. -/
def Runner.Faithful (quiet : Prop) (run : Runner) : Prop :=
  ∀ ctx script c, c.Sane → Tame quiet script → Returns quiet ctx c c →
    ∃ d, c.Goes d ∧ (run ctx script c.world).2 = d.world ∧ Returns quiet ctx c d

/-- The condition outlasts what a script does in the context. -/
structure Lasts (quiet : Prop) (ctx : Context) (A : Course Session → Prop) : Prop where
  returns : ∀ c, c.Sane → A c → Returns quiet ctx c c
  stays : ∀ c d, A c → Returns quiet ctx c d → A d

theorem lasts_returns
    (hctx : Deeper ctx ctx') :
    Lasts quiet ctx' (Returns quiet ctx c₀) where
  returns _ _ h := ⟨h.keeps.self ctx', h.parked.self fun hfree => hctx.collectorBusy ▸ hfree⟩
  stays _ _ h hd := h.trans (hd.shallower hctx)

variable {run : Runner} {A : Course Session → Prop}

/-- Slots that were zeroed stay so while the collector is left alone. -/
theorem Lasts.zeroed
    (hA : Lasts quiet ctx A)
    (hlocked : ∀ c, A c → Locked ctx c) :
    Lasts quiet ctx fun c => A c ∧ c.ledger.zeroed = true where
  returns c hc h := hA.returns c hc h.1
  stays c d h hd := ⟨hA.stays c d h.1 hd, hd.parked.zeroed (hlocked c h.1) h.2⟩

theorem Lasts.client
    {t : Session}
    (hA : Lasts quiet ctx A)
    (hc : c.Sane)
    (h : A c)
    (ht : Alike c.client t)
    (hscripts : Scripted quiet t) :
    A (c.withClient t) :=
  hA.stays c _ h ((hA.returns c hc h).client ht hscripts)

/-- A script runs between two changes of the client that leave the names alone. -/
theorem Lasts.script
    {t : Session} {script : Script}
    (after : List Outcome → Session → Session)
    (hA : Lasts quiet ctx A)
    (hrun : Runner.Faithful quiet run)
    (hc : c.Sane)
    (h : A c)
    (ht : Alike c.client t)
    (hscripts : Scripted quiet t)
    (hscript : Tame quiet script)
    (hafter : ∀ results s, Alike s (after results s))
    (hkept : ∀ results s, Scripted quiet s → Scripted quiet (after results s)) :
    ∃ d, c.Goes d ∧ A d ∧
      (let (results, w) := run ctx script ⟨c.machine.heap, t⟩
       ({ w with client := after results w.client } : World Session)) = d.world := by
  have hstart : A (c.withClient t) := hA.client hc h ht hscripts
  have hc' := hc.withClient t
  obtain ⟨d, hg, heq, hd⟩ := hrun ctx script (c.withClient t) hc' hscript (hA.returns _ hc' hstart)
  have hend : A d := hA.stays _ d hstart hd
  have hsane := hg.sane hc'
  generalize hresults : (run ctx script (c.withClient t).world).1 = results
  refine ⟨d.withClient (after results d.client), ?_, ?_, ?_⟩
  · exact ((c.goes_withClient t).trans hg).trans (d.goes_withClient _)
  · exact hA.client hsane hend (hafter _ _) (hkept _ _ (hA.returns d hsane hend).keeps.scripts)
  · have hpair : run ctx script ⟨c.machine.heap, t⟩ = (results, d.world) :=
      Prod.ext hresults heq
    rw [hpair]
    rfl

/-- Only the script that waits for an event is run when one is reported, as another thread would run
it. -/
theorem hears_hooks
    (hrun : Runner.Faithful quiet run)
    (hA : Lasts quiet { ctx with inDuring := true } A) :
    (hooks run ctx).Hears A := by
  intro e c hc h
  have hscripts := (hA.returns c hc h).keeps.scripts
  let logged : Session := { c.client with log := c.client.log.push e }
  have hlogged : ∃ d, c.Goes d ∧ (⟨c.machine.heap, logged⟩ : World Session) = d.world ∧ A d :=
    ⟨c.withClient logged, c.goes_withClient _, rfl,
      hA.client hc h ⟨rfl, rfl, rfl, rfl⟩ ⟨hscripts.armed, hscripts.records, hscripts.observers⟩⟩
  change ∃ d, c.Goes d ∧ hearEvent run ctx e c.world = d.world ∧ A d
  rw [hearEvent]
  dsimp only
  split
  · exact hlogged
  · next armed harmed =>
      split
      · -- The script does not wait any more while it runs.
        obtain ⟨d, hg, hd, heq⟩ := hA.script
          (fun results s => { s with during := some results }) hrun hc h
          (t := { logged with armed := none }) ⟨rfl, rfl, rfl, rfl⟩
          ⟨nofun, hscripts.records, hscripts.observers⟩ (hscripts.armed armed harmed).2
          (fun _ _ => ⟨rfl, rfl, rfl, rfl⟩) fun _ _ hs => ⟨hs.armed, hs.records, hs.observers⟩
        exact ⟨d, hg, heq, hd⟩
      · exact hlogged

/-- The script of an observer is run when a transition is announced to it. -/
theorem abides_hooks
    (hrun : Runner.Faithful quiet run)
    (hA : Lasts quiet ctx A)
    (hhears : Lasts quiet { ctx with inDuring := true } A) :
    (hooks run ctx).Abides A := by
  refine ⟨hears_hooks hrun hhears, fun i t c hc h => ?_⟩
  have hscripts := (hA.returns c hc h).keeps.scripts
  let noted : Session :=
    { c.client with
      notes := c.client.notes.push (c.client.nextNote, ⟨i, t, none⟩)
      nextNote := c.client.nextNote + 1 }
  have hnoted : ∃ d, c.Goes d ∧ (⟨c.machine.heap, noted⟩ : World Session) = d.world ∧ A d :=
    ⟨c.withClient noted, c.goes_withClient _, rfl,
      hA.client hc h ⟨rfl, rfl, rfl, rfl⟩ ⟨hscripts.armed, hscripts.records, hscripts.observers⟩⟩
  change ∃ d, c.Goes d ∧ hearTransition run ctx i t c.world = d.world ∧ A d
  rw [hearTransition]
  dsimp only
  split
  · exact hnoted
  · next o ho =>
      split
      · have hscript := hscripts.observers o (Array.mem_of_getElem? ho)
        obtain ⟨d, hg, hd, heq⟩ := hA.script (setNoteResults c.client.nextNote) hrun hc
          h (t := noted) ⟨rfl, rfl, rfl, rfl⟩
          ⟨hscripts.armed, hscripts.records, hscripts.observers⟩ hscript
          (fun _ _ => ⟨rfl, rfl, rfl, rfl⟩) fun _ _ hs => ⟨hs.armed, hs.records, hs.observers⟩
        exact ⟨d, hg, heq, hd⟩
      · exact hnoted

/-- A side record fails, or runs its script. -/
theorem retains_fire
    (hrun : Runner.Faithful quiet run)
    (hA : Lasts quiet ctx A)
    (r : SideRecord) (addr : Nat) :
    Retains ((hooks run ctx).onRecord r addr) A := by
  intro c hc h
  have hscripts := (hA.returns c hc h).keeps.scripts
  change ∃ d, c.Goes d ∧ ((∃ a, ExceptT.run (fire run ctx r addr) c.world = (.ok a, d.world) ∧ A d) ∨
    ∃ o, ExceptT.run (fire run ctx r addr) c.world = (.error o, d.world) ∧ A d)
  rw [fire, run_bind_operation, run_get_operation]
  dsimp only
  split
  · exact ⟨c, .refl c, Or.inl ⟨(), rfl, h⟩⟩
  · next record hrecord =>
      let reported : Session :=
        { c.client with fired := c.client.fired.push ⟨r.kind, record.label, addr, none⟩ }
      have halike : Alike c.client reported := ⟨rfl, rfl, rfl, rfl⟩
      have hscripts' : Scripted quiet reported :=
        ⟨hscripts.armed, hscripts.records, hscripts.observers⟩
      have hreported := hA.client hc h halike hscripts'
      split
      · exact ⟨_, c.goes_withClient reported, Or.inr ⟨_, rfl, hreported⟩⟩
      · split
        · have hscript := hscripts.records record (Array.mem_of_getElem? hrecord)
          obtain ⟨d, hg, hd, heq⟩ := hA.script
            (setFiredResults c.client.fired.size) hrun hc h halike hscripts' hscript
            (fun _ _ => ⟨rfl, rfl, rfl, rfl⟩) fun _ _ hs => ⟨hs.armed, hs.records, hs.observers⟩
          refine ⟨d, hg, Or.inl ⟨(), ?_, hd⟩⟩
          rw [← heq]
          rfl
        · exact ⟨_, c.goes_withClient reported, Or.inl ⟨(), rfl, hreported⟩⟩

end Session

end EagerHeap
