import EagerHeap.Proofs.Session.Fields
/-!
# Commands on workers as runs of moves

A command on workers unfolds into moves, and the session returns from it. What a worker allocates, frees
and grows goes on only as long as the worker serves; scripts in the middle of it cannot end the worker.

Main result: `retains_performWorker`.
-/

namespace EagerHeap

namespace Session

open Exec

variable {quiet : Prop} {ctx ctx' : Context} {c₀ : Course Session} {run : Runner} {id : Nat}

/-! ### Conditions that outlast scripts -/

/-- The session is where it was, and a worker serves. -/
def Staffs (quiet : Prop) (ctx : Context) (c₀ : Course Session) (id : Nat) (c : Course Session) : Prop :=
  Returns quiet ctx c₀ c ∧ c.Serves id

theorem lasts_staffs
    (hctx : Deeper ctx ctx')
    (hduring : ctx'.inDuring = true) :
    Lasts quiet ctx' (Staffs quiet ctx c₀ id) where
  returns c hc h := (lasts_returns hctx).returns c hc h.1
  stays c d h hd := ⟨(lasts_returns hctx).stays c d h.1 hd, hd.keeps.serving hduring id h.2⟩

theorem steady_staffs : Steady (Staffs quiet ctx c₀ id) Move.Routine := by
  rintro c y hc ⟨h, hid⟩ hroutine hy
  refine ⟨steady_returns c y hc h hroutine hy, hy.2.serves hid ?_⟩
  rintro rfl
  exact hroutine

theorem lasts_staffing (ctx : Context) :
    Lasts quiet { ctx with inDuring := true } (Staffs quiet ctx c₀ id) :=
  lasts_staffs (deeper_inDuring ctx) rfl

theorem hears_staffs
    (hrun : Runner.Faithful quiet run) :
    (hooks run ctx).Hears (Staffs quiet ctx c₀ id) :=
  hears_hooks hrun (lasts_staffing ctx)

/-- A named worker serves. -/
theorem unfolds_worker (w : Field String) :
    Unfolds (worker w) (Returns quiet ctx c₀) (fun id => Staffs quiet ctx c₀ id)
      (Returns quiet ctx c₀) := by
  refine (retains_need "w" w).bind fun name => ?_
  exact (unfolds_named Session.workers name .noSuchWorker).post
    fun _ _ _ h => ⟨h.1, h.1.keeps.names.workers _ h.2⟩

theorem retains_worker_bind
    {α : Type} {f : Nat → Exec α}
    (hf : ∀ id, Retains (f id) (Staffs quiet ctx c₀ id))
    (w : Field String) :
    Retains (worker w >>= f) (Returns quiet ctx c₀) :=
  Unfolds.bind (unfolds_worker w) fun id =>
    (hf id).mono (fun _ _ h => h) (fun _ _ _ h => h.1) fun _ _ h => h.1

/-! ### Allocation, free and growth -/

theorem retains_allocation
    (hrun : Runner.Faithful quiet run)
    (s : Span) :
    Retains (act (Action.allocate (hooks run ctx) id s)) (Staffs quiet ctx c₀ id) :=
  unfolds_act ((Action.unfolds_allocate steady_staffs (hears_staffs hrun) (fun _ _ h => h.2) s).post
    fun _ _ _ h => h.1)

theorem retains_freeing
    (hrun : Runner.Faithful quiet run)
    (addr size : Nat) (shape : Shape) :
    Retains (act (Action.tryFree (hooks run ctx) id addr size shape)) (Staffs quiet ctx c₀ id) :=
  unfolds_act (Action.retains_tryFree (steady_staffs.routine trivial) (hears_staffs hrun)
    fun _ _ h => h.2)

theorem retains_fill
    (hrun : Runner.Faithful quiet run)
    (s : Span) (target : Option String) (n i : Nat) (made : Array Nat) :
    Retains (fill (hooks run ctx) id s target i made n) (Staffs quiet ctx c₀ id) := by
  induction n generalizing i made with
  | zero => exact retains_pure made
  | succ n ih =>
      rw [fill]
      refine (retains_allocation hrun s).bind fun addr => ?_
      exact (retains_bindWord (lasts_staffing ctx) _ addr 0).bind fun _ => ih _ _

theorem retains_churn
    (hrun : Runner.Faithful quiet run)
    (s : Span) (size n accepted : Nat) (made : Array Nat) :
    Retains (churn (hooks run ctx) id s size accepted made n) (Staffs quiet ctx c₀ id) := by
  induction n generalizing accepted made with
  | zero => exact retains_pure _
  | succ n ih =>
      rw [churn]
      refine (retains_allocation hrun s).bind fun addr => ?_
      exact (retains_freeing hrun addr size s.shape).bind fun freed => ih _ _

/-- If no script waits for an event, the client leaves the objects alone when it is told of one. -/
theorem hears_staffs_gave
    (hquiet : quiet)
    (x size : Nat) (shape : Shape) :
    (hooks run ctx).Hears fun c => Staffs quiet ctx c₀ id c ∧ c.Gave x size shape := by
  rintro e c hc ⟨⟨h, hid⟩, hgave⟩
  have hscripts := h.keeps.scripts
  have hcalm : c.client.armed = none := by
    cases harmed : c.client.armed with
    | none => rfl
    | some a => exact absurd hquiet (hscripts.armed a harmed).1
  let logged : Session := { c.client with log := c.client.log.push e }
  have halike : Alike c.client logged := ⟨rfl, rfl, rfl, rfl⟩
  refine ⟨c.withClient logged, c.goes_withClient logged, ?_, ⟨h.client halike ?_, hid⟩, hgave⟩
  · change hearEvent run ctx e c.world = _
    rw [hearEvent]
    dsimp only
    split
    · rfl
    · next armed harmed => exact absurd (harmed.symm.trans hcalm) (Option.some_ne_none armed)
  · exact ⟨hscripts.armed, hscripts.records, hscripts.observers⟩

/-- Elements are appended to a buffer one by one. Words are written into it only if no script can have
freed it, as one of a step may do when the free of the old buffer is declined. -/
theorem unfolds_appendAll
    {elementSize : Nat}
    (hrun : Runner.Faithful quiet run)
    (hwords : elementSize = Word.bytes → quiet)
    (shape : Shape) (n addr capacity length : Nat) (made : Array Growth) :
    Unfolds (appendAll (hooks run ctx) id elementSize shape addr capacity length made n)
      (fun c => Staffs quiet ctx c₀ id c ∧
        (elementSize = Word.bytes → length < capacity → c.Gave addr (capacity * elementSize) shape))
      (fun _ => Staffs quiet ctx c₀ id) (Staffs quiet ctx c₀ id) := by
  induction n generalizing addr capacity length made with
  | zero => exact unfolds_pure fun _ _ h => h.1
  | succ n ih =>
      rw [appendAll]
      -- There is room for one more element, and for a word no script has taken the buffer.
      have hrest : ∀ addr capacity made,
          Unfolds (if elementSize = Word.bytes then do
              Exec.adjust (·.writeWord addr length (length + 1))
              appendAll (hooks run ctx) id elementSize shape addr capacity (length + 1) made n
            else appendAll (hooks run ctx) id elementSize shape addr capacity (length + 1) made n)
          (fun c => Staffs quiet ctx c₀ id c ∧
            (elementSize = Word.bytes → length < capacity ∧ c.Gave addr (capacity * elementSize) shape))
          (fun _ => Staffs quiet ctx c₀ id) (Staffs quiet ctx c₀ id) := by
        intro addr capacity made
        refine unfolds_ite (fun hword => ?_) fun hother =>
          (ih addr capacity (length + 1) made).pre fun _ _ h => ⟨h.1, fun hword => absurd hword hother⟩
        have hadmits : ∀ c : Course Session,
            length < capacity ∧ c.Gave addr (capacity * elementSize) shape →
            c.Admits (.write addr length (length + 1)) := by
          rintro c ⟨hlt, d, hobj, hsize, -⟩
          refine ⟨⟨d, hobj.1, hobj.2, hlt.trans_le ?_⟩, trivial⟩
          exact (Nat.le_div_iff_mul_le (by decide)).2 (hword ▸ hsize)
        refine Unfolds.bind ?_ fun _ => ih addr capacity (length + 1) made
        refine unfolds_act (Action.unfolds_adjust (.write addr length (length + 1)) trivial (fun _ => rfl)
          (fun c _ h => hadmits c (h.2 hword)) fun c hc h => ?_)
        have hy := hadmits c (h.2 hword)
        exact ⟨steady_staffs c _ hc h.1 trivial hy, fun _ _ =>
          (h.2 hword).2.apply hc hy (by simp [Move.Does]) (by simp [Move.Does])⟩
      refine unfolds_ite (fun _ => ?_) fun hroom => ?_
      · refine Unfolds.bind ((unfolds_act (Action.unfolds_growUnaliased (elementSize = Word.bytes)
          steady_staffs (hears_staffs hrun) (fun _ _ h => h.2) (fun hword => by rw [hword]; decide)
          (fun hword x size => hears_staffs_gave (hwords hword) x size shape) addr capacity 1)).pre
          fun _ _ h => h.1) fun r => ?_
        exact hrest r.1 r.2 _
      · exact (hrest addr capacity made).pre fun _ _ h => ⟨h.1, fun hword =>
          have hlt : length < capacity := by omega
          ⟨hlt, h.2 hword hlt⟩⟩

/-! ### Workers that come and go -/

theorem Stands.withWorkers
    {c : Course Session} {workers : List (String × Nat)}
    (h : Returns quiet ctx c₀ c)
    (hworkers : ∀ a ∈ workers, c.Serves a.2) :
    Returns quiet ctx c₀ (c.withClient { c.client with workers }) := by
  have hnames := h.keeps.names
  have hscripts := h.keeps.scripts
  exact h.renamed ⟨hworkers, hnames.kept, hnames.apart, hnames.opened, hnames.distinct, hnames.unnamed,
    hnames.collector⟩ ⟨hscripts.armed, hscripts.records, hscripts.observers⟩ rfl

/-- A worker that was added serves. -/
theorem serves_addWorker
    {c : Course Session}
    (hc : c.Sane) :
    (c.apply .addWorker).Serves c.machine.heap.nextWorker :=
  ⟨⟨{ id := c.machine.heap.nextWorker }, List.mem_append_right _ List.mem_cons_self, rfl⟩,
    fun hended => Nat.lt_irrefl _ (hc.workers _ hended)⟩

theorem retains_createWorker (w : Field String) (k : Hooks Session) :
    Retains (performWorker k ctx (.create w)) (Returns quiet ctx c₀) := by
  rw [performWorker]
  refine (retains_need _ _).bind fun name => ?_
  refine (retains_session _).bind fun taken => (retains_refuseIf _ _).bind fun _ => ?_
  refine Unfolds.bind (unfolds_act (Q := fun id => Staffs quiet ctx c₀ id)
    (Action.unfolds_change .addWorker trivial (fun _ => rfl) (fun _ _ _ => ⟨trivial, trivial⟩)
      fun c hc h => ?_))
    fun id => ?_
  · exact ⟨steady_returns c _ hc h trivial ⟨trivial, trivial⟩, serves_addWorker hc⟩
  · refine Unfolds.bind (Q := fun _ => Returns quiet ctx c₀) (unfolds_modifySession fun c _ h => ?_)
      fun _ => retains_pure _
    refine h.1.withWorkers fun a ha => ?_
    rcases List.mem_cons.1 ha with rfl | ha
    · exact h.2
    · exact h.1.keeps.names.workers a ha

/-- A worker that has no open scope ends, and it has lost its names before. -/
theorem retains_dropWorker
    (hrun : Runner.Faithful quiet run)
    (w : Field String) :
    Retains (performWorker (hooks run ctx) ctx (.drop w)) (Returns quiet ctx c₀) := by
  rw [performWorker]
  refine (retains_need _ _).bind fun name => ?_
  refine unfolds_refuseIf_bind (fun _ _ h => h) fun hduring => ?_
  refine (retains_refuseIf _ _).bind fun _ => ?_
  refine Unfolds.bind (unfolds_named _ _ _) fun id => ?_
  refine Unfolds.bind (unfolds_session _) fun scopes => Unfolds.bind (unfolds_view _) fun b => ?_
  refine unfolds_refuseIf_bind (fun _ _ h => h.1.1.1) fun hb => ?_
  refine Unfolds.bind (Q := fun _ c => Staffs quiet ctx c₀ id c ∧
    (∀ s ∈ c.machine.heap.openScopes, s.worker ≠ id) ∧ ∀ a ∈ c.client.workers, a.2 ≠ id)
    (unfolds_modifySession ?_) fun _ => ?_
  · rintro c - ⟨⟨⟨h, hmem⟩, rfl⟩, rfl⟩
    refine ⟨⟨h.withWorkers fun a ha => ?_, h.keeps.names.workers _ hmem⟩, ?_, ?_⟩
    · exact h.keeps.names.workers a (List.mem_of_mem_filter ha)
    · exact fun s hs => of_decide_eq_false (h.keeps.names.forall_open hb s hs)
    · exact fun a ha => of_decide_eq_true (List.mem_filter.1 ha).2
  refine Unfolds.bind (Q := fun _ => Returns quiet ctx c₀) (unfolds_act ?_) fun _ => retains_pure _
  refine Action.unfolds_dropWorker steady_returns (hears_hooks hrun (lasts_returns (deeper_inDuring ctx)))
    (fun c _ h => ⟨trivial, h.1.2, h.2.1⟩) fun c hc h => ?_
  have hy : c.Admits (.flushWorker id) := ⟨trivial, h.1.2, h.2.1⟩
  have hposts := Machine.post?_apply c.machine (.flushWorker id)
  refine h.1.1.move hc hy trivial (h.1.1.keeps.names.apply hc hy ?_ nofun hposts nofun)
    (fun hctx => absurd (hctx.symm.trans hduring) nofun) fun _ => hposts
  rintro a ha heq
  exact h.2.2 a ha (Move.flushWorker.inj heq).symm

/-- Words are written while a buffer grows only in the middle of no script of a step. -/
theorem quiet_of_careful
    {w : Field String} {elementSize count : Field Nat} {shape : Field Shape} {target : Option String}
    (h : ¬ quiet → (Command.worker (.growLoop w elementSize shape count target)).Careful)
    (hword : elementSize = some Word.bytes) :
    quiet := by
  by_contra hloud
  cases h hloud with
  | worker _ hcareful => exact hcareful w shape count target (by rw [hword])

theorem retains_performWorker
    (hrun : Runner.Faithful quiet run)
    (command : WorkerCommand)
    (hcareful : ¬ quiet → (Command.worker command).Careful) :
    Retains (performWorker (hooks run ctx) ctx command) (Returns quiet ctx c₀) := by
  cases command with
  | create w => exact retains_createWorker w _
  | drop w => exact retains_dropWorker hrun w
  | allocate w span target =>
      refine retains_worker_bind (fun id => ?_) w
      refine (retains_span span).bind fun s => (retains_allocation hrun s).bind fun addr => ?_
      exact (retains_bindWord (lasts_staffing ctx) target addr 0).bind fun _ => retains_pure _
  | allocateBytes w size shape target =>
      refine retains_worker_bind (fun id => ?_) w
      refine (retains_need _ size).bind fun size => (retains_need _ shape).bind fun shape => ?_
      refine Unfolds.bind (unfolds_act ((Action.unfolds_allocateBytes steady_staffs (hears_staffs hrun)
        (fun _ _ h => h.2) size shape).post fun _ _ _ h => h.1)) fun addr => ?_
      exact (retains_bindWord (lasts_staffing ctx) target addr 0).bind fun _ => retains_pure _
  | fill w span n target =>
      refine retains_worker_bind (fun id => ?_) w
      refine (retains_span span).bind fun s => (retains_need _ n).bind fun n => ?_
      exact (retains_fill hrun s target n 0 #[]).bind fun _ => retains_pure _
  | churn w span size n =>
      refine retains_worker_bind (fun id => ?_) w
      refine (retains_span span).bind fun s => (retains_need _ size).bind fun size => ?_
      refine (retains_need _ n).bind fun n => ?_
      exact (retains_churn hrun s size n 0 #[]).bind fun _ => retains_pure _
  | free w addr size shape =>
      refine retains_worker_bind (fun id => ?_) w
      refine (retains_word _ addr).bind fun addr => (retains_need _ size).bind fun size => ?_
      refine (retains_need _ shape).bind fun shape => ?_
      exact (retains_freeing hrun addr size shape).bind fun _ => retains_pure _
  | grow w addr capacity length elementSize shape extra target =>
      refine retains_worker_bind (fun id => ?_) w
      refine (retains_word _ addr).bind fun addr => (retains_capacity _ capacity).bind fun capacity => ?_
      refine (retains_need _ length).bind fun length => (retains_need _ elementSize).bind fun size => ?_
      refine (retains_need _ shape).bind fun shape => (retains_need _ extra).bind fun extra => ?_
      refine (retains_view _).bind fun live => (retains_refuseIf _ _).bind fun _ => ?_
      refine Unfolds.bind (unfolds_act ((Action.unfolds_growUnaliased False steady_staffs
        (hears_staffs hrun) (fun _ _ h => h.2) nofun nofun addr capacity extra).post
        fun _ _ _ h => h.1)) fun buffer => ?_
      exact (retains_bindWord (lasts_staffing ctx) target _ _).bind fun _ => retains_pure _
  | growLoop w elementSize shape count target =>
      refine retains_worker_bind (fun id => ?_) w
      refine unfolds_need_bind (fun _ _ h => h) fun size hsize => ?_
      have hwords (hword : size = Word.bytes) : quiet := quiet_of_careful hcareful (hword ▸ hsize)
      refine (retains_need _ shape).bind fun shape => (retains_need _ count).bind fun count => ?_
      refine Unfolds.bind ((unfolds_appendAll hrun hwords shape count 0 0 0 #[]).pre fun _ _ h =>
        ⟨h, fun _ hlt => absurd hlt (Nat.lt_irrefl 0)⟩) fun r => ?_
      exact (retains_bindWord (lasts_staffing ctx) target _ _).bind fun _ => retains_pure _
  | freeListLength w span =>
      refine retains_worker_bind (fun id => ?_) w
      cases span with
      | some span =>
          exact (retains_span span).bind fun s => (retains_view _).bind fun _ => retains_pure _
      | none => exact (retains_view _).bind fun _ => retains_pure _
  | stats w =>
      refine retains_worker_bind (fun id => ?_) w
      exact (retains_view _).bind fun _ => retains_tallyReply _

end Session

end EagerHeap
