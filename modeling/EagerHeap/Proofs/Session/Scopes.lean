import EagerHeap.Proofs.Session.Workers
/-!
# Commands on slots and scopes as runs of moves

A scope is entered by a worker that serves, and backed by slots that were not dropped. It loses its name
before it ends, and while an object is allocated in it no script ends it.

Main result: `retains_performScope`.
-/

namespace EagerHeap

namespace Session

open Exec

variable {quiet : Prop} {ctx : Context} {c₀ c : Course Session} {run : Runner} {id r scope : Nat}

/-! ### Slots -/

theorem Stands.withSlots
    {slots : List (String × NamedSlots)}
    (h : Returns quiet ctx c₀ c)
    (hkept : ∀ a ∈ ({ c.client with slots } : Session).registries,
      a.2 < c.machine.heap.registries.size ∧ a.2 ∉ c.ends.registries)
    (hapart : ∀ a ∈ ({ c.client with slots } : Session).registries,
      ∀ b ∈ ({ c.client with slots } : Session).registries, a.2 = b.2 → a.1 = b.1) :
    Returns quiet ctx c₀ (c.withClient { c.client with slots }) := by
  have hnames := h.keeps.names
  have hscripts := h.keeps.scripts
  exact h.renamed ⟨hnames.workers, hkept, hapart, hnames.opened, hnames.distinct, hnames.unnamed,
    hnames.collector⟩ ⟨hscripts.armed, hscripts.records, hscripts.observers⟩ rfl

theorem retains_createSlots (k : Hooks Session) (s : Field String) (n : Field Nat) :
    Retains (performScope k ctx (.createSlots s n)) (Returns quiet ctx c₀) := by
  rw [performScope]
  refine (retains_need _ _).bind fun name => (retains_need _ _).bind fun n => ?_
  refine (retains_session _).bind fun taken => (retains_refuseIf _ _).bind fun _ => ?_
  refine Unfolds.bind (Q := fun registry c => Returns quiet ctx c₀ c ∧
    (registry < c.machine.heap.registries.size ∧ registry ∉ c.ends.registries) ∧
      ∀ a ∈ c.client.registries, a.2 ≠ registry)
    (unfolds_act (Action.unfolds_change (.makeRegistry n) trivial (fun _ => rfl)
      (fun _ _ _ => ⟨trivial, trivial⟩) fun c hc h => ⟨?_, ⟨?_, ?_⟩, ?_⟩)) fun registry => ?_
  · exact steady_returns c _ hc h trivial ⟨trivial, trivial⟩
  · exact (Nat.lt_succ_self _).trans_eq (Array.size_push _).symm
  · exact fun hmem => Nat.lt_irrefl _ (hc.registries _ hmem)
  · exact fun a ha => (h.keeps.names.kept a ha).1.ne
  · refine Unfolds.bind (Q := fun _ => Returns quiet ctx c₀) (unfolds_modifySession ?_) fun _ =>
      retains_pure _
    rintro c - ⟨h, hnew, hapart⟩
    refine h.withSlots (fun a ha => ?_) fun a ha b hb heq => ?_
    · rcases List.mem_cons.1 ha with rfl | ha
      · exact hnew
      · exact h.keeps.names.kept a ha
    · rcases List.mem_cons.1 ha with rfl | ha <;> rcases List.mem_cons.1 hb with rfl | hb
      · rfl
      · exact absurd heq.symm (hapart b hb)
      · exact absurd heq (hapart a ha)
      · exact h.keeps.names.apart a ha b hb heq

/-- The registries that keep their names when others lose them. -/
theorem mem_registries_filter
    {s : Session} {name : String} {a : String × Nat}
    (ha : a ∈ ({ s with slots := s.slots.filter (·.1 ≠ name) } : Session).registries) :
    a ∈ s.registries ∧ a.1 ≠ name := by
  obtain ⟨b, hb, rfl⟩ := List.mem_map.1 ha
  obtain ⟨hb, hne⟩ := List.mem_filter.1 hb
  exact ⟨List.mem_map_of_mem hb, of_decide_eq_true hne⟩

/-- Slots lose their name, and their registry is dropped if it backs no scope. -/
theorem retains_dropSlots (k : Hooks Session) (s : Field String) :
    Retains (performScope k ctx (.dropSlots s)) (Returns quiet ctx c₀) := by
  rw [performScope]
  refine (retains_need _ _).bind fun name => (retains_refuseIf _ _).bind fun _ => ?_
  refine Unfolds.bind (unfolds_named _ _ _) fun slots => Unfolds.bind (unfolds_session _) fun scopes => ?_
  refine Unfolds.bind (unfolds_view _) fun b => unfolds_refuseIf_bind (fun _ _ h => h.1.1.1) fun hb => ?_
  refine unfolds_refuseIf_bind (fun _ _ h => h.1.1.1) fun _ => ?_
  refine Unfolds.bind (Q := fun _ c => (Returns quiet ctx c₀ c ∧
      ∀ a ∈ c.client.registries, a.2 ≠ slots.registry) ∧
    c.machine.Heeds c.ends (.dropRegistry slots.registry)) (unfolds_modifySession ?_) fun _ => ?_
  · rintro c - ⟨⟨⟨h, hmem⟩, rfl⟩, rfl⟩
    have hnames := h.keeps.names
    have hregistry : (name, slots.registry) ∈ c.client.registries :=
      List.mem_map_of_mem (f := fun a : String × NamedSlots => (a.1, a.2.registry)) hmem
    refine ⟨⟨h.withSlots (fun a ha => ?_) fun a ha b hb => ?_, fun a ha heq => ?_⟩, ?_⟩
    · exact hnames.kept a (mem_registries_filter ha).1
    · exact hnames.apart a (mem_registries_filter ha).1 b (mem_registries_filter hb).1
    · obtain ⟨ha, hne⟩ := mem_registries_filter ha
      exact hne (hnames.apart a ha _ hregistry heq)
    · obtain ⟨hlt, hnot⟩ := hnames.kept _ hregistry
      exact ⟨hlt, hnot, fun s hs => of_decide_eq_false (hnames.forall_open hb s hs)⟩
  · refine Unfolds.bind (Q := fun _ => Returns quiet ctx c₀) (unfolds_act (Action.unfolds_adjust
      (.dropRegistry slots.registry) trivial (fun _ => rfl) (fun c _ h => ⟨trivial, h.2⟩) fun c hc h => ?_))
      fun _ => retains_pure _
    have hy : c.Admits (.dropRegistry slots.registry) := ⟨trivial, h.2⟩
    have hposts := Machine.post?_apply c.machine (.dropRegistry slots.registry)
    refine h.1.1.move hc hy trivial (h.1.1.keeps.names.apply hc hy nofun (fun a ha heq => ?_) hposts nofun)
      (fun _ => nofun) fun _ => hposts
    exact h.1.2 a ha (Move.dropRegistry.inj heq).symm

/-! ### Scopes that are entered -/

theorem alike_contest (name : String) (s : Session) : Alike s (s.contest name) := by
  refine ⟨rfl, ?_, rfl, rfl⟩
  rw [registries, contest, List.map_map]
  refine List.map_congr_left fun a _ => ?_
  dsimp only [Function.comp_apply]
  split <;> rfl

theorem post?_lt
    {p : Post}
    (hp : c.machine.heap.post? scope = some p) :
    scope < c.machine.heap.scopes.size := by
  by_contra hge
  rw [Heap.post?, Array.getElem?_eq_none (Nat.le_of_not_lt hge)] at hp
  cases hp

/-- The new scope is open and the others are as they were. -/
theorem Names.enterScope
    (h : Names [] c)
    (hc : c.Sane)
    (hy : c.Admits (.enterScope id r))
    (hnone : c.machine.heap.ownerOf r = none) :
    Names [c.machine.heap.scopes.size] (c.apply (.enterScope id r)) := by
  have hold : ∀ a ∈ c.client.scopes, a.2 ≠ c.machine.heap.scopes.size := by
    intro a ha
    obtain ⟨_, _, hp⟩ := (h.opened a.2).2 (Or.inr ⟨a, ha, rfl⟩)
    exact (post?_lt hp).ne
  refine h.move hc hy nofun nofun nofun (fun k => ?_) fun a ha => ?_
  · rw [show (c.apply _).machine.heap.post? k = _ from Machine.post?_apply c.machine _ k,
      Machine.postAfter]
    by_cases hk : k = c.machine.heap.scopes.size
    · rw [if_pos ⟨hnone, hk⟩, hk]
      exact ⟨fun _ => Or.inl List.mem_cons_self, fun _ => ⟨id, r, rfl⟩⟩
    · rw [if_neg fun h => hk h.2, h.opened k]
      simp [hk]
  · simpa using hold a ha

/-- After an entry that succeeds the new scope has no name yet. -/
theorem Stands.entered
    (h : Returns quiet ctx c₀ c)
    (hc : c.Sane)
    (hy : c.Admits (.enterScope id r))
    (hfree : ctx.scopesBusy = false)
    (hrun : (ExceptT.run (Heap.enterScope id r) c.machine.heap).1 = .ok scope) :
    Stands quiet ctx c₀ [scope] (c.apply (.enterScope id r)) := by
  replace hrun := (congrArg Prod.fst (Heap.enterScope_run _ _ _)).symm.trans hrun
  split at hrun
  · cases hrun
  · next hnone =>
      cases hrun
      have hnames := h.keeps.names.enterScope hc hy (Option.not_isSome_iff_eq_none.1 hnone)
      exact h.move hc hy trivial hnames (fun _ => nofun) fun hbusy =>
        absurd (hbusy.symm.trans hfree) nofun

/-- Slots that are in use back no other scope: an entry that is refused opens none. -/
theorem Stands.refused
    {o : Failure}
    (h : Returns quiet ctx c₀ c)
    (hc : c.Sane)
    (hy : c.Admits (.enterScope id r))
    (hrun : (ExceptT.run (Heap.enterScope id r) c.machine.heap).1 = .error o) :
    Returns quiet ctx c₀ (c.apply (.enterScope id r)) := by
  have hposts (k : Nat) :
      (c.apply (.enterScope id r)).machine.heap.post? k = c.machine.heap.post? k := by
    refine (Machine.post?_apply c.machine _ k).trans (if_neg ?_)
    rintro ⟨hnone, -⟩
    replace hrun := (congrArg Prod.fst (Heap.enterScope_run _ _ _)).symm.trans hrun
    rw [hnone] at hrun
    cases hrun
  exact h.move hc hy trivial (h.keeps.names.apply hc hy nofun nofun hposts nofun) (fun _ => nofun)
    fun _ => hposts

/-- A worker that serves enters a scope, backed by slots that were not dropped. -/
theorem unfolds_enter
    {name slotsName : String} {slots : NamedSlots}
    (hfree : ctx.scopesBusy = false) :
    Unfolds (enter id slotsName slots)
      (fun c => Staffs quiet ctx c₀ id c ∧ (slotsName, slots.registry) ∈ c.client.registries ∧
        ∀ a ∈ c.client.scopes, a.1 ≠ name)
      (fun scope c => Stands quiet ctx c₀ [scope] c ∧ ∀ a ∈ c.client.scopes, a.1 ≠ name)
      (Returns quiet ctx c₀) := by
  rw [enter]
  refine Unfolds.bind ((unfolds_view _).post fun _ _ _ h => h.1) fun owner => ?_
  have hadmits : ∀ c : Course Session, Staffs quiet ctx c₀ id c ∧
      (slotsName, slots.registry) ∈ c.client.registries ∧ (∀ a ∈ c.client.scopes, a.1 ≠ name) →
      c.Admits (.enterScope id slots.registry) := fun c h =>
    ⟨trivial, h.1.2, h.1.1.keeps.names.kept _ h.2.1⟩
  have hentry := unfolds_act (Action.unfolds_update (E := Returns quiet ctx c₀)
    (Q := fun scope c => Stands quiet ctx c₀ [scope] c ∧ ∀ a ∈ c.client.scopes, a.1 ≠ name)
    (.enterScope id slots.registry) trivial (fun _ => rfl) (fun c _ h => hadmits c h)
    (fun c _ hc h hrun => ⟨.entered h.1.1 hc (hadmits c h) hfree hrun, h.2.2⟩)
    fun c _ hc h hrun => .refused h.1.1 hc (hadmits c h) hrun)
  refine unfolds_ite (fun _ => Unfolds.bind (unfolds_modifySession fun c _ h => ?_) fun _ => hentry)
    fun _ => hentry
  have halike := alike_contest slotsName c.client
  have hscripts := h.1.1.keeps.scripts
  exact ⟨⟨h.1.1.client halike ⟨hscripts.armed, hscripts.records, hscripts.observers⟩, h.1.2⟩,
    halike.registries ▸ h.2.1, h.2.2⟩

/-- The scope that was entered gets its name. -/
theorem Stands.named
    {name : String}
    (h : Stands quiet ctx c₀ [scope] c)
    (hfresh : ∀ a ∈ c.client.scopes, a.1 ≠ name) :
    Returns quiet ctx c₀
      (c.withClient { c.client with scopes := (name, scope) :: c.client.scopes }) := by
  have hnames := h.keeps.names
  have hscripts := h.keeps.scripts
  have hother : ∀ a ∈ c.client.scopes, a.2 ≠ scope := fun a ha heq =>
    hnames.unnamed a ha (List.mem_singleton.2 heq)
  refine h.renamed ⟨hnames.workers, hnames.kept, hnames.apart, fun k => ?_, ?_, nofun,
    hnames.collector⟩ ⟨hscripts.armed, hscripts.records, hscripts.observers⟩ rfl
  · refine (hnames.opened k).trans ⟨?_, ?_⟩
    · rintro (hk | ⟨a, ha, rfl⟩)
      · exact Or.inr ⟨(name, scope), List.mem_cons_self, (List.mem_singleton.1 hk).symm⟩
      · exact Or.inr ⟨a, List.mem_cons_of_mem _ ha, rfl⟩
    · rintro (hk | ⟨a, ha, rfl⟩)
      · cases hk
      · rcases List.mem_cons.1 ha with rfl | ha
        · exact Or.inl List.mem_cons_self
        · exact Or.inr ⟨a, ha, rfl⟩
  · intro a ha b hb
    rcases List.mem_cons.1 ha with rfl | ha <;> rcases List.mem_cons.1 hb with rfl | hb
    · exact iff_of_true rfl rfl
    · exact iff_of_false (hfresh b hb).symm (hother b hb).symm
    · exact iff_of_false (hfresh a ha) (hother a ha)
    · exact hnames.distinct a ha b hb

theorem retains_enterScope (k : Hooks Session) (w s name : Field String) :
    Retains (performScope k ctx (.enter w s name)) (Returns quiet ctx c₀) := by
  rw [performScope]
  refine Unfolds.bind (unfolds_worker w) fun id => ?_
  refine unfolds_need_bind (fun _ _ h => h.1) fun slotsName _ => ?_
  refine unfolds_need_bind (fun _ _ h => h.1) fun name _ => ?_
  refine unfolds_refuseIf_bind (fun _ _ h => h.1) fun hfree => ?_
  refine Unfolds.bind (unfolds_session _) fun taken => ?_
  refine unfolds_refuseIf_bind (fun _ _ h => h.1.1) fun htaken => ?_
  refine Unfolds.bind (Q := fun slots c => Staffs quiet ctx c₀ id c ∧
    (slotsName, slots.registry) ∈ c.client.registries ∧ ∀ a ∈ c.client.scopes, a.1 ≠ name)
    ((unfolds_named _ _ _).mono (fun _ _ h => h) ?_ fun _ _ h => h.1.1) fun slots => ?_
  · rintro slots c - ⟨⟨h, rfl⟩, hmem⟩
    refine ⟨h, List.mem_map_of_mem (f := fun a : String × NamedSlots => (a.1, a.2.registry)) hmem, ?_⟩
    rintro a ha rfl
    exact absurd (List.lookup_isSome_iff.2 ⟨a, ha, beq_self_eq_true a.1⟩) (Bool.eq_false_iff.1 htaken)
  · refine Unfolds.bind (unfolds_enter hfree) fun scope => ?_
    refine Unfolds.bind (Q := fun _ => Returns quiet ctx c₀)
      (unfolds_modifySession fun _ _ h => h.1.named h.2) fun _ => ?_
    exact (retains_view _).bind fun _ => retains_pure _

/-! ### Scopes that end -/

/-- The scope of a command that ends it has lost its name and is still open. -/
theorem unfolds_closeName (name : Field String) :
    Unfolds (closeName ctx name) (Returns quiet ctx c₀)
      (fun scope c => Stands quiet ctx c₀ [scope] c ∧ ctx.scopesBusy = false) (Returns quiet ctx c₀) := by
  rw [closeName]
  refine (retains_need _ _).bind fun name => ?_
  refine Unfolds.bind (unfolds_openScope name) fun scope => ?_
  refine Unfolds.bind (Q := fun _ c => Stands quiet ctx c₀ [scope] c ∧ ctx.scopesBusy = false)
    (unfolds_modifySession ?_) fun _ => unfolds_pure fun _ _ h => h
  rintro c - ⟨⟨h, hmem⟩, hfree⟩
  have hnames := h.keeps.names
  have hscripts := h.keeps.scripts
  refine ⟨h.renamed ⟨hnames.workers, hnames.kept, hnames.apart, fun k => ?_, ?_, ?_,
    hnames.collector⟩ ⟨hscripts.armed, hscripts.records, hscripts.observers⟩ rfl, hfree⟩
  · refine (hnames.opened k).trans ⟨?_, ?_⟩
    · rintro (hk | ⟨a, ha, rfl⟩)
      · cases hk
      · by_cases heq : a.1 = name
        · exact Or.inl (List.mem_singleton.2 ((hnames.distinct a ha _ hmem).1 heq))
        · exact Or.inr ⟨a, List.mem_filter.2 ⟨ha, decide_eq_true heq⟩, rfl⟩
    · rintro (hk | ⟨a, ha, rfl⟩)
      · exact Or.inr ⟨_, hmem, (List.mem_singleton.1 hk).symm⟩
      · exact Or.inr ⟨a, List.mem_of_mem_filter ha, rfl⟩
  · exact fun a ha b hb => hnames.distinct a (List.mem_of_mem_filter ha) b (List.mem_of_mem_filter hb)
  · intro a ha hmem'
    obtain ⟨ha, hne⟩ := List.mem_filter.1 ha
    exact of_decide_eq_true hne ((hnames.distinct a ha _ hmem).2 (List.mem_singleton.1 hmem'))

/-- An open scope without a name ends. -/
theorem Stands.ending
    {y : Move}
    (h : Stands quiet ctx c₀ [scope] c)
    (hfree : ctx.scopesBusy = false)
    (hc : c.Sane)
    (hy : y = .drainScope scope ∨ y = .leakScope scope) :
    c.Admits y ∧ Returns quiet ctx c₀ (c.apply y) := by
  have hnames := h.keeps.names
  obtain ⟨id, r, hactive⟩ := (hnames.opened scope).2 (Or.inl List.mem_cons_self)
  obtain ⟨s, hopen, -⟩ := Heap.exists_open_iff.2 hactive
  have hadmits : c.Admits y := by
    rcases hy with rfl | rfl <;> exact ⟨trivial, s, hopen⟩
  obtain ⟨st, hst, hposts⟩ : ∃ st : ScopeStatus, st ≠ .active ∧
      ∀ k, (c.apply y).machine.heap.post? k =
        if k = scope then (c.machine.heap.post? k).map fun p => { p with status := st }
        else c.machine.heap.post? k := by
    rcases hy with rfl | rfl
    · exact ⟨.closed, nofun, Machine.post?_apply c.machine (.drainScope scope)⟩
    · exact ⟨.leaked, nofun, Machine.post?_apply c.machine (.leakScope scope)⟩
  have hended : Names [] (c.apply y) := by
    refine hnames.move hc hadmits ?_ ?_ ?_ (fun k => ?_) nofun
    · rcases hy with rfl | rfl <;> exact nofun
    · rcases hy with rfl | rfl <;> exact nofun
    · rcases hy with rfl | rfl <;> exact nofun
    · rw [hposts]
      by_cases hk : k = scope
      · rw [if_pos hk, hk, hactive]
        refine iff_of_false ?_ ?_
        · rintro ⟨_, _, heq⟩
          exact hst (Post.mk.inj (Option.some.inj heq)).2.2
        · rintro (hk | ⟨a, ha, heq⟩)
          · cases hk
          · exact hnames.unnamed a ha (List.mem_singleton.2 heq)
      · rw [if_neg hk, hnames.opened k]
        simp [hk]
  refine ⟨hadmits, h.move hc hadmits ?_ hended (fun _ => ?_) fun hbusy =>
    absurd (hbusy.symm.trans hfree) nofun⟩
  · rcases hy with rfl | rfl <;> trivial
  · rcases hy with rfl | rfl <;> exact nofun

theorem unfolds_drain
    {E : Course Session → Prop} (scope : Nat) :
    Unfolds (Action.change (·.drainScope scope) : Action Session Nat)
      (fun c => Stands quiet ctx c₀ [scope] c ∧ ctx.scopesBusy = false) (fun _ => Returns quiet ctx c₀) E :=
  Action.unfolds_change (.drainScope scope) trivial (fun _ => rfl)
    (fun _ hc h => (h.1.ending h.2 hc (Or.inl rfl)).1) fun _ hc h => (h.1.ending h.2 hc (Or.inl rfl)).2

/-! ### Allocation in scopes -/

/-- The session is where it was, and a scope is open. -/
def Tracking (quiet : Prop) (ctx : Context) (c₀ : Course Session) (scope id r : Nat)
    (c : Course Session) : Prop :=
  Returns quiet ctx c₀ c ∧ c.machine.heap.post? scope = some ⟨id, r, .active⟩

theorem steady_tracking : Steady (Tracking quiet ctx c₀ scope id r) Move.Routine := by
  rintro c y hc ⟨h, hp⟩ hroutine hy
  refine ⟨steady_returns c y hc h hroutine hy, ?_⟩
  rw [post?_of_gentle (gentle_of_routine hroutine)]
  exact hp

theorem lasts_tracking
    {ctx' : Context}
    (hctx : Deeper ctx ctx')
    (hbusy : ctx'.scopesBusy = true) :
    Lasts quiet ctx' (Tracking quiet ctx c₀ scope id r) where
  returns c hc h := (lasts_returns hctx).returns c hc h.1
  stays c d h hd :=
    ⟨(lasts_returns hctx).stays c d h.1 hd, hd.keeps.holding hbusy scope id r h.2⟩

/-- An object is allocated in a scope, which no script ends meanwhile. -/
theorem retains_track
    (hrun : Runner.Faithful quiet run)
    (name : Field String) (span : SpanFields) (target : Option String) :
    Retains (performScope (hooks run { ctx with scopesBusy := true }) ctx (.track name span target))
      (Returns quiet ctx c₀) := by
  rw [performScope]
  refine (retains_need _ _).bind fun name => (retains_span span).bind fun s => ?_
  refine Unfolds.bind (unfolds_openScope name) fun scope => ?_
  rintro c hc ⟨⟨h, hmem⟩, -⟩
  obtain ⟨id, r, hp⟩ := (h.keeps.names.opened scope).2 (Or.inr ⟨_, hmem, rfl⟩)
  have hears : (hooks run { ctx with scopesBusy := true }).Hears (Tracking quiet ctx c₀ scope id r) :=
    hears_hooks hrun (lasts_tracking ⟨fun _ => rfl, rfl, fun _ => rfl⟩ rfl)
  have hallocated := unfolds_act (Action.retains_allocateTracked steady_tracking hears
    (fun c h => (Heap.exists_open_iff.2 h.2).imp fun _ hs => ⟨hs.1, hs.2.1⟩) s)
  refine Unfolds.bind (Q := fun _ => Returns quiet ctx c₀) (hallocated.mono (fun _ _ h => h)
    (fun _ _ _ h => h.1) fun _ _ h => h.1) (fun addr => ?_) c hc ⟨h, hp⟩
  exact (retains_bindWord (lasts_returns (.refl ctx)) target addr 0).bind fun _ => retains_pure _

theorem retains_performScope
    (hrun : Runner.Faithful quiet run)
    (command : ScopeCommand) :
    Retains (performScope (hooks run { ctx with scopesBusy := true }) ctx command)
      (Returns quiet ctx c₀) := by
  cases command with
  | createSlots s n => exact retains_createSlots _ s n
  | dropSlots s => exact retains_dropSlots _ s
  | viewSlots s =>
      refine (retains_need _ s).bind fun name => (retains_named _ _ _).bind fun slots => ?_
      exact (retains_view _).bind fun _ => retains_pure _
  | enter w s c => exact retains_enterScope _ w s c
  | track c span target => exact retains_track hrun c span target
  | view c =>
      refine (retains_need _ c).bind fun name => (retains_openScope name).bind fun scope => ?_
      exact (retains_view _).bind fun _ => retains_pure _
  | exit c | drop c =>
      refine Unfolds.bind (unfolds_closeName c) fun scope => ?_
      exact Unfolds.bind (unfolds_act (unfolds_drain scope)) fun _ => retains_pure _
  | unwind c =>
      refine Unfolds.bind (unfolds_closeName c) fun scope => Unfolds.bind (unfolds_act ?_) fun _ =>
        retains_pure _
      exact Unfolds.bind (unfolds_drain scope) fun _ => retains_throw _
  | leak c =>
      refine Unfolds.bind (unfolds_closeName c) fun scope => Unfolds.bind (unfolds_act
        (Action.unfolds_adjust (.leakScope scope) trivial (fun _ => rfl) ?_ ?_)) fun _ => retains_pure _
      · exact fun c hc h => (h.1.ending h.2 hc (Or.inr rfl)).1
      · exact fun c hc h => (h.1.ending h.2 hc (Or.inr rfl)).2

end Session

end EagerHeap
