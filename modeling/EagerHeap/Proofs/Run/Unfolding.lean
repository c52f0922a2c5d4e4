import EagerHeap.Proofs.Repetition
import EagerHeap.Proofs.Run.Courses
/-!
# Operations that unfold into moves

An operation with a client that acts in the middle of it unfolds into the pieces of the operation and the
moves of its client, in the order in which they take place. `Unfolds` is a triple of a condition before the
operation, one for its results and one for its failures, in which the moves are hidden.

Main results: `Unfolds.bind`, `unfolds_move` and `Hooks.Abides.unfolds_announce`.
-/

namespace EagerHeap

open Course

variable {σ ε α β : Type} {x : ExceptT ε (StateM (World σ)) α} {P P' E E' A : Course σ → Prop}
  {Q Q' : α → Course σ → Prop} {R : β → Course σ → Prop} {c d : Course σ} {y : Move}

/-- From every course that satisfies the first condition, moves lead to what the operation leaves, which
satisfies the second condition with the result, or the third one after a failure. -/
def Unfolds (x : ExceptT ε (StateM (World σ)) α) (P : Course σ → Prop) (Q : α → Course σ → Prop)
    (E : Course σ → Prop) : Prop :=
  ∀ c, c.Sane → P c → ∃ d, c.Goes d ∧
    ((∃ a, ExceptT.run x c.world = (.ok a, d.world) ∧ Q a d) ∨
      ∃ o, ExceptT.run x c.world = (.error o, d.world) ∧ E d)

/-- The operation unfolds into moves and keeps a condition, also when it fails. -/
def Retains (x : ExceptT ε (StateM (World σ)) α) (A : Course σ → Prop) : Prop :=
  Unfolds x A (fun _ => A) A

theorem Unfolds.mono
    (hx : Unfolds x P Q E)
    (hP : ∀ c, c.Sane → P' c → P c)
    (hQ : ∀ a c, c.Sane → Q a c → Q' a c)
    (hE : ∀ c, c.Sane → E c → E' c) :
    Unfolds x P' Q' E' := by
  intro c hc hc'
  obtain ⟨d, hg, ⟨a, hrun, ha⟩ | ⟨o, hrun, ho⟩⟩ := hx c hc (hP c hc hc')
  · exact ⟨d, hg, Or.inl ⟨a, hrun, hQ a d (hg.sane hc) ha⟩⟩
  · exact ⟨d, hg, Or.inr ⟨o, hrun, hE d (hg.sane hc) ho⟩⟩

theorem Unfolds.pre
    (hx : Unfolds x P Q E)
    (hP : ∀ c, c.Sane → P' c → P c) :
    Unfolds x P' Q E :=
  hx.mono hP (fun _ _ _ h => h) fun _ _ h => h

theorem Unfolds.post
    (hx : Unfolds x P Q E)
    (hQ : ∀ a c, c.Sane → Q a c → Q' a c) :
    Unfolds x P Q' E :=
  hx.mono (fun _ _ h => h) hQ fun _ _ h => h

/-- Moves that change nothing that the operation sees may come before it, and after a failure. -/
theorem Unfolds.beside
    (hx : Unfolds x P Q E)
    (hP : ∀ c, c.Sane → P' c → ∃ d, c.Goes d ∧ d.world = c.world ∧ P d)
    (hE : ∀ c, c.Sane → E c → ∃ d, c.Goes d ∧ d.world = c.world ∧ E' d) :
    Unfolds x P' Q E' := by
  intro c hc h
  obtain ⟨c', hg', hw', hc''⟩ := hP c hc h
  obtain ⟨d, hg, hrun⟩ := hx c' (hg'.sane hc) hc''
  rw [hw'] at hrun
  have hd := hg.sane (hg'.sane hc)
  rcases hrun with hok | ⟨o, hrun, ho⟩
  · exact ⟨d, hg'.trans hg, Or.inl hok⟩
  · obtain ⟨d', hg'', hw'', hd''⟩ := hE d hd ho
    exact ⟨d', (hg'.trans hg).trans hg'', Or.inr ⟨o, hw''.symm ▸ hrun, hd''⟩⟩

/-- What an operation leaves is a course again, whether it fails or not. -/
theorem Retains.leaves
    (hx : Retains x A)
    (hc : c.Sane)
    (hA : A c) :
    ∃ d, c.Goes d ∧ (ExceptT.run x c.world).2 = d.world ∧ A d := by
  obtain ⟨d, hg, ⟨a, hrun, hd⟩ | ⟨o, hrun, hd⟩⟩ := hx c hc hA
  · exact ⟨d, hg, congrArg Prod.snd hrun, hd⟩
  · exact ⟨d, hg, congrArg Prod.snd hrun, hd⟩

/-- The moves of an operation come before those of the next one. -/
theorem Unfolds.bind
    {f : α → ExceptT ε (StateM (World σ)) β}
    (hx : Unfolds x P Q E)
    (hf : ∀ a, Unfolds (f a) (Q a) R E) :
    Unfolds (x >>= f) P R E := by
  intro c hc hP
  obtain ⟨d, hg, ⟨a, hrun, ha⟩ | ⟨o, hrun, ho⟩⟩ := hx c hc hP
  · obtain ⟨d', hg', hrest⟩ := hf a d (hg.sane hc) ha
    refine ⟨d', hg.trans hg', ?_⟩
    rw [run_bind_operation, hrun]
    exact hrest
  · refine ⟨d, hg, Or.inr ⟨o, ?_, ho⟩⟩
    rw [run_bind_operation, hrun]

theorem unfolds_pure
    {a : α}
    (hQ : ∀ c, c.Sane → P c → Q a c) :
    Unfolds (pure a : ExceptT ε (StateM (World σ)) α) P Q E :=
  fun c hc hP => ⟨c, .refl c, Or.inl ⟨a, rfl, hQ c hc hP⟩⟩

theorem unfolds_throw
    (o : ε)
    (hE : ∀ c, c.Sane → P c → E c) :
    Unfolds (throw o : ExceptT ε (StateM (World σ)) α) P Q E :=
  fun c hc hP => ⟨c, .refl c, Or.inr ⟨o, rfl, hE c hc hP⟩⟩

/-- Nothing comes after a failure. -/
theorem unfolds_throw_bind
    {f : α → ExceptT ε (StateM (World σ)) β}
    (o : ε)
    (hE : ∀ c, c.Sane → P c → E c) :
    Unfolds (throw o >>= f) P R E :=
  Unfolds.bind (Q := fun _ _ => False) (unfolds_throw o hE) fun _ _ _ h => h.elim

/-- The moves of a turn come before those of the next one. A turn without a value keeps what the next one
needs. -/
theorem Unfolds.turns
    {turn : Action σ (Option α)} {r : Except Failure α} {w v : World σ}
    (hx : Unfolds turn A (fun o c => A c ∧ ∀ a, o = some a → Q a c) A)
    (ht : Turns turn w r v)
    (hc : c.Sane)
    (hw : c.world = w)
    (hA : A c) :
    ∃ d, c.Goes d ∧ d.world = v ∧ A d ∧ ∀ a, r = .ok a → Q a d := by
  induction ht generalizing c with
  | gives hturn =>
      obtain ⟨d, hg, ⟨o, hrun, hd, hQ⟩ | ⟨o, hrun, -⟩⟩ := hx c hc hA
      · obtain ⟨hfirst, rfl⟩ := Prod.mk.inj (hturn.symm.trans (hw ▸ hrun))
        cases hfirst
        exact ⟨d, hg, rfl, hd, fun b hb => hQ b (congrArg some (Except.ok.inj hb))⟩
      · cases hturn.symm.trans (hw ▸ hrun)
  | fails hturn =>
      obtain ⟨d, hg, ⟨o, hrun, -⟩ | ⟨o, hrun, hd⟩⟩ := hx c hc hA
      · cases hturn.symm.trans (hw ▸ hrun)
      · obtain ⟨-, rfl⟩ := Prod.mk.inj (hturn.symm.trans (hw ▸ hrun))
        exact ⟨d, hg, rfl, hd, nofun⟩
  | goesOn hturn _ ih =>
      obtain ⟨d, hg, ⟨o, hrun, hd, -⟩ | ⟨o, hrun, -⟩⟩ := hx c hc hA
      · obtain ⟨-, rfl⟩ := Prod.mk.inj (hturn.symm.trans (hw ▸ hrun))
        obtain ⟨d', hg', hrest⟩ := ih (hg.sane hc) rfl hd
        exact ⟨d', hg.trans hg', hrest⟩
      · cases hturn.symm.trans (hw ▸ hrun)

/-- A loop unfolds into the moves of its turns; one that never ends counts as a failure without moves. -/
theorem Unfolds.untilSome
    {turn : Action σ (Option α)}
    (hx : Unfolds turn A (fun o c => A c ∧ ∀ a, o = some a → Q a c) A) :
    Unfolds (untilSome turn) A (fun a c => A c ∧ Q a c) A := by
  intro c hc hA
  rcases turns_or_endless turn c.world with hturns | ⟨-, hrun⟩
  · obtain ⟨d, hg, hw, hd, hQ⟩ := hx.turns hturns hc rfl hA
    refine ⟨d, hg, ?_⟩
    rcases hrun : ExceptT.run (EagerHeap.untilSome turn) c.world with ⟨o | a, v⟩
    · rw [hrun] at hw
      exact Or.inr ⟨o, by rw [hw], hd⟩
    · rw [hrun] at hw hQ
      exact Or.inl ⟨a, by rw [hw], hd, hQ a rfl⟩
  · exact ⟨c, .refl c, Or.inr ⟨_, hrun, hA⟩⟩

/-- A choice by a condition on which nothing has an influence. -/
theorem unfolds_ite
    {p : Prop} [Decidable p] {x' : ExceptT ε (StateM (World σ)) α}
    (hthen : p → Unfolds x P Q E)
    (helse : ¬ p → Unfolds x' P Q E) :
    Unfolds (if p then x else x') P Q E := by
  split
  · next h => exact hthen h
  · next h => exact helse h

theorem Retains.bind
    {f : α → ExceptT ε (StateM (World σ)) β}
    (hx : Retains x A)
    (hf : ∀ a, Unfolds (f a) A R A) :
    Unfolds (x >>= f) A R A :=
  Unfolds.bind hx hf

/-- A result that was computed before. -/
theorem retains_result (r : Except ε α) :
    Unfolds (ExceptT.mk (pure r) : ExceptT ε (StateM (World σ)) α) A (fun a c => A c ∧ r = .ok a) A := by
  intro c _ hA
  refine ⟨c, .refl c, ?_⟩
  cases r with
  | ok a => exact Or.inl ⟨a, rfl, hA, rfl⟩
  | error o => exact Or.inr ⟨o, rfl, hA⟩

theorem retains_pure (a : α) : Retains (pure a : ExceptT ε (StateM (World σ)) α) A :=
  unfolds_pure fun _ _ h => h

theorem retains_throw (o : ε) : Retains (throw o : ExceptT ε (StateM (World σ)) α) A :=
  unfolds_throw o fun _ _ h => h

/-- An operation in whose moves no client acts. -/
theorem unfolds_moves
    (next : Course σ → Course σ) (result : Heap → Except ε α)
    (hrun : ∀ c : Course σ, ExceptT.run x c.world = (result c.machine.heap, (next c).world))
    (hgoes : ∀ c, c.Sane → P c → c.Goes (next c))
    (hok : ∀ c a, c.Sane → P c → result c.machine.heap = .ok a → Q a (next c))
    (herror : ∀ c o, c.Sane → P c → result c.machine.heap = .error o → E (next c)) :
    Unfolds x P Q E := by
  intro c hc hP
  refine ⟨next c, hgoes c hc hP, ?_⟩
  rw [hrun]
  cases hresult : result c.machine.heap with
  | ok a => exact Or.inl ⟨a, rfl, hok c a hc hP hresult⟩
  | error o => exact Or.inr ⟨o, rfl, herror c o hc hP hresult⟩

/-- An operation that is one move. -/
theorem unfolds_move
    (y : Move) (hplain : y.Plain) (result : Heap → Except ε α)
    (hrun : ∀ c : Course σ,
      ExceptT.run x c.world = (result c.machine.heap, (c.apply y).world))
    (hadmits : ∀ c, c.Sane → P c → c.Admits y)
    (hok : ∀ c a, c.Sane → P c → result c.machine.heap = .ok a → Q a (c.apply y))
    (herror : ∀ c o, c.Sane → P c → result c.machine.heap = .error o → E (c.apply y)) :
    Unfolds x P Q E :=
  unfolds_moves (·.apply y) result hrun (fun c hc hP => (hadmits c hc hP).goes hplain) hok herror

namespace Action

variable {k : Hooks σ}

/-- An uninterrupted change that is one move. -/
theorem unfolds_change
    {f : Heap → α × Heap}
    (y : Move) (hplain : y.Plain)
    (hf : ∀ c : Course σ, (f c.machine.heap).2 = (c.machine.apply y).heap)
    (hadmits : ∀ c, c.Sane → P c → c.Admits y)
    (hQ : ∀ c, c.Sane → P c → Q (f c.machine.heap).1 (c.apply y)) :
    Unfolds (change f : Action σ α) P Q E := by
  refine unfolds_move y hplain (fun h => .ok (f h).1) (fun c => ?_) hadmits ?_
    fun _ _ _ _ h => nomatch h
  · exact congrArg (fun h => (Except.ok _, ({ heap := h, client := c.client } : World σ))) (hf c)
  · rintro c _ hc hP ⟨⟩
    exact hQ c hc hP

theorem unfolds_adjust
    {f : Heap → Heap} {Q : Course σ → Prop}
    (y : Move) (hplain : y.Plain)
    (hf : ∀ c : Course σ, f c.machine.heap = (c.machine.apply y).heap)
    (hadmits : ∀ c, c.Sane → P c → c.Admits y)
    (hQ : ∀ c, c.Sane → P c → Q (c.apply y)) :
    Unfolds (adjust f : Action σ Unit) P (fun _ => Q) E := by
  refine unfolds_move y hplain (fun _ => .ok ()) (fun c => ?_) hadmits (fun c _ hc hP _ => hQ c hc hP)
    fun _ _ _ _ h => nomatch h
  exact congrArg (fun h => (Except.ok (), ({ heap := h, client := c.client } : World σ))) (hf c)

theorem unfolds_update
    {u : Update α}
    (y : Move) (hplain : y.Plain)
    (hu : ∀ c : Course σ, (ExceptT.run u c.machine.heap).2 = (c.machine.apply y).heap)
    (hadmits : ∀ c, c.Sane → P c → c.Admits y)
    (hok : ∀ c a, c.Sane → P c → (ExceptT.run u c.machine.heap).1 = .ok a → Q a (c.apply y))
    (herror : ∀ c o, c.Sane → P c → (ExceptT.run u c.machine.heap).1 = .error o → E (c.apply y)) :
    Unfolds (update u : Action σ α) P Q E := by
  refine unfolds_move y hplain (fun h => (ExceptT.run u h).1) (fun c => ?_) hadmits hok herror
  rw [run_update]
  exact congrArg (fun h => (_, ({ heap := h, client := c.client } : World σ))) (hu c)

/-- A look at the heap changes nothing. -/
theorem unfolds_view
    {f : Heap → α}
    (hQ : ∀ c, c.Sane → P c → Q (f c.machine.heap) c) :
    Unfolds (view f : Action σ α) P Q E :=
  fun c hc hP => ⟨c, .refl c, Or.inl ⟨_, rfl, hQ c hc hP⟩⟩

theorem unfolds_look (f : Heap → α) : Unfolds (view f : Action σ α) P (fun _ => P) E :=
  unfolds_view fun _ _ h => h

theorem unfolds_require
    {holds : Heap → Bool} {Q : Course σ → Prop}
    (condition : Assertion)
    (hQ : ∀ c, c.Sane → P c → holds c.machine.heap = true → Q c)
    (hE : ∀ c, c.Sane → P c → holds c.machine.heap = false → E c) :
    Unfolds (require holds condition : Action σ Unit) P (fun _ => Q) E := by
  intro c hc hP
  have hrun : ExceptT.run (require holds condition : Action σ Unit) c.world =
      (if holds c.machine.heap then .ok () else .error (.assertion condition), c.world) := by
    rw [require, run_update, Update.run_require]
    rfl
  refine ⟨c, .refl c, ?_⟩
  rw [hrun]
  cases hholds : holds c.machine.heap with
  | true => exact Or.inl ⟨(), rfl, hQ c hc hP hholds⟩
  | false => exact Or.inr ⟨_, rfl, hE c hc hP hholds⟩

theorem retains_checked (r : Except Overflow α) : Retains (checked r : Action σ α) A := by
  intro c hc hA
  refine ⟨c, .refl c, ?_⟩
  cases r with
  | ok a => exact Or.inl ⟨a, rfl, hA⟩
  | error e => exact Or.inr ⟨_, rfl, hA⟩

end Action

/-! ### Clients that make moves -/

/-- What the client does is moves, after which a condition holds again. -/
def Answers (act : World σ → World σ) (A : Course σ → Prop) : Prop :=
  ∀ c, c.Sane → A c → ∃ d, c.Goes d ∧ act c.world = d.world ∧ A d

/-- When the client is told of events, it makes moves after which a condition holds again. -/
def Hooks.Hears (k : Hooks σ) (A : Course σ → Prop) : Prop := ∀ e, Answers (k.onEvent e) A

/-- When the client is told of events and transitions, it makes moves after which a condition holds
again. -/
structure Hooks.Abides (k : Hooks σ) (A : Course σ → Prop) : Prop where
  event : k.Hears A
  transition : ∀ i t, Answers (k.onTransition i t) A

/-- The client does not make an operation fail. -/
theorem unfolds_modify
    {act : World σ → World σ}
    (ha : Answers act A) :
    Unfolds (modify act : Action σ Unit) A (fun _ => A) E := by
  intro c hc hA
  obtain ⟨d, hg, heq, hd⟩ := ha c hc hA
  refine ⟨d, hg, Or.inl ⟨(), ?_, hd⟩⟩
  rw [run_modify_operation, heq]

namespace Hooks

variable {k : Hooks σ}

theorem Hears.unfolds_emit
    (hk : k.Hears A)
    (e : Event) :
    Unfolds (Action.emit k e) A (fun _ => A) E :=
  unfolds_modify (hk e)

/-- What all moves preserve need not be guaranteed by the client. -/
theorem Hears.and
    {B : Course σ → Prop}
    (hk : k.Hears A)
    (hB : ∀ c d, c.Sane → c.Goes d → B c → B d) :
    k.Hears fun c => A c ∧ B c := by
  rintro e c hc ⟨hA, hb⟩
  obtain ⟨d, hg, heq, hd⟩ := hk e c hc hA
  exact ⟨d, hg, heq, hd, hB c d hc hg hb⟩

/-- A client that keeps one more condition on some assumption. -/
theorem Hears.imp
    {p : Prop} {B : Course σ → Prop}
    (hk : k.Hears A)
    (hB : p → k.Hears fun c => A c ∧ B c) :
    k.Hears fun c => A c ∧ (p → B c) := by
  rintro e c hc ⟨hA, hb⟩
  by_cases hp : p
  · obtain ⟨d, hg, heq, hd⟩ := hB hp e c hc ⟨hA, hb hp⟩
    exact ⟨d, hg, heq, hd.1, fun _ => hd.2⟩
  · obtain ⟨d, hg, heq, hd⟩ := hk e c hc hA
    exact ⟨d, hg, heq, hd, fun h => absurd h hp⟩

/-- The observers are told one after the other. -/
theorem Abides.unfolds_announce
    (hk : k.Abides A)
    (t : Transition) (n : Nat) :
    Unfolds (Action.announce k t n) A (fun _ => A) E := by
  refine unfolds_modify ?_
  generalize List.range n = observers
  induction observers with
  | nil => exact fun c _ hA => ⟨c, .refl c, rfl, hA⟩
  | cons i observers ih =>
      intro c hc hA
      obtain ⟨d, hg, heq, hd⟩ := hk.transition i t c hc hA
      obtain ⟨d', hg', heq', hd'⟩ := ih d (hg.sane hc) hd
      refine ⟨d', hg.trans hg', ?_, hd'⟩
      rw [← heq', ← heq]
      rfl

end Hooks

end EagerHeap
