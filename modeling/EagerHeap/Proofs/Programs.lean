import EagerHeap.Proofs.Runs
/-!
# Programs that loop

An action ends in every world. A program that repeats a step until nothing is left to do may go on for
ever, so a program is given by what it ends in: an outcome and a world for the world in which it starts.
A loop whose step is an action ends in one way at most, and it ends if a measure falls with every step but
the last one. Then the loop is an action again.

Main results: `Repeats.unique`, `repeats_of_measure` and `repeatWhile_eq_perform`.
-/

namespace EagerHeap

/-- What a program ends in, for the world in which it starts. -/
def Program (σ α : Type) := World σ → Except Failure α → World σ → Prop

namespace Program

variable {σ α β : Type}

/-- A program that is an action. -/
def perform (x : Action σ α) : Program σ α := fun w r v => ExceptT.run x w = (r, v)

instance : Monad (Program σ) where
  pure a := perform (pure a)
  bind P f := fun w r v =>
    (∃ a u, P w (.ok a) u ∧ f a u r v) ∨ ∃ o, P w (.error o) v ∧ r = .error o

/-- A step is done again as long as it says that there is more to do. -/
inductive Repeats (step : Program σ Bool) : World σ → Except Failure Unit → World σ → Prop
  | stops {w v : World σ} (hstep : step w (.ok false) v) : Repeats step w (.ok ()) v
  | fails {w v : World σ} {o : Failure} (hstep : step w (.error o) v) : Repeats step w (.error o) v
  | goesOn {w u v : World σ} {r : Except Failure Unit} (hstep : step w (.ok true) u)
      (hrest : Repeats step u r v) : Repeats step w r v

/-- Does a step as long as it says that there is more to do. -/
def repeatWhile (step : Program σ Bool) : Program σ Unit := Repeats step

/-- From the world, the program comes to an end, and it does so in this way only. -/
def EndsIn (P : Program σ α) (w : World σ) (r : Except Failure α) (v : World σ) : Prop :=
  ∀ r' v', P w r' v' ↔ r' = r ∧ v' = v

variable {x : Action σ α} {g : α → Action σ β} {w v v' : World σ} {r r' : Except Failure Unit}

/-! ### Actions -/

theorem perform_endsIn (x : Action σ α) (w : World σ) :
    (perform x).EndsIn w (ExceptT.run x w).1 (ExceptT.run x w).2 := by
  intro r v
  rw [perform, Prod.ext_iff, eq_comm, @eq_comm _ _ v]

theorem pure_eq_perform (a : α) : (pure a : Program σ α) = perform (pure a) := rfl

/-- Actions one after the other are one action. -/
theorem perform_bind (x : Action σ α) (g : α → Action σ β) :
    (perform x >>= fun a => perform (g a)) = perform (x >>= g) := by
  funext w r v
  apply propext
  change (_ ∨ _) ↔ ExceptT.run (x >>= g) w = (r, v)
  rw [run_bind_operation]
  rcases hx : ExceptT.run x w with ⟨o | a, u⟩
  · constructor
    · rintro (⟨a, u', hfirst, -⟩ | ⟨o', hfirst, rfl⟩)
      · cases hx.symm.trans hfirst
      · cases hx.symm.trans hfirst
        rfl
    · intro heq
      cases heq
      exact Or.inr ⟨o, hx, rfl⟩
  · constructor
    · rintro (⟨a', u', hfirst, hrest⟩ | ⟨o, hfirst, rfl⟩)
      · cases hx.symm.trans hfirst
        exact hrest
      · cases hx.symm.trans hfirst
    · intro heq
      exact Or.inl ⟨a, u, hx, heq⟩

theorem perform_ite (c : Prop) [Decidable c] (x y : Action σ α) :
    (if c then perform x else perform y) = perform (if c then x else y) :=
  (apply_ite perform c x y).symm

/-- The first of two programs may be replaced by what it does. -/
theorem bind_eq_of_endsIn
    {P : Program σ α} {f : α → Program σ β} {a : α}
    (hP : P.EndsIn w (.ok a) v) :
    (P >>= f) w = f a v := by
  funext r u
  apply propext
  constructor
  · rintro (⟨b, u', hfirst, hrest⟩ | ⟨o, hfirst, -⟩)
    · obtain ⟨heq, rfl⟩ := (hP _ _).1 hfirst
      cases heq
      exact hrest
    · cases ((hP _ _).1 hfirst).1
  · exact fun hrest => Or.inl ⟨a, v, (hP _ _).2 ⟨rfl, rfl⟩, hrest⟩

/-! ### Loops -/

/-- A loop over an action ends in one way at most. -/
theorem Repeats.unique
    {x : Action σ Bool}
    (hr : Repeats (perform x) w r v)
    (hr' : Repeats (perform x) w r' v') :
    r' = r ∧ v' = v := by
  induction hr with
  | stops hstep =>
      cases hr' with
      | stops hstep' =>
          cases hstep.symm.trans hstep'
          exact ⟨rfl, rfl⟩
      | fails hstep' | goesOn hstep' => cases hstep.symm.trans hstep'
  | fails hstep =>
      cases hr' with
      | fails hstep' =>
          cases hstep.symm.trans hstep'
          exact ⟨rfl, rfl⟩
      | stops hstep' | goesOn hstep' => cases hstep.symm.trans hstep'
  | goesOn hstep _ ih =>
      cases hr' with
      | goesOn hstep' hrest =>
          cases hstep.symm.trans hstep'
          exact ih hrest
      | stops hstep' | fails hstep' => cases hstep.symm.trans hstep'

/-- What a loop makes of a heap if a measure falls as long as the step says that there is more to do. The
measure is what the induction is on. -/
theorem repeats_of_measure
    {x : Action σ Bool} {target : Heap → Heap}
    (f : Heap → Heap) (more : Heap → Bool) (μ : Heap → Nat)
    (hrun : ∀ w : World σ, ExceptT.run x w = (.ok (more w.heap), { w with heap := f w.heap }))
    (hfalls : ∀ h, more h = true → μ (f h) < μ h)
    (hlast : ∀ h, more h = false → f h = target h)
    (hfirst : ∀ h, more h = true → target (f h) = target h)
    (w : World σ) :
    Repeats (perform x) w (.ok ()) { w with heap := target w.heap } := by
  obtain ⟨n, hn⟩ : ∃ n, μ w.heap < n := ⟨_, Nat.lt_succ_self _⟩
  induction n generalizing w with
  | zero => exact absurd hn (Nat.not_lt_zero _)
  | succ n ih =>
      have hstep := hrun w
      cases hmore : more w.heap with
      | false =>
          rw [hmore, hlast _ hmore] at hstep
          exact .stops hstep
      | true =>
          rw [hmore] at hstep
          refine .goesOn hstep ?_
          have hrest := ih { w with heap := f w.heap }
            (Nat.lt_of_lt_of_le (hfalls _ hmore) (Nat.le_of_lt_succ hn))
          dsimp only at hrest
          rwa [hfirst _ hmore] at hrest

/-- A loop that ends everywhere is the change that it makes. -/
theorem repeatWhile_eq_perform
    {x : Action σ Bool} {target : Heap → Heap}
    (hends : ∀ w : World σ, Repeats (perform x) w (.ok ()) { w with heap := target w.heap }) :
    repeatWhile (perform x) = perform (Action.adjust target) := by
  funext w r v
  apply propext
  constructor
  · intro hr
    obtain ⟨rfl, rfl⟩ := (hends w).unique hr
    rfl
  · intro heq
    cases heq
    exact hends w

end Program

end EagerHeap
