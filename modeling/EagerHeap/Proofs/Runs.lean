import EagerHeap.Action.Basic
/-!
# Running operations

An operation that may fail is a function from a state to a result and the next state. The equations
of this module run composite operations step by step, for updates of a heap, for actions and for the
commands of a session alike.
-/

namespace EagerHeap

section Operation

variable {ε σ α β : Type}

@[simp] theorem run_pure_operation (a : α) (s : σ) :
    ExceptT.run (pure a : ExceptT ε (StateM σ) α) s = (.ok a, s) := rfl

@[simp] theorem run_bind_operation
    (x : ExceptT ε (StateM σ) α) (f : α → ExceptT ε (StateM σ) β) (s : σ) :
    ExceptT.run (x >>= f) s =
      match ExceptT.run x s with
      | (.ok a, s') => ExceptT.run (f a) s'
      | (.error e, s') => (.error e, s') := by
  simp only [ExceptT.run, bind, ExceptT.bind, ExceptT.mk, StateT.bind]
  rcases x s with ⟨_ | a, s'⟩ <;> rfl

@[simp] theorem run_map_operation
    (f : α → β) (x : ExceptT ε (StateM σ) α) (s : σ) :
    ExceptT.run (f <$> x) s =
      match ExceptT.run x s with
      | (.ok a, s') => (.ok (f a), s')
      | (.error e, s') => (.error e, s') := by
  simp only [ExceptT.run, Functor.map, ExceptT.map, ExceptT.mk, bind, StateT.bind]
  rcases x s with ⟨_ | a, s'⟩ <;> rfl

@[simp] theorem run_modifyGet_operation (f : σ → α × σ) (s : σ) :
    ExceptT.run (modifyGet f : ExceptT ε (StateM σ) α) s = (.ok (f s).1, (f s).2) := rfl

@[simp] theorem run_modify_operation (f : σ → σ) (s : σ) :
    ExceptT.run (modify f : ExceptT ε (StateM σ) PUnit) s = (.ok ⟨⟩, f s) := rfl

@[simp] theorem run_get_operation (s : σ) :
    ExceptT.run (get : ExceptT ε (StateM σ) σ) s = (.ok s, s) := rfl

@[simp] theorem run_throw_operation (e : ε) (s : σ) :
    ExceptT.run (throw e : ExceptT ε (StateM σ) α) s = (.error e, s) := rfl

end Operation

@[simp] theorem Update.run_require (holds : Heap → Bool) (condition : Assertion) (h : Heap) :
    ExceptT.run (Update.require holds condition) h =
      (if holds h then .ok () else .error (.assertion condition), h) := by
  unfold Update.require
  by_cases hc : holds h = true <;> simp [hc]

end EagerHeap
