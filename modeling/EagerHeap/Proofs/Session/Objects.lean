import EagerHeap.Proofs.Session.Fields
/-!
# Commands on objects, roots and views as runs of moves

These commands end nothing that is in use. A word is written only into an object that has it, the root
set is a part of the client, and the rest is looks at the heap.

Main results: `retains_performObject`, `retains_performRoot` and `retains_performView`.
-/

namespace EagerHeap

namespace Session

open Exec

variable {quiet : Prop} {ctx : Context} {c₀ : Course Session} {A : Course Session → Prop}

/-! ### Words -/

/-- An object that has a word can be written at it. -/
theorem allows_write
    {m : Machine} {obj i : Nat}
    (h : hasWords m.heap obj i 1 = true)
    (v : Nat) :
    m.Allows (.write obj i v) := by
  rw [hasWords] at h
  cases hcell : m.heap.arena.cell? obj with
  | none =>
      rw [hcell] at h
      cases h
  | some d =>
      rw [hcell, Option.any_some, Bool.and_eq_true, decide_eq_true_iff, decide_eq_true_iff] at h
      exact ⟨d, hcell, h.1, h.2⟩

theorem retains_performObject (command : ObjectCommand) :
    Retains (performObject command) (Returns quiet ctx c₀) := by
  cases command with
  | write w obj i v =>
      rw [performObject]
      refine (retains_worker w).bind fun _ => (retains_word _ obj).bind fun obj => ?_
      refine (retains_need _ i).bind fun i => (retains_word _ v).bind fun v => ?_
      refine Unfolds.bind (unfolds_view _) fun b => unfolds_refuseIf_bind (fun _ _ h => h.1) fun hb => ?_
      refine Unfolds.bind (Q := fun _ => Returns quiet ctx c₀) ?_ fun _ => retains_pure _
      have hadmits : ∀ c : Course Session, b = hasWords c.machine.heap obj i 1 →
          c.Admits (.write obj i v) := by
        rintro c rfl
        exact ⟨allows_write (by simpa using hb) v, trivial⟩
      exact unfolds_act (Action.unfolds_adjust (.write obj i v) trivial (fun _ => rfl)
        (fun c _ h => hadmits c h.2) fun c hc h => steady_returns c _ hc h.1 trivial (hadmits c h.2))
  | read obj i n =>
      refine (retains_word _ obj).bind fun obj => (retains_need _ i).bind fun i => ?_
      refine (retains_need _ n).bind fun n => (retains_view _).bind fun b => ?_
      refine (retains_refuseIf _ _).bind fun _ => (retains_view _).bind fun _ => retains_pure _
  | info addr | contains addr =>
      exact (retains_word _ addr).bind fun addr => (retains_view _).bind fun _ => retains_pure _

/-! ### Roots -/

theorem retains_resolveEdit (edit : Field RootEdit) : Retains (resolveEdit edit) A := by
  refine (retains_need _ edit).bind fun edit => ?_
  cases edit with
  | add addr | remove addr => exact (retains_word _ addr).bind fun _ => retains_pure _

theorem retains_addRoot
    (hA : Lasts quiet ctx A)
    (addr : Nat) :
    Retains (modifySession (·.addRoot addr)) A :=
  retains_modifySession hA (fun _ => ⟨rfl, rfl, rfl, rfl⟩) fun _ h => ⟨h.armed, h.records, h.observers⟩

theorem retains_removeRoot
    (hA : Lasts quiet ctx A)
    (addr : Nat) :
    Retains (removeRootNow addr) A := by
  intro c hc h
  have hscripts := (hA.returns c hc h).keeps.scripts
  refine ⟨c.withClient (c.client.removeRoot addr).2, c.goes_withClient _, Or.inl ⟨_, rfl, ?_⟩⟩
  exact hA.client hc h ⟨rfl, rfl, rfl, rfl⟩ ⟨hscripts.armed, hscripts.records, hscripts.observers⟩

theorem retains_applyEdit
    (hA : Lasts quiet ctx A)
    (edit : Bool × Nat) :
    Retains (applyEdit edit) A := by
  obtain ⟨added, addr⟩ := edit
  cases added with
  | true => exact (retains_addRoot hA addr).bind fun _ => retains_pure _
  | false => exact (retains_removeRoot hA addr).bind fun _ => retains_pure _

theorem retains_performRoot
    (hA : Lasts quiet ctx A)
    (command : RootCommand) :
    Retains (performRoot command) A := by
  cases command with
  | add addr =>
      refine (retains_word _ addr).bind fun addr => (retains_addRoot hA addr).bind fun _ => ?_
      exact (retains_session _).bind fun _ => retains_pure _
  | remove addr =>
      refine (retains_word _ addr).bind fun addr => (retains_removeRoot hA addr).bind fun _ => ?_
      exact retains_pure _
  | contains addr =>
      exact (retains_word _ addr).bind fun addr => (retains_session _).bind fun _ => retains_pure _
  | list => exact (retains_session _).bind fun _ => retains_pure _
  | batch edits =>
      refine (retains_need _ edits).bind fun edits => ?_
      refine (retains_mapM retains_resolveEdit edits).bind fun edits => ?_
      exact (retains_mapM (retains_applyEdit hA) edits).bind fun _ => retains_pure _

/-! ### Views -/

/-- A look at the heap changes nothing. -/
theorem retains_performView (command : ViewCommand) : Retains (performView ctx command) A := by
  cases command with
  | state | census | config => exact (retains_view _).bind fun _ => retains_pure _
  | stats => exact (retains_view _).bind fun _ => retains_tallyReply _
  | describe target =>
      refine (retains_need _ target).bind fun target => ?_
      cases target with
      | heap | state => exact (retains_view _).bind fun _ => retains_pure _
      | worker w => exact (retains_worker w).bind fun _ => (retains_view _).bind fun _ => retains_pure _
      | scope c =>
          refine (retains_need _ c).bind fun name => (retains_openScope name).bind fun scope => ?_
          exact (retains_view _).bind fun _ => retains_pure _
      | collector =>
          exact retains_needCollector.bind fun _ => (retains_view _).bind fun _ => retains_pure _

end Session

end EagerHeap
