import EagerHeap.Proofs.Session.Standing
/-!
# Reading the fields of commands

What a command reads of its fields, of the names of the session and of the heap changes nothing. These are
the rules by which a command unfolds into moves: a field, a check or a look gives a fact for the rest of
the command, and an operation on the heap gives what it gives as an action.

Main results: `unfolds_act`, `unfolds_named` and `retains_word`.
-/

namespace EagerHeap

namespace Exec

open Session

variable {α β : Type} {P E A : Course Session → Prop} {Q : α → Course Session → Prop}

/-! ### Operations on the heap -/

theorem run_act (a : Action Session α) (w : World Session) :
    ExceptT.run (act a) w =
      ((ExceptT.run a w).1.mapError Trouble.failure, (ExceptT.run a w).2) := rfl

theorem unfolds_act
    {a : Action Session α}
    (ha : Unfolds a P Q E) :
    Unfolds (act a) P Q E := by
  intro c hc hP
  obtain ⟨d, hg, ⟨b, hrun, hb⟩ | ⟨o, hrun, ho⟩⟩ := ha c hc hP
  · refine ⟨d, hg, Or.inl ⟨b, ?_, hb⟩⟩
    rw [run_act, hrun]
    rfl
  · refine ⟨d, hg, Or.inr ⟨.failure o, ?_, ho⟩⟩
    rw [run_act, hrun]
    rfl

theorem unfolds_view (f : Heap → α) :
    Unfolds (view f) P (fun a c => P c ∧ a = f c.machine.heap) E :=
  fun c _ hP => ⟨c, .refl c, Or.inl ⟨_, rfl, hP, rfl⟩⟩

theorem unfolds_session (f : Session → α) :
    Unfolds (session f) P (fun a c => P c ∧ a = f c.client) E :=
  fun c _ hP => ⟨c, .refl c, Or.inl ⟨_, rfl, hP, rfl⟩⟩

theorem retains_view (f : Heap → α) : Retains (view f) A :=
  (unfolds_view f).post fun _ _ _ h => h.1

theorem retains_session (f : Session → α) : Retains (session f) A :=
  (unfolds_session f).post fun _ _ _ h => h.1

theorem unfolds_modifySession
    {f : Session → Session} {Q : Course Session → Prop}
    (hQ : ∀ c, c.Sane → P c → Q (c.withClient (f c.client))) :
    Unfolds (modifySession f) P (fun _ => Q) E :=
  fun c hc hP => ⟨_, c.goes_withClient _, Or.inl ⟨(), rfl, hQ c hc hP⟩⟩

/-! ### Fields and checks -/

/-- A command goes on only with the field. -/
theorem unfolds_need_bind
    {name : String} {field : Field α} {f : α → Exec β} {Q : β → Course Session → Prop}
    (hE : ∀ c, c.Sane → P c → E c)
    (hf : ∀ a, field = some a → Unfolds (f a) P Q E) :
    Unfolds (need name field >>= f) P Q E := by
  cases field with
  | some a =>
      rw [need, pure_bind]
      exact hf a rfl
  | none => exact unfolds_throw_bind _ hE

theorem retains_need (name : String) (field : Field α) : Retains (need name field) A := by
  cases field with
  | some a => exact retains_pure a
  | none => exact retains_throw _

/-- A command goes on only if it is not refused. -/
theorem unfolds_refuseIf_bind
    {b : Bool} {r : Refusal} {f : Unit → Exec β} {Q : β → Course Session → Prop}
    (hE : ∀ c, c.Sane → P c → E c)
    (hf : b = false → Unfolds (f ()) P Q E) :
    Unfolds (refuseIf b r >>= f) P Q E := by
  cases b with
  | true => exact unfolds_throw_bind _ hE
  | false =>
      rw [refuseIf, if_neg Bool.false_ne_true, pure_bind]
      exact hf rfl

theorem retains_refuseIf (b : Bool) (r : Refusal) : Retains (refuseIf b r) A := by
  cases b with
  | true => exact retains_throw _
  | false => exact retains_pure ()

theorem mem_of_lookup
    {table : List (String × α)} {name : String} {a : α}
    (h : table.lookup name = some a) :
    (name, a) ∈ table := by
  obtain ⟨before, after, rfl, -⟩ := List.lookup_eq_some_iff.1 h
  exact List.mem_append_right _ List.mem_cons_self

/-- A name that is known stands for what it was given to. -/
theorem unfolds_named (table : Session → List (String × α)) (name : String) (r : Refusal) :
    Unfolds (named table name r) A (fun a c => A c ∧ (name, a) ∈ table c.client) A := by
  rw [named]
  refine (unfolds_session _).bind fun o => ?_
  cases o with
  | some a => exact unfolds_pure fun _ _ h => ⟨h.1, mem_of_lookup h.2.symm⟩
  | none => exact unfolds_throw _ fun _ _ h => h.1

theorem retains_named (table : Session → List (String × α)) (name : String) (r : Refusal) :
    Retains (named table name r) A :=
  (unfolds_named table name r).post fun _ _ _ h => h.1

/-! ### Words -/

theorem retains_namedAddress (name : String) : Retains (namedAddress name) A := by
  rw [namedAddress]
  refine unfolds_ite (fun _ => retains_pure _) fun _ => ?_
  exact (retains_named Session.words name _).bind fun _ => retains_pure _

theorem retains_resolve (ref : WordRef) : Retains (resolve ref) A := by
  cases ref with
  | literal n => exact retains_pure n
  | name s => exact retains_namedAddress s
  | offset base plus =>
      refine (retains_need _ _).bind fun base => (retains_need _ _).bind fun plus => ?_
      exact (retains_namedAddress base).bind fun _ => retains_pure _

theorem retains_word (name : String) (f : Field WordRef) : Retains (word name f) A :=
  (retains_need name f).bind fun ref => retains_resolve ref

theorem retains_capacity (name : String) (f : Field CapacityRef) : Retains (capacity name f) A := by
  refine (retains_need name f).bind fun ref => ?_
  cases ref with
  | literal n => exact retains_pure n
  | name s => exact (retains_named Session.words s _).bind fun _ => retains_pure _

theorem retains_span (f : SpanFields) : Retains (span f) A :=
  (retains_need _ _).bind fun _ => (retains_need _ _).bind fun _ => retains_pure _

/-- A list of fields is read field by field. -/
theorem retains_mapM
    {f : α → Exec β}
    (hf : ∀ a, Retains (f a) A)
    (l : List α) :
    Retains (l.mapM f) A := by
  induction l with
  | nil => exact retains_pure []
  | cons a l ih =>
      rw [List.mapM_cons]
      exact (hf a).bind fun _ => Unfolds.bind ih fun _ => retains_pure _

/-! ### Changes of the session -/

variable {quiet : Prop} {ctx : Context}

theorem retains_modifySession
    {f : Session → Session}
    (hA : Lasts quiet ctx A)
    (hf : ∀ s, Alike s (f s))
    (hscripts : ∀ s, Scripted quiet s → Scripted quiet (f s)) :
    Retains (modifySession f) A :=
  unfolds_modifySession fun c hc h =>
    hA.client hc h (hf _) (hscripts _ (hA.returns c hc h).keeps.scripts)

theorem retains_bindWord
    (hA : Lasts quiet ctx A)
    (target : Option String) (addr capacity : Nat) :
    Retains (bindWord target addr capacity) A := by
  cases target with
  | none => exact retains_pure ()
  | some name =>
      rw [bindWord]
      exact retains_modifySession hA (fun _ => ⟨rfl, rfl, rfl, rfl⟩) fun _ h =>
        ⟨h.armed, h.records, h.observers⟩

/-! ### Names that are only looked up -/

theorem retains_worker (w : Field String) : Retains (worker w) A :=
  (retains_need "w" w).bind fun _ => retains_named Session.workers _ _

theorem unfolds_openScope (name : String) :
    Unfolds (openScope ctx name) A
      (fun scope c => (A c ∧ (name, scope) ∈ c.client.scopes) ∧ ctx.scopesBusy = false) A :=
  unfolds_refuseIf_bind (fun _ _ h => h) fun hfree =>
    (unfolds_named Session.scopes name _).post fun _ _ _ h => ⟨h, hfree⟩

theorem retains_openScope (name : String) : Retains (openScope ctx name) A :=
  (unfolds_openScope name).post fun _ _ _ h => h.1.1

theorem retains_needCollector : Retains (needCollector ctx) A := by
  rw [needCollector]
  refine (retains_refuseIf _ _).bind fun _ => (retains_session _).bind fun _ => ?_
  exact retains_refuseIf _ _

theorem retains_tallyReply (t : Except Overflow Tally) :
    Retains (tallyReply t) A := by
  rw [tallyReply]
  refine Unfolds.bind (unfolds_act (Action.retains_checked t)) fun t => ?_
  exact Unfolds.bind (unfolds_act (Action.retains_checked t.rejections)) fun _ => retains_pure _

end Exec

end EagerHeap
