import EagerHeap.Proofs.Heap.Claiming
/-!
# Allocations that a client interrupts

A client may operate on the heap when it is told of events. What then holds after an action is said by
`Action.Ensures`: whatever the action gives satisfies a condition if the heap did before. A condition that
lasts while a worker looks for a free cell holds of the heap in which the cell is claimed.

Main results: `Ensures.untilSome`, `Lasting.ensures_search` and `lasting_sound`.
-/

namespace EagerHeap

/-- When it is told of events, the client changes the heap by elementary changes only. -/
def Hooks.Stepwise {σ : Type} (k : Hooks σ) : Prop :=
  ∀ e w, w.heap.Sound → Heap.Steps (fun _ => True) w.heap (k.onEvent e w).heap

/-- A block that is carved for a span serves it. -/
theorem Heap.hasSpan_carveBlock
    {h g : Heap} {s : Span} {i : Nat}
    (hs : h.Sound)
    (hrun : (carveBlock s).run h = (.ok (some i), g)) :
    g.arena.HasSpan i s := by
  rw [carveBlock_run] at hrun
  rcases hc : h.arena.carveBlock s with ⟨_ | j, a'⟩
  · rw [hc] at hrun
    cases hrun
  · rw [hc] at hrun
    dsimp only at hrun
    split at hrun
    · cases hrun
      obtain ⟨hl', -, -, -, hself, -⟩ := hs.layout.carveBlock hc
      exact hl'.hasSpan_of_getElem? hself
    · cases hrun

namespace Action

variable {σ α β : Type} {k : Hooks σ} {x : Action σ α} {f : α → Action σ β} {P : Heap → Prop}
  {Q : α → Heap → Prop} {R : β → Heap → Prop} {id : Nat} {s : Span}

/-- Whenever the first condition holds of the heap, what the action gives satisfies the second one together
with the heap that it leaves. -/
def Ensures (x : Action σ α) (P : Heap → Prop) (Q : α → Heap → Prop) : Prop :=
  ∀ w a w', P w.heap → ExceptT.run x w = (.ok a, w') → Q a w'.heap

theorem Ensures.bind
    (hx : Ensures x P Q)
    (hf : ∀ a, Ensures (f a) (Q a) R) :
    Ensures (x >>= f) P R := by
  intro w b w' hw hrun
  rw [run_bind_operation] at hrun
  rcases hfirst : ExceptT.run x w with ⟨o | a, v⟩
  · rw [hfirst] at hrun
    cases hrun
  · rw [hfirst] at hrun
    exact hf a v b w' (hx w a v hw hfirst) hrun

/-- Continuations may be exchanged if they do the same in all worlds that are left. -/
theorem Ensures.run_bind_congr
    {g : α → Action σ β} {w : World σ}
    (hx : Ensures x P Q)
    (hw : P w.heap)
    (hfg : ∀ a v, Q a v.heap → ExceptT.run (f a) v = ExceptT.run (g a) v) :
    ExceptT.run (x >>= f) w = ExceptT.run (x >>= g) w := by
  rw [run_bind_operation, run_bind_operation]
  rcases hfirst : ExceptT.run x w with ⟨o | a, v⟩
  · rfl
  · exact hfg a v (hx w a v hw hfirst)

theorem Ensures.mono
    {P' : Heap → Prop}
    (hx : Ensures x P Q)
    (hP : ∀ h, P' h → P h) :
    Ensures x P' Q :=
  fun w a w' hw hrun => hx w a w' (hP w.heap hw) hrun

theorem ensures_pure
    {a : α}
    (hQ : ∀ h, P h → Q a h) :
    Ensures (pure a : Action σ α) P Q := by
  intro w _ _ hw hrun
  cases hrun
  exact hQ w.heap hw

theorem ensures_change
    {f : Heap → α × Heap}
    (hf : ∀ h, P h → Q (f h).1 (f h).2) :
    Ensures (change f : Action σ α) P Q := by
  intro w _ _ hw hrun
  cases hrun
  exact hf w.heap hw

theorem ensures_view (f : Heap → α) : Ensures (view f : Action σ α) P fun _ => P := by
  intro w _ _ hw hrun
  cases hrun
  exact hw

theorem ensures_adjust
    {f : Heap → Heap} {Q : Heap → Prop}
    (hf : ∀ h, P h → Q (f h)) :
    Ensures (adjust f : Action σ Unit) P fun _ => Q := by
  intro w _ _ hw hrun
  cases hrun
  exact hf w.heap hw

theorem ensures_update
    {u : Update α}
    (hu : ∀ h a g, P h → ExceptT.run u h = (.ok a, g) → Q a g) :
    Ensures (update u : Action σ α) P Q := by
  intro w a w' hw hrun
  rw [run_update] at hrun
  obtain ⟨hok, rfl⟩ := Prod.mk.inj hrun
  exact hu w.heap a _ hw (Prod.ext hok rfl)

theorem ensures_emit
    {e : Event}
    (hevent : ∀ w : World σ, P w.heap → P (k.onEvent e w).heap) :
    Ensures (emit k e) P fun _ => P := by
  intro w _ _ hw hrun
  cases hrun
  exact hevent w hw

theorem ensures_exhausted (bytes : Nat) : Ensures (exhausted k bytes : Action σ α) P Q := by
  intro w a w' _ hrun
  cases hrun

/-- What every turn without a value keeps holds at the last turn. -/
theorem Ensures.untilSome
    {turn : Action σ (Option α)}
    (hturn : Ensures turn P fun o h => (o = none → P h) ∧ ∀ a, o = some a → Q a h) :
    Ensures (untilSome turn) P Q := by
  intro w a w' hw hrun
  have hturns := turns_of_run_untilSome hrun
  generalize hr : Except.ok a = r at hturns
  induction hturns with
  | gives hgives =>
      cases hr
      exact (hturn _ _ _ hw hgives).2 a rfl
  | fails => cases hr
  | goesOn hnone hrest ih =>
      exact ih ((hturn _ _ _ hw hnone).1 rfl) (hr ▸ hrest.run_untilSome) hr

/-! ### The search for a free cell -/

/-- The condition lasts while a worker looks for a free cell, whatever the client does when it is told of
events. -/
structure Lasting (k : Hooks σ) (id : Nat) (s : Span) (P : Heap → Prop) : Prop where
  sound : ∀ h, P h → h.Sound
  event : ∀ e (w : World σ), P w.heap →
    P (k.onEvent e w).heap ∧ Heap.Steps (fun _ => True) w.heap (k.onEvent e w).heap
  taken : ∀ h i g, P h → h.takePartial s = (some i, g) → P g
  carved : ∀ h i g, P h → (Heap.carveBlock s).run h = (.ok (some i), g) → P g
  moved : ∀ h i, P h → h.arena.HasSpan i s → P (h.setCursor id s ⟨i, 0⟩)

/-- A block that is found keeps its cells while the client is told of it. -/
theorem Lasting.ensures_told
    (hl : Lasting k id s P)
    (e : Event) (i : Nat) :
    Ensures (do emit k e; pure i : Action σ Nat) (fun h => P h ∧ h.arena.HasSpan i s)
      fun i h => P h ∧ h.arena.HasSpan i s := by
  refine Ensures.bind (Q := fun _ h => P h ∧ h.arena.HasSpan i s) (ensures_emit ?_) fun _ =>
    ensures_pure fun _ h => h
  rintro w ⟨hP, hspan⟩
  obtain ⟨hP', hsteps⟩ := hl.event e w hP
  exact ⟨hP', hsteps.hasSpan (hl.sound _ hP) hspan⟩

theorem Lasting.ensures_refill
    (hl : Lasting k id s P) :
    Ensures (refill k s) P fun i h => P h ∧ h.arena.HasSpan i s := by
  rw [refill]
  refine (ensures_change
    (Q := fun o h => P h ∧ ∀ i, o = some i → h.arena.HasSpan i s) fun h hP => ?_).bind fun o => ?_
  · rcases htake : h.takePartial s with ⟨_ | i, g⟩
    · obtain ⟨-, hsame⟩ | ⟨i, rest, -, hsome⟩ := Heap.takePartial_cases h s
      · obtain rfl := congrArg Prod.snd (htake.symm.trans hsame)
        exact ⟨hP, fun i hi => by cases hi⟩
      · cases congrArg Prod.fst (htake.symm.trans hsome)
    · refine ⟨hl.taken h i g hP htake, fun j hj => ?_⟩
      obtain rfl := Option.some.inj hj
      exact Heap.hasSpan_takePartial (hl.sound h hP) htake
  · cases o with
    | some i => exact (hl.ensures_told _ i).mono fun h hh => ⟨hh.1, hh.2 i rfl⟩
    | none =>
        refine (ensures_update (Q := fun o h => ∀ i, o = some i → P h ∧ h.arena.HasSpan i s)
          fun h o g hP hrun => ?_).bind fun o => ?_
        · rintro i rfl
          exact ⟨hl.carved h i g hP.1 hrun, Heap.hasSpan_carveBlock (hl.sound h hP.1) hrun⟩
        · cases o with
          | some i => exact (hl.ensures_told _ i).mono fun h hh => hh i rfl
          | none => exact ensures_exhausted blockSize

/-- A cell is claimed in a heap in which the condition holds. -/
theorem Lasting.ensures_search
    (hl : Lasting k id s P) :
    Ensures (search k id s) P fun x g => ∃ h, P h ∧ h.claim id s = (some x, g) := by
  refine Ensures.untilSome ?_
  rw [claimOrMove]
  refine (ensures_change (Q := fun o g => (o = none → P g) ∧
    ∀ x, o = some x → ∃ h, P h ∧ h.claim id s = (some x, g)) fun h hP => ?_).bind fun o => ?_
  · refine ⟨fun hnone => ?_, fun x hx => ⟨h, hP, Prod.ext hx rfl⟩⟩
    cases hc : h.claimable? id s with
    | none =>
        rw [Heap.claim_eq_none hc]
        exact hP
    | some p =>
        obtain ⟨x, hx⟩ := Heap.exists_claim hc
        rw [hx] at hnone
        cases hnone
  · cases o with
    | some x =>
        refine ensures_pure fun h hh => ⟨fun hnone => (by cases hnone), fun y hy => ?_⟩
        obtain rfl := Option.some.inj hy
        exact hh.2 x rfl
    | none =>
        refine (hl.ensures_refill.mono fun h hh => hh.1 rfl).bind fun i => ?_
        refine (ensures_adjust fun h hh => hl.moved h i hh.1 hh.2).bind fun _ => ?_
        exact ensures_pure fun h hh => ⟨fun _ => hh, fun y hsome => (by cases hsome)⟩

/-- A heap stays sound while a worker looks for a free cell. -/
theorem lasting_sound
    (hk : k.Stepwise)
    (id : Nat) (s : Span) :
    Lasting k id s Heap.Sound where
  sound _ hs := hs
  event e w hs := ⟨(hk e w hs).sound hs, hk e w hs⟩
  taken h i g hs htake := by
    have hstill := Heap.still_takePartial h s
    rw [htake] at hstill
    exact hstill.steps.sound hs
  carved h i g hs hrun := by
    have hsteps := Heap.carveBlock_steps h s
    rw [hrun] at hsteps
    exact hsteps.sound hs
  moved h i hs hspan := (Heap.still_setCursor (k := ⟨i, 0⟩) hspan).steps.sound hs

end Action

end EagerHeap
