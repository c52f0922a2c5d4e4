import EagerHeap.Proofs.Heap.Growth
/-!
# Allocations of bytes and growths that nothing interrupts

If a client leaves the heap alone when it is told of events, an allocation of bytes and the growth of a
buffer go as `Obtaining` and `Growing` say.

Main results: `ends_allocateBytes` and `ends_growUnaliased`.
-/

namespace EagerHeap.Action

variable {σ α β : Type} {k : Hooks σ} {x : Action σ α} {f : α → Action σ β} {u : Update α}
  {h g h' : Heap} {a : α} {r : Except Failure β} {o : Failure} {id size : Nat} {sh : Shape}

/-- On every world with the first heap, the action has an outcome and leaves the second heap. -/
def Ends (x : Action σ α) (h : Heap) (r : Except Failure α) (g : Heap) : Prop :=
  ∀ w : World σ, w.heap = h → ∃ w', ExceptT.run x w = (r, w') ∧ w'.heap = g

theorem Gives.ends (hx : Gives x h a g) : Ends x h (.ok a) g := hx

theorem Follows.ends
    (hx : Follows x u)
    (h : Heap) :
    Ends x h (ExceptT.run u h).1 (ExceptT.run u h).2 := by
  rintro w rfl
  exact hx w

/-- An action goes on after a part of it that gives a result. -/
theorem Gives.before
    (hx : Gives x h a g)
    (hf : Ends (f a) g r h') :
    Ends (x >>= f) h r h' := by
  intro w hw
  obtain ⟨v, hrun, hv⟩ := hx w hw
  obtain ⟨u, hrun', hu⟩ := hf v hv
  refine ⟨u, ?_, hu⟩
  rw [run_bind_operation, hrun]
  exact hrun'

/-- An action ends with the failure of a part of it. -/
theorem Ends.fails
    (hx : Ends x h (.error o) g) :
    Ends (x >>= f) h (.error o) g := by
  intro w hw
  obtain ⟨v, hrun, hv⟩ := hx w hw
  refine ⟨v, ?_, hv⟩
  rw [run_bind_operation, hrun]

theorem ends_throw (o : Failure) (h : Heap) : Ends (throw o : Action σ α) h (.error o) h :=
  fun w hw => ⟨w, rfl, hw⟩

theorem ends_exhausted
    (hk : k.Silent)
    (bytes : Nat) (h : Heap) :
    ∃ o, o.OfRoom ∧ Ends (exhausted k bytes : Action σ α) h (.error o) h :=
  ⟨.outOfMemory _, trivial, (gives_view _ h).before ((gives_emit hk _ h).before (ends_throw _ h))⟩

theorem ends_allocateLarge
    (hk : k.Silent)
    (hs : h.Sound)
    (size : Nat) (sh : Shape) :
    (∃ x g, (Heap.carveRun (blocksFor (max size 1)) sh).run h = (.ok (some x), g) ∧
        Ends (allocateLarge k size sh) h (.ok x) g) ∨
      ∃ o, o.OfRoom ∧ Ends (allocateLarge k size sh) h (.error o) h := by
  rw [allocateLarge]
  rcases Heap.carveRun_cases hs (blocksFor_pos size) sh with ⟨x, hx, -⟩ | ⟨hnone, hsame⟩
  · refine Or.inl ⟨x, ((Heap.carveRun (blocksFor (max size 1)) sh).run h).2, Prod.ext hx rfl, ?_⟩
    exact (gives_update hx).before (gives_pure x _).ends
  · refine Or.inr ?_
    have hgives := gives_update (σ := σ) hnone
    rw [hsame] at hgives
    cases hmul : Word.mul (blocksFor (max size 1)) blockSize with
    | error e =>
        refine ⟨.overflow e, trivial, hgives.before (Ends.fails ?_)⟩
        rintro w rfl
        exact ⟨w, rfl, rfl⟩
    | ok bytes =>
        obtain ⟨o, ho, hends⟩ := ends_exhausted (α := Nat) hk bytes h
        have hchecked : Gives (checked (.ok bytes) : Action σ Nat) h bytes h := by
          rintro w rfl
          exact ⟨w, rfl, rfl⟩
        exact ⟨o, ho, hgives.before (hchecked.before hends)⟩

/-- How an allocation of bytes of a worker that lives goes. -/
theorem ends_allocateBytes
    (hk : k.Silent)
    (hr : h.Staffed id)
    (size : Nat) (sh : Shape) :
    ∃ r g, Ends (allocateBytes k id size sh) h r g ∧ Heap.Obtaining id size sh h r g := by
  rw [allocateBytes]
  cases hsize : SizeClass.forSize? size with
  | some c =>
      refine ⟨_, _, (follows_allocate hk id ⟨c, sh⟩).ends h, ?_⟩
      rcases hr.allocate_cases ⟨c, sh⟩ with ⟨x, hreuse, hok⟩ | ⟨-, hc⟩
      · rw [hok]
        exact .reused hsize hreuse
      · exact .searched hsize hc
  | none =>
      have hcounted := Heap.still_count h id .slowAllocations 1
      have hcount := gives_adjust (σ := σ) (·.count id .slowAllocations 1) h
      rcases ends_allocateLarge hk (hcounted.steps.sound hr.sound) size sh with
        ⟨x, g, hrun, hends⟩ | ⟨o, ho, hends⟩
      · exact ⟨_, _, hcount.before hends, .carved hsize hrun⟩
      · exact ⟨_, _, hcount.before hends, .exhausted ho⟩

theorem gives_tryFree
    (hk : k.Silent)
    (id addr size : Nat) (sh : Shape) (h : Heap) :
    Gives (tryFree k id addr size sh) h ((h.free id addr size (some sh)).1 = none)
      (h.free id addr size (some sh)).2 := by
  rw [tryFree]
  refine (gives_change _ h).bind ?_
  cases hfree : (h.free id addr size (some sh)).1 with
  | none => exact gives_pure true _
  | some reason => exact (gives_emit hk _ _).bind (gives_pure false _)

/-- Letting an old buffer go, and giving a result afterwards. -/
theorem gives_letGo
    {old new : Nat}
    (hk : k.Silent)
    (id size : Nat) (sh : Shape) (h : Heap) (b : β) :
    Gives (if old ≠ 0 ∧ old ≠ new then
        tryFree k id old size sh >>= fun freed =>
          if freed = true then adjust (·.count id .growFrees 1) >>= fun _ => pure b else pure b
      else pure b) h b (h.letGo id old new size sh) := by
  rw [Heap.letGo]
  split
  · refine (gives_tryFree hk id old size sh h).bind ?_
    rcases h.free id old size (some sh) with ⟨_ | reason, g⟩
    · rw [if_pos (by simp)]
      exact (gives_adjust _ _).bind (gives_pure b _)
    · rw [if_neg (by simp)]
      exact gives_pure b _
  · exact gives_pure b _

/-- How the growth of a buffer of a worker that lives goes. -/
theorem ends_growUnaliased
    {elementSize length extra : Nat}
    (hk : k.Silent)
    (hr : h.Staffed id)
    (hpos : 0 < elementSize)
    (hextra : extra ≤ length)
    (old capacity : Nat) (sh : Shape) :
    ∃ r g, Ends (growUnaliased k id old capacity length elementSize sh extra) h r g ∧
      Heap.Growing id old capacity length elementSize sh extra h r g := by
  rw [growUnaliased, if_neg hpos.ne', if_neg (Nat.not_lt.2 hextra)]
  have hcount := gives_adjust (σ := σ) (·.count id .growCalls 1) h
  cases hc : nextCapacity capacity length elementSize with
  | error o =>
      refine ⟨_, _, hcount.before (Ends.fails ?_), .refused hc⟩
      exact fun w hw => ⟨w, rfl, hw⟩
  | ok next =>
      have hnext : Gives (ExceptT.mk (pure (.ok next)) : Action σ Nat) (h.count id .growCalls 1) next
          (h.count id .growCalls 1) := fun w hw => ⟨w, rfl, hw⟩
      obtain ⟨r, f, hends, ho⟩ :=
        ends_allocateBytes hk (hr.count id .growCalls 1) (next * elementSize) sh
      cases r with
      | error o => exact ⟨_, _, hcount.before (hnext.before (Ends.fails hends)), .failed hc ho⟩
      | ok a =>
          refine ⟨_, _, hcount.before (hnext.before (Gives.before hends ?_)), .grown hc ho⟩
          dsimp only
          rw [Heap.carryOver, Heap.keptBytes]
          split
          · exact (gives_adjust _ f).before (gives_letGo hk id _ sh _ (a, next)).ends
          · exact (gives_letGo hk id _ sh f (a, next)).ends

end EagerHeap.Action
