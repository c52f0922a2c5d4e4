import EagerHeap.Proofs.Heap.Operations
/-!
# Eager frees, scopes and the end of a worker

An accepted eager free parks one object that is allocated and carries no flag. The end of a scope
frees the tracked objects one after the other in this way, and the end of a worker makes the cells
of its free lists free.

Main results: `free_cases`, `free_eq_none_iff`, `drainScope_eq`, `drainScope_steps` and
`flushWorker_steps`.
-/

namespace EagerHeap

/-- An eager free with a size and a shape accepts a cell. -/
structure Config.Accepts (k : Config) (c : Cell) (size : Nat) (sh : Shape) : Prop where
  enabled : k.eagerFree = true
  least : k.minFreeSize ≤ size
  greatest : size ≤ k.maxFreeSize
  small : c.isLarge = false
  fits : size ≤ c.size
  shape : c.shape = sh
  bare : c.header.hasFlag Header.sideRecord = false
  state : c.header.state = .allocated

namespace Heap

variable {h h' g : Heap} {x i id size : Nat} {c : Cell} {s : Span} {sh : Shape} {l : Act}

/-- What an eager free has checked when it accepts. -/
theorem freeable_eq_ok
    {size : Nat} {sh : Option Shape} {e : FreeEntry}
    (hl : h.arena.Layout)
    (hf : h.freeable x size sh = .ok (s, e)) :
    ∃ c, h.arena.cell? x = some c ∧ c.header.state = .allocated ∧
      c.header.hasFlag Header.sideRecord = false ∧ h.arena.HasSpan c.block s ∧
      e = ⟨x, c.block, c.index⟩ := by
  unfold freeable at hf
  split at hf
  · cases hf
  split at hf
  · cases hf
  split at hf
  · cases hf
  split at hf
  · cases hf
  split at hf
  · cases hf
  next c hcell =>
    split at hf
    · cases hf
    next t hspan =>
      split at hf
      · cases hf
      split at hf
      · cases hf
      next hflag =>
        split at hf
        · cases hf
        next hstate =>
          cases hf
          obtain ⟨b, hb, hspan⟩ := Option.bind_eq_some_iff.1 hspan
          refine ⟨c, hcell, Decidable.not_not.1 hstate, by simpa using hflag, ?_, rfl⟩
          cases b with
          | small r cells q =>
              obtain rfl := Option.some.inj hspan
              exact hl.hasSpan_of_getElem? hb
          | large hd n sh' => cases hspan

/-- An eager free parks the object or changes counters only. -/
theorem free_cases
    (hs : h.Sound)
    (id x size : Nat) (sh : Option Shape) :
    ((h.free id x size sh).1 = none ∧
        ∃ g, Tick h (.park x) g ∧ Steps (· = .still) g (h.free id x size sh).2) ∨
      (h.free id x size sh).1 ≠ none ∧ Steps (· = .still) h (h.free id x size sh).2 := by
  unfold free
  cases hf : h.freeable x size sh with
  | error e => exact Or.inr ⟨by simp, (still_count _ _ _ _).steps⟩
  | ok p =>
      obtain ⟨s, e⟩ := p
      obtain ⟨c, hcell, hst, hflag, hspan, rfl⟩ := freeable_eq_ok hs.layout hf
      exact Or.inl ⟨rfl, _, .park id hcell hst hflag hspan, (still_count _ _ _ _).steps⟩

theorem free_steps
    (hs : h.Sound)
    (id x size : Nat) (sh : Option Shape) :
    Steps (fun l => l = .still ∨ l = .park x) h (h.free id x size sh).2 := by
  rcases free_cases hs id x size sh with ⟨-, g, ht, hst⟩ | ⟨-, hst⟩
  · exact (Steps.single (Or.inr rfl) ht).trans (hst.mono fun l hl => Or.inl hl)
  · exact hst.mono fun l hl => Or.inl hl

/-- The block of a small cell serves the span of the cell. -/
theorem span?_of_cell
    (hl : h.arena.Layout)
    (hx : h.arena.cell? x = some c) :
    c.isLarge = false ∧ (∃ s, h.arena.blocks[c.block]?.bind Block.span? = some s ∧
        s.shape = c.shape) ∨
      c.isLarge = true ∧ h.arena.blocks[c.block]?.bind Block.span? = none := by
  rcases hl.cell?_cases hx with ⟨s, hspan, -, -, -, hshape, hsmall⟩ |
    ⟨n, sh, hrun, -, -, -, -, -, hlarge, -⟩
  · obtain ⟨cells, q, hb, -⟩ := hl.exists_getElem?_of_hasSpan hspan
    refine Or.inl ⟨hsmall, s, ?_, hshape.symm⟩
    rw [hb]
    rfl
  · obtain ⟨hd, sh', hb⟩ := Arena.exists_getElem?_of_hasRun ⟨sh, hrun⟩
    refine Or.inr ⟨hlarge, ?_⟩
    rw [hb]
    rfl

/-- There is nothing to free at address zero. -/
theorem free_zero_ne_none (h : Heap) (id size : Nat) (shape : Option Shape) :
    (h.free id 0 size shape).1 ≠ none := by
  have hout : h.arena.contains 0 = false := by simp [Arena.contains, Arena.start]
  have herror : ∃ reason, h.freeable 0 size shape = .error reason := by
    by_cases hoff : h.config.eagerFree = false
    · exact ⟨.disabled, by rw [freeable, if_pos hoff]⟩
    · exact ⟨.notInHeap, by rw [freeable, if_neg hoff, if_pos hout]⟩
  obtain ⟨reason, hreason⟩ := herror
  rw [free, hreason]
  exact Option.some_ne_none reason

/-- Whether an eager free is accepted depends on the cell and the configuration only. -/
theorem free_eq_none_iff
    (hl : h.arena.Layout)
    (hx : h.arena.cell? x = some c) :
    (h.free id x size (some sh)).1 = none ↔ h.config.Accepts c size sh := by
  have hcontains := Arena.contains_of_cell? hx
  rw [free]
  cases hf : h.freeable x size (some sh) with
  | ok p =>
      refine iff_of_true rfl ?_
      rw [freeable, hcontains, hx] at hf
      split at hf
      · cases hf
      next hon =>
        rw [if_neg Bool.true_eq_false.mp] at hf
        split at hf
        · cases hf
        next hmin =>
          split at hf
          · cases hf
          next hmax =>
            dsimp only at hf
            rcases span?_of_cell hl hx with ⟨hsmall, s, hspan, hshape⟩ | ⟨-, hnone⟩
            · rw [hspan] at hf
              dsimp only at hf
              split at hf
              · cases hf
              next hfit =>
                split at hf
                · cases hf
                next hflag =>
                  split at hf
                  · cases hf
                  next hstate =>
                    obtain ⟨hsize, hsh⟩ := not_or.1 hfit
                    have hsame : sh = s.shape := by simpa using hsh
                    exact ⟨by simpa using hon, Nat.le_of_not_lt hmin, Nat.le_of_not_lt hmax, hsmall,
                      Nat.le_of_not_lt hsize, by rw [hsame, hshape], by simpa using hflag,
                      Decidable.not_not.1 hstate⟩
            · rw [hnone] at hf
              cases hf
  | error e =>
      refine iff_of_false (Option.some_ne_none e) fun ha => ?_
      rcases span?_of_cell hl hx with ⟨-, s, hspan, hshape⟩ | ⟨hlarge, -⟩
      · have hok : h.freeable x size (some sh) = .ok (s, ⟨x, c.block, c.index⟩) := by
          rw [freeable, if_neg (by simp [ha.enabled]), if_neg (by simp [hcontains]),
            if_neg (Nat.not_lt.2 ha.least), if_neg (Nat.not_lt.2 ha.greatest), hx]
          simp [hspan, hshape, ha.shape, ha.bare, ha.state, Nat.not_lt.2 ha.fits]
        rw [hok] at hf
        cases hf
      · rw [ha.small] at hlarge
        cases hlarge

theorem cell?_free
    (hl : h.arena.Layout)
    (hx : h.arena.cell? x = some c)
    (hfree : (h.free id x size (some sh)).1 = none) :
    (h.free id x size (some sh)).2.arena.cell? x =
      some { c with header := c.header.withState .cached } := by
  rw [free] at hfree ⊢
  cases hf : h.freeable x size (some sh) with
  | error e =>
      rw [hf] at hfree
      cases hfree
  | ok p =>
      obtain ⟨s, e⟩ := p
      obtain ⟨d, hd, -, -, -, rfl⟩ := freeable_eq_ok hl hf
      rw [hx] at hd
      obtain rfl := Option.some.inj hd
      exact (Arena.cell?_modifyHeader_of_cell hx (·.withState .cached) x).trans (if_pos rfl)

/-! ### Scopes -/

theorem still_modifyRegistry (h : Heap) (r : Nat) (f : Registry → Registry) :
    Still h (h.modifyRegistry r f) :=
  .of_lists rfl rfl rfl rfl rfl rfl fun hst => ⟨hst.entries, hst.cursors, hst.central⟩

theorem still_modifyScope (h : Heap) (k : Nat) (f : Scope → Scope) : Still h (h.modifyScope k f) :=
  .of_lists rfl rfl rfl rfl rfl rfl fun hst => ⟨hst.entries, hst.cursors, hst.central⟩

theorem still_register (h : Heap) (id r : Nat) : Still h (h.register id r) :=
  still_modifyWorker (fun _ _ _ _ he => Or.inr he) fun _ _ _ _ hc => Or.inr hc

theorem still_deregister (h : Heap) (id r : Nat) : Still h (h.deregister id r) :=
  still_modifyWorker (fun _ _ _ _ he => Or.inr he) fun _ _ _ _ hc => Or.inr hc

theorem still_makeRegistry (h : Heap) (n : Nat) : Still h (h.makeRegistry n).2 :=
  .of_lists rfl rfl rfl rfl rfl rfl fun hst => ⟨hst.entries, hst.cursors, hst.central⟩

theorem dropRegistry_steps (h : Heap) (r : Nat) : Steps (· = .still) h (h.dropRegistry r) := by
  unfold dropRegistry
  split
  · exact (still_modifyRegistry _ _ _).steps.trans (still_deregister _ _ _).steps
  · exact Steps.refl h

theorem enterScope_steps (h : Heap) (id r : Nat) :
    Steps (· = .still) h ((enterScope id r).run h).2 := by
  have howned : Still h (h.setOwner r (some id)) := still_modifyRegistry _ _ _
  by_cases hc : (h.ownerOf r).isSome = true
  · have hrun : ((enterScope id r).run h).2 = h.setOwner r (some id) := by
      simp [enterScope, hc]
    rw [hrun]
    exact howned.steps
  · have hrun : ((enterScope id r).run h).2 =
        { (h.setOwner r (some id)).register id r with
          scopes := (h.setOwner r (some id)).scopes.push { worker := id, registry := r } } := by
      simp [enterScope, hc]
    have hpushed : ∀ (g : Heap) (scopes : Array Scope), Still g { g with scopes } := fun g _ =>
      .of_lists rfl rfl rfl rfl rfl rfl fun hst => ⟨hst.entries, hst.cursors, hst.central⟩
    rw [hrun]
    exact howned.steps.trans ((still_register _ id r).steps.trans (hpushed _ _).steps)

theorem recordTracked_steps (h : Heap) (k addr allocatedAt : Nat) :
    Steps (· = .still) h ((recordTracked k addr allocatedAt).run h).2 := by
  unfold recordTracked
  simp only [run_bind_operation, run_get_operation]
  cases hk : h.scopes[k]? with
  | none => exact Steps.refl h
  | some scope =>
      by_cases hfull : h.registryCapacity scope.registry ≤ scope.used
      · simpa [hfull] using (still_count h _ _ _).steps
      · by_cases hlate : allocatedAt < h.lastSweep
        · simpa [hfull, hlate] using (still_count h _ _ _).steps
        · have hwritten := (still_modifyRegistry h scope.registry
            (·.setSlot scope.used ⟨addr, h.epoch⟩)).steps
          have hnoted := (still_modifyScope (h.modifyRegistry scope.registry
            (·.setSlot scope.used ⟨addr, h.epoch⟩)) k
            fun scope => { scope with used := scope.used + 1 }).steps
          simpa [hfull, hlate] using hwritten.trans hnoted

/-- What every eager free of a worker preserves, freeing tracked objects for the worker preserves. -/
theorem freeTracked_preserves
    {R : Heap → Prop}
    (hR : R h)
    (hfree : ∀ g x size shape, R g → R (g.free id x size shape).2)
    (addrs : List Nat) :
    R (h.freeTracked id addrs).2 := by
  induction addrs generalizing h with
  | nil => exact hR
  | cons addr rest ih =>
      cases addr with
      | zero => exact ih hR
      | succ n =>
          unfold freeTracked
          exact ih (hfree h (n + 1) _ none hR)

/-- The objects of a scope are freed one after the other; slots that are zero are passed over. -/
theorem freeTracked_steps
    (addrs : List Nat)
    (hs : h.Sound)
    (id : Nat) :
    Steps (fun l => l = .still ∨ ∃ x ∈ addrs, x ≠ 0 ∧ l = .park x) h
      (h.freeTracked id addrs).2 := by
  induction addrs generalizing h with
  | nil => exact Steps.refl h
  | cons addr rest ih =>
      have hrest : ∀ l : Act, (l = .still ∨ ∃ x ∈ rest, x ≠ 0 ∧ l = .park x) →
          l = .still ∨ ∃ x ∈ addr :: rest, x ≠ 0 ∧ l = .park x := by
        rintro l (rfl | ⟨x, hx, h0, rfl⟩)
        · exact Or.inl rfl
        · exact Or.inr ⟨x, List.mem_cons_of_mem _ hx, h0, rfl⟩
      cases addr with
      | zero =>
          unfold freeTracked
          exact (ih hs).mono hrest
      | succ n =>
          unfold freeTracked
          have hfree := free_steps hs id (n + 1)
            (((h.arena.cell? (n + 1)).map Cell.size).getD 0) none
          refine Steps.trans (hfree.mono fun l hl => ?_) ((ih (hfree.sound hs)).mono hrest)
          rcases hl with rfl | rfl
          · exact Or.inl rfl
          · exact Or.inr ⟨n + 1, List.mem_cons_self .., Nat.succ_ne_zero n, rfl⟩

/-- The heap on which the objects of a scope are freed: the scope is closed, and the registry has no
owner and holds no address. -/
def closing (h : Heap) (k : Nat) (scope : Scope) : Heap :=
  (h.modifyScope k fun scope => { scope with used := 0, status := .closed }).modifyRegistry
    scope.registry fun registry => { registry.clearSlots scope.used with owner := none }

theorem closing_steps (h : Heap) (k : Nat) (scope : Scope) :
    Steps (· = .still) h (h.closing k scope) :=
  (still_modifyScope h k _).steps.trans (still_modifyRegistry _ scope.registry _).steps

/-- Draining a scope closes it. If its registry names an owner, the objects in its slots are freed and
counted, and the owner forgets the registry. -/
theorem drainScope_eq
    {scope : Scope}
    (hk : h.scopes[i]? = some scope) :
    h.ownerOf scope.registry = none ∧
        h.drainScope i =
          (0, h.modifyScope i fun scope => { scope with used := 0, status := .closed }) ∨
      ∃ registry owner, h.registries[scope.registry]? = some registry ∧
        h.ownerOf scope.registry = some owner ∧
        h.drainScope i =
          (((h.closing i scope).freeTracked scope.worker (registry.addresses scope.used)).1.1,
            ((((h.closing i scope).freeTracked scope.worker
              (registry.addresses scope.used)).2.deregister owner scope.registry).count
                scope.worker .trackedFrees ((h.closing i scope).freeTracked scope.worker
                  (registry.addresses scope.used)).1.1).count scope.worker .trackedSkipped
                    ((h.closing i scope).freeTracked scope.worker
                      (registry.addresses scope.used)).1.2) := by
  rw [drainScope]
  simp only [hk]
  rw [show (h.modifyScope i fun scope => { scope with used := 0, status := .closed }).ownerOf
    scope.registry = h.ownerOf scope.registry from rfl]
  cases ho : h.ownerOf scope.registry with
  | none => exact Or.inl ⟨rfl, rfl⟩
  | some owner =>
      obtain ⟨registry, hreg, -⟩ := Option.bind_eq_some_iff.1 ho
      rw [show (h.modifyScope i fun scope =>
        { scope with used := 0, status := .closed }).registries[scope.registry]? =
          some registry from hreg]
      exact Or.inr ⟨registry, owner, hreg, rfl, rfl⟩

/-- What draining does, also for a scope that was never entered. -/
theorem drainScope_cases (h : Heap) (k : Nat) :
    h.scopes[k]? = none ∧ (h.drainScope k).2 = h ∨
      ∃ scope, h.scopes[k]? = some scope ∧
        ((h.drainScope k).2 =
            h.modifyScope k (fun scope => { scope with used := 0, status := .closed }) ∨
          ∃ (registry : Registry) (owner freed skipped : Nat), (h.drainScope k).2 =
            ((((h.closing k scope).freeTracked scope.worker
              (registry.addresses scope.used)).2.deregister owner scope.registry).count
                scope.worker .trackedFrees freed).count scope.worker .trackedSkipped skipped) := by
  cases hk : h.scopes[k]? with
  | none =>
      refine Or.inl ⟨rfl, ?_⟩
      rw [drainScope, hk]
  | some scope =>
      refine Or.inr ⟨scope, rfl, ?_⟩
      rcases drainScope_eq hk with ⟨-, heq⟩ | ⟨registry, owner, -, -, heq⟩
      · exact Or.inl (congrArg Prod.snd heq)
      · exact Or.inr ⟨registry, owner, _, _, congrArg Prod.snd heq⟩

theorem drainScope_steps
    (hs : h.Sound)
    (k : Nat) :
    Steps (fun l => l = .still ∨ ∃ x, l = .park x) h (h.drainScope k).2 := by
  rcases drainScope_cases h k with ⟨-, heq⟩ | ⟨scope, -, heq | ⟨registry, owner, _, _, heq⟩⟩
  · rw [heq]
    exact Steps.refl h
  · rw [heq]
    exact (still_modifyScope h k _).steps.mono fun l hl => Or.inl hl
  · rw [heq]
    have hclosed := closing_steps h k scope
    have hfreed := freeTracked_steps (registry.addresses scope.used) (hclosed.sound hs) scope.worker
    refine (hclosed.mono fun l hl => Or.inl hl).trans ((hfreed.mono fun l hl => ?_).trans ?_)
    · rcases hl with rfl | ⟨x, -, -, rfl⟩
      · exact Or.inl rfl
      · exact Or.inr ⟨x, rfl⟩
    · exact ((still_deregister _ _ _).steps.trans ((still_count _ _ _ _).steps.trans
        (still_count _ _ _ _).steps)).mono fun l hl => Or.inl hl

/-! ### The end of a worker -/

theorem uncache_steps
    {e : FreeEntry}
    (hs : h.Sound)
    (he : e.Fits h.arena s) :
    Steps (fun l => l = .still ∨ l = .uncache e.addr) h (h.uncache e).2 := by
  unfold uncache
  split
  · next hc =>
      obtain ⟨hd, hhd, hcell⟩ := he.cell? hs.layout
      have hcached : hd.state = .cached := by
        rw [hhd] at hc
        simpa using hc
      have ht := Tick.uncache hcell hcached
      exact (Steps.single (Or.inr rfl) ht).trans
        ((still_offer (ht.sound hs).layout _).steps.mono fun l hl => Or.inl hl)
  · exact Steps.refl h

theorem uncacheAll_steps
    (entries : List FreeEntry)
    (hs : h.Sound)
    (he : ∀ e ∈ entries, ∃ s, e.Fits h.arena s) :
    Steps (fun l => l = .still ∨ ∃ e ∈ entries, l = .uncache e.addr) h
      (h.uncacheAll entries).2 := by
  induction entries generalizing h with
  | nil => exact Steps.refl h
  | cons e rest ih =>
      unfold uncacheAll
      obtain ⟨s, hfits⟩ := he e (List.mem_cons_self ..)
      have hfirst := uncache_steps hs hfits
      refine (hfirst.mono fun l hl => ?_).trans ((ih (hfirst.sound hs) fun d hd => ?_).mono ?_)
      · exact hl.imp_right fun e' => ⟨e, List.mem_cons_self .., e'⟩
      · obtain ⟨t, h₁, h₂, h₃⟩ := he d (List.mem_cons_of_mem _ hd)
        exact ⟨t, hfirst.hasSpan hs h₁, h₂, h₃⟩
      · rintro l (rfl | ⟨d, hd, rfl⟩)
        · exact Or.inl rfl
        · exact Or.inr ⟨d, List.mem_cons_of_mem _ hd, rfl⟩

theorem offerAll_steps
    (blocks : List Nat)
    (hs : h.Sound) :
    Steps (· = .still) h (blocks.foldl offerIfFree h) := by
  induction blocks generalizing h with
  | nil => exact Steps.refl h
  | cons i rest ih =>
      rw [List.foldl_cons]
      have hfirst : Steps (· = .still) h (h.offerIfFree i) := by
        unfold offerIfFree
        split
        · exact (still_offer hs.layout i).steps
        · exact Steps.refl h
      exact hfirst.trans (ih (hfirst.sound hs))

theorem freeEntries_fit
    {w : Worker} {e : FreeEntry}
    (hst : h.Stocked)
    (hw : w ∈ h.workers)
    (he : e ∈ w.freeEntries) :
    ∃ s, e.Fits h.arena s := by
  obtain ⟨entries, hl, he⟩ := List.mem_flatMap.1 he
  obtain ⟨s, rfl⟩ := SpanTable.exists_get_of_mem_toList hl
  exact ⟨s, hst.entries w hw s e (List.mem_reverse.1 he)⟩

theorem flushWorker_steps
    (hs : h.Sound)
    (id : Nat) :
    Steps (fun l => l = .still ∨ ∃ x, l = .uncache x) h (h.flushWorker id).2 := by
  unfold flushWorker
  split
  · exact Steps.refl h
  · next w hw =>
      have huncached := uncacheAll_steps w.freeEntries hs
        fun e he => freeEntries_fit hs.stocked (worker?_mem hw) he
      refine (huncached.mono fun l hl => hl.imp_right fun ⟨e, _, he⟩ => ⟨e.addr, he⟩).trans
        (Steps.mono ?_ fun l hl => Or.inl hl)
      refine (offerAll_steps _ (huncached.sound hs)).trans (still_modifyWorker ?_ ?_).steps
      · intro v hv t e he
        simp at he
      · intro v hv t k hk
        simp at hk

end Heap

end EagerHeap
