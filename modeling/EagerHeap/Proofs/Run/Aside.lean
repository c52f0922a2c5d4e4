import EagerHeap.Proofs.Heap.Shelf
import EagerHeap.Proofs.Run.Attendance
import EagerHeap.Proofs.Run.Objects
/-!
# Moves that leave the objects of a worker alone

A move that comes between the allocations and eager frees of a worker leaves the free list of the worker
for a span, if it neither allocates nor frees objects of the span for the worker. The objects of the span
that nobody frees stay.

Main results: `shelf_drainScope`, `Aside.shelf_apply` and `holdsAt_apply`.
-/

namespace EagerHeap

namespace Heap

variable {h : Heap} {id x y size : Nat} {s : Span} {shape : Option Shape}

/-! ### Eager frees of scopes -/

/-- Eager frees make no objects. -/
theorem HoldsAt.of_free
    (hx : (h.free id y size shape).2.HoldsAt s x)
    (hs : h.Sound) :
    h.HoldsAt s x := by
  obtain ⟨c, ⟨hcell, hst⟩, hspan⟩ := hx
  have hout : Arena.SameOutline h.arena (h.free id y size shape).2.arena := by
    rw [free]
    split
    · exact Arena.sameOutline_modifyHeader ..
    · exact Arena.SameOutline.refl _
  have hparks : Steps (fun l => l = .still ∨ ∃ x, l = .park x) h (h.free id y size shape).2 :=
    (free_steps hs id y size shape).mono fun l hl => hl.imp_right fun e => ⟨y, e⟩
  obtain ⟨hd, -, hbefore⟩ := hout.symm.cell?_eq_some hcell
  rcases hparks.parked hs hbefore with hsame | hcached
  · have hheader : c.header = hd := congrArg Cell.header (Option.some.inj (hcell.symm.trans hsame))
    exact ⟨_, ⟨hbefore, hheader ▸ hst⟩, hout.hasSpan.1 hspan⟩
  · have hheader : c.header = hd.withState .cached :=
      congrArg Cell.header (Option.some.inj (hcell.symm.trans hcached))
    rw [hheader] at hst
    cases hst

/-- Freeing tracked objects leaves the free list, or puts an object of the span into a free list. -/
theorem shelf_freeTracked
    (addrs : List Nat)
    (hs : h.Sound)
    (other id : Nat) (s : Span) :
    (h.freeTracked other addrs).2.shelf id s = h.shelf id s ∨
      ∃ x, h.HoldsAt s x ∧ (h.freeTracked other addrs).2.CachedAt x := by
  induction addrs generalizing h with
  | nil => exact Or.inl rfl
  | cons addr rest ih =>
      cases addr with
      | zero =>
          unfold freeTracked
          exact ih hs
      | succ n =>
          unfold freeTracked
          have hsteps := free_steps hs other (n + 1)
            (((h.arena.cell? (n + 1)).map Cell.size).getD 0) none
          have hg := hsteps.sound hs
          rcases shelf_free hs other (n + 1) (((h.arena.cell? (n + 1)).map Cell.size).getD 0) none with
            hsame | ⟨hholds, hcached⟩
          · rcases ih hg with hrest | ⟨x, hholds, hcached⟩
            · exact Or.inl (hrest.trans hsame)
            · exact Or.inr ⟨x, hholds.of_free hs, hcached⟩
          · -- What is in a free list stays there while the other objects are freed.
            exact Or.inr ⟨n + 1, hholds,
              (freeTracked_steps rest hg other).cachedAt hg hcached (by simp) (by simp)⟩

theorem shelf_drainScope
    (hs : h.Sound)
    (k id : Nat) (s : Span) :
    (h.drainScope k).2.shelf id s = h.shelf id s ∨
      ∃ x, h.HoldsAt s x ∧ (h.drainScope k).2.CachedAt x := by
  rcases drainScope_cases h k with ⟨-, heq⟩ | ⟨scope, -, heq | ⟨registry, owner, freed, skipped, heq⟩⟩
  · exact Or.inl (by rw [heq])
  · rw [heq]
    exact Or.inl (shelf_of_stock rfl)
  · rw [heq]
    have hclosing := (closing_steps h k scope).sound hs
    rcases shelf_freeTracked (registry.addresses scope.used) hclosing scope.worker id s with
      hsame | ⟨x, hholds, hcached⟩
    · left
      rw [shelf_count, shelf_count]
      exact (shelf_of_stock (stock_deregister ..)).trans (hsame.trans (shelf_of_stock rfl))
    · exact Or.inr ⟨x, hholds, hcached⟩

end Heap

namespace Machine

open Heap

variable {m : Machine} {y : Move} {id : Nat} {s : Span} {live : List Nat}

/-- The move is none of a worker that allocates and frees objects of a span, and leaves those objects
alone: the sweeper does not run, the worker stays, it allocates no object of the span and frees none, and
nobody frees the live ones. -/
structure Aside (m : Machine) (id : Nat) (s : Span) (live : List Nat) (y : Move) : Prop where
  unswept : ∀ n, y ≠ .sweepStep n
  staying : y ≠ .flushWorker id ∧ y ≠ .retireWorker id
  elsewhere : y ≠ .reuse id s ∧ y ≠ .claim id s
  spared : ∀ x ∈ live, ¬ m.Parks y x
  foreign : m.supplied? y = some id → ∀ x, m.heap.HoldsAt s x → ¬ m.Parks y x

/-- Such a move leaves the free list of the worker for the span. -/
theorem Aside.shelf_apply
    (ha : m.Aside id s live y)
    (hm : m.Proper) :
    (m.apply y).heap.shelf id s = m.heap.shelf id s := by
  have hfrees : y.FreesEagerly → m.supplied? y = some id →
      ¬ ∃ x, m.heap.HoldsAt s x ∧ (m.apply y).heap.CachedAt x := by
    rintro hy hid ⟨x, ⟨c, hobj, hspan⟩, hcached⟩
    exact ha.foreign hid x ⟨c, hobj, hspan⟩ ⟨hy, hobj.isAllocated, hcached⟩
  cases hid : m.supplied? y with
  | some other =>
      by_cases hne : id = other
      · subst hne
        cases y with
        | flushWorker =>
            cases hid
            exact absurd rfl ha.staying.1
        | reuse other t =>
            cases hid
            exact shelf_reuse (fun hts => ha.elsewhere.1 (by rw [hts])) m.heap id
        | claim other t => exact shelf_claim m.heap other t
        | setCursor other t b => exact shelf_setCursor m.heap other t ⟨b, 0⟩
        | free other x size shape =>
            exact (shelf_free hm.sound other x size shape).resolve_right fun hp =>
              hfrees trivial hid ⟨x, hp⟩
        | drainScope k =>
            exact (shelf_drainScope hm.sound k id s).resolve_right (hfrees trivial hid)
        | _ => cases hid
      · exact shelf_of_stockOfOthers hne (stockOfOthers_apply hid)
  | none =>
      by_cases hstock : y.OfStock
      · cases y with
        | addWorker => exact shelf_addWorker m.heap id s
        | retireWorker other =>
            have hne : id ≠ other := fun heq => ha.staying.2 (heq ▸ rfl)
            exact apply_retireWorker (R := fun g => g.shelf id s = m.heap.shelf id s) rfl
              fun g hr => shelf_retireWorker hne hr
        | drainScope k =>
            rcases drainScope_cases m.heap k with ⟨-, heq⟩ | ⟨scope, hscope, -⟩
            · exact congrArg (fun g => Heap.shelf g id s) heq
            · have hpost : m.heap.post? k = some scope.post :=
                post?_eq_some_iff.2 ⟨scope, hscope, rfl⟩
              cases (congrArg (Option.map Post.worker) hpost).symm.trans hid
        | flushWorker | reuse | claim | setCursor | free => cases hid
        | _ => cases hstock
      · exact shelf_of_stock (stock_apply hstock)

/-- A move that neither sweeps nor frees an object of the span leaves it there. -/
theorem holdsAt_apply
    {x : Nat}
    (hm : m.Proper)
    (hy : m.Allows y)
    (hunswept : ∀ n, y ≠ .sweepStep n)
    (hspared : ¬ m.Parks y x)
    (hx : m.heap.HoldsAt s x) :
    (m.apply y).heap.HoldsAt s x := by
  obtain ⟨c, hobj, hspan⟩ := hx
  have hreclaim : ¬ y.Does (.reclaim x) := by
    cases y with
    | sweepStep n => exact absurd rfl (hunswept n)
    | _ => simp [Move.Does]
  obtain ⟨hd, hobj'⟩ := (hm.stays hy hobj hreclaim).resolve_right hspared
  exact ⟨_, hobj', (hm.steps hy).hasSpan hm.sound hspan⟩

end Machine

end EagerHeap
