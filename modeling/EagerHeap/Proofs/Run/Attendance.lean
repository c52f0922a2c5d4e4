import EagerHeap.Proofs.Heap.Posts
import EagerHeap.Proofs.Run.Tracking
/-!
# What the owners of workers and registries keep to

A worker is used by its owner, and not any more once its end has begun: it gives back its cells and
blocks, and it leaves the heap after that. Its scopes have ended before. A registry is dropped once,
while it backs no open scope. Whether a run keeps to this depends on the ends that have begun so far.

Main definitions: `Heeds` and `Attended`. Main results: `Attended.preserves` and `Manned.apply`.
-/

namespace EagerHeap

/-- The ends that have begun in a run. -/
structure Ends where
  /-- The workers that have given back their cells and blocks. -/
  workers : List Nat := []
  /-- The registries that were dropped. -/
  registries : List Nat := []

/-- The ends after a move. -/
def Ends.after (e : Ends) : Move → Ends
  | .flushWorker id => { e with workers := id :: e.workers }
  | .dropRegistry r => { e with registries := r :: e.registries }
  | _ => e

/-- The ends after a run. -/
def Ends.afterAll (e : Ends) (ys : List Move) : Ends := ys.foldl Ends.after e

/-- The move changes what workers allocate from. -/
def Move.OfStock : Move → Prop
  | .addWorker | .flushWorker _ | .retireWorker _ | .reuse .. | .claim .. | .setCursor .. | .free ..
  | .drainScope _ => True
  | _ => False

namespace Machine

/-- The worker lives, and its end has not begun. -/
def Serves (m : Machine) (e : Ends) (id : Nat) : Prop :=
  (∃ w ∈ m.heap.workers, w.id = id) ∧ id ∉ e.workers

/-- What the owners keep to. A worker that allocates, frees or enters a scope serves. Its end begins
when it has no open scope, and it leaves the heap after its end has begun. A scope is used while it is
open. A registry backs no scope after it was dropped, and it is dropped once, while it backs no open
scope. -/
def Heeds (m : Machine) (e : Ends) : Move → Prop
  | .reuse id _ | .claim id _ | .setCursor id _ _ | .free id _ _ _ => m.Serves e id
  | .flushWorker id => m.Serves e id ∧ ∀ s ∈ m.heap.openScopes, s.worker ≠ id
  | .retireWorker id => id ∈ e.workers
  | .enterScope id r => m.Serves e id ∧ r < m.heap.registries.size ∧ r ∉ e.registries
  | .recordTracked k _ _ | .drainScope k | .leakScope k => ∃ s, m.heap.Open k s
  | .dropRegistry r =>
    r < m.heap.registries.size ∧ r ∉ e.registries ∧ ∀ s ∈ m.heap.openScopes, s.registry ≠ r
  | _ => True

instance decidableServes (m : Machine) (e : Ends) (id : Nat) : Decidable (m.Serves e id) :=
  inferInstanceAs (Decidable ((∃ w ∈ m.heap.workers, w.id = id) ∧ id ∉ e.workers))

instance decidableHeeds (m : Machine) (e : Ends) : (y : Move) → Decidable (m.Heeds e y)
  | .reuse id _ | .claim id _ | .setCursor id _ _ | .free id _ _ _ =>
    inferInstanceAs (Decidable (m.Serves e id))
  | .flushWorker id =>
    inferInstanceAs (Decidable (m.Serves e id ∧ ∀ s ∈ m.heap.openScopes, s.worker ≠ id))
  | .retireWorker id => inferInstanceAs (Decidable (id ∈ e.workers))
  | .enterScope id r =>
    inferInstanceAs
      (Decidable (m.Serves e id ∧ r < m.heap.registries.size ∧ r ∉ e.registries))
  | .recordTracked k _ _ | .drainScope k | .leakScope k =>
    inferInstanceAs (Decidable (∃ s, m.heap.Open k s))
  | .dropRegistry r =>
    inferInstanceAs (Decidable (r < m.heap.registries.size ∧ r ∉ e.registries ∧
      ∀ s ∈ m.heap.openScopes, s.registry ≠ r))
  | .addWorker | .count .. | .takePartial _ | .carveBlock _ | .carveRun .. | .write .. | .copy ..
  | .attach .. | .startBatch | .fire | .endBatch | .breakBatch | .makeRegistry _ | .observe
  | .attachCollector | .detachCollector | .begin | .shadeRoots _ | .markStep _ | .terminate
  | .finishMarking _ | .resurrect | .enterSweep | .zeroSlots | .startSweep | .sweepStep _ | .finish
  | .closeCycle => .isTrue trivial

/-- The owners keep to it in every move of the run. -/
def Attended : Machine → Ends → List Move → Prop
  | _, _, [] => True
  | m, e, y :: ys => m.Heeds e y ∧ Attended (m.apply y) (e.after y) ys

instance decidableAttended (m : Machine) (e : Ends) (ys : List Move) :
    Decidable (m.Attended e ys) :=
  match ys with
  | [] => .isTrue trivial
  | y :: ys =>
    have := decidableAttended (m.apply y) (e.after y) ys
    inferInstanceAs (Decidable (m.Heeds e y ∧ (m.apply y).Attended (e.after y) ys))

variable {P : Machine → Move → Prop} {m : Machine} {e : Ends} {y : Move} {ys : List Move}
  {id k : Nat} {h : Heap}

open Heap

/-- What every move preserves that the owners keep to, such a run preserves. -/
theorem Attended.preserves
    {R : Machine → Ends → Prop}
    (ha : m.Attended e ys)
    (hl : Legal P m ys)
    (hm : R m e)
    (hstep : ∀ m e y, R m e → m.Allows y → m.Heeds e y → R (m.apply y) (e.after y)) :
    R (m.run ys) (e.afterAll ys) := by
  induction ys generalizing m e with
  | nil => exact hm
  | cons y ys ih => exact ih ha.2 hl.2.2 (hstep m e y hm hl.1 ha.1)

/-! ### What moves do to supplies and posts -/

theorem stock_apply
    (hy : ¬ y.OfStock) :
    (m.apply y).heap.stock = m.heap.stock := by
  by_cases hclients : y.OfClients
  · cases y with
    | count id c n => exact stock_count m.heap id c n
    | dropRegistry r => exact stock_dropRegistry m.heap r
    | enterScope id r => exact stock_enterScope m.heap id r
    | recordTracked c x t => exact stock_recordTracked m.heap c x t
    | zeroSlots => exact stock_invalidateSlots m.heap
    | makeRegistry | leakScope | begin | terminate | enterSweep | finish => rfl
    | addWorker | flushWorker | retireWorker | reuse | claim | setCursor | free | drainScope =>
        exact absurd trivial hy
    | _ => cases hclients
  · exact stock_of_clients (clients_apply hclients)

/-- The worker whose supplies a move changes. -/
def supplied? (m : Machine) : Move → Option Nat
  | .flushWorker id | .reuse id _ | .claim id _ | .setCursor id _ _ | .free id _ _ _ => some id
  | .drainScope k => (m.heap.post? k).map Post.worker
  | _ => none

/-- A move of one worker leaves the supplies of the others. -/
theorem stockOfOthers_apply
    (hid : m.supplied? y = some id) :
    (m.apply y).heap.stockOfOthers id = m.heap.stockOfOthers id := by
  cases y with
  | flushWorker id =>
      cases hid
      exact stockOfOthers_flushWorker m.heap id
  | reuse id s =>
      cases hid
      exact stockOfOthers_reuse m.heap id s
  | claim id s =>
      cases hid
      exact stockOfOthers_claim m.heap id s
  | setCursor id s block =>
      cases hid
      exact stockOfOthers_setCursor m.heap id s ⟨block, 0⟩
  | free id addr size shape =>
      cases hid
      exact stockOfOthers_free m.heap id addr size shape
  | drainScope k =>
      obtain ⟨p, hp, rfl⟩ := Option.map_eq_some_iff.1 hid
      obtain ⟨scope, hscope, rfl⟩ := post?_eq_some_iff.1 hp
      exact stockOfOthers_drainScope hscope
  | _ => cases hid

/-- The post of scope `k` after a move. -/
def postAfter (m : Machine) (k : Nat) : Move → Option Post
  | .enterScope id r =>
    if m.heap.ownerOf r = none ∧ k = m.heap.scopes.size then some ⟨id, r, .active⟩
    else m.heap.post? k
  | .drainScope c =>
    if k = c then (m.heap.post? k).map fun p => { p with status := .closed } else m.heap.post? k
  | .leakScope c =>
    if k = c then (m.heap.post? k).map fun p => { p with status := .leaked } else m.heap.post? k
  | _ => m.heap.post? k

theorem post?_apply (m : Machine) (y : Move) (k : Nat) :
    (m.apply y).heap.post? k = m.postAfter k y := by
  by_cases hy : y.OfScopes
  · cases y with
    | retireWorker id =>
        refine apply_retireWorker (R := fun g => g.post? k = m.heap.post? k) rfl fun g hr => ?_
        rcases retireWorker_cases hr with rfl | ⟨retired, rfl⟩ <;> rfl
    | dropRegistry r => exact post?_dropRegistry m.heap r k
    | enterScope id r => exact post?_enterScope m.heap id r k
    | recordTracked c x t => exact post?_recordTracked m.heap c x t k
    | drainScope c => exact post?_drainScope m.heap c k
    | leakScope c => exact post?_leakScope m.heap c k
    | zeroSlots => exact post?_of_scopes (zeroes_invalidateSlots m.heap).scopes k
    | addWorker | makeRegistry | begin | terminate | enterSweep | finish => rfl
    | _ => cases hy
  · refine (post?_of_holdings (holdings_apply hy) k).trans ?_
    cases y with
    | enterScope | drainScope | leakScope => exact absurd trivial hy
    | _ => rfl

/-- A post that is active after a move was active before, or the move has entered the scope. -/
theorem active_of_apply
    {p : Post}
    (hp : (m.apply y).heap.post? k = some p)
    (hactive : p.status = .active) :
    m.heap.post? k = some p ∨ y = .enterScope p.worker p.registry := by
  rw [post?_apply] at hp
  cases y with
  | enterScope id r =>
      rw [postAfter] at hp
      split at hp
      · cases hp
        exact Or.inr rfl
      · exact Or.inl hp
  | drainScope c | leakScope c =>
      rw [postAfter] at hp
      split at hp
      · obtain ⟨q, -, rfl⟩ := Option.map_eq_some_iff.1 hp
        cases hactive
      · exact Or.inl hp
  | _ => exact Or.inl hp

/-! ### Workers that live -/

theorem lives_iff : (∃ w ∈ h.workers, w.id = id) ↔ id ∈ h.stock.map Supplies.id := by
  rw [stock, List.map_map, List.mem_map]
  rfl

/-- The workers that stay when one leaves. -/
theorem workers_retireWorker (m : Machine) (id : Nat) :
    (m.apply (.retireWorker id)).heap.workers.Sublist m.heap.workers := by
  refine apply_retireWorker (R := fun g => g.workers.Sublist m.heap.workers) (List.Sublist.refl _)
    fun g hr => ?_
  rcases retireWorker_cases hr with rfl | ⟨retired, rfl⟩
  · exact List.Sublist.refl _
  · exact List.filter_sublist

/-- A worker lives until it leaves the heap. -/
theorem lives_apply
    (hid : ∃ w ∈ m.heap.workers, w.id = id)
    (hne : y ≠ .retireWorker id) :
    ∃ w ∈ (m.apply y).heap.workers, w.id = id := by
  have hids : ¬ y.OfScopes →
      (m.apply y).heap.workers.map Worker.id = m.heap.workers.map Worker.id :=
    fun hscopes => ids_of_holdings (holdings_apply hscopes)
  by_cases hy : y.OfStock
  · cases y with
    | addWorker =>
        obtain ⟨w, hw, hwid⟩ := hid
        exact ⟨w, List.mem_append_left _ hw, hwid⟩
    | retireWorker other =>
        refine apply_retireWorker (R := fun g => ∃ w ∈ g.workers, w.id = id) hid fun g hr => ?_
        rcases retireWorker_cases hr with rfl | ⟨retired, rfl⟩
        · exact hid
        · obtain ⟨w, hw, rfl⟩ := hid
          refine ⟨w, List.mem_filter.2 ⟨hw, decide_eq_true fun heq => hne ?_⟩, rfl⟩
          rw [heq]
    | drainScope c =>
        refine List.mem_map.1 ?_
        rw [show (m.apply (.drainScope c)).heap.workers.map Worker.id =
          m.heap.workers.map Worker.id from ids_drainScope m.heap c]
        exact List.mem_map.2 hid
    | flushWorker | reuse | claim | setCursor | free =>
        refine List.mem_map.1 ?_
        rw [hids fun hscopes => hscopes]
        exact List.mem_map.2 hid
    | _ => cases hy
  · rw [lives_iff, stock_apply hy]
    exact lives_iff.1 hid

/-- A worker serves until its end begins. -/
theorem Heeds.serves
    (hy : m.Heeds e y)
    (hs : m.Serves e id)
    (hne : y ≠ .flushWorker id) :
    (m.apply y).Serves (e.after y) id := by
  refine ⟨lives_apply hs.1 ?_, ?_⟩
  · rintro rfl
    exact hs.2 hy
  · cases y with
    | flushWorker other =>
        intro hmem
        rcases List.mem_cons.1 hmem with rfl | hmem
        · exact hne rfl
        · exact hs.2 hmem
    | _ => exact hs.2

/-! ### Workers and their scopes in a run -/

/-- The workers of open scopes serve, and a worker whose end has begun has given back its cells and
blocks. -/
structure Manned (m : Machine) (e : Ends) : Prop where
  serving : ∀ k p, m.heap.post? k = some p → p.status = .active → m.Serves e p.worker
  emptied : ∀ u ∈ m.heap.stock, u.id ∈ e.workers → ∀ s,
    u.freeLists.get s = [] ∧ u.cursors.get s = none

/-- A worker for which a move allocates or frees serves. -/
theorem Manned.serves
    (hf : m.Manned e)
    (hy : m.Heeds e y)
    (hid : m.supplied? y = some id) :
    m.Serves e id := by
  cases y with
  | reuse | claim | setCursor | free =>
      cases hid
      exact hy
  | flushWorker id =>
      cases hid
      exact hy.1
  | drainScope k =>
      obtain ⟨s, hs⟩ := hy
      rw [supplied?, hs.post?_eq] at hid
      cases hid
      exact hf.serving k _ hs.post?_eq rfl
  | _ => cases hid

theorem emptied_flushWorker
    {u : Supplies}
    (hu : u ∈ (h.flushWorker id).2.stock)
    (hid : u.id = id)
    (s : Span) :
    u.freeLists.get s = [] ∧ u.cursors.get s = none := by
  rw [Heap.flushWorker] at hu
  split at hu
  · next hnone =>
      obtain ⟨w, hw, rfl⟩ := mem_stock_iff.1 hu
      rw [Heap.worker?, List.find?_eq_none] at hnone
      exact absurd (decide_eq_true hid) (hnone w hw)
  · next v hv =>
      obtain ⟨w, hw, rfl⟩ := mem_stock_iff.1 hu
      obtain ⟨w', -, rfl⟩ := mem_workers_modifyWorker hw
      split at hid
      · next heq =>
          rw [if_pos heq]
          constructor
          · exact SpanTable.get_fill _ s
          · exact SpanTable.get_fill _ s
      · next hne => exact absurd hid hne

theorem Manned.apply
    (hf : m.Manned e)
    (hy : m.Heeds e y) :
    (m.apply y).Manned (e.after y) := by
  constructor
  · intro k p hp hactive
    rcases active_of_apply hp hactive with hbefore | rfl
    · refine hy.serves (hf.serving k p hbefore hactive) ?_
      rintro rfl
      -- The end of a worker begins when it has no open scope.
      obtain ⟨s, hs, hworker, -⟩ := exists_open_of_active hbefore hactive
      exact hy.2 s hs.mem_openScopes hworker
    · exact hy.serves hy.1 Move.noConfusion
  · intro u hu hended s
    by_cases hstock : y.OfStock
    · have hothers : ∀ id, m.supplied? y = some id → (e.after y).workers = e.workers →
          u.freeLists.get s = [] ∧ u.cursors.get s = none := by
        intro id hid hsame
        rw [hsame] at hended
        have hne : u.id ≠ id := fun heq => (hf.serves hy hid).2 (heq ▸ hended)
        have hmem : u ∈ (m.apply y).heap.stockOfOthers id :=
          List.mem_filter.2 ⟨hu, decide_eq_true hne⟩
        rw [stockOfOthers_apply hid] at hmem
        exact hf.emptied u (List.mem_filter.1 hmem).1 hended s
      cases y with
      | addWorker =>
          obtain ⟨w, hw, rfl⟩ := mem_stock_iff.1 hu
          rcases List.mem_append.1 hw with hw | hw
          · exact hf.emptied _ (mem_stock_of_mem hw) hended s
          · rw [List.mem_singleton.1 hw]
            constructor
            · exact SpanTable.get_fill _ s
            · exact SpanTable.get_fill _ s
      | retireWorker id =>
          have hkept := (workers_retireWorker m id).map Worker.supplies
          exact hf.emptied u (hkept.mem hu) hended s
      | flushWorker id =>
          by_cases hid : u.id = id
          · exact emptied_flushWorker hu hid s
          · have hmem : u ∈ (m.heap.flushWorker id).2.stockOfOthers id :=
              List.mem_filter.2 ⟨hu, decide_eq_true hid⟩
            rw [stockOfOthers_flushWorker] at hmem
            exact hf.emptied u (List.mem_filter.1 hmem).1
              ((List.mem_cons.1 hended).resolve_left hid) s
      | reuse id | claim id | setCursor id | free id => exact hothers id rfl rfl
      | drainScope c =>
          obtain ⟨scope, hs⟩ := hy
          exact hothers scope.worker (by rw [supplied?, hs.post?_eq]; rfl) rfl
      | _ => cases hstock
    · rw [stock_apply hstock] at hu
      refine hf.emptied u hu ?_ s
      cases y with
      | flushWorker => exact absurd trivial hstock
      | _ => exact hended

theorem manned_start
    {memory : Nat} {c : Config}
    (hc : Heap.create memory c = .ok h) :
    (start h).Manned {} := by
  obtain ⟨-, rfl⟩ := create_eq_ok hc
  constructor
  · intro k p hp
    cases hp
  · intro u hu
    cases hu

end Machine

end EagerHeap
