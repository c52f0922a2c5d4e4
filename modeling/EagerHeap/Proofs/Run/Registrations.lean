import EagerHeap.Proofs.Heap.Registrations
import EagerHeap.Proofs.Run.Attendance
import EagerHeap.Proofs.Run.Clients
/-!
# What moves do to registrations

A scope that is entered registers its registry with its worker. The end of a scope makes the owner of the
registry forget it, and a scope that is refused makes its worker the owner. `Registers` says what each
move does to the owners of registries, to the scopes that they back and to what workers know. A registry
names an owner exactly while it backs a scope.

Main results: `Enrolled.registers` and `Enrolled.apply`.
-/

namespace EagerHeap

/-- The worker and the registry of a scope that a move enters. -/
def Move.enters? : Move → Option (Nat × Nat)
  | .enterScope id r => some (id, r)
  | _ => none

namespace Machine

variable {m : Machine} {e : Ends} {y : Move} {id k r d : Nat} {p : Post}
  {memory : Nat} {c : Config} {h : Heap}

open Heap

/-- The registry was not dropped, and it backs an open or leaked scope of the worker. -/
def Backs (m : Machine) (e : Ends) (r id : Nat) : Prop := r ∉ e.registries ∧ m.heap.Backs r id

instance decidableBacks (m : Machine) (e : Ends) (r id : Nat) : Decidable (m.Backs e r id) :=
  inferInstanceAs (Decidable (r ∉ e.registries ∧ m.heap.Backs r id))

/-- The registry whose scope a move ends, if it backs one. -/
def closes? (m : Machine) : Move → Option Nat
  | .drainScope k => (m.heap.post? k).map Post.registry
  | .dropRegistry r => some r
  | _ => none

/-! ### Numbers of workers -/

/-- Only a worker that is added gets the next number. -/
theorem nextWorker_apply
    (hy : y ≠ .addWorker) :
    (m.apply y).heap.nextWorker = m.heap.nextWorker := by
  by_cases hclients : y.OfClients
  · cases y with
    | flushWorker id => exact nextWorker_flushWorker m.heap id
    | retireWorker id =>
        refine apply_retireWorker (R := fun g => g.nextWorker = m.heap.nextWorker) rfl fun g hr => ?_
        rcases retireWorker_cases hr with rfl | ⟨retired, rfl⟩ <;> rfl
    | reuse id s => exact nextWorker_reuse m.heap id s
    | claim id s => exact nextWorker_claim m.heap id s
    | free id addr size shape => exact nextWorker_free m.heap id addr size shape
    | dropRegistry r =>
        rw [Machine.apply, Machine.heapAfter, Heap.dropRegistry]
        split <;> rfl
    | enterScope id r =>
        rw [Machine.apply, Machine.heapAfter, enterScope_run]
        split <;> rfl
    | recordTracked c x t =>
        rw [Machine.apply, Machine.heapAfter, recordTracked_run]
        split
        · rfl
        · split
          · rfl
          · split <;> rfl
    | drainScope c => exact nextWorker_drainScope m.heap c
    | zeroSlots => exact (workers_invalidateSlots m.heap).2
    | count | setCursor | makeRegistry | leakScope | begin | terminate | enterSweep | finish => rfl
    | addWorker => exact absurd rfl hy
    | _ => cases hclients
  · exact nextWorker_of_clients (clients_apply hclients)

/-! ### What a move does to registrations -/

/-- What a move does to the owners of registries, to the scopes that they back and to what workers
know. -/
inductive Registers (m : Machine) (e : Ends) (y : Move) : Prop
  /-- A scope is entered. -/
  | entered (id r : Nat) (henter : y.enters? = some (id, r)) (hclose : m.closes? y = none)
      (hkept : r ∉ e.registries) (hnone : m.heap.ownerOf r = none)
      (howner : ∀ q, (m.apply y).heap.ownerOf q = if q = r then some id else m.heap.ownerOf q)
      (hbacks : ∀ q d, (m.apply y).Backs (e.after y) q d ↔ m.Backs e q d ∨ q = r ∧ d = id)
      (hknown : (m.apply y).heap.holdings.known =
        m.heap.holdings.known.map fun p => if p.1 = id then (p.1, r :: p.2) else p)
  /-- A scope is refused. -/
  | refused (id r : Nat) (henter : y.enters? = some (id, r)) (hclose : m.closes? y = none)
      (hkept : r ∉ e.registries) (hsome : (m.heap.ownerOf r).isSome = true)
      (howner : ∀ q, (m.apply y).heap.ownerOf q = if q = r then some id else m.heap.ownerOf q)
      (hbacks : ∀ q d, (m.apply y).Backs (e.after y) q d ↔ m.Backs e q d)
      (hknown : (m.apply y).heap.holdings.known = m.heap.holdings.known)
  /-- A scope ends or a registry is dropped. -/
  | ended (r : Nat) (henter : y.enters? = none) (hclose : m.closes? y = some r)
      (hkept : r ∉ e.registries)
      (howner : ∀ q, (m.apply y).heap.ownerOf q = if q = r then none else m.heap.ownerOf q)
      (hbacks : ∀ q d, (m.apply y).Backs (e.after y) q d ↔ m.Backs e q d ∧ q ≠ r)
      (hknown : (m.apply y).heap.holdings.known = m.heap.holdings.known.map (m.heap.forgets r))
  /-- No scope is entered or ends; a worker may come or leave. -/
  | quiet (henter : y.enters? = none) (hclose : m.closes? y = none)
      (howner : ∀ q, (m.apply y).heap.ownerOf q = m.heap.ownerOf q)
      (hbacks : ∀ q d, (m.apply y).Backs (e.after y) q d ↔ m.Backs e q d)
      (hknown : ∀ p ∈ (m.apply y).heap.holdings.known,
        p ∈ m.heap.holdings.known ∨ p = (m.heap.nextWorker, []))

/-- A registry names an owner exactly while it backs an open or leaked scope, and it backs one at most.
A registry that was dropped backs no open scope. -/
structure Enrolled (m : Machine) (e : Ends) : Prop where
  owner : ∀ r, (m.heap.ownerOf r).isSome = true ↔ ∃ id, m.Backs e r id
  apart : ∀ k l p q, m.heap.post? k = some p → m.heap.post? l = some q → p.status ≠ .closed →
    q.status ≠ .closed → p.registry = q.registry → k = l
  kept : ∀ k p, m.heap.post? k = some p → p.status = .active → p.registry ∉ e.registries
  known : ∀ k p, m.heap.post? k = some p → p.worker < m.heap.nextWorker

theorem Backs.of_post
    (hp : m.heap.post? k = some p)
    (hst : p.status ≠ .closed)
    (hkept : p.registry ∉ e.registries) :
    m.Backs e p.registry p.worker :=
  ⟨hkept, backs_iff.2 ⟨k, p, hp, rfl, rfl, hst⟩⟩

theorem Backs.exists_post
    (hb : m.Backs e r id) :
    ∃ k p, m.heap.post? k = some p ∧ p.registry = r ∧ p.worker = id ∧ p.status ≠ .closed :=
  backs_iff.1 hb.2

theorem backs_of_posts
    (hposts : ∀ k, (m.apply y).heap.post? k = m.heap.post? k)
    (hends : (e.after y).registries = e.registries)
    (q d : Nat) :
    (m.apply y).Backs (e.after y) q d ↔ m.Backs e q d := by
  rw [Backs, Backs, hends, backs_iff, backs_iff]
  simp only [hposts]

theorem registers_enterScope
    (hy : m.Heeds e (.enterScope id r)) :
    m.Registers e (.enterScope id r) := by
  obtain ⟨-, hr, hkept⟩ := hy
  have hposts : ∀ k, (m.apply (.enterScope id r)).heap.post? k =
      if m.heap.ownerOf r = none ∧ k = m.heap.scopes.size then some ⟨id, r, .active⟩
      else m.heap.post? k := post?_enterScope m.heap id r
  have hknown : (m.apply (.enterScope id r)).heap.holdings.known = _ :=
    known_enterScope m.heap id r
  cases ho : m.heap.ownerOf r with
  | none =>
      rw [if_pos ho] at hknown
      refine .entered id r rfl rfl hkept ho (ownerOf_enterScope hr id) (fun q d => ?_) hknown
      have hnew : m.heap.post? m.heap.scopes.size = none := by
        rw [post?, Array.getElem?_eq_none (Nat.le_refl _)]
        rfl
      constructor
      · intro hb
        obtain ⟨k, p, hp, rfl, rfl, hst⟩ := hb.exists_post
        rw [hposts] at hp
        split at hp
        · cases hp
          exact Or.inr ⟨rfl, rfl⟩
        · exact Or.inl (.of_post hp hst hb.1)
      · rintro (hb | ⟨rfl, rfl⟩)
        · obtain ⟨k, p, hp, rfl, rfl, hst⟩ := hb.exists_post
          refine .of_post (k := k) ?_ hst hb.1
          rw [hposts, if_neg, hp]
          rintro ⟨-, rfl⟩
          rw [hnew] at hp
          cases hp
        · refine Backs.of_post (k := m.heap.scopes.size) (p := ⟨d, q, .active⟩) ?_
            ScopeStatus.noConfusion hkept
          rw [hposts, if_pos ⟨ho, rfl⟩]
  | some o =>
      rw [if_neg (by rw [ho]; exact Option.some_ne_none o)] at hknown
      refine .refused id r rfl rfl hkept (by rw [ho]; rfl) (ownerOf_enterScope hr id) ?_ hknown
      refine backs_of_posts (fun k => ?_) rfl
      rw [hposts, if_neg]
      rw [ho]
      exact fun hcase => Option.some_ne_none o hcase.1

theorem Enrolled.registers_drainScope
    (hm : m.Enrolled e)
    (hy : m.Heeds e (.drainScope k)) :
    m.Registers e (.drainScope k) := by
  obtain ⟨s, hs⟩ := hy
  have hpost := hs.post?_eq
  have hposts : ∀ l, (m.apply (.drainScope k)).heap.post? l =
      if l = k then (m.heap.post? l).map fun p => { p with status := .closed }
      else m.heap.post? l := post?_drainScope m.heap k
  refine .ended s.registry rfl ?_ (hm.kept k _ hpost rfl) (ownerOf_drainScope hs) (fun q d => ?_)
    (known_drainScope hs)
  · rw [closes?, hpost]
    rfl
  · constructor
    · intro hb
      obtain ⟨l, p, hp, rfl, rfl, hst⟩ := hb.exists_post
      rw [hposts] at hp
      split at hp
      · obtain ⟨p', -, rfl⟩ := Option.map_eq_some_iff.1 hp
        exact absurd rfl hst
      · next hl =>
          refine ⟨.of_post hp hst hb.1, fun hreg => hl ?_⟩
          exact hm.apart l k p _ hp hpost hst ScopeStatus.noConfusion hreg
    · rintro ⟨hb, hreg⟩
      obtain ⟨l, p, hp, rfl, rfl, hst⟩ := hb.exists_post
      refine .of_post (k := l) ?_ hst hb.1
      rw [hposts, if_neg, hp]
      rintro rfl
      rw [hpost] at hp
      obtain rfl := Option.some.inj hp
      exact hreg rfl

theorem registers_dropRegistry
    (hy : m.Heeds e (.dropRegistry r)) :
    m.Registers e (.dropRegistry r) := by
  refine .ended r rfl rfl hy.2.1 (ownerOf_dropRegistry m.heap r) (fun q d => ?_)
    (known_dropRegistry m.heap r)
  have hsame : (m.apply (.dropRegistry r)).heap.Backs q d ↔ m.heap.Backs q d := by
    have hposts : ∀ k, (m.apply (.dropRegistry r)).heap.post? k = m.heap.post? k :=
      post?_dropRegistry m.heap r
    rw [backs_iff, backs_iff]
    simp only [hposts]
  rw [Backs, Backs, hsame]
  change q ∉ r :: e.registries ∧ _ ↔ _
  rw [List.mem_cons, not_or]
  tauto

theorem registers_leakScope
    (hy : m.Heeds e (.leakScope k)) :
    m.Registers e (.leakScope k) := by
  obtain ⟨s, hs⟩ := hy
  have hpost := hs.post?_eq
  have hposts : ∀ l, (m.apply (.leakScope k)).heap.post? l =
      if l = k then (m.heap.post? l).map fun p => { p with status := .leaked }
      else m.heap.post? l := post?_leakScope m.heap k
  refine .quiet rfl rfl (fun _ => rfl) (fun q d => ?_) fun p hp => Or.inl hp
  constructor
  · intro hb
    obtain ⟨l, p, hp, rfl, rfl, hst⟩ := hb.exists_post
    rw [hposts] at hp
    split at hp
    · next hl =>
        obtain ⟨p', hp', rfl⟩ := Option.map_eq_some_iff.1 hp
        rw [hl, hpost] at hp'
        obtain rfl := Option.some.inj hp'
        exact Backs.of_post (p := ⟨s.worker, s.registry, .active⟩) hpost ScopeStatus.noConfusion hb.1
    · exact .of_post hp hst hb.1
  · intro hb
    obtain ⟨l, p, hp, rfl, rfl, hst⟩ := hb.exists_post
    by_cases hl : l = k
    · refine Backs.of_post (k := l) (p := { p with status := .leaked }) ?_ ScopeStatus.noConfusion
        hb.1
      rw [hposts, if_pos hl, hp]
      rfl
    · refine .of_post (k := l) ?_ hst hb.1
      rw [hposts, if_neg hl, hp]

/-- Every move that the owners keep to enters a scope, is refused one, ends one, or has nothing to do
with registrations. -/
theorem Enrolled.registers
    (hm : m.Enrolled e)
    (hy : m.Heeds e y) :
    m.Registers e y := by
  by_cases hscopes : y.OfScopes
  · cases y with
    | enterScope id r => exact registers_enterScope hy
    | drainScope k => exact hm.registers_drainScope hy
    | dropRegistry r => exact registers_dropRegistry hy
    | leakScope k => exact registers_leakScope hy
    | addWorker =>
        refine .quiet rfl rfl (fun _ => rfl) (backs_of_posts (post?_apply m _) rfl) fun p hp => ?_
        obtain ⟨w, hw, rfl⟩ := List.mem_map.1 hp
        rcases List.mem_append.1 hw with hw | hw
        · exact Or.inl (List.mem_map_of_mem hw)
        · rw [List.mem_singleton.1 hw]
          exact Or.inr rfl
    | retireWorker id =>
        refine .quiet rfl rfl (fun q => ?_) (backs_of_posts (post?_apply m _) rfl) fun p hp => ?_
        · refine apply_retireWorker (R := fun g => g.ownerOf q = m.heap.ownerOf q) rfl fun g hr => ?_
          rcases retireWorker_cases hr with rfl | ⟨retired, rfl⟩ <;> rfl
        · have hkept := (workers_retireWorker m id).map fun w => (w.id, w.registries)
          exact Or.inl (hkept.mem hp)
    | makeRegistry n =>
        exact .quiet rfl rfl (ownerOf_makeRegistry m.heap n) (backs_of_posts (post?_apply m _) rfl)
          fun p hp => Or.inl hp
    | recordTracked c x t =>
        refine .quiet rfl rfl (ownerOf_recordTracked m.heap c x t)
          (backs_of_posts (post?_apply m _) rfl) fun p hp => Or.inl ?_
        rwa [show (m.apply (.recordTracked c x t)).heap.holdings.known = m.heap.holdings.known from
          known_recordTracked m.heap c x t] at hp
    | zeroSlots =>
        have hz := zeroes_invalidateSlots m.heap
        refine .quiet rfl rfl hz.owners (backs_of_posts (post?_apply m _) rfl) fun p hp => Or.inl ?_
        rwa [show (m.apply .zeroSlots).heap.holdings.known = m.heap.holdings.known from
          congrArg (List.map fun w : Worker => (w.id, w.registries)) hz.workers] at hp
    | begin | terminate | enterSweep | finish =>
        exact .quiet rfl rfl (fun _ => rfl) (backs_of_posts (post?_apply m _) rfl)
          fun p hp => Or.inl hp
    | _ => cases hscopes
  · have hsame := holdings_apply (m := m) hscopes
    refine .quiet ?_ ?_ (fun q => ownerOf_of_holdings hsame) ?_ fun p hp => ?_
    · cases y with
      | enterScope => exact absurd trivial hscopes
      | _ => rfl
    · cases y with
      | drainScope | dropRegistry => exact absurd trivial hscopes
      | _ => rfl
    · refine backs_of_posts (fun k => post?_of_holdings hsame k) ?_
      cases y with
      | dropRegistry => exact absurd trivial hscopes
      | _ => rfl
    · rw [hsame] at hp
      exact Or.inl hp

/-! ### Owners and scopes in a run -/

/-- A post after a move was there before, or a scope was entered. -/
theorem post_of_apply
    (hy : m.Heeds e y)
    (hp : (m.apply y).heap.post? k = some p) :
    (∃ p', m.heap.post? k = some p' ∧ p'.registry = p.registry ∧ p'.worker = p.worker ∧
        (p.status ≠ .closed → p'.status ≠ .closed)) ∨
      y = .enterScope p.worker p.registry ∧ m.heap.ownerOf p.registry = none ∧
        k = m.heap.scopes.size := by
  rw [post?_apply] at hp
  cases y with
  | enterScope id r =>
      rw [postAfter] at hp
      split at hp
      · next hnew =>
          cases hp
          exact Or.inr ⟨rfl, hnew⟩
      · exact Or.inl ⟨p, hp, rfl, rfl, fun hst => hst⟩
  | drainScope l =>
      rw [postAfter] at hp
      split at hp
      · obtain ⟨p', hp', rfl⟩ := Option.map_eq_some_iff.1 hp
        exact Or.inl ⟨p', hp', rfl, rfl, fun hst => absurd rfl hst⟩
      · exact Or.inl ⟨p, hp, rfl, rfl, fun hst => hst⟩
  | leakScope l =>
      rw [postAfter] at hp
      split at hp
      · next hl =>
          obtain ⟨p', hp', rfl⟩ := Option.map_eq_some_iff.1 hp
          obtain ⟨s, hs⟩ := hy
          refine Or.inl ⟨p', hp', rfl, rfl, fun _ => ?_⟩
          rw [hl, hs.post?_eq] at hp'
          rw [← Option.some.inj hp']
          exact ScopeStatus.noConfusion
      · exact Or.inl ⟨p, hp, rfl, rfl, fun hst => hst⟩
  | _ => exact Or.inl ⟨p, hp, rfl, rfl, fun hst => hst⟩

/-- A registry without an owner backs no scope. -/
theorem Enrolled.not_backs
    (hm : m.Enrolled e)
    (hnone : m.heap.ownerOf r = none)
    (id : Nat) :
    ¬ m.Backs e r id := by
  intro hb
  have hsome := (hm.owner r).2 ⟨id, hb⟩
  rw [hnone] at hsome
  cases hsome

theorem Enrolled.owner_apply
    (hm : m.Enrolled e)
    (hy : m.Heeds e y)
    (q : Nat) :
    ((m.apply y).heap.ownerOf q).isSome = true ↔ ∃ d, (m.apply y).Backs (e.after y) q d := by
  cases hm.registers hy with
  | entered id r _ _ _ _ howner hbacks _ =>
      rw [howner]
      simp only [hbacks]
      by_cases hq : q = r
      · rw [if_pos hq]
        exact iff_of_true rfl ⟨id, Or.inr ⟨hq, rfl⟩⟩
      · rw [if_neg hq, hm.owner]
        simp only [hq, false_and, or_false]
  | refused id r _ _ _ hsome howner hbacks _ =>
      rw [howner]
      simp only [hbacks]
      by_cases hq : q = r
      · rw [if_pos hq, hq]
        exact iff_of_true rfl ((hm.owner r).1 hsome)
      · rw [if_neg hq, hm.owner]
  | ended r _ _ _ howner hbacks _ =>
      rw [howner]
      simp only [hbacks]
      by_cases hq : q = r
      · rw [if_pos hq]
        exact iff_of_false Bool.false_ne_true fun ⟨_, _, hne⟩ => hne hq
      · rw [if_neg hq, hm.owner]
        simp only [ne_eq, hq, not_false_eq_true, and_true]
  | quiet _ _ howner hbacks _ =>
      rw [howner, hm.owner]
      simp only [hbacks]

theorem Enrolled.apply
    (hm : m.Enrolled e)
    (hf : m.heap.Shelved)
    (hy : m.Heeds e y) :
    (m.apply y).Enrolled (e.after y) where
  owner := hm.owner_apply hy
  apart := by
    -- A scope that is entered uses a registry that backed none.
    have hnew : ∀ l (p q : Post), y = .enterScope q.worker q.registry → m.heap.ownerOf q.registry = none →
        m.heap.post? l = some p → p.status ≠ .closed → p.registry ≠ q.registry := by
      rintro l p q rfl hnone hp hst hreg
      refine hm.not_backs hnone p.worker ?_
      rw [← hreg]
      refine .of_post hp hst ?_
      rw [hreg]
      exact hy.2.2
    intro k l p q hp hq hst hst' hreg
    rcases post_of_apply hy hp with ⟨p', hp', hr, -, hkept⟩ | ⟨henter, hnone, hk⟩
    · rcases post_of_apply hy hq with ⟨q', hq', hr', -, hkept'⟩ | ⟨henter, hnone, -⟩
      · exact hm.apart k l p' q' hp' hq' (hkept hst) (hkept' hst') (hr.trans (hreg.trans hr'.symm))
      · exact absurd (hr.trans hreg) (hnew k p' q henter hnone hp' (hkept hst))
    · rcases post_of_apply hy hq with ⟨q', hq', hr', -, hkept'⟩ | ⟨-, -, hl⟩
      · exact absurd (hr'.trans hreg.symm) (hnew l q' p henter hnone hq' (hkept' hst'))
      · rw [hk, hl]
  kept := by
    intro k p hp hactive
    rcases active_of_apply hp hactive with hbefore | rfl
    · have hbefore' := hm.kept k p hbefore hactive
      cases y with
      | dropRegistry r =>
          intro hmem
          refine hbefore' ((List.mem_cons.1 hmem).resolve_left fun hreg => ?_)
          obtain ⟨s, hs, -, hregistry⟩ := exists_open_of_active hbefore hactive
          exact hy.2.2 s hs.mem_openScopes (hregistry.trans hreg)
      | _ => exact hbefore'
    · exact hy.2.2
  known := by
    intro k p hp
    have hnext : m.heap.nextWorker ≤ (m.apply y).heap.nextWorker := by
      by_cases hadd : y = .addWorker
      · rw [hadd]
        exact Nat.le_succ _
      · exact (nextWorker_apply hadd).ge
    refine Nat.lt_of_lt_of_le ?_ hnext
    rcases post_of_apply hy hp with ⟨p', hp', -, hworker, -⟩ | ⟨rfl, -⟩
    · rw [← hworker]
      exact hm.known k p' hp'
    · obtain ⟨⟨w, hw, hid⟩, -⟩ := hy.1
      rw [← hid]
      exact hf.fresh w hw

theorem enrolled_start
    (hc : Heap.create memory c = .ok h) :
    (start h).Enrolled {} := by
  obtain ⟨-, rfl⟩ := create_eq_ok hc
  have hposts : ∀ k p, (start (Heap.empty c)).heap.post? k ≠ some p := fun k p hp => by cases hp
  refine ⟨fun r => ?_, fun k _ p _ hp => absurd hp (hposts k p), fun k p hp => absurd hp (hposts k p),
    fun k p hp => absurd hp (hposts k p)⟩
  refine iff_of_false Bool.false_ne_true ?_
  rintro ⟨id, hb⟩
  obtain ⟨k, p, hp, -⟩ := hb.exists_post
  exact hposts k p hp

end Machine

end EagerHeap
