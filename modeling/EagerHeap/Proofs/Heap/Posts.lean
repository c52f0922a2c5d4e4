import EagerHeap.Proofs.Heap.Stock
/-!
# The posts of scopes

The post of a scope is the worker that entered it, the registry that backs it, and what became of it.
Entering opens one post, draining and leaking end one, and nothing else changes posts.

Main results: `post?_enterScope` and `post?_drainScope`.
-/

namespace EagerHeap

/-- Who entered a scope, what backs it, and what became of it. -/
structure Post where
  /-- The worker that entered the scope. -/
  worker : Nat
  /-- The registry that backs it. -/
  registry : Nat
  /-- What became of it. -/
  status : ScopeStatus
deriving DecidableEq, Repr

/-- The post of a scope. -/
def Scope.post (s : Scope) : Post := ⟨s.worker, s.registry, s.status⟩

namespace Heap

/-- The post of the scope with a number. -/
def post? (h : Heap) (k : Nat) : Option Post := h.scopes[k]?.map Scope.post

variable {h h' : Heap} {id r k l : Nat} {s : Scope} {p : Post}

theorem post?_eq_some_iff : h.post? k = some p ↔ ∃ s, h.scopes[k]? = some s ∧ s.post = p :=
  Option.map_eq_some_iff

theorem Open.post?_eq
    (hs : h.Open k s) :
    h.post? k = some ⟨s.worker, s.registry, .active⟩ :=
  post?_eq_some_iff.2 ⟨s, hs.1, congrArg (Post.mk s.worker s.registry) hs.2⟩

/-- A post is active exactly if its scope is open. -/
theorem exists_open_iff :
    (∃ s, h.Open k s ∧ s.worker = id ∧ s.registry = r) ↔ h.post? k = some ⟨id, r, .active⟩ := by
  constructor
  · rintro ⟨s, hs, rfl, rfl⟩
    exact hs.post?_eq
  · intro hp
    obtain ⟨s, hs, hpost⟩ := post?_eq_some_iff.1 hp
    obtain ⟨rfl, rfl, hactive⟩ := Post.mk.inj hpost
    exact ⟨s, ⟨hs, hactive⟩, rfl, rfl⟩

theorem exists_open_of_active
    (hp : h.post? k = some p)
    (hactive : p.status = .active) :
    ∃ s, h.Open k s ∧ s.worker = p.worker ∧ s.registry = p.registry :=
  exists_open_iff.2 (hp.trans (congrArg (fun st => some (Post.mk p.worker p.registry st)) hactive))

theorem post?_of_scopes
    (hs : h'.scopes = h.scopes)
    (k : Nat) :
    h'.post? k = h.post? k := by
  rw [post?, hs]
  rfl

theorem post?_of_holdings
    (hsame : h'.holdings = h.holdings)
    (k : Nat) :
    h'.post? k = h.post? k :=
  post?_of_scopes (congrArg Holdings.scopes hsame) k

theorem post?_modifyScope (h : Heap) (l : Nat) (u : Scope → Scope) (k : Nat) :
    (h.modifyScope l u).post? k =
      if k = l then h.scopes[k]?.map fun s => (u s).post else h.post? k := by
  rw [post?, getElem?_modifyScope]
  split
  · rw [Option.map_map]
    rfl
  · rfl

theorem post?_leakScope (h : Heap) (l k : Nat) :
    (h.leakScope l).post? k =
      if k = l then (h.post? k).map fun p => { p with status := .leaked } else h.post? k := by
  rw [leakScope, post?_modifyScope, post?, Option.map_map]
  rfl

theorem post?_dropRegistry (h : Heap) (r k : Nat) : (h.dropRegistry r).post? k = h.post? k := by
  refine post?_of_scopes ?_ k
  rw [dropRegistry]
  split <;> rfl

theorem post?_enterScope (h : Heap) (id r k : Nat) :
    ((enterScope id r).run h).2.post? k =
      if h.ownerOf r = none ∧ k = h.scopes.size then some ⟨id, r, .active⟩ else h.post? k := by
  rw [enterScope_run]
  split
  · next hused =>
      rw [if_neg]
      · rfl
      · rintro ⟨hnone, -⟩
        rw [hnone] at hused
        cases hused
  · next hfree =>
      rw [Option.not_isSome_iff_eq_none] at hfree
      simp only [hfree, true_and]
      rw [post?, Array.getElem?_push]
      split <;> rfl

theorem post?_recordTracked (h : Heap) (c x e k : Nat) :
    ((recordTracked c x e).run h).2.post? k = h.post? k := by
  rw [recordTracked_run]
  split
  · rfl
  · split
    · rfl
    · split
      · rfl
      · rw [noteTracked, post?_modifyScope]
        split
        · rfl
        · rfl

/-- Draining closes the scope, and the others stay as they are. -/
theorem scopes_drainScope (h : Heap) (k : Nat) :
    (h.drainScope k).2.scopes =
      (h.modifyScope k fun scope => { scope with used := 0, status := .closed }).scopes := by
  rcases drainScope_cases h k with
    ⟨hnone, heq⟩ | ⟨s, -, heq | ⟨registry, owner, _, _, heq⟩⟩
  · rw [heq]
    refine Array.ext_getElem? fun l => ?_
    rw [getElem?_modifyScope]
    split
    · next hl => rw [hl, hnone, Option.map_none]
    · rfl
  · rw [heq]
  · rw [heq]
    exact congrArg Holdings.scopes
      (holdings_freeTracked (registry.addresses s.used) (h.closing k s) s.worker)

theorem post?_drainScope (h : Heap) (c k : Nat) :
    (h.drainScope c).2.post? k =
      if k = c then (h.post? k).map fun p => { p with status := .closed } else h.post? k := by
  rw [post?_of_scopes (scopes_drainScope h c), post?_modifyScope, post?, Option.map_map]
  rfl

end Heap

end EagerHeap
