import EagerHeap.Proofs.Heap.Registrations
/-!
# Room for tracked objects

A scope uses the first slots of its registry, and never more than there are. So it has an address for
every slot that it uses, and a scope that was drained uses none.

Main results: `Roomy.recordTracked`, `Roomy.drainScope` and `Roomy.length_addressesIn`.
-/

namespace EagerHeap.Heap

/-- No scope uses more slots than its registry has, and a closed scope uses none. -/
structure Roomy (h : Heap) : Prop where
  fits : ∀ (k : Nat) (s : Scope), h.scopes[k]? = some s → s.used ≤ h.registryCapacity s.registry
  closed : ∀ (k : Nat) (s : Scope), h.scopes[k]? = some s → s.status = .closed → s.used = 0

/-- The addresses in the slots that a scope uses. -/
def addressesIn (h : Heap) (s : Scope) : List Nat :=
  (h.registries[s.registry]?.map fun registry => registry.addresses s.used).getD []

variable {h h' : Heap} {id k r q x e : Nat} {s : Scope}

/-- The slots that are used have as many addresses. -/
theorem Roomy.length_addressesIn
    (hr : h.Roomy)
    (hs : h.scopes[k]? = some s) :
    (h.addressesIn s).length = s.used := by
  have hfits := hr.fits k s hs
  rw [registryCapacity] at hfits
  rw [addressesIn]
  cases hreg : h.registries[s.registry]? with
  | none =>
      rw [hreg] at hfits
      exact (Nat.le_zero.1 hfits).symm
  | some registry =>
      rw [hreg] at hfits
      rw [Option.map_some, Option.getD_some, Registry.addresses, List.length_map, List.length_take,
        Array.length_toList]
      exact Nat.min_eq_left hfits

/-! ### Capacities -/

theorem registryCapacity_of_holdings
    (hsame : h'.holdings = h.holdings) :
    h'.registryCapacity q = h.registryCapacity q := by
  rw [registryCapacity, show h'.registries = h.registries from congrArg Holdings.registries hsame]
  rfl

theorem registryCapacity_modifyRegistry
    {u : Registry → Registry}
    (hu : ∀ registry, (u registry).slots.size = registry.slots.size)
    (h : Heap) (r q : Nat) :
    (h.modifyRegistry r u).registryCapacity q = h.registryCapacity q := by
  rw [registryCapacity, registryCapacity, getElem?_modifyRegistry]
  split
  · rw [Option.map_map]
    exact congrArg (Option.getD · 0) (Option.map_congr fun registry _ => hu registry)
  · rfl

/-! ### What operations keep -/

/-- Scopes that use the same slots of registries that did not shrink. -/
theorem Roomy.mono
    (hr : h.Roomy)
    (hscopes : h'.scopes = h.scopes)
    (hcapacity : ∀ q, h.registryCapacity q ≤ h'.registryCapacity q) :
    h'.Roomy := by
  refine ⟨fun k s hs => ?_, fun k s hs => ?_⟩
  · rw [hscopes] at hs
    exact Nat.le_trans (hr.fits k s hs) (hcapacity _)
  · rw [hscopes] at hs
    exact hr.closed k s hs

/-- Scopes of registries that stay as they are. -/
theorem Roomy.of_registries
    (hr : h.Roomy)
    (hscopes : h'.scopes = h.scopes)
    (hregistries : h'.registries = h.registries) :
    h'.Roomy := by
  refine hr.mono hscopes fun q => ?_
  rw [registryCapacity, registryCapacity, hregistries]

/-- One scope changes, and it fits afterwards. -/
theorem Roomy.modifyScope
    {u : Scope → Scope}
    (hr : h.Roomy)
    (hu : ∀ s, h.scopes[k]? = some s → (u s).used ≤ h.registryCapacity (u s).registry ∧
      ((u s).status = .closed → (u s).used = 0)) :
    (h.modifyScope k u).Roomy := by
  have hscope : ∀ (l : Nat) (t : Scope), (h.modifyScope k u).scopes[l]? = some t →
      t.used ≤ h.registryCapacity t.registry ∧ (t.status = .closed → t.used = 0) := by
    intro l t ht
    rw [getElem?_modifyScope] at ht
    split at ht
    · next hl =>
        obtain ⟨s, hs, rfl⟩ := Option.map_eq_some_iff.1 ht
        exact hu s (hl ▸ hs)
    · exact ⟨hr.fits l t ht, hr.closed l t ht⟩
  exact ⟨fun l t ht => (hscope l t ht).1, fun l t ht => (hscope l t ht).2⟩

theorem Roomy.modifyRegistry
    {u : Registry → Registry}
    (hr : h.Roomy)
    (hu : ∀ registry, (u registry).slots.size = registry.slots.size) :
    (h.modifyRegistry r u).Roomy :=
  hr.mono rfl fun q => (registryCapacity_modifyRegistry hu h r q).ge

theorem Roomy.makeRegistry
    (hr : h.Roomy)
    (n : Nat) :
    (h.makeRegistry n).2.Roomy := by
  refine hr.mono rfl fun q => ?_
  rw [registryCapacity, registryCapacity, Heap.makeRegistry, Array.getElem?_push]
  split
  · next hq =>
      rw [hq, Array.getElem?_eq_none (Nat.le_refl _)]
      exact Nat.zero_le _
  · exact Nat.le_refl _

theorem Roomy.enterScope
    (hr : h.Roomy)
    (id r : Nat) :
    ((Heap.enterScope id r).run h).2.Roomy := by
  have howned : (h.setOwner r (some id)).Roomy := hr.modifyRegistry fun _ => rfl
  rw [enterScope_run]
  split
  · exact howned
  · have hscope : ∀ (k : Nat) (s : Scope),
        (h.scopes.push { worker := id, registry := r })[k]? = some s →
        h.scopes[k]? = some s ∨ s.used = 0 := by
      intro k s hs
      rw [Array.getElem?_push] at hs
      split at hs
      · exact Or.inr ((Option.some.inj hs) ▸ rfl)
      · exact Or.inl hs
    refine ⟨fun k s hs => ?_, fun k s hs hclosed => ?_⟩
    · rcases hscope k s hs with hs | hzero
      · exact howned.fits k s hs
      · rw [hzero]
        exact Nat.zero_le _
    · exact (hscope k s hs).elim (fun hs => hr.closed k s hs hclosed) fun hzero => hzero

theorem Roomy.dropRegistry
    (hr : h.Roomy)
    (r : Nat) :
    (h.dropRegistry r).Roomy := by
  rw [Heap.dropRegistry]
  split
  · have howned : (h.setOwner r none).Roomy := hr.modifyRegistry fun _ => rfl
    exact howned.of_registries rfl rfl
  · exact hr

theorem Roomy.recordTracked
    (hr : h.Roomy)
    (hs : h.Open k s)
    (x e : Nat) :
    ((Heap.recordTracked k x e).run h).2.Roomy := by
  rw [recordTracked_run, hs.1]
  dsimp only
  split
  · exact hr.of_registries rfl rfl
  · next hroom =>
      split
      · exact hr.of_registries rfl rfl
      · have hsize : ∀ registry : Registry,
            (registry.setSlot s.used ⟨x, h.epoch⟩).slots.size = registry.slots.size := fun _ =>
          Array.size_setIfInBounds
        refine (hr.modifyRegistry hsize).modifyScope fun t ht => ?_
        obtain rfl := Option.some.inj (hs.1.symm.trans ht)
        rw [registryCapacity_modifyRegistry hsize]
        refine ⟨Nat.not_le.1 hroom, fun hclosed => ?_⟩
        cases hs.2.symm.trans hclosed

theorem Roomy.leakScope
    (hr : h.Roomy)
    (k : Nat) :
    (h.leakScope k).Roomy :=
  hr.modifyScope fun s hs => ⟨hr.fits k s hs, fun hleaked => ScopeStatus.noConfusion hleaked⟩

theorem registryCapacity_drainScope (h : Heap) (k q : Nat) :
    (h.drainScope k).2.registryCapacity q = h.registryCapacity q := by
  rcases drainScope_cases h k with ⟨-, heq⟩ | ⟨s, -, heq | ⟨registry, owner, _, _, heq⟩⟩
  · rw [heq]
  · rw [heq]
    rfl
  · rw [heq]
    have hfreed := registryCapacity_of_holdings (q := q)
      (holdings_freeTracked (registry.addresses s.used) (h.closing k s) s.worker)
    have hcleared : ∀ registry : Registry,
        (registry.clearSlots s.used).slots.size = registry.slots.size := fun _ => Array.size_mapIdx
    exact hfreed.trans (registryCapacity_modifyRegistry
      (u := fun registry => { registry.clearSlots s.used with owner := none }) hcleared
      (h.modifyScope k fun scope => { scope with used := 0, status := .closed }) s.registry q)

theorem Roomy.drainScope
    (hr : h.Roomy)
    (k : Nat) :
    (h.drainScope k).2.Roomy := by
  have hclosed : (h.modifyScope k fun scope => { scope with used := 0, status := .closed }).Roomy :=
    hr.modifyScope fun s _ => ⟨Nat.zero_le _, fun _ => rfl⟩
  exact hclosed.mono (scopes_drainScope h k) fun q => (registryCapacity_drainScope h k q).ge

/-- A closed scope whose registry names no owner was drained for good. -/
theorem Roomy.drainScope_of_closed
    (hr : h.Roomy)
    (hs : h.scopes[k]? = some s)
    (hclosed : s.status = .closed)
    (ho : h.ownerOf s.registry = none) :
    h.drainScope k = (0, h) := by
  have hsame : h.scopes.modify k (fun scope => { scope with used := 0, status := .closed }) =
      h.scopes := by
    refine Array.ext_getElem? fun l => ?_
    rw [Array.getElem?_modify]
    split
    · next hl =>
        obtain rfl := hl
        rw [hs, Option.map_some, ← hclosed, ← hr.closed k s hs hclosed]
    · rfl
  have hended : h.modifyScope k (fun scope => { scope with used := 0, status := .closed }) = h :=
    congrArg (fun scopes => { h with scopes }) hsame
  rcases drainScope_eq hs with ⟨-, heq⟩ | ⟨-, owner, -, howner, -⟩
  · rw [heq, hended]
  · rw [ho] at howner
    cases howner

theorem registryCapacity_zeroSlotsOf (rs : List Nat) (h : Heap) (q : Nat) :
    (h.zeroSlotsOf rs).2.registryCapacity q = h.registryCapacity q := by
  induction rs generalizing h with
  | nil => rfl
  | cons r rs ih =>
      refine (ih (h.zeroSlots r).2).trans ?_
      rw [registryCapacity, registryCapacity, getElem?_zeroSlots]
      split
      · rw [Option.map_map]
        exact congrArg (Option.getD · 0) (Option.map_congr fun registry _ => Array.size_map)
      · rfl

theorem Roomy.invalidateSlots
    (hr : h.Roomy) :
    h.invalidateSlots.2.Roomy :=
  hr.mono (zeroes_invalidateSlots h).scopes fun q =>
    (registryCapacity_zeroSlotsOf h.knownRegistries h q).ge

end EagerHeap.Heap
