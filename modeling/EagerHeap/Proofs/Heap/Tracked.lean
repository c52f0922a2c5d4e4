import EagerHeap.Proofs.Heap.Slots
/-!
# Tracked objects

What scopes track after each operation: recording fills one empty slot, draining empties the slots of
one scope and frees nothing but the objects in them, and zeroing leaves reached objects only.

Main results: `drainScope_steps_of_open`, `Tracks.of_noteTracked` and `tracks_invalidateSlots`.
-/

namespace EagerHeap

namespace Heap

variable {h h' g : Heap} {gone : Nat → Prop} {id r k l i j x y : Nat} {s t : Scope}

/-! ### Scopes that are drained -/

/-- Draining an open scope closes it, frees the objects in its slots, and makes the owner forget the
registry. -/
theorem drainScope_of_open
    (hs : h.Open k s)
    (ho : (h.ownerOf s.registry).isSome = true) :
    ∃ registry owner freed skipped, h.registries[s.registry]? = some registry ∧
      h.ownerOf s.registry = some owner ∧
      (h.drainScope k).2 =
        (((((h.closing k s).freeTracked s.worker (registry.addresses s.used)).2.deregister owner
          s.registry).count s.worker .trackedFrees freed).count s.worker .trackedSkipped
            skipped) := by
  rcases drainScope_eq hs.1 with ⟨hunowned, -⟩ | ⟨registry, owner, hreg, howner, heq⟩
  · rw [hunowned] at ho
    cases ho
  · exact ⟨registry, owner, _, _, hreg, howner, congrArg Prod.snd heq⟩

/-- What draining leaves: fewer open scopes, an empty registry without an owner, and the other
registries as they were. -/
structure Drained (h : Heap) (k : Nat) (s : Scope) (h' : Heap) : Prop where
  opened : ∀ l t, h'.Open l t → h.Open l t ∧ l ≠ k
  empty : ∀ i < s.used, h'.addrAt s.registry i = 0
  slots : ∀ r i, r ≠ s.registry ∨ s.used ≤ i → h'.addrAt r i = h.addrAt r i
  owner : ∀ r, r ≠ s.registry → h'.ownerOf r = h.ownerOf r
  knows : ∀ id r, r ≠ s.registry → h.Knows id r → h'.Knows id r

theorem addrAt_clearSlots (registry : Registry) (n i : Nat) (o : Option Nat) :
    (({ registry.clearSlots n with owner := o } : Registry).slots[i]?.map Slot.addr).getD 0 =
      if i < n then 0 else (registry.slots[i]?.map Slot.addr).getD 0 := by
  rw [Registry.clearSlots, Array.getElem?_mapIdx]
  cases registry.slots[i]? with
  | none => simp
  | some slot =>
      rw [Option.map_some, Option.map_some, Option.getD_some]
      split <;> rfl

theorem drained_closing
    (h : Heap) (k : Nat) (s : Scope) :
    h.Drained k s (h.closing k s) := by
  have haddr : ∀ i, (h.closing k s).addrAt s.registry i =
      if i < s.used then 0 else h.addrAt s.registry i := by
    intro i
    rw [addrAt, closing, getElem?_modifyRegistry, if_pos rfl, addrAt]
    cases hr : (h.modifyScope k fun scope =>
        { scope with used := 0, status := .closed }).registries[s.registry]? with
    | none =>
        rw [show h.registries[s.registry]? = none from hr]
        exact (ite_self 0).symm
    | some registry =>
        rw [show h.registries[s.registry]? = some registry from hr]
        exact addrAt_clearSlots registry s.used i none
  refine ⟨fun l t ht => ?_, fun i hi => ?_, fun r i hr => ?_, fun r hr => ?_, fun id r _ hk => hk⟩
  · exact open_ended (fun _ => ScopeStatus.noConfusion) ht
  · rw [haddr, if_pos hi]
  · by_cases heq : r = s.registry
    · have hi := hr.resolve_left fun h => h heq
      rw [heq, haddr, if_neg (Nat.not_lt.2 hi)]
    · exact addrAt_modifyRegistry_of_ne heq _
  · exact ownerOf_modifyRegistry_of_ne hr _

theorem Drained.of_holdings
    (hd : h.Drained k s g)
    (hsame : h'.holdings = g.holdings) :
    h.Drained k s h' :=
  ⟨fun l t ht => hd.opened l t ((open_of_holdings hsame).1 ht),
    fun i hi => (addrAt_of_holdings hsame).trans (hd.empty i hi),
    fun r i hr => (addrAt_of_holdings hsame).trans (hd.slots r i hr),
    fun r hr => (ownerOf_of_holdings hsame).trans (hd.owner r hr),
    fun id r hr hk => (knows_of_holdings hsame).2 (hd.knows id r hr hk)⟩

theorem Drained.deregister
    (hd : h.Drained k s g)
    (owner : Nat) :
    h.Drained k s (g.deregister owner s.registry) :=
  ⟨hd.opened, hd.empty, hd.slots, hd.owner,
    fun id r hr hk => (hd.knows id r hr hk).deregister hr owner⟩

theorem drained_drainScope
    (hs : h.Open k s)
    (ho : (h.ownerOf s.registry).isSome = true) :
    h.Drained k s (h.drainScope k).2 := by
  obtain ⟨registry, owner, freed, skipped, -, -, heq⟩ := drainScope_of_open hs ho
  rw [heq]
  have hfreed := (drained_closing h k s).of_holdings
    (holdings_freeTracked (registry.addresses s.used) (h.closing k s) s.worker)
  exact ((hfreed.deregister owner).of_holdings (holdings_count ..)).of_holdings (holdings_count ..)

theorem Scoped.drained
    (hf : h.Scoped gone)
    (hs : h.Open k s)
    (hd : h.Drained k s h') :
    h'.Scoped gone := by
  have hne : ∀ l t, h'.Open l t → h.Open l t ∧ t.registry ≠ s.registry := by
    intro l t ht
    obtain ⟨ht, hl⟩ := hd.opened l t ht
    exact ⟨ht, fun heq => hl (hf.apart l k t s ht hs heq)⟩
  refine ⟨fun l t ht => ?_, fun l m t u ht hu => ?_, fun l t ht => ?_, fun l t ht i hi => ?_,
    fun r hr hgone i => ?_⟩
  · rw [hd.owner _ (hne l t ht).2]
    exact hf.owned l t (hne l t ht).1
  · exact hf.apart l m t u (hne l t ht).1 (hne m u hu).1
  · exact hd.knows _ _ (hne l t ht).2 (hf.known l t (hne l t ht).1)
  · rw [hd.slots _ _ (Or.inl (hne l t ht).2)]
    exact hf.unused l t (hne l t ht).1 i hi
  · by_cases heq : r = s.registry
    · rw [heq]
      rcases Nat.lt_or_ge i s.used with hi | hi
      · exact hd.empty i hi
      · rw [hd.slots _ _ (Or.inr hi)]
        exact hf.unused k s hs i hi
    · rw [hd.owner r heq] at hr
      rw [hd.slots r i (Or.inl heq)]
      exact hf.blank r hr hgone i

theorem Scoped.drainScope
    (hf : h.Scoped gone)
    (hs : h.Open k s) :
    (h.drainScope k).2.Scoped gone :=
  hf.drained hs (drained_drainScope hs (hf.owned k s hs))

/-- Draining a scope frees only objects that the scope tracks. -/
theorem drainScope_steps_of_open
    (hsound : h.Sound)
    (hs : h.Open k s)
    (ho : (h.ownerOf s.registry).isSome = true) :
    Steps (fun l => l = .still ∨ ∃ i x, h.Tracks k i x ∧ l = .park x) h (h.drainScope k).2 := by
  obtain ⟨registry, owner, freed, skipped, hreg, -, heq⟩ := drainScope_of_open hs ho
  have hclosed := closing_steps h k s
  have hfreed := freeTracked_steps (registry.addresses s.used) (hclosed.sound hsound) s.worker
  rw [heq]
  refine (hclosed.mono fun l hl => Or.inl hl).trans ((hfreed.mono fun l hl => ?_).trans ?_)
  · rcases hl with rfl | ⟨x, hx, h0, rfl⟩
    · exact Or.inl rfl
    · obtain ⟨slot, hslot, rfl⟩ := List.mem_map.1 hx
      obtain ⟨i, hi⟩ := List.mem_iff_getElem?.1 (List.mem_of_mem_take hslot)
      refine Or.inr ⟨i, slot.addr, ⟨h0, s, hs, ?_⟩, rfl⟩
      rw [Array.getElem?_toList] at hi
      rw [addrAt, hreg, Option.bind_some, hi]
      rfl
  · exact ((still_deregister _ _ _).steps.trans ((still_count _ _ _ _).steps.trans
      (still_count _ _ _ _).steps)).mono fun l hl => Or.inl hl

/-! ### Slots that are zeroed -/

/-- What zeroing slots leaves alone. -/
structure Zeroes (h h' : Heap) : Prop where
  arena : h'.arena = h.arena
  scopes : h'.scopes = h.scopes
  owners : ∀ r, h'.ownerOf r = h.ownerOf r
  workers : h'.workers = h.workers
  epoch : h'.epoch = h.epoch
  lastSweep : h'.lastSweep = h.lastSweep

theorem Zeroes.trans (h₁ : h.Zeroes g) (h₂ : g.Zeroes h') : h.Zeroes h' :=
  ⟨h₂.arena.trans h₁.arena, h₂.scopes.trans h₁.scopes, fun r => (h₂.owners r).trans (h₁.owners r),
    h₂.workers.trans h₁.workers, h₂.epoch.trans h₁.epoch, h₂.lastSweep.trans h₁.lastSweep⟩

theorem getElem?_zeroSlots (h : Heap) (r j : Nat) :
    (h.zeroSlots r).2.registries[j]? =
      if j = r then h.registries[j]?.map fun registry => (registry.zeroUnless h.arena.isReached).2
      else h.registries[j]? := by
  rw [zeroSlots]
  cases hr : h.registries[r]? with
  | none =>
      by_cases hj : j = r
      · rw [if_pos hj, hj, hr]
        rfl
      · rw [if_neg hj]
  | some registry =>
      dsimp only
      rw [Array.set!_eq_setIfInBounds, Array.getElem?_setIfInBounds]
      by_cases hj : j = r
      · have hlt := (Array.getElem?_eq_some_iff.1 hr).1
        rw [if_pos hj.symm, if_pos hj, if_pos hlt, hj, hr]
        rfl
      · rw [if_neg fun h => hj h.symm, if_neg hj]

theorem addrAt_zeroSlots (h : Heap) (r j i : Nat) :
    (h.zeroSlots r).2.addrAt j i =
      if j = r ∧ h.arena.isReached (h.addrAt j i) = false then 0 else h.addrAt j i := by
  rw [addrAt, getElem?_zeroSlots]
  by_cases hj : j = r
  · rw [if_pos hj, addrAt]
    cases h.registries[j]? with
    | none => simp
    | some registry =>
        rw [Option.map_some, Option.bind_some, Option.bind_some, Registry.zeroUnless,
          Array.getElem?_map]
        cases registry.slots[i]? with
        | none => simp
        | some slot =>
            by_cases h0 : slot.addr = 0
            · simp [h0]
            · by_cases hreached : h.arena.isReached slot.addr = true <;> simp [h0, hreached, hj]
  · rw [if_neg hj, if_neg fun h => hj h.1]
    rfl

theorem zeroes_zeroSlots (h : Heap) (r : Nat) : h.Zeroes (h.zeroSlots r).2 := by
  have howner : ∀ j, (h.zeroSlots r).2.ownerOf j = h.ownerOf j := by
    intro j
    rw [ownerOf, getElem?_zeroSlots, ownerOf]
    split
    · cases h.registries[j]? <;> rfl
    · rfl
  rw [zeroSlots] at howner ⊢
  split
  · next registry hr =>
      rw [hr] at howner
      exact ⟨rfl, rfl, howner, rfl, rfl, rfl⟩
  · exact ⟨rfl, rfl, fun _ => rfl, rfl, rfl, rfl⟩

theorem zeroes_zeroSlotsOf (rs : List Nat) (h : Heap) : h.Zeroes (h.zeroSlotsOf rs).2 := by
  induction rs generalizing h with
  | nil => exact ⟨rfl, rfl, fun _ => rfl, rfl, rfl, rfl⟩
  | cons r rs ih => exact (zeroes_zeroSlots h r).trans (ih _)

theorem addrAt_zeroSlotsOf (rs : List Nat) (h : Heap) (j i : Nat) :
    (h.zeroSlotsOf rs).2.addrAt j i =
      if j ∈ rs ∧ h.arena.isReached (h.addrAt j i) = false then 0 else h.addrAt j i := by
  induction rs generalizing h with
  | nil => simp [zeroSlotsOf]
  | cons r rs ih =>
      have hrest := ih (h.zeroSlots r).2
      rw [(zeroes_zeroSlots h r).arena, addrAt_zeroSlots] at hrest
      refine hrest.trans ?_
      by_cases hzero : j = r ∧ h.arena.isReached (h.addrAt j i) = false
      · rw [if_pos hzero, ite_self, if_pos ⟨List.mem_cons.2 (Or.inl hzero.1), hzero.2⟩]
      · rw [if_neg hzero]
        refine if_congr ?_ rfl rfl
        rw [List.mem_cons]
        tauto

theorem zeroes_invalidateSlots (h : Heap) : h.Zeroes h.invalidateSlots.2 := by
  obtain ⟨h₁, h₂, h₃, h₄, h₅, h₆⟩ := zeroes_zeroSlotsOf h.knownRegistries h
  exact ⟨h₁, h₂, h₃, h₄, h₅, h₆⟩

theorem addrAt_invalidateSlots (h : Heap) (j i : Nat) :
    h.invalidateSlots.2.addrAt j i =
      if j ∈ h.knownRegistries ∧ h.arena.isReached (h.addrAt j i) = false then 0
      else h.addrAt j i :=
  addrAt_zeroSlotsOf h.knownRegistries h j i

theorem Scoped.invalidateSlots
    (hf : h.Scoped gone) :
    h.invalidateSlots.2.Scoped gone := by
  have hz := zeroes_invalidateSlots h
  refine hf.shrink (fun k s hs => ?_) (fun r => congrArg Option.isSome (hz.owners r))
    (fun r i h0 => ?_) fun k s _ hk => ?_
  · rwa [Open, hz.scopes] at hs
  · rw [addrAt_invalidateSlots, h0, ite_self]
  · rw [Knows, hz.workers]
    exact hk

/-! ### What is tracked -/

theorem Tracks.shrink
    (ht : h'.Tracks k i x)
    (hopen : ∀ k s, h'.Open k s → h.Open k s)
    (haddr : ∀ r i, h'.addrAt r i = 0 ∨ h'.addrAt r i = h.addrAt r i) :
    h.Tracks k i x := by
  obtain ⟨h0, s, hs, rfl⟩ := ht
  exact ⟨h0, s, hopen k s hs, ((haddr s.registry i).resolve_left h0).symm⟩

theorem tracks_of_holdings (hsame : h'.holdings = h.holdings) : h'.Tracks k i x ↔ h.Tracks k i x := by
  simp only [Tracks, open_of_holdings hsame, addrAt_of_holdings hsame]

theorem Tracks.of_retireWorker
    (hr : h.retireWorker id = .ok h')
    (ht : h'.Tracks k i x) :
    h.Tracks k i x := by
  rcases retireWorker_cases hr with rfl | ⟨retired, rfl⟩
  · exact ht
  · exact ht.shrink (fun _ _ hs => hs) fun _ _ => Or.inr rfl

theorem Tracks.of_dropRegistry
    (ht : (h.dropRegistry r).Tracks k i x) :
    h.Tracks k i x := by
  rw [dropRegistry] at ht
  split at ht
  · exact ht.shrink (fun _ _ hs => hs) fun q i => Or.inr (addrAt_setOwner h r none q i)
  · exact ht

theorem Tracks.of_enterScope
    (hf : h.Scoped gone)
    (hid : ∃ w ∈ h.workers, w.id = id)
    (hr : r < h.registries.size)
    (hgone : ¬ gone r)
    (ht : ((enterScope id r).run h).2.Tracks k i x) :
    h.Tracks k i x := by
  rw [enterScope_run] at ht
  split at ht
  · exact ht.shrink (fun _ _ hs => hs) fun q i => Or.inr (addrAt_setOwner h r _ q i)
  · next hfree =>
      have he : h.Entered id r (h.entering id r) := entered_entering hid hr
      change (h.entering id r).Tracks k i x at ht
      obtain ⟨h0, s, hs, haddr⟩ := ht
      rw [he.slots] at haddr
      rcases he.opened k s hs with ⟨-, rfl⟩ | hs
      · have hblank := hf.blank r (Option.not_isSome_iff_eq_none.1 hfree) hgone i
        exact absurd (haddr.symm.trans hblank) h0
      · exact ⟨h0, s, hs, haddr⟩

/-- Recording an object fills one slot that was empty. -/
theorem Tracks.of_noteTracked
    (hf : h.Scoped gone)
    (hs : h.Open k s)
    (hroom : s.used < h.registryCapacity s.registry)
    (ht : (h.noteTracked k s.registry s.used x).Tracks l j y) :
    h.Tracks l j y ∨ (l = k ∧ j = s.used ∧ y = x) := by
  obtain ⟨h0, t, hopen, haddr⟩ := ht
  -- The scope was open before, with the same registry.
  have hbefore : ∃ u, h.Open l u ∧ u.registry = t.registry := by
    rcases open_noteTracked hs hopen with ⟨rfl, rfl⟩ | ⟨-, ht⟩
    · exact ⟨s, hs, rfl⟩
    · exact ⟨t, ht, rfl⟩
  obtain ⟨u, hu, hreg⟩ := hbefore
  rw [← hreg] at haddr
  by_cases hslot : u.registry = s.registry ∧ j = s.used
  · obtain ⟨heq, rfl⟩ := hslot
    rw [heq, addrAt_noteTracked_self hroom] at haddr
    exact Or.inr ⟨hf.apart l k u s hu hs heq, rfl, haddr.symm⟩
  · rw [not_and_or] at hslot
    rw [addrAt_noteTracked_of_ne hslot] at haddr
    exact Or.inl ⟨h0, u, hu, haddr⟩

/-- Recording fills a slot of its scope that was empty, unless a sweep began since the epoch. -/
theorem Tracks.of_recordTracked
    {e : Nat}
    (hf : h.Scoped gone)
    (hs : h.Open k s)
    (ht : ((recordTracked k x e).run h).2.Tracks l j y) :
    h.Tracks l j y ∨ (l = k ∧ j = s.used ∧ y = x ∧ h.lastSweep ≤ e) := by
  rw [recordTracked_run, hs.1] at ht
  dsimp only at ht
  split at ht
  · exact Or.inl ((tracks_of_holdings (holdings_count ..)).1 ht)
  · next hroom =>
      split at ht
      · exact Or.inl ((tracks_of_holdings (holdings_count ..)).1 ht)
      · next he =>
          refine (ht.of_noteTracked hf hs (Nat.lt_of_not_le hroom)).imp_right fun hnew => ?_
          exact ⟨hnew.1, hnew.2.1, hnew.2.2, Nat.le_of_not_lt he⟩

theorem Tracks.of_drained
    (hf : h.Scoped gone)
    (hs : h.Open k s)
    (hd : h.Drained k s h')
    (ht : h'.Tracks l j x) :
    h.Tracks l j x ∧ l ≠ k := by
  obtain ⟨h0, t, hopen, rfl⟩ := ht
  obtain ⟨ht, hl⟩ := hd.opened l t hopen
  have hne : t.registry ≠ s.registry := fun heq => hl (hf.apart l k t s ht hs heq)
  exact ⟨⟨h0, t, ht, (hd.slots _ _ (Or.inl hne)).symm⟩, hl⟩

/-- After slots were zeroed, open scopes track reached objects only. -/
theorem tracks_invalidateSlots
    (hf : h.Scoped gone)
    (ht : h.invalidateSlots.2.Tracks k i x) :
    h.Tracks k i x ∧ h.arena.isReached x = true := by
  obtain ⟨h0, s, hs, haddr⟩ := ht
  rw [Open, (zeroes_invalidateSlots h).scopes] at hs
  obtain ⟨w, hw, -, hmem⟩ := hf.known k s hs
  have hknown : s.registry ∈ h.knownRegistries := List.mem_flatMap.2 ⟨w, hw, hmem⟩
  rw [addrAt_invalidateSlots] at haddr
  split at haddr
  · exact absurd haddr.symm h0
  · next hkept =>
      rw [not_and, Bool.not_eq_false] at hkept
      rw [haddr] at hkept
      exact ⟨⟨h0, s, hs, haddr⟩, hkept hknown⟩

end Heap

end EagerHeap
