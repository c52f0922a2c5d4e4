import EagerHeap.Proofs.Heap.FreeCells
/-!
# Claiming cells and moving on

A worker claims the first free cell that its cursor has not passed. If there is none, the cursor may
leave the block: whoever found a free cell through it finds the cell otherwise. The block to which the
cursor moves was offered, or it is new.

Main results: `freeCell_claim`, `Supplied.claim` and `Supplied.obtains`.
-/

namespace EagerHeap

/-- The search finds the first free cell. -/
theorem Block.firstFree_le
    {cells : Array Header} {i j k n : Nat}
    (h : firstFree cells i n = some j)
    (hik : i ≤ k)
    (hk : cells[k]?.any (·.state = .free) = true) :
    j ≤ k := by
  induction n generalizing i with
  | zero => cases h
  | succ n ih =>
      rw [firstFree] at h
      split at h
      · cases h
        exact hik
      · next hnot =>
          have hne : i ≠ k := by
            rintro rfl
            exact hnot hk
          exact ih h (by omega)

namespace Heap

variable {h g : Heap} {b i j id other : Nat} {s t : Span} {k k' : Cursor}

/-! ### Cursors of single workers -/

theorem claims_of_worker?
    {w : Worker}
    (hw : h.worker? id = some w)
    (hk : w.cursors.get s = some k) :
    h.Claims id s k := by
  obtain ⟨hmem, hid⟩ := worker?_eq_some hw
  exact ⟨w.supplies, mem_stock_of_mem hmem, hid, hk⟩

/-- A worker has one cursor for a span. -/
theorem Claims.worker?
    (hk : h.Claims id s k)
    (hf : h.Shelved) :
    ∃ w, h.worker? id = some w ∧ w.cursors.get s = some k := by
  obtain ⟨u, hu, rfl, hget⟩ := hk
  obtain ⟨w, hw, rfl⟩ := mem_stock_iff.1 hu
  exact ⟨w, hf.worker?_eq hw, hget⟩

theorem Claims.unique
    (hk : h.Claims id s k)
    (hf : h.Shelved)
    (hk' : h.Claims id s k') :
    k = k' := by
  obtain ⟨w, hw, hget⟩ := hk.worker? hf
  obtain ⟨w', hw', hget'⟩ := hk'.worker? hf
  obtain rfl := Option.some.inj (hw.symm.trans hw')
  exact Option.some.inj (hget.symm.trans hget')

theorem claims_setCursor_self
    (hid : ∃ w ∈ h.workers, w.id = id)
    (s : Span) (k : Cursor) :
    (h.setCursor id s k).Claims id s k := by
  obtain ⟨w, hw, rfl⟩ := hid
  refine ⟨_, mem_stock_of_mem (List.mem_map_of_mem hw), ?_, ?_⟩
  · rw [if_pos rfl]
    rfl
  · rw [if_pos rfl]
    exact SpanTable.get_set_self ..

/-- Moving a cursor leaves all other cursors. -/
theorem claims_setCursor_of_ne
    (hk : h.Claims other t k)
    (hne : ¬ (other = id ∧ t = s))
    (k' : Cursor) :
    (h.setCursor id s k').Claims other t k := by
  obtain ⟨u, hu, rfl, hget⟩ := hk
  obtain ⟨w, hw, rfl⟩ := mem_stock_iff.1 hu
  refine ⟨_, mem_stock_of_mem (List.mem_map_of_mem hw), ?_, ?_⟩
  · split <;> rfl
  · split
    · next hid =>
        refine (SpanTable.get_set_of_ne _ _ fun ht => hne ⟨hid, ht⟩).trans ?_
        exact hget
    · exact hget

/-- A cursor is where it was before another cursor moved. -/
theorem Claims.of_setCursor
    (hk : (h.setCursor id s k').Claims other t k) :
    (other = id ∧ t = s ∧ k = k') ∨ h.Claims other t k := by
  obtain ⟨u, hu, rfl, hget⟩ := hk
  obtain ⟨v, hv, rfl⟩ := mem_stock_iff.1 hu
  obtain ⟨w, hw, rfl⟩ := mem_workers_modifyWorker hv
  split at hget
  · next hid =>
      by_cases ht : t = s
      · subst ht
        rw [if_pos hid]
        exact Or.inl ⟨hid, rfl, Option.some.inj (hget.symm.trans (SpanTable.get_set_self ..))⟩
      · refine Or.inr ⟨w.supplies, mem_stock_of_mem hw, ?_, ?_⟩
        · rw [if_pos hid]
          rfl
        · exact (SpanTable.get_set_of_ne _ _ ht).symm.trans hget
  · next hid =>
      rw [if_neg hid]
      exact Or.inr ⟨w.supplies, mem_stock_of_mem hw, rfl, hget⟩

/-! ### Claiming -/

/-- A cursor has passed all free cells of its block if its worker can claim none. -/
theorem lt_of_claimable?_eq_none
    (hf : h.Shelved)
    (hnone : h.claimable? id s = none)
    (hk : h.Claims id s k)
    (hc : h.FreeCell s k.block i) :
    i < k.cell := by
  obtain ⟨w, hw, hget⟩ := hk.worker? hf
  obtain ⟨hspan, hd, hhd, hst⟩ := hc
  obtain ⟨block, hblock, hcell⟩ := Option.bind_eq_some_iff.1 hhd
  rw [claimable?, hw] at hnone
  simp only [Option.bind_eq_bind, Option.bind_some, hget, hblock] at hnone
  refine Nat.lt_of_not_le fun hle => ?_
  cases block with
  | large g n a => exact hspan.not_hasRun (Arena.hasRun_of_getElem? hblock)
  | small r cells q =>
      have hfree : Block.firstFree cells k.cell (cells.size - k.cell) = none := by
        cases hfirst : (Block.small r cells q).freeCell? k.cell with
        | none => exact hfirst
        | some j =>
            rw [hfirst] at hnone
            cases hnone
      have hlt : i < cells.size := (Array.getElem?_eq_some_iff.1 hcell).1
      have hany := Block.firstFree_eq_none_iff.1 hfree i hle (by omega)
      rw [show cells[i]? = some hd from hcell] at hany
      simp [hst] at hany

/-- A worker claims the first free cell that its cursor has not passed. -/
theorem claimable?_first
    (hc : h.claimable? id s = some (b, j)) :
    ∃ k, h.Claims id s k ∧ k.block = b ∧ k.cell ≤ j ∧
      ∀ i, h.FreeCell s b i → k.cell ≤ i → j ≤ i := by
  rw [claimable?] at hc
  obtain ⟨w, hw, hc⟩ := Option.bind_eq_some_iff.1 hc
  obtain ⟨k, hk, hc⟩ := Option.bind_eq_some_iff.1 hc
  obtain ⟨block, hblock, hc⟩ := Option.bind_eq_some_iff.1 hc
  obtain ⟨cell, hcell, hc⟩ := Option.bind_eq_some_iff.1 hc
  cases hc
  cases block with
  | large g n a => cases hcell
  | small r cells q =>
      refine ⟨k, claims_of_worker? hw hk, rfl, (Block.firstFree_eq_some hcell).1, ?_⟩
      rintro i ⟨hspan, hd, hhd, hst⟩ hle
      rw [Arena.header?, hblock] at hhd
      refine Block.firstFree_le hcell hle ?_
      rw [show cells[i]? = some hd from hhd]
      exact decide_eq_true hst

/-- The supplies after a claim are those after the cursor of the worker has passed the cell. -/
theorem stock_claim
    (hc : h.claimable? id s = some (b, j)) :
    (h.claim id s).2.stock = (h.setCursor id s ⟨b, j + 1⟩).stock := by
  rw [claim, hc]
  dsimp only
  rw [stock_count, stock_noteAllocation, stock_publish]

/-- A cursor after a claim was at the same block before, and it had not come further. -/
theorem Claims.of_claim
    (hk : (h.claim id s).2.Claims other t k) :
    ∃ k', h.Claims other t k' ∧ k'.block = k.block ∧ k'.cell ≤ k.cell := by
  cases hclaim : h.claimable? id s with
  | none =>
      rw [claim, hclaim] at hk
      exact ⟨k, hk, rfl, le_rfl⟩
  | some p =>
      obtain ⟨b, j⟩ := p
      rcases Claims.of_setCursor ((claims_of_stock (stock_claim hclaim)).1 hk) with
        ⟨rfl, rfl, rfl⟩ | hbefore
      · obtain ⟨k', hk', hblock, hle, -⟩ := claimable?_first hclaim
        exact ⟨k', hk', hblock, Nat.le_succ_of_le hle⟩
      · exact ⟨k, hbefore, rfl, le_rfl⟩

/-- A cell that is free after a claim was free before, and the cursors that had not passed it still have
not. -/
theorem freeCell_claim
    (hs : h.Sound)
    (hf : h.Shelved)
    (hc : (h.claim id s).2.FreeCell t b i) :
    h.FreeCell t b i ∧ ∀ other k, h.Claims other t k → k.block = b → k.cell ≤ i →
      ∃ k', (h.claim id s).2.Claims other t k' ∧ k'.block = b ∧ k'.cell ≤ i := by
  rcases claim_cases hs id s with ⟨x, -, ho⟩ | ⟨-, hsame⟩
  · have hbefore := ho.steps.freeCell_of hs (by simp) (by simp) (by simp) hc
    refine ⟨hbefore, ?_⟩
    rintro other k hk rfl hle
    cases hclaim : h.claimable? id s with
    | none =>
        rw [Heap.claim, hclaim]
        exact ⟨k, hk, rfl, hle⟩
    | some p =>
        obtain ⟨b, j⟩ := p
        have hid : ∃ w ∈ h.workers, w.id = id := by
          obtain ⟨k, ⟨u, hu, hid, -⟩, -⟩ := claimable?_first hclaim
          obtain ⟨w, hw, rfl⟩ := mem_stock_iff.1 hu
          exact ⟨w, hw, hid⟩
        have hkept : ∀ {r : Span} {m : Nat} {c : Cursor},
            (h.setCursor id s ⟨b, j + 1⟩).Claims m r c → (h.claim id s).2.Claims m r c :=
          fun hm => (claims_of_stock (stock_claim hclaim)).2 hm
        by_cases hown : other = id ∧ t = s
        · -- The cell is found through the cursor that moves, and it comes after the claimed one.
          obtain ⟨rfl, rfl⟩ := hown
          obtain ⟨k', hk', rfl, -, hfirst⟩ := claimable?_first hclaim
          obtain rfl := hk.unique hf hk'
          refine ⟨⟨k.block, j + 1⟩, hkept (claims_setCursor_self hid t _), rfl, ?_⟩
          refine Nat.lt_of_le_of_ne (hfirst i hbefore hle) ?_
          rintro rfl
          obtain ⟨-, hd, hhd, hst⟩ := hc
          rw [Heap.claim, hclaim] at hhd
          have hpublished := Arena.header?_modifyHeader ((h.setCursor other t
            ⟨k.block, j + 1⟩).arena.withMemory (·.clear (Arena.wordIndex
              (Arena.blockBase k.block + j * t.cellSize)) (t.cellSize / Word.bytes))) k.block j
            k.block j fun _ => Header.fresh h.phase.allocationColor
          rw [if_pos ⟨rfl, rfl⟩] at hpublished
          have hnow := hpublished.symm.trans hhd
          obtain ⟨-, -, rfl⟩ := Option.map_eq_some_iff.1 hnow
          cases hst
        · exact ⟨k, hkept (claims_setCursor_of_ne hk hown _), rfl, hle⟩
  · rw [hsame] at hc ⊢
    exact ⟨hc, fun other k hk hblock hle => ⟨k, hk, hblock, hle⟩⟩

theorem Supplied.claim
    (hsup : h.Supplied)
    (hs : h.Sound)
    (hf : h.Shelved)
    (id : Nat) (s : Span) :
    (h.claim id s).2.Supplied := by
  have hoffers := offers_claim h id s
  refine ⟨hoffers ▸ hsup.offers, fun t b i hc => ?_⟩
  obtain ⟨hbefore, hclaims⟩ := freeCell_claim hs hf hc
  rcases hsup.found t b i hbefore with hb | ⟨other, k, hk, hblock, hle⟩
  · exact Or.inl (by rwa [central_of_offers hoffers])
  · exact Or.inr ⟨other, hclaims other k hk hblock hle⟩

/-! ### Moving on to another block -/

/-- If a worker can claim no cell, all free cells are found without its cursor. -/
theorem Supplied.elsewhere
    (hsup : h.Supplied)
    (hf : h.Shelved)
    (hnone : h.claimable? id s = none)
    (hc : h.FreeCell t b i) :
    b ∈ h.central.get t ∨
      ∃ other k, h.Claims other t k ∧ k.block = b ∧ k.cell ≤ i ∧ ¬ (other = id ∧ t = s) := by
  rcases hsup.found t b i hc with hb | ⟨other, k, hk, rfl, hle⟩
  · exact Or.inl hb
  · refine Or.inr ⟨other, k, hk, rfl, hle, ?_⟩
    rintro ⟨rfl, rfl⟩
    have hlt := lt_of_claimable?_eq_none hf hnone hk hc
    omega

/-- The block is obtained for the span: it is not offered any more, or it is new. Nothing else changes
for those who look for free cells. -/
structure Obtains (h : Heap) (s : Span) (b : Nat) (g : Heap) : Prop where
  stock : g.stock = h.stock
  hasSpan : g.arena.HasSpan b s
  freeCell : ∀ t j i, g.FreeCell t j i → h.FreeCell t j i ∨ (j = b ∧ ¬ h.arena.HasSpan b s)
  central : ∀ t j, j ∈ h.central.get t → j ≠ b → j ∈ g.central.get t

theorem obtains_takePartial
    (hs : h.Sound)
    (ht : h.takePartial s = (some b, g)) :
    h.Obtains s b g := by
  have hstill := still_takePartial h s
  have hclients := clients_takePartial h s
  rw [ht] at hstill hclients
  rcases takePartial_cases h s with ⟨-, hsame⟩ | ⟨a, rest, hget, htake⟩
  · rw [ht] at hsame
    cases hsame
  · rw [ht] at htake
    obtain rfl : b = a := Option.some.inj (congrArg Prod.fst htake)
    have hcentral : g.central = h.central.set s rest :=
      congrArg (fun p : Option Nat × Heap => p.2.central) htake
    have hspan := hs.stocked.central s b (hget ▸ List.mem_cons_self ..)
    refine ⟨stock_of_clients hclients, hstill.outline.hasSpan.2 hspan, fun t j i hc => ?_,
      fun t j hj hne => ?_⟩
    · exact Or.inl (hstill.steps.freeCell_of hs (by simp) (by simp) (by simp) hc)
    · rw [hcentral]
      by_cases hts : t = s
      · rw [hts, SpanTable.get_set_self]
        rw [hts, hget] at hj
        exact (List.mem_cons.1 hj).resolve_left hne
      · rwa [SpanTable.get_set_of_ne _ _ hts]

theorem obtains_carveBlock
    {a' : Arena}
    (hs : h.Sound)
    (hc : h.arena.carveBlock s = (some b, a')) :
    h.Obtains s b { h with arena := a' } := by
  obtain ⟨hl', -, -, hnew, hself, hother⟩ := hs.layout.carveBlock hc
  refine ⟨rfl, hl'.hasSpan_of_getElem? hself, fun t j i hfree => ?_, fun t j hj _ => hj⟩
  by_cases hj : j = b
  · refine Or.inr ⟨hj, fun hspan => ?_⟩
    rw [Arena.HasSpan, Arena.outline?, hnew] at hspan
    cases hspan
  · -- The other blocks are as before.
    have hsame : a'.blocks[j]? = h.arena.blocks[j]? := hother j hj
    obtain ⟨hspan, hd, hhd, hst⟩ := hfree
    refine Or.inl ⟨?_, hd, ?_, hst⟩
    · rw [Arena.HasSpan, Arena.outline?, ← hsame]
      exact hspan
    · rw [Arena.header?, ← hsame]
      exact hhd

/-- The cursor of a worker that can claim nothing moves to the start of a block that it has obtained. -/
theorem Supplied.obtains
    (hsup : h.Supplied)
    (hf : h.Shelved)
    (hid : ∃ w ∈ h.workers, w.id = id)
    (hnone : h.claimable? id s = none)
    (hget : h.Obtains s b g)
    (ho : g.offers.Consistent) :
    (g.setCursor id s ⟨b, 0⟩).Supplied := by
  have hlives : ∃ w ∈ g.workers, w.id = id := by
    obtain ⟨w, hw, hwid⟩ := hid
    have hmem := mem_stock_of_mem hw
    rw [← hget.stock] at hmem
    obtain ⟨w', hw', hsame⟩ := mem_stock_iff.1 hmem
    exact ⟨w', hw', (congrArg Supplies.id hsame).trans hwid⟩
  refine ⟨ho, fun t j i hc => ?_⟩
  by_cases hj : j = b
  · subst hj
    have hspan : g.arena.HasSpan j t := hc.1
    obtain rfl := hget.hasSpan.unique hspan
    exact Or.inr ⟨id, ⟨j, 0⟩, claims_setCursor_self hlives s _, rfl, Nat.zero_le i⟩
  · have hbefore := (hget.freeCell t j i hc).resolve_right fun hnew => hj hnew.1
    rcases hsup.elsewhere hf hnone hbefore with hmem | ⟨other, k, hk, hblock, hle, hne⟩
    · exact Or.inl (hget.central t j hmem hj)
    · exact Or.inr ⟨other, k, claims_setCursor_of_ne ((claims_of_stock hget.stock).2 hk) hne _,
        hblock, hle⟩

theorem Supplied.takePartial
    (hsup : h.Supplied)
    (hs : h.Sound)
    (hf : h.Shelved)
    (hid : ∃ w ∈ h.workers, w.id = id)
    (hnone : h.claimable? id s = none)
    (ht : h.takePartial s = (some b, g)) :
    (g.setCursor id s ⟨b, 0⟩).Supplied := by
  have hconsistent := consistent_takePartial hs hsup.offers s
  rw [ht] at hconsistent
  exact hsup.obtains hf hid hnone (obtains_takePartial hs ht) hconsistent

theorem Supplied.carveBlock
    {a' : Arena}
    (hsup : h.Supplied)
    (hs : h.Sound)
    (hf : h.Shelved)
    (hid : ∃ w ∈ h.workers, w.id = id)
    (hnone : h.claimable? id s = none)
    (hc : h.arena.carveBlock s = (some b, a')) :
    ({ h with arena := a' }.setCursor id s ⟨b, 0⟩).Supplied := by
  have hoffers : { h with arena := a' }.offers = h.offers :=
    offers_eq rfl (Arena.queued_carveBlock hc)
  exact hsup.obtains hf hid hnone (obtains_carveBlock hs hc) (hoffers ▸ hsup.offers)

end Heap

end EagerHeap
