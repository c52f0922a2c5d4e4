import EagerHeap.Proofs.Run.Scenes
/-!
# What allocations leave behind when they are interrupted

A worker reenters if it obtains a block for a span while an allocation of its own for the span waits. If
no worker does so, every free cell stays in reach: its block is offered, a waiting allocation holds the
block, or a cursor has not passed the cell and will not be moved away by an allocation that waits. So
nothing is lost with the cursor that moves when an allocation goes on.

Main results: `Legal.guards`, `Kept.expendable` and `Legal.supplied`.
-/

namespace EagerHeap

/-- Nothing is lost if the cursor of the worker for the span moves away: a free cell that the cursor has
not passed lies in a block that is offered to all workers, or the cursor of another worker has not passed
it either. -/
def Heap.Expendable (h : Heap) (id : Nat) (s : Span) : Prop :=
  ∀ k i, h.Claims id s k → h.FreeCell s k.block i → k.cell ≤ i →
    k.block ∈ h.central.get s ∨
      ∃ other k', other ≠ id ∧ h.Claims other s k' ∧ k'.block = k.block ∧ k'.cell ≤ i

namespace Scene

variable {P : Scene → Segment → Prop} {S : Scene} {z : Segment} {zs : List Segment}
  {others : List (Nat × Span)} {id b i : Nat} {s t : Span} {y : Move} {k : Cursor}

open Heap

/-! ### Free cells in reach -/

/-- The block is offered, a waiting allocation holds it, or a cursor of a worker is on it that has not
passed the cell; this cursor is not one for which an allocation waits, and none of the others. -/
def Reaches (S : Scene) (others : List (Nat × Span)) (s : Span) (b i : Nat) : Prop :=
  b ∈ S.heap.central.get s ∨ (∃ w ∈ S.waiting, w.span = s ∧ w.block = b) ∨
    ∃ id k, S.heap.Claims id s k ∧ k.block = b ∧ k.cell ≤ i ∧ (id, s) ∉ others ++ S.busy

/-- The cell is in reach if it is free. -/
def Guards (S : Scene) (others : List (Nat × Span)) (s : Span) (b i : Nat) : Prop :=
  S.heap.FreeCell s b i → S.Reaches others s b i

theorem notMem_middle
    {p q : Nat × Span} {l l' : List (Nat × Span)} :
    p ∉ l ++ q :: l' ↔ p ≠ q ∧ p ∉ l ++ l' := by
  rw [List.perm_middle.mem_iff, List.mem_cons, not_or]

/-- A cell stays in reach if the cursors that have not passed it stay at its block. -/
theorem Guards.of_cursors
    {m : Machine} {e : Ends}
    (hg : S.Guards others s b i)
    (hbefore : m.heap.FreeCell s b i → b ∈ m.heap.central.get s ∨
      (S.heap.FreeCell s b i ∧ (b ∈ S.heap.central.get s → b ∈ m.heap.central.get s) ∧
        ∀ id k, S.heap.Claims id s k → k.block = b → k.cell ≤ i →
          ∃ k', m.heap.Claims id s k' ∧ k'.block = b ∧ k'.cell ≤ i)) :
    Guards ⟨m, e, S.waiting⟩ others s b i := by
  intro hc
  rcases hbefore hc with hb | ⟨hfree, hcentral, hcursors⟩
  · exact Or.inl hb
  · rcases hg hfree with hb | hw | ⟨id, k, hk, hblock, hle, hother⟩
    · exact Or.inl (hcentral hb)
    · exact Or.inr (Or.inl hw)
    · obtain ⟨k', hk', hblock', hle'⟩ := hcursors id k hk hblock hle
      exact Or.inr (Or.inr ⟨id, k', hk', hblock', hle', hother⟩)

/-- Free cells that settle stay in reach. -/
theorem Guards.settles
    {m : Machine} {e : Ends}
    (hg : S.Guards others s b i)
    (hset : S.heap.Settles m.heap) :
    Guards ⟨m, e, S.waiting⟩ others s b i := by
  refine hg.of_cursors fun hc => (hset s b i hc).imp_right ?_
  rintro ⟨hfree, hnot, hclaims⟩
  exact ⟨hfree, fun hb => absurd hb hnot, fun id k hk hblock hle =>
    ⟨k, hclaims id k hk hblock hle, hblock, hle⟩⟩

theorem Kept.guards_move
    (hk : S.Kept)
    (hz : S.Permits (.move y))
    (hg : S.Guards others s b i) :
    (S.apply (.move y)).Guards others s b i := by
  obtain ⟨hy, hal, hheeds, -⟩ := hz
  by_cases hof : y.OfAllocation
  · cases y with
    | reuse id t => exact hg.settles (Machine.settles_reuse hk.proper.sound id t)
    | claim id t =>
        refine hg.of_cursors fun hc => Or.inr ?_
        obtain ⟨hfree, hcursors⟩ := freeCell_claim hk.proper.sound hk.shelved hc
        refine ⟨hfree, fun hb => ?_, hcursors⟩
        change b ∈ (S.heap.claim id t).2.central.get s
        rwa [central_of_offers (offers_claim S.heap id t)]
    | takePartial | carveBlock | setCursor => exact absurd trivial hy
    | _ => cases hof
  · exact hg.settles (hk.proper.settles hk.shelved hk.offers hk.manned hof hal hheeds)

/-- A worker that obtains a block leaves behind a block without free cells after its cursor. -/
theorem Kept.guards_refill
    (hk : S.Kept)
    (hz : S.Permits (.refill id t))
    (hg : S.Guards others s b i) :
    (S.apply (.refill id t)).Guards others s b i := by
  rcases apply_refill_cases hk.proper.sound id t with ⟨a, g, y, -, hget, -, rfl, happly⟩ | ⟨-, hsame⟩
  · rw [happly]
    intro hc
    by_cases hb : b = a
    · subst hb
      have hspan : (S.machine.apply y).heap.arena.HasSpan b s := hc.1
      exact Or.inr (Or.inl ⟨_, List.mem_cons_self .., hget.hasSpan.unique hspan, rfl⟩)
    · have hfree := (hget.freeCell s b i hc).resolve_right fun hnew => hb hnew.1
      rcases hg hfree with hcentral | ⟨w, hw, hheld⟩ | ⟨other, k, hclaims, rfl, hle, hother⟩
      · exact Or.inl (hget.central s b hcentral hb)
      · exact Or.inr (Or.inl ⟨w, List.mem_cons_of_mem _ hw, hheld⟩)
      · refine Or.inr (Or.inr ⟨other, k, (claims_of_stock hget.stock).2 hclaims, rfl, hle, ?_⟩)
        refine notMem_middle.2 ⟨fun heq => ?_, hother⟩
        cases heq
        have hlt := lt_of_claimable?_eq_none hk.shelved hz.2 hclaims hfree
        omega
  · rwa [hsame]

/-- The cursor that moves when an allocation goes on is on the block that the allocation has held. -/
theorem Kept.guards_resume
    (hk : S.Kept)
    (hn : (others ++ S.busy).Nodup)
    (hg : S.Guards others s b i) :
    (S.apply .resume).Guards others s b i := by
  rw [Scene.apply]
  split
  · exact hg
  · next w rest hwait =>
      intro hc
      have hbusy : S.busy = w.key :: rest.map Waiting.key := by rw [busy, hwait, List.map_cons]
      rw [hbusy, List.nodup_middle, List.nodup_cons] at hn
      rcases hg hc with hcentral | ⟨v, hv, rfl, rfl⟩ | ⟨other, k, hclaims, hblock, hle, hother⟩
      · exact Or.inl hcentral
      · rw [hwait] at hv
        rcases List.mem_cons.1 hv with rfl | hv
        · obtain ⟨hserves, -⟩ := hk.waits v (hwait ▸ List.mem_cons_self ..)
          exact Or.inr (Or.inr ⟨v.worker, ⟨v.block, 0⟩, claims_setCursor_self hserves.1 v.span _, rfl,
            Nat.zero_le i, hn.1⟩)
        · exact Or.inr (Or.inl ⟨v, hv, rfl, rfl⟩)
      · rw [hbusy, notMem_middle] at hother
        refine Or.inr (Or.inr
          ⟨other, k, claims_setCursor_of_ne hclaims ?_ _, hblock, hle, hother.2⟩)
        rintro ⟨rfl, rfl⟩
        exact hother.1 rfl

theorem Kept.guards
    (hk : S.Kept)
    (hz : S.Permits z)
    (hn : (others ++ S.busy).Nodup)
    (hg : S.Guards others s b i) :
    (S.apply z).Guards others s b i := by
  cases z with
  | move y => exact hk.guards_move hz hg
  | refill id t => exact hk.guards_refill hz hg
  | resume => exact hk.guards_resume hn hg

/-- The cursors for which allocations wait stay different. -/
theorem Kept.nodup
    (hk : S.Kept)
    (hz : S.Orderly others z)
    (hn : (others ++ S.busy).Nodup) :
    (others ++ (S.apply z).busy).Nodup := by
  cases z with
  | move y => exact hn
  | refill id t =>
      rcases apply_refill_cases hk.proper.sound id t with ⟨a, g, y, -, -, -, -, happly⟩ | ⟨-, hsame⟩
      · rw [happly]
        exact List.nodup_middle.2 (List.nodup_cons.2 ⟨hz, hn⟩)
      · rwa [hsame]
  | resume =>
      rw [Scene.apply]
      split
      · exact hn
      · next w rest hwait =>
          rw [busy, hwait, List.map_cons] at hn
          exact (List.nodup_cons.1 (List.nodup_middle.1 hn)).2

/-- Without reentry, a cell that is in reach stays in reach. -/
theorem Legal.guards
    (hl : S.Legal (Orderly others) zs)
    (hk : S.Kept)
    (hn : (others ++ S.busy).Nodup)
    (hg : S.Guards others s b i) :
    (S.run zs).Guards others s b i := by
  induction zs generalizing S with
  | nil => exact hg
  | cons z zs ih =>
      exact ih hl.2.2 (hk.apply hl.1) (hk.nodup hl.2.1 hn) (hk.guards hl.1 hn hg)

/-! ### Cursors in a window -/

/-- A cursor after a move was at the same block before, and it had not come further. -/
theorem claims_before_move
    {m : Machine}
    (hy : ¬ y.OfRefill)
    (hk : (m.apply y).heap.Claims id s k) :
    ∃ k', m.heap.Claims id s k' ∧ k'.block = k.block ∧ k'.cell ≤ k.cell := by
  have hsame : m.heap.Claims id s k →
      ∃ k', m.heap.Claims id s k' ∧ k'.block = k.block ∧ k'.cell ≤ k.cell := fun hbefore =>
    ⟨k, hbefore, rfl, le_rfl⟩
  by_cases hstock : y.OfStock
  · cases y with
    | addWorker =>
        obtain ⟨u, hu, rfl, hget⟩ := hk
        obtain ⟨w, hw, rfl⟩ := mem_stock_iff.1 hu
        rcases List.mem_append.1 hw with hw | hw
        · exact hsame ⟨_, mem_stock_of_mem hw, rfl, hget⟩
        · obtain rfl := List.mem_singleton.1 hw
          exact absurd (hget.symm.trans (SpanTable.get_fill _ s)) nofun
    | flushWorker other =>
        by_cases hid : id = other
        · obtain ⟨u, hu, rfl, hget⟩ := hk
          exact absurd (hget.symm.trans (Machine.emptied_flushWorker hu hid s).2) nofun
        · exact hsame ((claims_of_stockOfOthers (stockOfOthers_flushWorker m.heap other) hid).1 hk)
    | retireWorker other =>
        obtain ⟨u, hu, hid, hget⟩ := hk
        exact hsame ⟨u, ((Machine.workers_retireWorker m other).map Worker.supplies).mem hu, hid, hget⟩
    | reuse other t => exact hsame ((claims_of_cursors (cursors_reuse m.heap other t)).1 hk)
    | claim other t => exact Claims.of_claim hk
    | free other addr size shape =>
        exact hsame ((claims_of_cursors (cursors_free m.heap other addr size shape)).1 hk)
    | drainScope c => exact hsame ((claims_of_cursors (cursors_drainScope m.heap c)).1 hk)
    | setCursor => exact absurd trivial hy
    | _ => cases hstock
  · exact hsame ((claims_of_stock (Machine.stock_apply hstock)).1 hk)

/-- Without reentry, the cursors of the others stay at their blocks and do not go back. -/
theorem Kept.claims_before
    (hk : S.Kept)
    (hz : S.Permits z)
    (hn : (others ++ S.busy).Nodup)
    (hother : (id, s) ∈ others)
    (hclaims : (S.apply z).heap.Claims id s k) :
    ∃ k', S.heap.Claims id s k' ∧ k'.block = k.block ∧ k'.cell ≤ k.cell := by
  cases z with
  | move y => exact claims_before_move hz.1 hclaims
  | refill other t =>
      rcases apply_refill_cases hk.proper.sound other t with
        ⟨a, g, y, -, hget, -, rfl, happly⟩ | ⟨-, hsame⟩
      · rw [happly] at hclaims
        exact ⟨k, (claims_of_stock hget.stock).1 hclaims, rfl, le_rfl⟩
      · rw [hsame] at hclaims
        exact ⟨k, hclaims, rfl, le_rfl⟩
  | resume =>
      rw [Scene.apply] at hclaims
      split at hclaims
      · exact ⟨k, hclaims, rfl, le_rfl⟩
      · next w rest hwait =>
          rcases Claims.of_setCursor hclaims with ⟨rfl, rfl, -⟩ | hbefore
          · have hbusy : w.key ∈ S.busy := List.mem_map_of_mem (hwait ▸ List.mem_cons_self ..)
            exact absurd rfl ((List.nodup_append.1 hn).2.2 _ hother _ hbusy)
          · exact ⟨k, hbefore, rfl, le_rfl⟩

theorem Legal.claims_before
    (hl : S.Legal (Orderly others) zs)
    (hk : S.Kept)
    (hn : (others ++ S.busy).Nodup)
    (hother : (id, s) ∈ others)
    (hclaims : (S.run zs).heap.Claims id s k) :
    ∃ k', S.heap.Claims id s k' ∧ k'.block = k.block ∧ k'.cell ≤ k.cell := by
  induction zs generalizing S with
  | nil => exact ⟨k, hclaims, rfl, le_rfl⟩
  | cons z zs ih =>
      obtain ⟨k', hk', hblock, hle⟩ := ih hl.2.2 (hk.apply hl.1) (hk.nodup hl.2.1 hn) hclaims
      obtain ⟨k'', hk'', hblock', hle'⟩ := hk.claims_before hl.1 hn hother hk'
      exact ⟨k'', hk'', hblock'.trans hblock, hle'.trans hle⟩

/-- If the worker does not reenter, its cursor can be given up at the end of a window. -/
theorem Kept.expendable
    (hk : S.Kept)
    (hz : S.Permits (.refill id s))
    (hl : (S.window id s).Legal (Orderly [(id, s)]) zs)
    (hdone : ((S.window id s).run zs).waiting = []) :
    ((S.window id s).run zs).heap.Expendable id s := by
  intro k i hclaims hfree hle
  have hn : ([(id, s)] ++ (S.window id s).busy).Nodup := List.nodup_singleton _
  obtain ⟨k', hk', hblock, hle'⟩ := hl.claims_before (hk.window hz) hn (List.mem_singleton_self _)
    hclaims
  -- When the window began, the cursor had passed all free cells of its block.
  have hstart : (S.window id s).Guards [(id, s)] s k.block i := by
    intro hbefore
    exfalso
    have hlt : i < k'.cell := by
      rw [← hblock] at hbefore
      rcases apply_refill_cases hk.proper.sound id s with ⟨a, g, y, -, hget, -, rfl, happly⟩ | ⟨-, hsame⟩
      · rw [Scene.window, happly] at hbefore hk'
        have hbefore' := (claims_of_stock hget.stock).1 hk'
        refine lt_of_claimable?_eq_none hk.shelved hz.2 hbefore' ?_
        refine (hget.freeCell s _ i hbefore).resolve_right ?_
        rintro ⟨heq, hnot⟩
        refine hnot ?_
        obtain ⟨u, hu, -, hget⟩ := hbefore'
        obtain ⟨w, hw, rfl⟩ := mem_stock_iff.1 hu
        exact heq ▸ hk.proper.sound.stocked.cursors w hw s k' hget
      · rw [Scene.window, hsame] at hbefore hk'
        exact lt_of_claimable?_eq_none hk.shelved hz.2 hk' hbefore
    omega
  rcases hl.guards (hk.window hz) hn hstart hfree with hb | ⟨w, hw, -⟩ |
    ⟨other, k'', hk'', hblock'', hle'', hother⟩
  · exact Or.inl hb
  · rw [hdone] at hw
    cases hw
  · refine Or.inr ⟨other, k'', ?_, hk'', hblock'', hle''⟩
    rintro rfl
    exact hother (List.mem_append_left _ (List.mem_singleton_self _))

/-- If nobody reenters and no allocation waits, every free cell is found. -/
theorem Legal.supplied
    (hl : S.Legal (Orderly []) zs)
    (hk : S.Kept)
    (hn : S.busy.Nodup)
    (hg : ∀ s b i, S.Guards [] s b i)
    (hdone : (S.run zs).waiting = []) :
    (S.run zs).heap.Supplied := by
  refine ⟨(hl.kept hk).offers, fun s b i hc => ?_⟩
  rcases hl.guards hk hn (hg s b i) hc with hb | ⟨w, hw, -⟩ | ⟨id, k, hclaims, hblock, hle, -⟩
  · exact Or.inl hb
  · rw [hdone] at hw
    cases hw
  · exact Or.inr ⟨id, k, hclaims, hblock, hle⟩

end Scene

end EagerHeap
