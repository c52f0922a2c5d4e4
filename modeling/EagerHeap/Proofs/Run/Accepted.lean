import EagerHeap.Action.Allocate
import EagerHeap.Proofs.Cycle.Collected
import EagerHeap.Proofs.Run.Consulted
/-!
# What eager free takes back

In every state of a run an eager free takes back exactly the objects that start at the address in a block
of small cells, have room and the shape, and carry no side record. It parks the cell and counts that; or
it counts one rejection and changes nothing else. The end of a scope frees by the same rule.

Main result: `free_accepts_reclaimable`.
-/

namespace EagerHeap

namespace Heap

/-- The entry names a small cell at the address that an eager free with a size and a shape takes back. -/
structure Reclaimable (h : Heap) (addr size : Nat) (sh : Shape) (s : Span) (e : FreeEntry) : Prop where
  enabled : h.config.eagerFree = true
  least : h.config.minFreeSize ≤ size
  greatest : size ≤ h.config.maxFreeSize
  start : e.addr = addr
  fits : e.Fits h.arena s
  room : size ≤ s.cellSize
  shape : s.shape = sh
  allocated : ∃ hd, h.arena.header? e.block e.cell = some hd ∧ hd.state = .allocated
  bare : h.records.attached.find? addr = none

/-- The cell is cached, it is the latest one in the free list of the worker, and one more accepted free is
counted. -/
def takenBack (h : Heap) (id : Nat) (s : Span) (e : FreeEntry) : Heap :=
  { h with
    arena := h.arena.modifyHeader e.block e.cell (·.withState .cached)
    workers := h.workers.map fun w =>
      if w.id = id then
        { w with freeLists := w.freeLists.modify s (e :: ·), tally := w.tally.bump .freesAccepted }
      else w }

/-- One more rejection is counted for the worker. -/
def turnedDown (h : Heap) (id : Nat) (reason : Rejection) : Heap :=
  { h with
    workers := h.workers.map fun w =>
      if w.id = id then { w with tally := w.tally.bump (.rejected reason) } else w }

/-- No small cell starts at the address: it lies inside of a cell, in a block that takes part in runs, or
outside of the carved blocks. -/
def NoSmallCell (h : Heap) (addr : Nat) : Prop :=
  (∃ y d, h.arena.cell? y = some d ∧ y < addr ∧ addr < y + d.size) ∨
    (∃ b n, h.arena.HasRun b n ∧ Arena.blockBase b ≤ addr ∧ addr < Arena.blockBase (b + 1)) ∨
    addr < Arena.start ∨ Arena.blockBase h.arena.pages.next ≤ addr

variable {h : Heap} {addr size id : Nat} {sh : Shape} {shape : Option Shape} {s : Span}
  {e : FreeEntry} {c : Cell}

theorem attached_eq_none_iff
    (hs : h.Sound)
    (hx : h.arena.cell? addr = some c) :
    h.records.attached.find? addr = none ↔ c.header.hasFlag Header.sideRecord = false := by
  rw [← Option.not_isSome_iff_eq_none, ← hs.recorded.flagged addr c hx, Bool.not_eq_true]

/-- The checks of an eager free are those of `Reclaimable`. -/
theorem freeable_eq_ok_iff
    (hs : h.Sound) :
    h.freeable addr size (some sh) = .ok (s, e) ↔ h.Reclaimable addr size sh s e := by
  constructor
  · intro hf
    obtain ⟨c, hx, hst, hflag, hspan, rfl⟩ := freeable_eq_ok hs.layout hf
    have hfree : (h.free 0 addr size (some sh)).1 = none := by
      rw [free, hf]
    obtain ⟨hon, hleast, hgreatest, hsmall, hroom, hshape, -, -⟩ :=
      (free_eq_none_iff hs.layout hx).1 hfree
    rcases hs.layout.cell?_cases hx with ⟨t, ht, hk, haddr, hsize, hsh, -⟩ |
      ⟨n, t, -, -, -, -, -, -, hlarge, -⟩
    · obtain rfl := ht.unique hspan
      exact ⟨hon, hleast, hgreatest, rfl, ⟨hspan, hk, haddr⟩, hsize ▸ hroom, hsh ▸ hshape,
        ⟨c.header, Arena.header?_of_cell? hx, hst⟩, (attached_eq_none_iff hs hx).2 hflag⟩
    · cases hsmall.symm.trans hlarge
  · rintro ⟨hon, hleast, hgreatest, rfl, hfits, hroom, rfl, ⟨hd, hhd, hst⟩, hbare⟩
    obtain ⟨hd', hhd', hx⟩ := hfits.cell? hs.layout
    obtain rfl := Option.some.inj (hhd.symm.trans hhd')
    have hfree : (h.free 0 e.addr size (some s.shape)).1 = none :=
      (free_eq_none_iff hs.layout hx).2 ⟨hon, hleast, hgreatest, rfl, hroom, rfl,
        (attached_eq_none_iff hs hx).1 hbare, hst⟩
    rw [free] at hfree
    cases hf : h.freeable e.addr size (some s.shape) with
    | error reason =>
        rw [hf] at hfree
        cases hfree
    | ok p =>
        obtain ⟨t, d⟩ := p
        obtain ⟨c, hcell, -, -, hspan, rfl⟩ := freeable_eq_ok hs.layout hf
        obtain rfl := Option.some.inj (hx.symm.trans hcell)
        rw [hfits.1.unique hspan]

theorem park_count (h : Heap) (id : Nat) (s : Span) (e : FreeEntry) :
    (h.park id s e).count id .freesAccepted 1 = h.takenBack id s e := by
  simp only [park, pushFree, count, modifyWorker, takenBack, List.map_map]
  congr 1
  refine List.map_congr_left fun w _ => ?_
  by_cases hid : w.id = id
  · simp [hid, Tally.bump]
  · simp [hid]

/-- A free takes the object back if it is reclaimable, and is turned down otherwise. -/
theorem free_reclaimable
    (hs : h.Sound)
    (id addr size : Nat) (sh : Shape) :
    (∃ s e, h.Reclaimable addr size sh s e ∧
        h.free id addr size (some sh) = (none, h.takenBack id s e)) ∨
      (¬ ∃ s e, h.Reclaimable addr size sh s e) ∧
        ∃ reason, h.free id addr size (some sh) = (some reason, h.turnedDown id reason) := by
  rw [free]
  cases hf : h.freeable addr size (some sh) with
  | ok p =>
      obtain ⟨s, e⟩ := p
      exact Or.inl ⟨s, e, (freeable_eq_ok_iff hs).1 hf, congrArg (Prod.mk none) (park_count h id s e)⟩
  | error reason =>
      refine Or.inr ⟨?_, reason, rfl⟩
      rintro ⟨s, e, hr⟩
      cases hf.symm.trans ((freeable_eq_ok_iff hs).2 hr)

/-- A reclaimable object is one of a small cell. -/
theorem Reclaimable.cell?
    (hr : h.Reclaimable addr size sh s e)
    (hs : h.Sound) :
    ∃ c, h.arena.cell? addr = some c ∧ c.block = e.block ∧ c.size = s.cellSize ∧ c.shape = sh := by
  obtain ⟨hd, -, hx⟩ := hr.fits.cell? hs.layout
  rw [hr.start] at hx
  exact ⟨_, hx, rfl, rfl, hr.shape⟩

/-- The entry and the span of a reclaimable object are determined. -/
theorem Reclaimable.unique
    {t : Span} {d : FreeEntry}
    (hs : h.Sound)
    (hr : h.Reclaimable addr size sh s e)
    (hr' : h.Reclaimable addr size sh t d) :
    t = s ∧ d = e := by
  have hsame := ((freeable_eq_ok_iff hs).2 hr').symm.trans ((freeable_eq_ok_iff hs).2 hr)
  exact Prod.mk.inj (Except.ok.inj hsame)

/-- Where no small cell starts, nothing is reclaimable. -/
theorem NoSmallCell.not_reclaimable
    (hn : h.NoSmallCell addr)
    (hs : h.Sound) :
    ¬ h.Reclaimable addr size sh s e := by
  intro hr
  obtain ⟨hspan, hk, haddr⟩ := hr.fits
  rw [hr.start] at haddr
  obtain ⟨c, hx, -, hsize, -⟩ := hr.cell? hs
  have hblock := Block.cell_lt_blockSize hk
  have hpos := s.cellSize_pos
  rcases hn with ⟨y, d, hy, hlt, hin⟩ | ⟨b, n, hrun, hbase, hstop⟩ | hbefore | hafter
  · rcases hs.layout.disjoint hx hy (by omega) with hle | hle <;> omega
  · obtain rfl : b = e.block := by
      simp only [Arena.blockBase, blockSize] at haddr hbase hstop hblock
      omega
    exact hspan.not_hasRun hrun
  · simp only [Arena.blockBase] at haddr
    omega
  · have hcarved := Arena.lt_size_of_outline? hspan
    rw [hs.layout.carved] at hcarved
    have hle := Arena.blockBase_le (show e.block + 1 ≤ h.arena.pages.next from hcarved)
    have hnext := Arena.lt_blockBase_succ (i := e.block) (k := e.cell * s.cellSize) (by omega)
    omega

/-- A free by the owner is a free with the size and the shape of the cell. -/
theorem freeOwned_eq
    (hs : h.Sound)
    (hx : h.arena.cell? addr = some c)
    (id : Nat) :
    h.freeOwned id addr = h.free id addr c.size (some c.shape) := by
  have hsame : h.freeable addr c.size none = h.freeable addr c.size (some c.shape) := by
    rw [freeable, freeable, hx]
    dsimp only
    rcases span?_of_cell hs.layout hx with ⟨-, s, hspan, hshape⟩ | ⟨-, hnone⟩
    · simp [hspan, hshape]
    · simp [hnone]
  rw [freeOwned, hx, free, free]
  dsimp only [Option.map_some, Option.getD_some]
  rw [hsame]

/-- There is nothing to free for the owner where no cell starts. -/
theorem freeOwned_of_cell?_eq_none
    (hl : h.arena.Layout)
    (hx : h.arena.cell? addr = none)
    (id : Nat) :
    ∃ reason, h.freeOwned id addr = (some reason, h.turnedDown id reason) := by
  rw [freeOwned, free]
  cases hf : h.freeable addr (((h.arena.cell? addr).map Cell.size).getD 0) none with
  | error reason => exact ⟨reason, rfl⟩
  | ok p =>
      obtain ⟨s, e⟩ := p
      obtain ⟨c, hc, -⟩ := freeable_eq_ok hl hf
      cases hx.symm.trans hc

/-- What the owner frees is what a caller frees who knows the size and the shape of the cell. -/
theorem freeOwned_reclaimable
    (hs : h.Sound)
    (id addr : Nat) :
    (∃ d s e, h.arena.cell? addr = some d ∧ h.Reclaimable addr d.size d.shape s e ∧
        h.freeOwned id addr = (none, h.takenBack id s e)) ∨
      (∀ d s e, h.arena.cell? addr = some d → ¬ h.Reclaimable addr d.size d.shape s e) ∧
        ∃ reason, h.freeOwned id addr = (some reason, h.turnedDown id reason) := by
  cases hx : h.arena.cell? addr with
  | none =>
      exact Or.inr ⟨nofun, freeOwned_of_cell?_eq_none hs.layout hx id⟩
  | some d =>
      rw [freeOwned_eq hs hx id]
      rcases free_reclaimable hs id addr d.size d.shape with ⟨s, e, hr, hfree⟩ | ⟨hnone, hdown⟩
      · exact Or.inl ⟨d, s, e, rfl, hr, hfree⟩
      · refine Or.inr ⟨?_, hdown⟩
        rintro d s e ⟨⟩ hr
        exact hnone ⟨s, e, hr⟩

end Heap

/-- A caller whose object is reclaimable is told nothing; any other is turned down. -/
theorem Action.tryFree_reclaimable
    {σ : Type} {w : World σ}
    (k : Hooks σ)
    (hs : w.heap.Sound)
    (id addr size : Nat) (sh : Shape) :
    (∃ s e, w.heap.Reclaimable addr size sh s e ∧
        ExceptT.run (tryFree k id addr size sh) w =
          (.ok true, { w with heap := w.heap.takenBack id s e })) ∨
      (¬ ∃ s e, w.heap.Reclaimable addr size sh s e) ∧ ∃ reason,
        ExceptT.run (tryFree k id addr size sh) w = (.ok false,
          k.onEvent (.declined addr size reason) { w with heap := w.heap.turnedDown id reason }) := by
  have hchange : ExceptT.run (change (·.free id addr size (some sh)) : Action σ _) w =
      (.ok (w.heap.free id addr size (some sh)).1,
        { w with heap := (w.heap.free id addr size (some sh)).2 }) := rfl
  rw [tryFree, run_bind_operation, hchange]
  rcases Heap.free_reclaimable hs id addr size sh with ⟨s, e, hr, hfree⟩ | ⟨hnone, reason, hfree⟩
  · rw [hfree]
    exact Or.inl ⟨s, e, hr, rfl⟩
  · rw [hfree]
    exact Or.inr ⟨hnone, reason, rfl⟩

namespace Machine

open Heap

variable {ys : List Move} {memory : Nat} {c : Config} {h : Heap}

/-- In every state of a run an eager free is accepted exactly if the object is reclaimable. Then the cell
becomes the latest one in the free list of the worker, and one more accepted free is counted. Otherwise
one more rejection is counted, and the client is told. The owner of a cell frees it by the same rule,
with the size and the shape of the cell. Nothing is freed where no small cell starts. -/
theorem free_accepts_reclaimable
    {σ : Type} (hooks : Hooks σ)
    (hc : Heap.create memory c = .ok h)
    (hl : Legal (fun _ _ => True) (start h) ys)
    (id addr size : Nat) (sh : Shape) (client : σ) :
    let before := ((start h).run ys).heap
    let tried := fun size sh =>
      ExceptT.run (Action.tryFree hooks id addr size sh) ⟨before, client⟩
    let owned := before.freeOwned id addr
    ((tried size sh).1 = .ok true ↔ ∃ s e, before.Reclaimable addr size sh s e) ∧
      (∀ s e, before.Reclaimable addr size sh s e →
        (tried size sh).2 = ⟨before.takenBack id s e, client⟩) ∧
      ((tried size sh).1 ≠ .ok true → (tried size sh).1 = .ok false ∧
        ∃ reason, (tried size sh).2 =
          hooks.onEvent (.declined addr size reason) ⟨before.turnedDown id reason, client⟩) ∧
      (owned.1 = none ↔
        ∃ d, before.arena.cell? addr = some d ∧ (tried d.size d.shape).1 = .ok true) ∧
      (∀ d s e, before.arena.cell? addr = some d → before.Reclaimable addr d.size d.shape s e →
        owned.2 = before.takenBack id s e) ∧
      (∀ reason, owned.1 = some reason → owned.2 = before.turnedDown id reason) ∧
      (before.NoSmallCell addr → (tried size sh).1 = .ok false ∧ owned.1 ≠ none) := by
  intro before tried owned
  have hs : before.Sound := (hl.proper (proper_start hc)).sound
  have haccepts : ∀ size sh,
      (tried size sh).1 = .ok true ↔ ∃ s e, before.Reclaimable addr size sh s e := by
    intro size sh
    rcases Action.tryFree_reclaimable (w := ⟨before, client⟩) hooks hs id addr size sh with
      ⟨s, e, hr, hrun⟩ | ⟨hnone, reason, hrun⟩
    · exact iff_of_true (congrArg Prod.fst hrun) ⟨s, e, hr⟩
    · refine iff_of_false (fun hok => ?_) hnone
      cases (congrArg Prod.fst hrun).symm.trans hok
  have hdecided := Action.tryFree_reclaimable (w := ⟨before, client⟩) hooks hs id addr size sh
  have howned := freeOwned_reclaimable hs id addr
  refine ⟨haccepts size sh, ?_, ?_, ?_, ?_, ?_, ?_⟩
  · intro s e hr
    rcases hdecided with ⟨t, d, hr', hrun⟩ | ⟨hnone, -⟩
    · obtain ⟨rfl, rfl⟩ := hr.unique hs hr'
      exact congrArg Prod.snd hrun
    · exact absurd ⟨s, e, hr⟩ hnone
  · intro hne
    rcases hdecided with ⟨t, d, -, hrun⟩ | ⟨-, reason, hrun⟩
    · exact absurd (congrArg Prod.fst hrun) hne
    · exact ⟨congrArg Prod.fst hrun, reason, congrArg Prod.snd hrun⟩
  · simp only [haccepts]
    rcases howned with ⟨d, s, e, hd, hr, hfree⟩ | ⟨hnone, reason, hfree⟩
    · exact iff_of_true (congrArg Prod.fst hfree) ⟨d, hd, s, e, hr⟩
    · refine iff_of_false (fun hfreed => ?_) fun ⟨d, hd, s, e, hr⟩ => hnone d s e hd hr
      cases (congrArg Prod.fst hfree).symm.trans hfreed
  · intro d s e hd hr
    rcases howned with ⟨d', t, f, hd', hr', hfree⟩ | ⟨hnone, -⟩
    · obtain rfl := Option.some.inj (hd.symm.trans hd')
      obtain ⟨rfl, rfl⟩ := hr.unique hs hr'
      exact congrArg Prod.snd hfree
    · exact absurd hr (hnone d s e hd)
  · intro reason hreason
    rcases howned with ⟨d, s, e, -, -, hfree⟩ | ⟨-, reason', hfree⟩
    · cases (congrArg Prod.fst hfree).symm.trans hreason
    · obtain rfl := Option.some.inj ((congrArg Prod.fst hfree).symm.trans hreason)
      exact congrArg Prod.snd hfree
  · intro hnowhere
    rcases hdecided with ⟨s, e, hr, -⟩ | ⟨-, reason, hrun⟩
    · exact absurd hr (hnowhere.not_reclaimable hs)
    · refine ⟨congrArg Prod.fst hrun, fun hfreed => ?_⟩
      rcases howned with ⟨d, s, e, -, hr, -⟩ | ⟨-, reason', hfree⟩
      · exact hnowhere.not_reclaimable hs hr
      · cases (congrArg Prod.fst hfree).symm.trans hfreed

/-- A worker claims the first cell of a block. -/
def claimedCell : List Move :=
  [.addWorker, .carveBlock quarterBlock, .setCursor 0 quarterBlock 0, .claim 0 quarterBlock]

/-- The object is freed, and at its second word nothing is. -/
theorem free_accepts_reclaimable_once :
    let before := ((start (.empty fourBlocks)).run claimedCell).heap
    (∃ s e, before.Reclaimable Arena.start 4096 .scan s e ∧
      (ExceptT.run (Action.tryFree idleClient 0 Arena.start 4096 .scan) ⟨before, ()⟩).2 =
        ⟨before.takenBack 0 s e, ()⟩) ∧
      (ExceptT.run (Action.tryFree idleClient 0 (Arena.start + 8) 4096 .scan) ⟨before, ()⟩).1 =
        .ok false := by
  have hlegal : Legal (fun _ _ => True) (start (.empty fourBlocks)) claimedCell := by
    decide +kernel
  have hfreed : (ExceptT.run (Action.tryFree idleClient 0 Arena.start 4096 .scan)
      ⟨((start (.empty fourBlocks)).run claimedCell).heap, ()⟩).1 = .ok true := by
    decide +kernel
  have hcell : ∃ d, ((start (.empty fourBlocks)).run claimedCell).heap.arena.cell? Arena.start =
      some d ∧ d.size = 4096 := by
    decide +kernel
  obtain ⟨d, hd, hsize⟩ := hcell
  obtain ⟨haccepted, heffect, -⟩ :=
    free_accepts_reclaimable idleClient create_fourBlocks hlegal 0 Arena.start 4096 .scan ()
  obtain ⟨-, -, -, -, -, -, hnowhere⟩ :=
    free_accepts_reclaimable idleClient create_fourBlocks hlegal 0 (Arena.start + 8) 4096 .scan ()
  obtain ⟨s, e, hr⟩ := haccepted.1 hfreed
  have hinside : ((start (.empty fourBlocks)).run claimedCell).heap.NoSmallCell (Arena.start + 8) :=
    Or.inl ⟨Arena.start, d, hd, by omega, by omega⟩
  exact ⟨⟨s, e, hr, heffect s e hr⟩, (hnowhere hinside).1⟩

end Machine

end EagerHeap
