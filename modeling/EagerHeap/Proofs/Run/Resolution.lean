import EagerHeap.Proofs.Arena.Resolution
import EagerHeap.Proofs.Heap.Caches
import EagerHeap.Proofs.Heap.Claiming
import EagerHeap.Proofs.Run.Clients
import EagerHeap.Proofs.Run.Store
/-!
# The addresses that are handed out

An allocation takes a cell by its block and its position there, and hands out an address. The address
resolves to the cell that was taken, whether the cell comes from a free list, from a block at a
cursor or from a run of blocks.

Main result: `Machine.addresses_resolved`, with the resolution of all other addresses in every state
of a run.
-/

namespace EagerHeap

namespace Heap

variable {h g : Heap} {s : Span} {b k x : Nat}

theorem HandsOut.startsAt
    (ho : HandsOut h x g)
    (hs : h.Sound)
    (hspan : h.arena.HasSpan b s)
    (hk : k < Block.cellsPer s)
    (hx : x = Arena.blockBase b + k * s.cellSize) :
    g.arena.StartsAt b k x :=
  hx ▸ .small (ho.steps.hasSpan hs hspan) hk

/-- Blocks that are found for a run are handed out. -/
theorem carveRun_ne_none
    {n i : Nat} {shape : Shape} {a' : Arena}
    (hcarve : h.arena.carveRun n = (some i, a')) :
    ((carveRun n shape).run h).1 ≠ .ok none := by
  rw [carveRun_run, hcarve]
  dsimp only
  split
  · split <;> simp
  · simp

/-- A run of blocks is handed out at its head. -/
theorem startsAt_carveRun
    {n i : Nat} {shape : Shape} {a' : Arena}
    (hs : h.Sound)
    (hn : 0 < n)
    (hcarve : h.arena.carveRun n = (some i, a'))
    (hr : (carveRun n shape).run h = (.ok (some x), g)) :
    g.arena.StartsAt i 0 x := by
  obtain ⟨hself, -⟩ := (hs.layout.runTaken hn hcarve).open_blocks hn shape (Arena.blockBase i)
    (n * blockSize) h.phase.allocationColor
  rw [carveRun_run, hcarve] at hr
  dsimp only at hr
  split at hr
  · split at hr
    · cases hr
      exact .large (Arena.hasRun_of_getElem? hself) hn
    · cases hr
  · cases hr

end Heap

namespace Machine

/-- The cell that a move takes for a new object: its block and its position there. -/
def takes (m : Machine) : Move → Option (Nat × Nat)
  | .reuse id s => (m.heap.popFree id s).1.map fun e => (e.block, e.cell)
  | .claim id s => m.heap.claimable? id s
  | .carveRun n _ => (m.heap.arena.carveRun n).1.map fun i => (i, 0)
  | _ => none

variable {m : Machine} {y : Move} {memory : Nat} {c : Config} {h : Heap} {ys : List Move}

open Heap

/-- A move takes no cell and hands out no address, or the address that it hands out is that of the
cell that it takes. -/
theorem Proper.takes_cases
    (hm : m.Proper)
    (hf : m.heap.Shelved)
    (hy : m.Allows y) :
    (m.takes y = none ∧ m.handsOut y = none) ∨
      ∃ b i x, m.takes y = some (b, i) ∧ m.handsOut y = some x ∧
        (m.apply y).heap.arena.StartsAt b i x := by
  cases y with
  | reuse id s =>
      rcases hf.reuse_run_cases hm.sound id s with ⟨hp, hr⟩ | ⟨e, g, hp, hr⟩
      · left
        rw [takes, Machine.handsOut, hp, hr]
        exact ⟨rfl, rfl⟩
      · have hx : m.handsOut (.reuse id s) = some e.addr := by
          rw [Machine.handsOut, hr]
          rfl
        refine Or.inr ⟨e.block, e.cell, e.addr, ?_, hx, ?_⟩
        · rw [takes, hp]
          rfl
        · obtain ⟨⟨hspan, hk, haddr⟩, hstill⟩ := popFree_cases hm.sound.stocked hp
          exact (hm.handsOut hy hx).startsAt hm.sound (hstill.outline.hasSpan.1 hspan) hk haddr
  | claim id s =>
      cases hc : m.heap.claimable? id s with
      | none =>
          left
          rw [takes, Machine.handsOut, claim_eq_none hc]
          exact ⟨hc, rfl⟩
      | some p =>
          obtain ⟨b, i⟩ := p
          have hx : m.handsOut (.claim id s) = some (Arena.blockBase b + i * s.cellSize) := by
            rw [Machine.handsOut, Heap.claim, hc]
          obtain ⟨hspan, hk, -⟩ := claimable?_cases hm.sound hc
          exact Or.inr ⟨b, i, _, hc, hx, (hm.handsOut hy hx).startsAt hm.sound hspan hk rfl⟩
  | carveRun n shape =>
      rcases hcarve : m.heap.arena.carveRun n with ⟨_ | i, a'⟩
      · left
        rw [takes, Machine.handsOut, carveRun_run, hcarve]
        exact ⟨rfl, rfl⟩
      · rcases carveRun_cases hm.sound hy shape with ⟨x, hx, -⟩ | ⟨hnone, -⟩
        · refine Or.inr ⟨i, 0, x, ?_, ?_, startsAt_carveRun hm.sound hy hcarve (Prod.ext hx rfl)⟩
          · rw [takes, hcarve]
            rfl
          · rw [Machine.handsOut, hx]
            rfl
        · exact absurd hnone (carveRun_ne_none hcarve)
  | _ => exact Or.inl ⟨rfl, rfl⟩

/-- A move takes a cell exactly if it hands out an address that resolves to this cell. -/
theorem Proper.takes_iff
    {b i : Nat}
    (hm : m.Proper)
    (hf : m.heap.Shelved)
    (hy : m.Allows y) :
    m.takes y = some (b, i) ↔
      ∃ x d, m.handsOut y = some x ∧ (m.apply y).heap.arena.Object x d ∧
        d.block = b ∧ d.index = i := by
  have hlayout := (hm.apply hy).sound.layout
  rcases hm.takes_cases hf hy with ⟨htakes, hx⟩ | ⟨j, k, x, htakes, hx, hat⟩
  · simp [htakes, hx]
  obtain ⟨-, d, hobj, -⟩ := (hm.handsOut hy hx).fresh hm.sound
  obtain ⟨d', hd', hj, hk⟩ := hlayout.exists_of_startsAt hat
  obtain rfl := Option.some.inj (hobj.1.symm.trans hd')
  rw [htakes, Option.some.injEq, Prod.mk.injEq]
  constructor
  · rintro ⟨rfl, rfl⟩
    exact ⟨x, d, hx, hobj, hj, hk⟩
  · rintro ⟨x', e, hx', he, rfl, rfl⟩
    obtain rfl := Option.some.inj (hx.symm.trans hx')
    obtain rfl := hobj.unique he
    exact ⟨hj.symm, hk.symm⟩

/-- Resolution inverts the formation of addresses, and the addresses that are handed out resolve to
the cells that are taken for them. -/
structure Resolves (m : Machine) : Prop where
  /-- An address resolves to a cell exactly if the cell starts there. -/
  found : ∀ x b i, (∃ d, m.heap.arena.cell? x = some d ∧ d.block = b ∧ d.index = i) ↔
    m.heap.arena.StartsAt b i x
  /-- A cell starts at one address. -/
  addr : ∀ b i x y, m.heap.arena.StartsAt b i x → m.heap.arena.StartsAt b i y → x = y
  /-- Different cells start at different addresses. -/
  cell : ∀ b i b' i' x, m.heap.arena.StartsAt b i x → m.heap.arena.StartsAt b' i' x →
    b = b' ∧ i = i'
  /-- Interior addresses, unused ends of blocks, tails of runs, released runs and blocks that were
  never carved resolve to nothing, as do addresses before the arena, and no other address does. -/
  nothing : ∀ x, m.heap.arena.cell? x = none ↔ m.heap.arena.StartsNothing x
  /-- A cell is taken exactly if an address is handed out that resolves to it. -/
  taken : ∀ y, m.Allows y → ∀ b i, m.takes y = some (b, i) ↔
    ∃ x d, m.handsOut y = some x ∧ (m.apply y).heap.arena.Object x d ∧ d.block = b ∧ d.index = i

theorem Proper.resolves
    (hm : m.Proper)
    (hf : m.heap.Shelved) :
    m.Resolves where
  found := fun _ _ _ => hm.sound.layout.startsAt_iff
  addr := fun _ _ _ _ => hm.sound.layout.startsAt_addr_unique
  cell := fun _ _ _ _ _ => hm.sound.layout.startsAt_cell_unique
  nothing := fun _ => hm.sound.layout.cell?_eq_none_iff
  taken := fun _ hy _ _ => hm.takes_iff hf hy

/-- In every state of a run an address resolves to the cell that starts there, every other address
resolves to nothing, and the next address that is handed out resolves to the cell that is taken. -/
theorem addresses_resolved
    (hc : Heap.create memory c = .ok h)
    (hl : Legal (fun _ _ => True) (start h) ys) :
    ((start h).run ys).Resolves :=
  (hl.proper (proper_start hc)).resolves (hl.shelved (proper_start hc) (shelved_start hc))

/-- Cells of 384 bytes, which leave the last 256 bytes of a block unused. -/
def unevenCells : Span := ⟨⟨8, by decide⟩, .scan⟩

/-- A run of three blocks is released and its first two blocks are taken again. The cells of a block
of uneven cells resolve, the last one among them, and what lies between and behind them does not;
neither do the tail of the run and the block that is still released. -/
theorem addresses_resolved_uneven :
    let ys : List Move :=
      [.addWorker, .carveRun 3 .scan, .attachCollector, .begin, .shadeRoots [], .terminate,
        .finishMarking [], .resurrect, .enterSweep, .zeroSlots, .startSweep, .sweepStep 3, .finish,
        .closeCycle, .carveRun 2 .noScan, .carveBlock unevenCells, .setCursor 0 unevenCells 3,
        .claim 0 unevenCells]
    let m := (start (.empty fourBlocks)).run ys
    let resolve := fun x => (m.heap.arena.cell? x).map fun d => (d.block, d.index)
    m.Resolves ∧
      resolve (Arena.blockBase 3 + 41 * 384) = some (3, 41) ∧
      resolve (Arena.blockBase 3 + 41 * 384 + 8) = none ∧
      resolve (Arena.blockBase 3 + 42 * 384) = none ∧
      resolve (Arena.blockBase 0) = some (0, 0) ∧
      resolve (Arena.blockBase 1) = none ∧
      resolve (Arena.blockBase 2) = none ∧
      m.takes (.claim 0 unevenCells) = some (3, 1) := by
  intro ys m resolve
  have hlegal : Legal (fun _ _ => True) (start (.empty fourBlocks)) ys := by
    decide +kernel
  exact ⟨addresses_resolved create_fourBlocks hlegal, by decide +kernel⟩

end Machine

end EagerHeap
