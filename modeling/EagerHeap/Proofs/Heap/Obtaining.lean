import EagerHeap.Proofs.Heap.Births
import EagerHeap.Proofs.Heap.Claiming
import EagerHeap.Proofs.Size.Policy
/-!
# Allocations of bytes

An allocation of bytes hands out an object with room for them where no object was, or fails for want of
room.

Main results: `Obtaining.provides` and `Obtaining.ofRoom`.
-/

namespace EagerHeap

/-- The failure is that of a size that is no machine word, or for want of room. -/
def Failure.OfRoom : Failure → Prop
  | .overflow _ | .capacityOverflow | .outOfMemory _ => True
  | _ => False

theorem ofRoom_of_nextCapacity
    {old needed size : Nat} {o : Failure}
    (hpos : 0 < size)
    (hc : nextCapacity old needed size = .error o) :
    o.OfRoom := by
  rw [nextCapacity, if_neg hpos.ne'] at hc
  split at hc
  · cases hc
    trivial
  · rw [Capacity.filled] at hc
    split at hc
    · split at hc
      · cases hc
      · cases hc
        trivial
    · cases hc
      trivial

/-- The cell is one that an allocation of bytes hands out: it has room and the shape, it is small if
the bytes fit into a small cell, and no record is attached. -/
structure Cell.Serves (c : Cell) (size : Nat) (sh : Shape) : Prop where
  room : size ≤ c.size
  shape : c.shape = sh
  small : size ≤ SizeClass.greatest → c.isLarge = false
  bare : c.header.hasFlag Header.sideRecord = false

namespace Heap

variable {h g f : Heap} {id size n x y : Nat} {s : Span} {sh : Shape} {c d : Cell}
  {r : Except Failure Nat}

/-! ### What an allocation hands out -/

theorem HandsOut.object_of_span
    {b k : Nat}
    (ho : HandsOut h x g)
    (hs : h.Sound)
    (hspan : h.arena.HasSpan b s)
    (hk : k < Block.cellsPer s)
    (hx : x = Arena.blockBase b + k * s.cellSize) :
    ∃ c, g.arena.Object x c ∧ c.size = s.cellSize ∧ c.shape = s.shape ∧ c.isLarge = false := by
  obtain ⟨hd, -, hcell⟩ :=
    (ho.steps.sound hs).layout.cell?_small (ho.steps.hasSpan hs hspan) hk
  obtain ⟨-, d, hobj, -⟩ := ho.fresh hs
  rw [← hx] at hcell
  obtain rfl := Option.some.inj (hobj.1.symm.trans hcell)
  exact ⟨_, hobj, rfl, rfl, rfl⟩

/-- A cell of a free list that is handed out again is a cell of its span. -/
theorem reuse_object
    (hs : h.Sound)
    (hr : (reuse id s).run h = (.ok (some x), g)) :
    HandsOut h x g ∧
      ∃ c, g.arena.Object x c ∧ c.size = s.cellSize ∧ c.shape = s.shape ∧ c.isLarge = false := by
  rcases reuse_cases hs id s with ⟨y, hy, ho⟩ | ⟨hnone, -⟩
  · rw [hr] at hy ho
    obtain rfl := Option.some.inj (Except.ok.inj hy)
    refine ⟨ho, ?_⟩
    rw [reuse_run] at hr
    rcases hp : h.popFree id s with ⟨_ | e, p⟩
    · rw [hp] at hr
      cases hr
    · rw [hp] at hr
      obtain ⟨⟨hspan, hk, haddr⟩, hstill⟩ := popFree_cases hs.stocked hp
      dsimp only at hr
      split at hr
      · cases hr
        exact ho.object_of_span hs (hstill.outline.hasSpan.1 hspan) hk haddr
      · cases hr
  · exact absurd (congrArg Prod.fst hr) (hnone x)

/-- A cell that is claimed is a cell of its span. -/
theorem claim_object
    (hs : h.Sound)
    (hc : h.claim id s = (some x, g)) :
    HandsOut h x g ∧
      ∃ c, g.arena.Object x c ∧ c.size = s.cellSize ∧ c.shape = s.shape ∧ c.isLarge = false := by
  rcases claim_cases hs id s with ⟨y, hy, ho⟩ | ⟨hnone, -⟩
  · rw [hc] at hy ho
    obtain rfl := Option.some.inj hy
    refine ⟨ho, ?_⟩
    rw [claim] at hc
    split at hc
    · next b k hclaim =>
        obtain ⟨hspan, hk, -⟩ := claimable?_cases hs hclaim
        exact ho.object_of_span hs hspan hk
          (Option.some.inj (congrArg Prod.fst hc)).symm
    · cases hc
  · rw [hc] at hnone
    cases hnone

/-- A run of blocks that is handed out holds its bytes. -/
theorem carveRun_object
    (hs : h.Sound)
    (hn : 0 < n)
    (hr : (carveRun n sh).run h = (.ok (some x), g)) :
    HandsOut h x g ∧ ∃ c, g.arena.Object x c ∧ c.size = n * blockSize ∧ c.shape = sh := by
  rcases carveRun_cases hs hn sh with ⟨y, hy, ho⟩ | ⟨hnone, -⟩
  · rw [hr] at hy ho
    obtain rfl := Option.some.inj (Except.ok.inj hy)
    refine ⟨ho, ?_⟩
    obtain ⟨-, d, hobj, -⟩ := ho.fresh hs
    rw [carveRun_run] at hr
    rcases hcarve : h.arena.carveRun n with ⟨_ | i, a'⟩
    · rw [hcarve] at hr
      cases hr
    · rw [hcarve] at hr
      obtain ⟨hself, -⟩ := (hs.layout.runTaken hn hcarve).open_blocks hn sh (Arena.blockBase i)
        (n * blockSize) h.phase.allocationColor
      dsimp only at hr
      split at hr
      · split at hr
        · cases hr
          have hcell := Arena.cell?_of_live_run (ho.steps.sound hs).layout hself hn
          obtain rfl := Option.some.inj (hobj.1.symm.trans hcell)
          exact ⟨_, hobj, rfl, rfl⟩
        · cases hr
      · cases hr
  · rw [hr] at hnone
    cases hnone

/-- The second heap results from the first one by an allocation of bytes: an object that serves them
and holds zeros only, where no object was. -/
structure Provides (h : Heap) (x size : Nat) (sh : Shape) (g : Heap) : Prop where
  steps : Steps (fun l => l = .still ∨ l = .carve ∨ l = .birth x) h g
  absent : h.arena.isAllocated x = false
  object : ∃ c, g.arena.Object x c ∧ c.Serves size sh
  zeros : ∀ c, g.arena.Object x c → ∀ i < c.size / Word.bytes, g.readWord x i = 0

/-- Carving blocks beforehand makes no difference. -/
theorem HandsOut.provides
    (ho : HandsOut h x g)
    (hbefore : Steps (fun l => l = .still ∨ l = .carve) f h)
    (hs : f.Sound)
    (hobj : ∃ c, g.arena.Object x c ∧ size ≤ c.size ∧ c.shape = sh ∧
      (size ≤ SizeClass.greatest → c.isLarge = false)) :
    f.Provides x size sh g := by
  have hh := hbefore.sound hs
  obtain ⟨hnone, k, hk, hfresh, hzeros⟩ := ho.fresh hh
  obtain ⟨c, hc, hroom, hshape, hsmall⟩ := hobj
  obtain rfl := hc.unique hk
  have hbare : c.header.hasFlag Header.sideRecord = false := by
    rw [hfresh]
    exact Header.hasFlag_fresh ..
  refine ⟨?_, ?_, ⟨c, hc, hroom, hshape, hsmall, hbare⟩, fun d hd i hi => ?_⟩
  · refine (hbefore.mono fun l hl => ?_).trans (ho.steps.mono fun l hl => ?_)
    · rcases hl with rfl | rfl
      · exact Or.inl rfl
      · exact Or.inr (Or.inl rfl)
    · rcases hl with rfl | rfl
      · exact Or.inl rfl
      · exact Or.inr (Or.inr rfl)
  · rw [Bool.eq_false_iff]
    intro hal
    obtain ⟨c, hx, hst⟩ := Arena.isAllocated_iff.1 hal
    obtain ⟨hd, hx', hst'⟩ := hbefore.stays hs hx hst (by simp) (by simp)
    rw [Arena.isAllocated_iff.2 ⟨_, hx', hst'⟩] at hnone
    cases hnone
  · obtain rfl := hd.unique hc
    rw [readWord_eq (ho.steps.sound hh).layout hc.1]
    exact hzeros i hi

theorem Claiming.provides
    (hc : Claiming id s h r g)
    (hs : h.Sound)
    (hr : r = .ok x)
    (hbefore : Steps (fun l => l = .still ∨ l = .carve) f h)
    (hf : f.Sound) :
    f.Provides x s.cellSize s.shape g := by
  induction hc with
  | claimed hc =>
      cases hr
      obtain ⟨ho, c, hobj, hsize, hshape, hsmall⟩ := claim_object hs hc
      exact ho.provides hbefore hf ⟨c, hobj, hsize.ge, hshape, fun _ => hsmall⟩
  | moved hnone hb hrest ih =>
      have hmoved := steps_moved hs hb id
      exact ih (hmoved.sound hs) hr (hbefore.trans (hmoved.mono fun l hl => Or.inl hl))
  | @carved h g b y a' hnone hempty hb hc =>
      cases hr
      have hcarve : Steps (fun l => l = .still ∨ l = .carve) h { h with arena := a' } :=
        Steps.single (Or.inr rfl) (.carve hb)
      obtain ⟨-, -, -, -, hself, -⟩ := hs.layout.carveBlock hb
      have hmove : Still { h with arena := a' } ({ h with arena := a' }.setCursor id s ⟨b, 0⟩) :=
        still_setCursor ((hcarve.sound hs).layout.hasSpan_of_getElem? hself)
      have hcarved := hcarve.trans (hmove.steps.mono fun l hl => Or.inl hl)
      obtain ⟨ho, c, hobj, hsize, hshape, hsmall⟩ := claim_object (hcarved.sound hs) hc
      exact ho.provides (hbefore.trans hcarved) hf ⟨c, hobj, hsize.ge, hshape, fun _ => hsmall⟩
  | exhausted => cases hr

theorem Claiming.ofRoom
    {o : Failure}
    (hc : Claiming id s h r g)
    (hr : r = .error o) :
    o.OfRoom := by
  induction hc with
  | claimed => cases hr
  | moved _ _ _ ih => exact ih hr
  | carved => cases hr
  | exhausted =>
      cases hr
      trivial

/-- How an allocation of bytes goes that nothing interrupts, with its outcome and the heap that it
leaves. -/
inductive Obtaining (id size : Nat) (sh : Shape) : Heap → Except Failure Nat → Heap → Prop
  /-- The latest cell of the free list is handed out again. -/
  | reused {h g : Heap} {k : SizeClass} {x : Nat} (hk : SizeClass.forSize? size = some k)
      (hr : (reuse id ⟨k, sh⟩).run h = (.ok (some x), g)) : Obtaining id size sh h (.ok x) g
  /-- The free list is empty, and a free cell is looked for. -/
  | searched {h g : Heap} {k : SizeClass} {r : Except Failure Nat}
      (hk : SizeClass.forSize? size = some k) (hc : Claiming id ⟨k, sh⟩ h r g) :
      Obtaining id size sh h r g
  /-- A run of blocks is handed out as a large object. -/
  | carved {h g : Heap} {x : Nat} (hk : SizeClass.forSize? size = none)
      (hr : (carveRun (blocksFor (max size 1)) sh).run (h.count id .slowAllocations 1) =
        (.ok (some x), g)) : Obtaining id size sh h (.ok x) g
  /-- No run of blocks is left. -/
  | exhausted {h : Heap} {o : Failure} (ho : o.OfRoom) :
      Obtaining id size sh h (.error o) (h.count id .slowAllocations 1)

theorem Obtaining.provides
    (ho : Obtaining id size sh h r g)
    (hs : h.Sound)
    (hr : r = .ok x) :
    h.Provides x size sh g := by
  have hnothing : Steps (fun l => l = .still ∨ l = .carve) h h := Steps.refl h
  cases ho with
  | reused hk hreuse =>
      cases hr
      obtain ⟨ho, c, hobj, hsize, hshape, hsmall⟩ := reuse_object hs hreuse
      exact ho.provides hnothing hs
        ⟨c, hobj, hsize ▸ SizeClass.le_size hk, hshape, fun _ => hsmall⟩
  | @searched _ k _ hk hc =>
      obtain ⟨hsteps, habsent, ⟨c, hobj, hserves⟩, hzeros⟩ := hc.provides hs hr hnothing hs
      have hfits : k.size ≤ SizeClass.greatest := (Span.cellSize_bounds ⟨k, sh⟩).2
      exact ⟨hsteps, habsent, ⟨c, hobj, (SizeClass.le_size hk).trans hserves.room, hserves.shape,
        fun _ => hserves.small hfits, hserves.bare⟩, hzeros⟩
  | carved hk hcarve =>
      cases hr
      have hcounted := (still_count h id .slowAllocations 1).steps
      obtain ⟨ho, c, hobj, hsize, hshape⟩ :=
        carveRun_object (hcounted.sound hs) (blocksFor_pos size) hcarve
      have hle := le_blocksFor (max size 1)
      refine ho.provides (hcounted.mono fun l hl => Or.inl hl) hs
        ⟨c, hobj, by omega, hshape, fun hfits => ?_⟩
      obtain ⟨k, hsome⟩ := SizeClass.exists_forSize hfits
      cases hk.symm.trans hsome
  | exhausted => cases hr

theorem Obtaining.ofRoom
    {o : Failure}
    (ho : Obtaining id size sh h r g)
    (hr : r = .error o) :
    o.OfRoom := by
  cases ho with
  | reused | carved => cases hr
  | searched hk hc => exact hc.ofRoom hr
  | exhausted ho =>
      cases hr
      exact ho

end Heap

end EagerHeap
