import EagerHeap.Proofs.Cycle.Whole
import EagerHeap.Proofs.Run.Reach
/-!
# What a whole cycle reclaims

A cycle that nothing interrupts keeps exactly the live objects and frees all others. `Collected`
lists everything that it changes, and `collect_reclaims` says that in every state that a run reaches
a cycle has this effect.

Main results: `collected_afterCycle` and `collect_reclaims`.
-/

namespace EagerHeap

/-- The size of the cell at an address. -/
def Arena.sizeAt (a : Arena) (x : Nat) : Nat := ((a.cell? x).map Cell.size).getD 0

namespace Heap

variable {h g h' : Heap} {roots : List Nat} {x : Nat} {c : Cell} {k : Collector}

/-- What the completed cycles of the attached collector amount to. -/
def totals (h : Heap) : CycleTotals := (h.collector.map Collector.totals).getD {}

/-- What a whole cycle makes of a heap. It keeps the live objects, frees the lost ones, queues the
finalizers of the finalized ones, and gives the number of freed bytes. -/
structure Collected (h : Heap) (roots live lost finalized : List Nat) (bytes : Nat) (h' : Heap) :
    Prop where
  nodup_live : live.Nodup
  mem_live : ∀ x, x ∈ live ↔ h.Live roots x
  nodup_lost : lost.Nodup
  mem_lost : ∀ x, x ∈ lost ↔ h.arena.isAllocated x = true ∧ ¬ h.Live roots x
  nodup_finalized : finalized.Nodup
  mem_finalized : ∀ x, x ∈ finalized ↔ h.records.hasFinalizer x = true ∧ ¬ h.Reachable roots x
  phase : h'.phase = .idle
  allocated : ∀ x, h'.arena.isAllocated x = true ↔ x ∈ live
  kept : ∀ x c, h.arena.Object x c → x ∈ live →
    ∃ hd, h'.arena.Object x { c with header := hd } ∧ hd.color = .black
  small : ∀ x c, h.arena.Object x c → x ∈ lost → c.isLarge = false →
    ∃ hd, h'.arena.cell? x = some { c with header := hd } ∧ hd.state = .free
  large : ∀ x c, h.arena.Object x c → x ∈ lost → c.isLarge = true →
    h'.arena.cell? x = none ∧
      ∀ j, c.block ≤ j → j < c.block + c.size / blockSize → h'.arena.pages.Free j
  spare : ∀ x c, h.arena.cell? x = some c → c.header.state ≠ .allocated →
    h'.arena.cell? x = some { c with header := c.header.withColor .white }
  memory : h'.arena.memory = h.arena.memory
  workers : h'.workers = h.workers
  pending : h'.records.pending = h.records.pending ++
    finalized.flatMap (fun x => (h.records.finalizers x).map (⟨x, ·⟩)) ++
    lost.flatMap fun x => (h.records.cleanups x).map (⟨0, ·⟩)
  running : h'.records.running = h.records.running
  finalizers : ∀ x, h'.records.finalizers x = if x ∈ finalized then [] else h.records.finalizers x
  cleanups : ∀ x, h'.records.cleanups x = if x ∈ lost then [] else h.records.cleanups x
  bytes : bytes = (lost.map h.arena.sizeAt).sum
  swept : h'.totals.objectsSwept = h.totals.objectsSwept + lost.length
  marked : h'.totals.objectsMarked = h.totals.objectsMarked + live.length

theorem Live.isAllocated
    (hx : h.Live roots x) :
    h.arena.isAllocated x = true :=
  Arena.Reachable.isAllocated hx

/-- The cells that the sweeper frees are the objects that are not live. -/
theorem Marks.mem_lost
    (hm : h.Marks roots g)
    (hs : g.Sound) :
    x ∈ g.arena.cells.filter g.arena.isUnreached ↔
      h.arena.isAllocated x = true ∧ ¬ h.Live roots x := by
  rw [List.mem_filter, Arena.mem_cells hs.layout, Arena.isUnreached_iff, ← hm.alike.isAllocated]
  constructor
  · rintro ⟨-, c, ho, hw⟩
    rcases hm.marked x c ho with ⟨-, hblack⟩ | ⟨hnot, -⟩
    · rw [hw] at hblack
      cases hblack
    · exact ⟨ho.isAllocated, hnot⟩
  · rintro ⟨hal, hnot⟩
    obtain ⟨c, ho⟩ := Arena.exists_object hal
    rcases hm.marked x c ho with ⟨hlive, -⟩ | ⟨-, hw⟩
    · exact absurd hlive hnot
    · exact ⟨⟨c, ho.1⟩, c, ho, hw⟩

/-- The black objects are the live ones. -/
theorem Marks.mem_live
    (hm : h.Marks roots g)
    (hs : g.Sound) :
    x ∈ g.arena.cells.filter g.arena.isBlack ↔ h.Live roots x := by
  rw [List.mem_filter, Arena.mem_cells hs.layout, hm.marked.isBlack_iff]
  constructor
  · exact fun hx => hx.2.2
  · intro hx
    have hal := (hm.alike.isAllocated x).trans hx.isAllocated
    obtain ⟨c, ho⟩ := Arena.exists_object hal
    exact ⟨⟨c, ho.1⟩, hal, hx⟩

/-- What is left of the heap after the last change of phase. -/
theorem afterCycle_of_afterSweep
    (heq : h.afterSweep roots = { g with collector := some k })
    (hphase : g.phase = .sweep) :
    (h.afterCycle roots).arena = g.arena ∧ (h.afterCycle roots).records = g.records ∧
      (h.afterCycle roots).workers = g.workers ∧ (h.afterCycle roots).phase = .idle ∧
      (h.afterCycle roots).totals.objectsSwept = k.totals.objectsSwept + k.swept ∧
      (h.afterCycle roots).totals.objectsMarked = k.totals.objectsMarked + k.marked := by
  unfold afterCycle
  rw [heq]
  refine ⟨rfl, rfl, rfl, ?_, rfl, rfl⟩
  change g.phase.next = _
  rw [hphase]
  rfl

/-! ### What the sweep leaves of the marked heap -/

theorem Frees.finalizers
    {cs : List Cell}
    (hf : Frees g cs h')
    (x : Nat) :
    h'.records.finalizers x = if x ∈ cs.map Cell.addr then [] else g.records.finalizers x := by
  unfold SideRecords.finalizers
  rw [hf.attached]
  split <;> rfl

theorem Frees.cleanups
    {cs : List Cell}
    (hf : Frees g cs h')
    (x : Nat) :
    h'.records.cleanups x = if x ∈ cs.map Cell.addr then [] else g.records.cleanups x := by
  unfold SideRecords.cleanups
  rw [hf.attached]
  split <;> rfl

/-- A freed address holds no object. -/
theorem Frees.isAllocated_of_mem
    {cs : List Cell}
    (hf : Frees g cs h')
    (hx : x ∈ cs.map Cell.addr) :
    h'.arena.isAllocated x = false := by
  obtain ⟨d, hd, rfl⟩ := List.mem_map.1 hx
  unfold Arena.isAllocated
  cases hl : d.isLarge with
  | true => rw [(hf.large d hd hl).1]
  | false =>
      obtain ⟨hdr, hcell, hst⟩ := hf.small d hd hl
      rw [hcell]
      simp [hst]

/-- The freed cell at an address of an object is the cell of that object. -/
theorem Marks.exists_freed
    {cs : List Cell}
    (hm : h.Marks roots g)
    (hcells : ∀ d ∈ cs, g.arena.cell? d.addr = some d)
    (ho : h.arena.Object x c)
    (hx : x ∈ cs.map Cell.addr) :
    ∃ hd, { c with header := hd } ∈ cs ∧ c.addr = x := by
  obtain ⟨d, hd, rfl⟩ := List.mem_map.1 hx
  obtain ⟨hdr, hcell, -⟩ := hm.alike.states _ c ho.1
  obtain rfl := Option.some.inj (hcell.symm.trans (hcells d hd))
  exact ⟨hdr, hd, rfl⟩

theorem Marks.sizeAt
    {d : Cell}
    (hm : h.Marks roots g)
    (hd : g.arena.cell? d.addr = some d) :
    h.arena.sizeAt d.addr = d.size := by
  obtain ⟨b, hdr, hb, heq, -⟩ := hm.alike.exists_cell? hd
  unfold Arena.sizeAt
  rw [hb, heq]
  rfl

section Sweep

variable {cs : List Cell}

/-- The objects after the sweep are the live ones. -/
theorem Marks.isAllocated_iff
    (hm : h.Marks roots g)
    (hf : Frees g cs h')
    (hlost : ∀ x, x ∈ cs.map Cell.addr ↔ h.arena.isAllocated x = true ∧ ¬ h.Live roots x) :
    h'.arena.isAllocated x = true ↔ h.Live roots x := by
  by_cases hx : x ∈ cs.map Cell.addr
  · rw [hf.isAllocated_of_mem hx]
    exact iff_of_false Bool.false_ne_true ((hlost x).1 hx).2
  · have hsame : h'.arena.isAllocated x = h.arena.isAllocated x := by
      rw [← hm.alike.isAllocated]
      unfold Arena.isAllocated
      rw [hf.others x hx]
    rw [hsame]
    refine ⟨fun hal => ?_, Live.isAllocated⟩
    exact Classical.not_not.1 fun hnot => hx ((hlost x).2 ⟨hal, hnot⟩)

/-- A live object is black after the sweep. -/
theorem Marks.exists_black
    (hm : h.Marks roots g)
    (hf : Frees g cs h')
    (hlost : ∀ x, x ∈ cs.map Cell.addr ↔ h.arena.isAllocated x = true ∧ ¬ h.Live roots x)
    (ho : h.arena.Object x c)
    (hx : h.Live roots x) :
    ∃ hd, h'.arena.Object x { c with header := hd } ∧ hd.color = .black := by
  obtain ⟨hd, hcell, hst⟩ := hm.alike.states x c ho.1
  have hmarked : g.arena.Object x { c with header := hd } := ⟨hcell, hst.trans ho.2⟩
  refine ⟨hd, ⟨?_, hmarked.2⟩, ?_⟩
  · rw [hf.others x fun hmem => ((hlost x).1 hmem).2 hx]
    exact hcell
  · exact (hm.marked x _ hmarked).elim And.right fun hnot => absurd hx hnot.1

/-- A cell without an object becomes white and stays the same otherwise. -/
theorem Marks.cell?_spare
    (hm : h.Marks roots g)
    (hf : Frees g cs h')
    (hlost : ∀ x, x ∈ cs.map Cell.addr ↔ h.arena.isAllocated x = true ∧ ¬ h.Live roots x)
    (hx : h.arena.cell? x = some c)
    (hst : c.header.state ≠ .allocated) :
    h'.arena.cell? x = some { c with header := c.header.withColor .white } := by
  rw [hf.others x fun hmem => ?_]
  · exact hm.spare x c hx hst
  · obtain ⟨d, ho⟩ := Arena.exists_object ((hlost x).1 hmem).1
    obtain rfl := Option.some.inj (hx.symm.trans ho.1)
    exact hst ho.2

end Sweep

/-- A whole cycle has the effect of a collection. -/
theorem collected_afterCycle
    (hr : h.Ready)
    (hbudget : 0 < h.config.sweepBudget)
    (roots : List Nat) :
    ∃ k live lost, (h.afterSweep roots).collector = some k ∧
      (h.afterSweep roots).phase = .sweep ∧
      h.Collected roots live lost (h.finalized roots) k.bytes (h.afterCycle roots) := by
  obtain ⟨hm, -⟩ := marks_beforeSweep hr roots
  obtain ⟨cs, g, l, hfrees, hcells, hlist, hl, hsweep, n, heq⟩ :=
    frees_afterSweep hr hbudget roots
  have hsound := (steps_beforeSweep hr.idle roots).sound hr.sound
  obtain ⟨harena, hrecords, hworkers, hidle, hswept, hmarked⟩ :=
    afterCycle_of_afterSweep heq hsweep
  generalize h.beforeSweep roots = b at hm hfrees hcells hlist hl hsound
  obtain ⟨k, hk⟩ := Option.isSome_iff_exists.1 hr.attached
  obtain ⟨l', hl', hcount, hzero, hzero', htotals⟩ := hm.account k hk
  obtain rfl := Option.some.inj (hl.symm.trans hl')
  have hktotals : h.totals = k.totals := by
    unfold totals
    rw [hk]
    rfl
  have hlive := fun x => hm.mem_live (x := x) hsound
  have hlost : ∀ x, x ∈ cs.map Cell.addr ↔ h.arena.isAllocated x = true ∧ ¬ h.Live roots x := by
    intro x
    rw [hlist]
    exact hm.mem_lost hsound
  have hnodup := Arena.nodup_cells hsound.layout
  rw [show (h.afterSweep roots).phase = .sweep by rw [heq]; exact hsweep]
  refine ⟨_, b.arena.cells.filter b.arena.isBlack, cs.map Cell.addr, by rw [heq], rfl, ?_⟩
  constructor
  case nodup_live => exact hnodup.filter _
  case mem_live => exact hlive
  case nodup_lost => exact hlist ▸ hnodup.filter _
  case mem_lost => exact hlost
  case nodup_finalized => exact nodup_finalized h roots
  case mem_finalized => exact fun x => mem_finalized hr
  case phase => exact hidle
  case allocated =>
    intro x
    rw [harena, hlive]
    exact hm.isAllocated_iff hfrees hlost
  case kept =>
    intro x c ho hx
    rw [harena]
    exact hm.exists_black hfrees hlost ho ((hlive x).1 hx)
  case small =>
    intro x c ho hx hsmall
    obtain ⟨hd, hmem, rfl⟩ := hm.exists_freed hcells ho hx
    rw [harena]
    exact hfrees.small { c with header := hd } hmem hsmall
  case large =>
    intro x c ho hx hlarge
    obtain ⟨hd, hmem, rfl⟩ := hm.exists_freed hcells ho hx
    rw [harena]
    exact hfrees.large { c with header := hd } hmem hlarge
  case spare =>
    intro x c hx hst
    rw [harena]
    exact hm.cell?_spare hfrees hlost hx hst
  case memory =>
    rw [harena]
    exact hfrees.memory.trans hm.alike.memory
  case workers => exact hworkers.trans (hfrees.workers.trans hm.workers)
  case pending =>
    have hcleanups : (cs.flatMap fun c => (b.records.cleanups c.addr).map (PendingRecord.mk 0)) =
        (cs.map Cell.addr).flatMap fun x => (h.records.cleanups x).map (PendingRecord.mk 0) := by
      rw [List.flatMap_map]
      exact List.flatMap_congr fun c _ => by rw [hm.cleanups]
    rw [hrecords, hfrees.pending, hm.pending, hcleanups]
  case running => exact (congrArg _ hrecords).trans (hfrees.running.trans hm.running)
  case finalizers =>
    intro x
    rw [hrecords, hfrees.finalizers, hm.finalizers]
    split
    · next hx =>
        have hnone : h.records.hasFinalizer x ≠ true := fun hf =>
          ((hlost x).1 hx).2 (.root (hr.sound.isAllocated_of_hasFinalizer hf) (Or.inr hf))
        rw [SideRecords.hasFinalizer_eq] at hnone
        have hnil : h.records.finalizers x = [] := by simpa using hnone
        rw [hnil, ite_self]
    · rfl
  case cleanups =>
    intro x
    rw [hrecords, hfrees.cleanups, hm.cleanups]
  case bytes =>
    rw [hzero', Nat.zero_add, List.map_map]
    exact congrArg List.sum (List.map_congr_left fun c hc => (hm.sizeAt (hcells c hc)).symm)
  case swept =>
    rw [hswept, hktotals, List.length_map]
    simp only [htotals, hzero, Nat.zero_add]
  case marked =>
    rw [hmarked, hktotals, ← List.countP_eq_length_filter]
    simp only [htotals, hcount]
    rfl

end Heap

/-- A configuration that was checked lets the marker go on. -/
theorem Config.markBudget_pos
    {c : Config}
    (hc : c.check = .ok ()) :
    0 < c.markBudget := by
  refine Nat.pos_of_ne_zero fun hzero => ?_
  unfold check at hc
  simp only [hzero, if_true] at hc
  repeat' split at hc
  all_goals cases hc

/-- A configuration that was checked lets the sweeper go on. -/
theorem Config.sweepBudget_pos
    {c : Config}
    (hc : c.check = .ok ()) :
    0 < c.sweepBudget := by
  refine Nat.pos_of_ne_zero fun hzero => ?_
  unfold check at hc
  simp only [hzero, if_true] at hc
  repeat' split at hc
  all_goals cases hc

namespace Machine

open Heap

variable {P : Machine → Move → Prop} {m : Machine} {ys : List Move}

/-- A run does not change the parameters of the heap. -/
theorem Legal.config
    (hl : Legal P m ys)
    (hm : m.Proper) :
    (m.run ys).heap.config = m.heap.config := by
  have hall := hl.preserves (R := fun m' => m'.Proper ∧ m'.heap.config = m.heap.config) ⟨hm, rfl⟩
    fun m' y hm' hy _ => ⟨hm'.1.apply hy, (hm'.1.steps hy).config.trans hm'.2⟩
  exact hall.2

/-- In every idle state that a run reaches with nothing left to mark, a cycle that nothing
interrupts keeps exactly the live objects and frees all others. -/
theorem collect_reclaims
    {σ : Type} {hooks : Hooks σ} {memory : Nat} {cfg : Config} {h : Heap} {w : World σ}
    (hk : hooks.Silent)
    (hc : Heap.create memory cfg = .ok h)
    (hl : Legal P (start h) ys)
    (hw : w.heap = ((start h).run ys).heap)
    (hidle : w.heap.phase = .idle)
    (hattached : w.heap.collector.isSome = true)
    (hbarrier : w.heap.barrier = #[])
    (roots : List Nat) :
    ∃ bytes w' live lost finalized,
      ExceptT.run (Action.collect hooks fun _ => roots) w = (.ok bytes, w') ∧
        w.heap.Collected roots live lost finalized bytes w'.heap := by
  have hproper := proper_start hc
  have hs : w.heap.Sound := hw ▸ (hl.proper hproper).sound
  have hbudget : 0 < w.heap.config.sweepBudget := by
    obtain ⟨hcheck, rfl⟩ := create_eq_ok hc
    rw [hw, hl.config hproper]
    exact Config.sweepBudget_pos hcheck
  obtain ⟨k, live, lost, hafter, hsweep, hcollected⟩ :=
    collected_afterCycle ⟨hs, hidle, hattached, hbarrier⟩ hbudget roots
  obtain ⟨w', hrun, hw'⟩ := gives_collect hk hidle hsweep hafter w rfl
  exact ⟨k.bytes, w', live, lost, _, hrun, hw' ▸ hcollected⟩

/-- A client that does nothing. -/
def idleClient : Hooks Unit where
  onEvent _ w := w
  onTransition _ _ w := w
  onRecord _ _ := pure ()

theorem silent_idleClient : idleClient.Silent := ⟨fun _ _ => rfl, fun _ _ _ => rfl⟩

/-- Three objects, of which the first one holds the address of the second one. -/
def linkedBuffers : List Move :=
  [.attachCollector, .carveRun 1 .scan, .carveRun 1 .noScan, .carveRun 1 .scan,
    .write (Arena.blockBase 0) 3 (Arena.blockBase 1)]

theorem collect_reclaims_linked :
    ∃ bytes w' live lost finalized,
      ExceptT.run (Action.collect idleClient fun _ => [Arena.blockBase 0])
          ⟨((start (.empty fourBlocks)).run linkedBuffers).heap, ()⟩ = (.ok bytes, w') ∧
        ((start (.empty fourBlocks)).run linkedBuffers).heap.Collected [Arena.blockBase 0] live
          lost finalized bytes w'.heap := by
  have hlegal : Legal (fun _ _ => True) (start (.empty fourBlocks)) linkedBuffers := by
    decide +kernel
  have hidle : ((start (.empty fourBlocks)).run linkedBuffers).heap.phase = .idle := by
    decide +kernel
  have hattached :
      ((start (.empty fourBlocks)).run linkedBuffers).heap.collector.isSome = true := by
    decide +kernel
  have hbarrier : ((start (.empty fourBlocks)).run linkedBuffers).heap.barrier = #[] := by
    decide +kernel
  generalize hm : (start (.empty fourBlocks)).run linkedBuffers = m at hidle hattached hbarrier ⊢
  exact collect_reclaims (w := ⟨m.heap, ()⟩) silent_idleClient create_fourBlocks hlegal
    (congrArg Machine.heap hm).symm hidle hattached hbarrier _

/-- A worker allocates an object, a cycle marks it, and the worker frees it. -/
def parkedBlack : List Move :=
  [.addWorker, .attachCollector, .carveBlock quarterBlock, .setCursor 0 quarterBlock 0,
    .claim 0 quarterBlock, .begin, .shadeRoots [Arena.blockBase 0], .terminate,
    .finishMarking [Arena.blockBase 0], .resurrect, .enterSweep, .zeroSlots, .startSweep,
    .sweepStep 1, .finish, .closeCycle, .free 0 (Arena.blockBase 0) 4096 (some .scan)]

/-- A cycle does not leave every cached cell as it was: it makes this one white. -/
theorem collect_repaints_cached :
    Legal (fun _ _ => True) (start (.empty fourBlocks)) parkedBlack ∧
      ((start (.empty fourBlocks)).run parkedBlack).heap.phase = .idle ∧
      ((start (.empty fourBlocks)).run parkedBlack).heap.collector.isSome = true ∧
      ((start (.empty fourBlocks)).run parkedBlack).heap.barrier = #[] ∧
      ((start (.empty fourBlocks)).run parkedBlack).heap.arena.cell? (Arena.blockBase 0) =
        some ⟨0, 0, Arena.blockBase 0, 4096, .scan, false, ⟨.cached, .black, 0⟩⟩ ∧
      (ExceptT.run (Action.collect idleClient fun _ => [])
        ⟨((start (.empty fourBlocks)).run parkedBlack).heap, ()⟩).2.heap.arena.cell?
          (Arena.blockBase 0) =
        some ⟨0, 0, Arena.blockBase 0, 4096, .scan, false, ⟨.cached, .white, 0⟩⟩ := by
  decide +kernel

end Machine

end EagerHeap
