import EagerHeap.Proofs.Heap.Sound
/-!
# Elementary changes of a heap

Every operation on a heap is a sequence of few kinds of elementary changes. `Tick` lists them: each
`Act` says which object is concerned, and everything that is said about operations later on follows
from what one `Tick` can do. `Tick.cellChange` says this for cells, once and for all.
-/

namespace EagerHeap

/-- What an elementary change does. -/
inductive Act where
  /-- Nothing that concerns objects: lists, counters, scopes, the queue marks of blocks. -/
  | still
  /-- A block of free cells is carved. -/
  | carve
  /-- A new object is handed out. -/
  | birth (x : Nat)
  /-- An object is freed eagerly: its cell goes to a free list. -/
  | park (x : Nat)
  /-- A cell of a free list becomes free. -/
  | uncache (x : Nat)
  /-- An unreached object is freed. -/
  | reclaim (x : Nat)
  /-- A word of an object is written. -/
  | store (x i v : Nat)
  /-- Bytes are copied into an object. -/
  | copy (source target bytes : Nat) (shape : Shape)
  /-- A record is attached to an object. -/
  | attach (x : Nat) (kind : RecordKind)
  /-- The finalizers of an object are queued. -/
  | finalize (x : Nat)
  /-- The cleanups of an object are queued. -/
  | cleanup (x : Nat)
  /-- The queue of records and the running batches change. -/
  | batch
  /-- Objects are marked. -/
  | paint
  /-- A cycle begins: all objects become white. -/
  | begin
  /-- The phase of a running cycle changes. -/
  | turn
  /-- The collector notes how far it came. -/
  | account
deriving DecidableEq, Repr

namespace Heap

/-- The second heap differs from the first one in nothing that concerns objects. -/
structure Still (h h' : Heap) : Prop where
  outline : Arena.SameOutline h.arena h'.arena
  headers : ∀ b k, h'.arena.header? b k = h.arena.header? b k
  memory : h'.arena.memory = h.arena.memory
  config : h'.config = h.config
  phase : h'.phase = h.phase
  records : h'.records = h.records
  barrier : h'.barrier = h.barrier
  collector : h'.collector = h.collector
  stocked : h.Stocked → h'.Stocked

/-- One elementary change of a heap. -/
inductive Tick : Heap → Act → Heap → Prop
  | still {h h' : Heap} (hs : Still h h') : Tick h .still h'
  | carve {h : Heap} {s : Span} {i : Nat} {a' : Arena}
      (hc : h.arena.carveBlock s = (some i, a')) :
      Tick h .carve { h with arena := a' }
  | birthCell {h : Heap} {x : Nat} {c : Cell}
      (hx : h.arena.cell? x = some c) (hs : c.header.state ≠ .allocated) :
      Tick h (.birth x) (h.publish c.block c.index x c.size)
  | birthRun {h : Heap} {n i : Nat} {a' : Arena} (sh : Shape)
      (hn : 0 < n) (hc : h.arena.carveRun n = (some i, a')) :
      Tick h (.birth (Arena.blockBase i))
        ({ h with arena := a'.modifyBlock i (Block.withRun n sh) }.publish i 0 (Arena.blockBase i)
          (n * blockSize))
  | park {h : Heap} {x : Nat} {c : Cell} {s : Span} (id : Nat)
      (hx : h.arena.cell? x = some c) (hs : c.header.state = .allocated)
      (hf : c.header.hasFlag Header.sideRecord = false) (hspan : h.arena.HasSpan c.block s) :
      Tick h (.park x) (h.park id s ⟨x, c.block, c.index⟩)
  | uncache {h : Heap} {x : Nat} {c : Cell}
      (hx : h.arena.cell? x = some c) (hs : c.header.state = .cached) :
      Tick h (.uncache x)
        { h with arena := h.arena.modifyHeader c.block c.index (·.withState .free) }
  | reclaimCell {h : Heap} {x : Nat} {c : Cell}
      (hx : h.arena.cell? x = some c) (hu : c.header.isUnreached = true)
      (hf : c.header.hasFlag Header.sideRecord = false) (hsmall : c.isLarge = false) :
      Tick h (.reclaim x)
        { h with arena := h.arena.modifyHeader c.block c.index (·.withState .free) }
  | reclaimRun {h : Heap} {i n : Nat} {hd : Header} {sh : Shape}
      (hb : h.arena.blocks[i]? = some (.large hd n sh)) (hn : 0 < n)
      (hu : hd.isUnreached = true) (hf : hd.hasFlag Header.sideRecord = false) :
      Tick h (.reclaim (Arena.blockBase i))
        { h with arena := (h.arena.modifyHeader i 0 (·.withState .free)).releaseRun i n }
  | store {h : Heap} {x i : Nat} {c : Cell} (v : Nat)
      (hx : h.arena.cell? x = some c) (hs : c.header.state = .allocated)
      (hi : i < c.size / Word.bytes) :
      Tick h (.store x i v) (h.writeWord x i v)
  | copy {h : Heap} {target bytes : Nat} {c : Cell} (source : Nat)
      (hx : h.arena.cell? target = some c) (hs : c.header.state = .allocated)
      (hb : bytes ≤ c.size) :
      Tick h (.copy source target bytes c.shape) (h.copyBytes source target bytes c.shape)
  | attach {h : Heap} {x : Nat} (kind : RecordKind) (hx : h.arena.isAllocated x = true) :
      Tick h (.attach x kind) (h.attachRecord x kind).2
  | finalize {h : Heap} (x : Nat) : Tick h (.finalize x) (h.resurrect x)
  | cleanup {h : Heap} {x : Nat} (hf : h.records.hasFinalizer x = false) :
      Tick h (.cleanup x)
        { h with
          records := h.records.queueCleanups x
          arena := h.arena.modifyHeaderAt x (·.clearFlag Header.sideRecord) }
  | batch {h : Heap} {r : SideRecords} (hr : r.attached = h.records.attached) :
      Tick h .batch { h with records := r }
  | paint {h : Heap} {a' : Arena} (b : Array Nat) (c : Option Collector)
      (hp : Arena.Recolored h.arena a') :
      Tick h .paint { h with arena := a', barrier := b, collector := c }
  | begin (h : Heap) : Tick h .begin h.resetCycle.nextPhase.2
  | turn {h : Heap} (hp : h.phase ≠ .idle) : Tick h .turn h.nextPhase.2
  | account {h : Heap} {c : Option Collector}
      (hg : h.phase.isMarking = true →
        c.map Collector.gray = h.collector.map Collector.gray) :
      Tick h .account { h with collector := c }

end Heap

/-- What an elementary change does to the header of the cell at an address. -/
inductive HeaderChange (p : Phase) : Act → Nat → Header → Header → Prop
  | same (a : Act) (y : Nat) (hd : Header) : HeaderChange p a y hd hd
  | birth {y : Nat} {hd : Header} (hs : hd.state ≠ .allocated) :
      HeaderChange p (.birth y) y hd (Header.fresh p.allocationColor)
  | park {y : Nat} {hd : Header} (hs : hd.state = .allocated)
      (hf : hd.hasFlag Header.sideRecord = false) :
      HeaderChange p (.park y) y hd (hd.withState .cached)
  | uncache {y : Nat} {hd : Header} (hs : hd.state = .cached) :
      HeaderChange p (.uncache y) y hd (hd.withState .free)
  | reclaim {y : Nat} {hd : Header} (hu : hd.isUnreached = true)
      (hf : hd.hasFlag Header.sideRecord = false) :
      HeaderChange p (.reclaim y) y hd (hd.withState .free)
  | attach {y : Nat} {hd : Header} (kind : RecordKind) (hs : hd.state = .allocated) :
      HeaderChange p (.attach y kind) y hd (hd.setFlag Header.sideRecord)
  | finalize (y : Nat) (hd : Header) :
      HeaderChange p (.finalize y) y hd (hd.clearFlag Header.sideRecord)
  | cleanup (y : Nat) (hd : Header) :
      HeaderChange p (.cleanup y) y hd (hd.clearFlag Header.sideRecord)
  | paint {y : Nat} {hd : Header} {c : Color} (hrank : hd.color.rank ≤ c.rank)
      (hkeep : hd.state ≠ .allocated → c = hd.color) :
      HeaderChange p .paint y hd (hd.withColor c)
  | begin (y : Nat) (hd : Header) : HeaderChange p .begin y hd (hd.withColor .white)

/-- What an elementary change does to what an address resolves to. -/
inductive CellChange (p : Phase) (a : Act) (y : Nat) : Option Cell → Option Cell → Prop
  | absent : CellChange p a y none none
  | kept {c : Cell} {hd : Header} (hc : HeaderChange p a y c.header hd) :
      CellChange p a y (some c) (some { c with header := hd })
  | carved {c : Cell} (ha : a = .carve) (hc : c.header = {}) : CellChange p a y none (some c)
  | born {c : Cell} (ha : a = .birth y) (hc : c.header = Header.fresh p.allocationColor) :
      CellChange p a y none (some c)
  | removed {c : Cell} (ha : a = .reclaim y) (hu : c.header.isUnreached = true)
      (hf : c.header.hasFlag Header.sideRecord = false) : CellChange p a y (some c) none

theorem CellChange.same (p : Phase) (a : Act) (y : Nat) (o : Option Cell) :
    CellChange p a y o o := by
  cases o with
  | none => exact .absent
  | some c => exact .kept (.same a y c.header)

namespace Arena

variable {a : Arena} {x y : Nat} {c : Cell}

/-- The change of one header, as seen from any address. -/
theorem cellChange_modifyHeader
    {p : Phase} {l : Act} {f : Header → Header}
    (hx : a.cell? x = some c)
    (hc : HeaderChange p l x c.header (f c.header))
    (y : Nat) :
    CellChange p l y (a.cell? y) ((a.modifyHeader c.block c.index f).cell? y) := by
  rw [cell?_modifyHeader_of_cell hx]
  by_cases hyx : y = x
  · subst hyx
    rw [if_pos rfl, hx]
    exact .kept hc
  · rw [if_neg hyx]
    exact .same p l y _

theorem cellChange_modifyHeaderAt
    {p : Phase} {l : Act} {f : Header → Header}
    (hc : ∀ c, a.cell? x = some c → HeaderChange p l x c.header (f c.header))
    (y : Nat) :
    CellChange p l y (a.cell? y) ((a.modifyHeaderAt x f).cell? y) := by
  unfold modifyHeaderAt
  cases hx : a.cell? x with
  | none => exact .same p l y _
  | some c => exact cellChange_modifyHeader hx (hc c hx) y

/-- The publication of an object in a cell, as seen from any address. -/
theorem cellChange_publish
    {p : Phase}
    (hx : a.cell? x = some c)
    (hne : c.header.state ≠ .allocated)
    (y : Nat) :
    CellChange p (.birth x) y (a.cell? y)
      ((a.publish c.block c.index x c.size p.allocationColor).cell? y) := by
  unfold publish
  have hcell : (a.withMemory (·.clear (wordIndex x) (c.size / Word.bytes))).cell? x = some c :=
    (a.cell?_withMemory _ x).trans hx
  have hchange := cellChange_modifyHeader hcell
    (f := fun _ => Header.fresh p.allocationColor) (.birth (p := p) hne) y
  rw [cell?_withMemory] at hchange
  exact hchange

/-- What the arena is after a run was opened for a new object, block by block. -/
theorem RunTaken.open_blocks
    {a' : Arena} {i n : Nat}
    (ht : RunTaken a a' i n)
    (hn : 0 < n)
    (sh : Shape) (addr size : Nat) (col : Color) :
    ((a'.modifyBlock i (Block.withRun n sh)).publish i 0 addr size col).blocks[i]? =
        some (.large (Header.fresh col) n sh) ∧
      ∀ j, j ≠ i → ((a'.modifyBlock i (Block.withRun n sh)).publish i 0 addr size col).blocks[j]? =
        a'.blocks[j]? := by
  obtain ⟨⟨hd, sh', hb, -⟩, -⟩ := ht.taken i (Nat.le_refl i) (Nat.lt_add_of_pos_right hn)
  constructor
  · have hrun := getElem?_modifyBlock_self (Block.withRun n sh) hb
    exact getElem?_modifyBlock_self (a := (a'.modifyBlock i (Block.withRun n sh)).withMemory _)
      (Block.modifyHeader (fun _ => Header.fresh col) 0) hrun
  · intro j hj
    have hrun := getElem?_modifyBlock_of_ne (a := a') (Block.withRun n sh) hj
    exact (getElem?_modifyBlock_of_ne (a := (a'.modifyBlock i (Block.withRun n sh)).withMemory _)
      (Block.modifyHeader (fun _ => Header.fresh col) 0) hj).trans hrun

theorem RunTaken.open_layout
    {a' : Arena} {i n : Nat}
    (ht : RunTaken a a' i n)
    (hl : a.Layout)
    (hn : 0 < n)
    (sh : Shape) (addr size : Nat) (col : Color) :
    ((a'.modifyBlock i (Block.withRun n sh)).publish i 0 addr size col).Layout := by
  obtain ⟨hself, hother⟩ := ht.open_blocks hn sh addr size col
  refine hl.openRun hn ht rfl ?_ hself rfl hother
  exact (size_modifyBlock _ _ _).trans (size_modifyBlock a' i _)

/-- What the arena is after a run was closed, block by block. -/
theorem close_blocks
    {i n : Nat} {hd : Header} {sh : Shape}
    (hb : a.blocks[i]? = some (.large hd n sh)) :
    ((a.modifyHeader i 0 (·.withState .free)).releaseRun i n).blocks[i]? =
        some (.large (hd.withState .free) 0 .noScan) ∧
      ∀ j, j ≠ i →
        ((a.modifyHeader i 0 (·.withState .free)).releaseRun i n).blocks[j]? = a.blocks[j]? := by
  constructor
  · have hfreed := getElem?_modifyBlock_self (Block.modifyHeader (·.withState .free) 0) hb
    exact getElem?_modifyBlock_self (a := a.modifyHeader i 0 (·.withState .free))
      (Block.withRun 0 .noScan) hfreed
  · intro j hj
    have hfreed := getElem?_modifyBlock_of_ne (a := a)
      (Block.modifyHeader (·.withState .free) 0) hj
    exact (getElem?_modifyBlock_of_ne (a := a.modifyHeader i 0 (·.withState .free))
      (Block.withRun 0 .noScan) hj).trans hfreed

theorem close_layout
    {i n : Nat} {hd : Header} {sh : Shape}
    (hl : a.Layout)
    (hb : a.blocks[i]? = some (.large hd n sh))
    (hn : 0 < n) :
    ((a.modifyHeader i 0 (·.withState .free)).releaseRun i n).Layout := by
  obtain ⟨hself, hother⟩ := close_blocks hb
  refine hl.closeRun hn hb rfl ?_ hself rfl hother
  exact (size_modifyBlock _ _ _).trans (size_modifyBlock a i _)

theorem cell?_of_live_run
    {i n : Nat} {hd : Header} {sh : Shape}
    (hl : a.Layout)
    (hb : a.blocks[i]? = some (.large hd n sh))
    (hn : 0 < n) :
    a.cell? (blockBase i) =
      some { block := i, index := 0, addr := blockBase i, size := n * blockSize, shape := sh,
             isLarge := true, header := hd } := by
  have hout : a.outline? i = some (.large {} n sh) := by
    rw [outline?, hb]
    rfl
  obtain ⟨hd', hhd, -, hcell⟩ := hl.cell?_large hout hn
  rw [header?, hb] at hhd
  obtain rfl := Option.some.inj hhd
  exact hcell

/-- The opening of a run, as seen from any address. -/
theorem cellChange_openRun
    {a' : Arena} {i n : Nat} {p : Phase}
    (hl : a.Layout)
    (hn : 0 < n)
    (hc : a.carveRun n = (some i, a'))
    (sh : Shape)
    (y : Nat) :
    CellChange p (.birth (blockBase i)) y (a.cell? y)
      (((a'.modifyBlock i (Block.withRun n sh)).publish i 0 (blockBase i) (n * blockSize)
        p.allocationColor).cell? y) := by
  have htaken := hl.runTaken hn hc
  obtain ⟨hself, hother⟩ := htaken.open_blocks hn sh (blockBase i) (n * blockSize)
    p.allocationColor
  obtain ⟨hnone, hcells⟩ := hl.cell?_openRun
    (htaken.open_layout hl hn sh _ _ _) hn htaken rfl hself hother
  rw [hcells]
  by_cases hy : y = blockBase i
  · rw [if_pos hy, hy, hnone]
    exact .born rfl rfl
  · rw [if_neg hy]
    exact .same _ _ _ _

/-- The closing of a run, as seen from any address. -/
theorem cellChange_closeRun
    {i n : Nat} {hd : Header} {sh : Shape} {p : Phase}
    (hl : a.Layout)
    (hb : a.blocks[i]? = some (.large hd n sh))
    (hn : 0 < n)
    (hu : hd.isUnreached = true)
    (hf : hd.hasFlag Header.sideRecord = false)
    (y : Nat) :
    CellChange p (.reclaim (blockBase i)) y (a.cell? y)
      (((a.modifyHeader i 0 (·.withState .free)).releaseRun i n).cell? y) := by
  obtain ⟨hself, hother⟩ := close_blocks hb
  rw [hl.cell?_closeRun (close_layout hl hb hn) hb rfl hself hother]
  by_cases hy : y = blockBase i
  · rw [if_pos hy, hy, cell?_of_live_run hl hb hn]
    exact .removed rfl hu hf
  · rw [if_neg hy]
    exact .same _ _ _ _

/-- A carved block of small cells holds free cells. -/
theorem cellChange_carveBlock
    {a' : Arena} {i : Nat} {s : Span} {p : Phase}
    (hl : a.Layout)
    (h : a.carveBlock s = (some i, a'))
    (y : Nat) :
    CellChange p .carve y (a.cell? y) (a'.cell? y) := by
  obtain ⟨hl', -, hlimit, hnone, hself, hother⟩ := hl.carveBlock h
  by_cases hy : (y - start) / blockSize = i
  · rw [cell?_eq_none_of_block (hy ▸ hnone)]
    cases hcell : a'.cell? y with
    | none => exact .absent
    | some c =>
        obtain ⟨-, b, hb, -, hhd, -⟩ := cell?_eq_some_iff.1 hcell
        rw [hy, hself] at hb
        obtain rfl := Option.some.inj hb
        simp only [Block.ofSpan, Block.header?, Array.getElem?_replicate] at hhd
        split at hhd
        · exact .carved rfl (Option.some.inj hhd).symm
        · cases hhd
  · rw [cell?_congr hlimit (hother _ hy)]
    exact .same p _ y _

end Arena

namespace Heap

variable {h h' : Heap} {l : Act}

theorem arena_copyBytes (h : Heap) (source target bytes : Nat) (sh : Shape) :
    (h.copyBytes source target bytes sh).arena = h.arena.copy source target bytes := by
  have hfold : ∀ (vs : List Nat) (g : Heap), (vs.foldl remember g).arena = g.arena := by
    intro vs
    induction vs with
    | nil => exact fun _ => rfl
    | cons v vs ih =>
        intro g
        rw [List.foldl_cons, ih]
        unfold remember
        split <;> rfl
  cases sh with
  | scan => exact hfold _ _
  | noScan => rfl

@[simp] theorem arena_remember (h : Heap) (v : Nat) : (h.remember v).arena = h.arena := by
  unfold remember
  split <;> rfl

@[simp] theorem arena_writeWord (h : Heap) (x i v : Nat) :
    (h.writeWord x i v).arena = h.arena.write (x + i * Word.bytes) v := by
  rw [writeWord, arena_remember]

/-- What an elementary change does to cells. -/
theorem Tick.cellChange
    (hs : h.Sound)
    (ht : Tick h l h')
    (y : Nat) :
    CellChange h.phase l y (h.arena.cell? y) (h'.arena.cell? y) := by
  cases ht with
  | still hst =>
      rw [hst.outline.cell?_eq_map (fun _ _ hd => hd) (fun b k => by simp [hst.headers b k])]
      simpa using CellChange.same _ _ _ _
  | carve hc => exact Arena.cellChange_carveBlock hs.layout hc y
  | birthCell hx hne =>
      exact Arena.cellChange_publish hx hne y
  | @birthRun n i a' sh hn hc =>
      exact Arena.cellChange_openRun hs.layout hn hc sh y
  | park id hx hst hf hspan => exact Arena.cellChange_modifyHeader hx (.park hst hf) y
  | uncache hx hst => exact Arena.cellChange_modifyHeader hx (.uncache hst) y
  | reclaimCell hx hu hf hsmall => exact Arena.cellChange_modifyHeader hx (.reclaim hu hf) y
  | @reclaimRun i n hd sh hb hn hu hf =>
      exact Arena.cellChange_closeRun hs.layout hb hn hu hf y
  | store v hx hst hi =>
      rw [arena_writeWord, Arena.cell?_write]
      exact .same _ _ _ _
  | copy source hx hst hb =>
      rw [arena_copyBytes, Arena.cell?_copy]
      exact .same _ _ _ _
  | @attach x kind hx =>
      rw [attachRecord, if_pos hx]
      refine Arena.cellChange_modifyHeaderAt (fun c hc => ?_) y
      obtain ⟨d, hd, hst⟩ := Arena.isAllocated_iff.1 hx
      rw [hd] at hc
      obtain rfl := Option.some.inj hc
      exact .attach kind hst
  | finalize x =>
      unfold resurrect
      simp only
      split
      · exact .same _ _ _ _
      · exact Arena.cellChange_modifyHeaderAt (fun c _ => .finalize x c.header) y
  | @cleanup x hf => exact Arena.cellChange_modifyHeaderAt (fun c _ => .cleanup x c.header) y
  | batch hr => exact .same _ _ _ _
  | paint b c hp =>
      cases hy : h.arena.cell? y with
      | none =>
          rw [hp.outline.cell?_eq_none hy]
          exact .absent
      | some d =>
          obtain ⟨col, hcell, hrank, hkeep⟩ := hp.cell? hy
          rw [hcell]
          exact .kept (.paint hrank hkeep)
  | begin =>
      have heq := h.arena.cell?_resetColors y
      cases hy : h.arena.cell? y with
      | none =>
          rw [hy] at heq
          exact heq ▸ .absent
      | some d =>
          rw [hy] at heq
          exact heq ▸ .kept (.begin y d.header)
  | turn hp => exact .same _ _ _ _
  | account hg => exact .same _ _ _ _

end Heap

end EagerHeap
