import EagerHeap.Proofs.Sweeping.Operations
/-!
# What the clients of a heap own

Free lists, cursors, registries and scopes belong to the workers. Stores, side records, marking and
sweeping change none of them, and the clock of the transitions stands still as well; this module says
so for each operation once.

Main results: `clients_markStep`, `clients_resurrectAll` and `clients_sweepStep`.
-/

namespace EagerHeap

/-- What the workers of a heap own, and the clock by which scopes tell a sweep from an earlier one. -/
structure Clients where
  /-- The live workers. -/
  workers : List Worker
  /-- What the ended workers counted. -/
  retired : Tally
  /-- The number of the next worker. -/
  nextWorker : Nat
  /-- Every registry that was made. -/
  registries : Array Registry
  /-- Every scope that was entered. -/
  scopes : Array Scope
  /-- The number of transitions so far. -/
  epoch : Nat
  /-- The epoch of the latest transition into the sweeping phase. -/
  lastSweep : Nat

namespace Heap

/-- What the workers of a heap own. -/
def clients (h : Heap) : Clients :=
  ⟨h.workers, h.retired, h.nextWorker, h.registries, h.scopes, h.epoch, h.lastSweep⟩

variable {h h' : Heap} {n : Nat}

theorem workers_of_clients (hc : h'.clients = h.clients) : h'.workers = h.workers :=
  congrArg Clients.workers hc

theorem retired_of_clients (hc : h'.clients = h.clients) : h'.retired = h.retired :=
  congrArg Clients.retired hc

theorem nextWorker_of_clients (hc : h'.clients = h.clients) : h'.nextWorker = h.nextWorker :=
  congrArg Clients.nextWorker hc

theorem registries_of_clients (hc : h'.clients = h.clients) : h'.registries = h.registries :=
  congrArg Clients.registries hc

theorem scopes_of_clients (hc : h'.clients = h.clients) : h'.scopes = h.scopes :=
  congrArg Clients.scopes hc

theorem epoch_of_clients (hc : h'.clients = h.clients) : h'.epoch = h.epoch :=
  congrArg Clients.epoch hc

theorem lastSweep_of_clients (hc : h'.clients = h.clients) : h'.lastSweep = h.lastSweep :=
  congrArg Clients.lastSweep hc

@[simp] theorem clients_withArena (h : Heap) (a : Arena) :
    { h with arena := a }.clients = h.clients := rfl

@[simp] theorem clients_publish (h : Heap) (block cell addr size : Nat) :
    (h.publish block cell addr size).clients = h.clients :=
  clients_withArena h _

/-! ### Stores and side records -/

@[simp] theorem clients_remember (h : Heap) (v : Nat) : (h.remember v).clients = h.clients := by
  unfold remember
  split <;> rfl

@[simp] theorem clients_writeWord (h : Heap) (obj i v : Nat) :
    (h.writeWord obj i v).clients = h.clients := by
  rw [writeWord, clients_remember, clients_withArena]

theorem clients_foldl_remember (vs : List Nat) (h : Heap) :
    (vs.foldl remember h).clients = h.clients := by
  induction vs generalizing h with
  | nil => rfl
  | cons v vs ih => exact (ih (h.remember v)).trans (clients_remember h v)

@[simp] theorem clients_copyBytes (h : Heap) (source target bytes : Nat) (shape : Shape) :
    (h.copyBytes source target bytes shape).clients = h.clients := by
  cases shape with
  | scan => exact clients_foldl_remember _ _
  | noScan => rfl

@[simp] theorem clients_attachRecord (h : Heap) (addr : Nat) (kind : RecordKind) :
    (h.attachRecord addr kind).2.clients = h.clients := by
  rw [attachRecord]
  split <;> rfl

@[simp] theorem clients_resurrect (h : Heap) (addr : Nat) :
    (h.resurrect addr).clients = h.clients := by
  rw [resurrect]
  dsimp only
  split <;> rfl

@[simp] theorem clients_endBatch (h : Heap) (batch : List PendingRecord) :
    (h.endBatch batch).clients = h.clients := rfl

/-! ### Blocks -/

@[simp] theorem clients_takePartial (h : Heap) (s : Span) :
    (h.takePartial s).2.clients = h.clients := by
  rw [takePartial]
  split <;> rfl

@[simp] theorem clients_offer (h : Heap) (i : Nat) : (h.offer i).clients = h.clients := by
  rw [offer]
  split <;> rfl

@[simp] theorem clients_offerIfFree (h : Heap) (i : Nat) :
    (h.offerIfFree i).clients = h.clients := by
  rw [offerIfFree]
  split
  · exact clients_offer h i
  · rfl

@[simp] theorem clients_carveBlock (h : Heap) (s : Span) :
    ((carveBlock s).run h).2.clients = h.clients := by
  rw [carveBlock_run]
  rcases h.arena.carveBlock s with ⟨_ | i, a'⟩ <;> rfl

@[simp] theorem clients_carveRun (h : Heap) (n : Nat) (shape : Shape) :
    ((carveRun n shape).run h).2.clients = h.clients := by
  rw [carveRun_run]
  rcases h.arena.carveRun n with ⟨_ | i, a'⟩
  · rfl
  · dsimp only
    split
    · split <;> rfl
    · rfl

/-! ### Marking -/

@[simp] theorem clients_marking (h : Heap) (f : Marker → Marker) :
    (h.marking f).clients = h.clients := by
  rw [marking]
  split <;> rfl

@[simp] theorem clients_shadeRoots (h : Heap) (roots : List Nat) :
    (h.shadeRoots roots).clients = h.clients :=
  clients_marking _ _

@[simp] theorem clients_drainBarrier (h : Heap) : h.drainBarrier.clients = h.clients :=
  clients_marking _ _

@[simp] theorem clients_markStep (h : Heap) (n : Nat) : (h.markStep n).clients = h.clients :=
  (clients_marking _ _).trans (clients_drainBarrier h)

@[simp] theorem clients_markAll (h : Heap) : h.markAll.clients = h.clients :=
  (clients_marking _ _).trans (clients_drainBarrier h)

theorem clients_foldl_resurrect (xs : List Nat) (h : Heap) :
    (xs.foldl resurrect h).clients = h.clients := by
  induction xs generalizing h with
  | nil => rfl
  | cons x xs ih => exact (ih (h.resurrect x)).trans (clients_resurrect h x)

@[simp] theorem clients_resurrectAll (h : Heap) : h.resurrectAll.2.clients = h.clients := by
  rw [resurrectAll]
  split
  · rfl
  · rw [clients_markAll, clients_marking, clients_foldl_resurrect]

/-! ### Sweeping -/

@[simp] theorem clients_modifyCollector (h : Heap) (f : Collector → Collector) :
    (h.modifyCollector f).clients = h.clients := rfl

@[simp] theorem clients_isDoomed (h : Heap) (header : Header) (addr : Nat) :
    (h.isDoomed header addr).2.clients = h.clients := by
  simp only [isDoomed, consultRecords_eq]
  split
  · split
    · exact clients_resurrect h addr
    · rfl
  · rfl

@[simp] theorem clients_sweepCell (h : Heap) (block i size : Nat) :
    (h.sweepCell block i size).2.clients = h.clients := by
  rw [sweepCell]
  split
  · split
    · dsimp only
      split <;> exact clients_isDoomed h _ _
    · rfl
  · rfl

@[simp] theorem clients_sweepCells (block size : Nat) (n i : Nat) (h : Heap) :
    (h.sweepCells block size i n).2.clients = h.clients := by
  induction n generalizing h i with
  | zero => rfl
  | succ n ih => exact (ih (i + 1) _).trans (clients_sweepCell h block i size)

@[simp] theorem clients_sweepRun (h : Heap) (block : Nat) (header : Header) (run : Nat) :
    (h.sweepRun block header run).2.clients = h.clients := by
  rw [sweepRun]
  split
  · dsimp only
    split <;> exact clients_isDoomed h _ _
  · rfl

@[simp] theorem clients_sweepBlock (h : Heap) (block : Nat) :
    (h.sweepBlock block).2.clients = h.clients := by
  rw [sweepBlock]
  split
  · dsimp only
    split
    · rw [clients_offer, clients_sweepCells]
    · exact clients_sweepCells _ _ _ _ h
  · exact clients_sweepRun h _ _ _
  · rfl

@[simp] theorem clients_sweepBlocks (n block : Nat) (h : Heap) :
    (h.sweepBlocks block n).2.clients = h.clients := by
  induction n generalizing h block with
  | zero => rfl
  | succ n ih => exact (ih (block + 1) _).trans (clients_sweepBlock h block)

@[simp] theorem clients_sweepStep (h : Heap) (n : Nat) : (h.sweepStep n).clients = h.clients := by
  rw [sweepStep]
  split
  · rfl
  · exact (clients_modifyCollector _ _).trans (clients_sweepBlocks _ _ h)

/-! ### Cycles -/

@[simp] theorem clients_closeCycle (h : Heap) : h.closeCycle.2.clients = h.clients := by
  rw [closeCycle]
  split <;> rfl

end Heap

end EagerHeap
