import EagerHeap.Proofs.Heap.Preservation
/-!
# What elementary changes leave alone

Only the collector changes its own state and the phase of the heap, only what is done to side
records changes side records, and nothing changes the parameters of the heap.

Main results: `Tick.sameCycle`, `Tick.records` and `Tick.config`.
-/

namespace EagerHeap

/-- The elementary changes by which a cycle goes on. -/
def Act.OfCycle : Act → Prop
  | .paint | .begin | .turn | .account => True
  | _ => False

/-- The elementary changes of side records. -/
def Act.OfRecords : Act → Prop
  | .attach _ _ | .finalize _ | .cleanup _ | .batch => True
  | _ => False

namespace Heap

/-- The collector is where it was, and the parameters are the same. -/
structure SameCycle (h h' : Heap) : Prop where
  phase : h'.phase = h.phase
  collector : h'.collector = h.collector
  config : h'.config = h.config

variable {h h' h'' : Heap} {l : Act}

theorem SameCycle.refl (h : Heap) : SameCycle h h := ⟨rfl, rfl, rfl⟩

theorem SameCycle.trans
    (h₁ : SameCycle h h')
    (h₂ : SameCycle h' h'') :
    SameCycle h h'' :=
  ⟨h₂.phase.trans h₁.phase, h₂.collector.trans h₁.collector, h₂.config.trans h₁.config⟩

theorem sameCycle_publish (h : Heap) (b k addr size : Nat) :
    SameCycle h (h.publish b k addr size) := by
  unfold publish
  exact ⟨rfl, rfl, rfl⟩

theorem sameCycle_park (h : Heap) (id : Nat) (s : Span) (e : FreeEntry) :
    SameCycle h (h.park id s e) := by
  unfold park pushFree modifyWorker
  exact ⟨rfl, rfl, rfl⟩

theorem sameCycle_remember (h : Heap) (v : Nat) : SameCycle h (h.remember v) := by
  unfold remember
  split <;> exact ⟨rfl, rfl, rfl⟩

theorem sameCycle_foldl_remember (vs : List Nat) (h : Heap) :
    SameCycle h (vs.foldl remember h) := by
  induction vs generalizing h with
  | nil => exact SameCycle.refl h
  | cons v vs ih => exact (sameCycle_remember h v).trans (ih _)

theorem sameCycle_writeWord (h : Heap) (x i v : Nat) : SameCycle h (h.writeWord x i v) := by
  unfold writeWord
  generalize h.arena.write (x + i * Word.bytes) v = a'
  have hwritten : SameCycle h { h with arena := a' } := ⟨rfl, rfl, rfl⟩
  exact hwritten.trans (sameCycle_remember _ v)

theorem sameCycle_copyBytes (h : Heap) (source target bytes : Nat) (sh : Shape) :
    SameCycle h (h.copyBytes source target bytes sh) := by
  unfold copyBytes
  generalize h.arena.copy source target bytes = a'
  have hcopied : SameCycle h { h with arena := a' } := ⟨rfl, rfl, rfl⟩
  cases sh with
  | scan => exact hcopied.trans (sameCycle_foldl_remember _ _)
  | noScan => exact hcopied

theorem sameCycle_attachRecord (h : Heap) (x : Nat) (kind : RecordKind) :
    SameCycle h (h.attachRecord x kind).2 := by
  unfold attachRecord
  split <;> exact ⟨rfl, rfl, rfl⟩

theorem sameCycle_resurrect (h : Heap) (x : Nat) : SameCycle h (h.resurrect x) := by
  unfold resurrect
  simp only
  split <;> exact ⟨rfl, rfl, rfl⟩

/-- The cycle goes on by changes of the collector only. -/
theorem Tick.sameCycle
    (ht : Tick h l h')
    (hl : ¬ l.OfCycle) :
    SameCycle h h' := by
  cases ht with
  | still hst => exact ⟨hst.phase, hst.collector, hst.config⟩
  | birthCell hx hne => exact sameCycle_publish h _ _ _ _
  | @birthRun n i a' sh hn hc =>
      have hopened : SameCycle h { h with arena := a'.modifyBlock i (Block.withRun n sh) } :=
        ⟨rfl, rfl, rfl⟩
      exact hopened.trans (sameCycle_publish _ _ _ _ _)
  | park id hx hst hf hspan => exact sameCycle_park h _ _ _
  | store v hx hst hi => exact sameCycle_writeWord h _ _ _
  | copy source hx hst hb => exact sameCycle_copyBytes h _ _ _ _
  | attach kind hx => exact sameCycle_attachRecord h _ _
  | finalize x => exact sameCycle_resurrect h x
  | paint => exact absurd trivial hl
  | begin => exact absurd trivial hl
  | turn => exact absurd trivial hl
  | account => exact absurd trivial hl
  | _ => exact ⟨rfl, rfl, rfl⟩

/-- The phase changes with the cycle. -/
theorem Tick.phase
    (ht : Tick h l h')
    (hbegin : l ≠ .begin)
    (hturn : l ≠ .turn) :
    h'.phase = h.phase := by
  by_cases hl : l.OfCycle
  · cases ht with
    | paint => rfl
    | account => rfl
    | begin => exact absurd rfl hbegin
    | turn => exact absurd rfl hturn
    | _ => cases hl
  · exact (ht.sameCycle hl).phase

/-- The parameters never change. -/
theorem Tick.config
    (ht : Tick h l h') :
    h'.config = h.config := by
  by_cases hl : l.OfCycle
  · cases ht with
    | begin =>
        unfold nextPhase resetCycle modifyCollector
        rfl
    | turn => rfl
    | paint => rfl
    | account => rfl
    | _ => cases hl
  · exact (ht.sameCycle hl).config

theorem records_park (h : Heap) (id : Nat) (s : Span) (e : FreeEntry) :
    (h.park id s e).records = h.records := by
  unfold park pushFree modifyWorker
  rfl

theorem Tick.records
    (ht : Tick h l h')
    (hl : ¬ l.OfRecords) :
    h'.records = h.records := by
  cases ht with
  | still hst => exact hst.records
  | birthCell hx hne => exact records_publish ..
  | birthRun sh hn hc => exact records_publish ..
  | park id hx hst hf hspan => exact records_park ..
  | store v hx hst hi =>
      unfold writeWord
      rw [records_remember]
  | copy source hx hst hb => exact records_copyBytes ..
  | begin => exact records_begin h
  | attach => exact absurd trivial hl
  | finalize => exact absurd trivial hl
  | cleanup => exact absurd trivial hl
  | batch => exact absurd trivial hl
  | _ => rfl

end Heap

end EagerHeap
