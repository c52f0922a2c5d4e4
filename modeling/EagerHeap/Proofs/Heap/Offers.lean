import EagerHeap.Proofs.Heap.Stock
/-!
# Blocks that are offered to all workers

The blocks of a span that are offered wait in one list, and every block has a mark that says whether
it waits. Only an offer and the taking of an offered block change lists and marks; all other operations
leave both alone. New blocks are not marked.

Main results: `Offers.Consistent`, `offers_sweepRun`, `offers_drainScope` and `consistent_offer`.
-/

namespace EagerHeap

/-! ### Marks of blocks -/

namespace Arena

variable {a a' : Arena} {i n : Nat}

/-- The block is marked as offered. -/
def queued (a : Arena) (b : Nat) : Bool := a.blocks[b]?.any Block.isQueued

theorem queued_modifyBlock
    {f : Block → Block}
    (hf : ∀ b, (f b).isQueued = b.isQueued)
    (a : Arena) (i : Nat) :
    (a.modifyBlock i f).queued = a.queued := by
  funext b
  rw [queued, queued, modifyBlock, Array.getElem?_modify]
  split
  · cases a.blocks[b]? with
    | none => rfl
    | some block => simp [hf]
  · rfl

@[simp] theorem queued_modifyHeader (a : Arena) (b k : Nat) (f : Header → Header) :
    (a.modifyHeader b k f).queued = a.queued := by
  refine queued_modifyBlock (fun block => ?_) a b
  cases block with
  | small => rfl
  | large => rw [Block.modifyHeader]; split <;> rfl

@[simp] theorem queued_modifyHeaderAt (a : Arena) (x : Nat) (f : Header → Header) :
    (a.modifyHeaderAt x f).queued = a.queued := by
  rw [modifyHeaderAt]
  split
  · exact queued_modifyHeader ..
  · rfl

@[simp] theorem queued_withMemory (a : Arena) (f : Memory → Memory) :
    (a.withMemory f).queued = a.queued := rfl

@[simp] theorem queued_publish (a : Arena) (b k addr size : Nat) (col : Color) :
    (a.publish b k addr size col).queued = a.queued := by
  rw [publish, queued_modifyHeader, queued_withMemory]

@[simp] theorem queued_copy (a : Arena) (source target bytes : Nat) :
    (a.copy source target bytes).queued = a.queued := by
  rw [copy]
  split
  · exact queued_withMemory ..
  · exact (queued_withMemory ..).trans (queued_withMemory ..)

@[simp] theorem queued_resetColors (a : Arena) : a.resetColors.queued = a.queued := by
  funext b
  rw [queued, queued, resetColors, Array.getElem?_map]
  cases a.blocks[b]? with
  | none => rfl
  | some block => cases block <;> rfl

@[simp] theorem queued_releaseRun (a : Arena) (i n : Nat) :
    (a.releaseRun i n).queued = a.queued := by
  refine queued_modifyBlock (f := Block.withRun 0 .noScan) (fun block => ?_) a i
  cases block <;> rfl

theorem queued_withRun (a : Arena) (i n : Nat) (shape : Shape) :
    (a.modifyBlock i (Block.withRun n shape)).queued = a.queued := by
  refine queued_modifyBlock (fun block => ?_) a i
  cases block <;> rfl

/-- Further blocks are not marked. -/
theorem queued_padded
    {b : Block}
    (hb : b.isQueued = false)
    (blocks : Array Block) (n i : Nat) :
    (padded blocks n b)[i]?.any Block.isQueued = blocks[i]?.any Block.isQueued := by
  rw [padded, Array.getElem?_append]
  split
  · rfl
  · next hi =>
      rw [Array.getElem?_eq_none (Nat.le_of_not_lt hi), Array.getElem?_replicate]
      split
      · exact hb
      · rfl

theorem queued_carveBlock
    {s : Span}
    (hc : a.carveBlock s = (some i, a')) :
    a'.queued = a.queued := by
  rw [carveBlock] at hc
  split at hc
  · cases hc
    funext b
    exact queued_padded rfl ..
  · cases hc

theorem queued_carveRun
    (hc : a.carveRun n = (some i, a')) :
    a'.queued = a.queued := by
  rw [carveRun] at hc
  split at hc
  · cases hc
    funext b
    exact queued_padded rfl ..
  · cases hc

end Arena

/-! ### Marking leaves marks of blocks alone -/

namespace Marker

@[simp] theorem queued_shade (m : Marker) (x : Nat) : (m.shade x).arena.queued = m.arena.queued := by
  rw [shade]
  split
  · split
    · exact Arena.queued_modifyHeader ..
    · rfl
  · rfl

@[simp] theorem queued_shadeAll (xs : List Nat) (m : Marker) :
    (m.shadeAll xs).arena.queued = m.arena.queued := by
  induction xs generalizing m with
  | nil => rfl
  | cons x xs ih => exact (ih (m.shade x)).trans (queued_shade m x)

@[simp] theorem queued_blacken (m : Marker) (x : Nat) :
    (m.blacken x).arena.queued = m.arena.queued := by
  rw [blacken]
  split
  · split
    · exact (queued_shadeAll ..).trans (Arena.queued_modifyHeader ..)
    · rfl
  · rfl

@[simp] theorem queued_advance (n : Nat) (m : Marker) :
    (advance n m).arena.queued = m.arena.queued := by
  induction n generalizing m with
  | zero => rfl
  | succ n ih =>
      rw [advance]
      split
      · rfl
      · exact (ih _).trans (queued_blacken ..)

end Marker

/-- Which blocks are offered to all workers. -/
structure Offers where
  /-- The offered blocks of each span, the latest one first. -/
  central : SpanTable (List Nat)
  /-- Whether a block is marked as offered. -/
  queued : Nat → Bool

/-- The marked blocks are those in the lists, and no list has a block twice. -/
structure Offers.Consistent (o : Offers) : Prop where
  marked : ∀ b, o.queued b = true ↔ ∃ s, b ∈ o.central.get s
  nodup : ∀ s, (o.central.get s).Nodup

namespace Heap

/-- Which blocks are offered to all workers. -/
def offers (h : Heap) : Offers := ⟨h.central, h.arena.queued⟩

variable {h h' : Heap} {b i n : Nat} {s t : Span}

theorem central_of_offers (ho : h'.offers = h.offers) : h'.central = h.central :=
  congrArg Offers.central ho

/-! ### Operations that leave offers alone -/

theorem offers_eq
    (hcentral : h'.central = h.central)
    (hqueued : h'.arena.queued = h.arena.queued) :
    h'.offers = h.offers := by
  rw [offers, offers, hcentral, hqueued]

@[simp] theorem offers_modifyWorker (h : Heap) (id : Nat) (f : Worker → Worker) :
    (h.modifyWorker id f).offers = h.offers := rfl

@[simp] theorem offers_count (h : Heap) (id : Nat) (k : Counter) (n : Nat) :
    (h.count id k n).offers = h.offers := rfl

@[simp] theorem offers_setCursor (h : Heap) (id : Nat) (s : Span) (k : Cursor) :
    (h.setCursor id s k).offers = h.offers := rfl

@[simp] theorem offers_noteAllocation (h : Heap) (bytes : Nat) :
    (h.noteAllocation bytes).offers = h.offers := rfl

@[simp] theorem offers_publish (h : Heap) (block cell addr size : Nat) :
    (h.publish block cell addr size).offers = h.offers := by
  rw [publish]
  refine offers_eq rfl ?_
  dsimp only
  rw [Arena.queued_publish]

theorem offers_popFree (h : Heap) (id : Nat) (s : Span) :
    (h.popFree id s).2.offers = h.offers := by
  rw [popFree]
  split <;> rfl

theorem offers_reuse (h : Heap) (id : Nat) (s : Span) :
    ((reuse id s).run h).2.offers = h.offers := by
  have hpop := offers_popFree h id s
  rw [reuse_run]
  rcases hp : h.popFree id s with ⟨_ | e, g⟩
  · rwa [hp] at hpop
  · rw [hp] at hpop
    dsimp only
    split
    · rw [offers_count, offers_publish, hpop]
    · exact hpop

theorem offers_claim (h : Heap) (id : Nat) (s : Span) :
    (h.claim id s).2.offers = h.offers := by
  rw [claim]
  split
  · dsimp only
    rw [offers_count, offers_noteAllocation, offers_publish, offers_setCursor]
  · rfl

theorem offers_carveBlock (h : Heap) (s : Span) :
    ((carveBlock s).run h).2.offers = h.offers := by
  rw [carveBlock_run]
  rcases hc : h.arena.carveBlock s with ⟨_ | i, a'⟩
  · rw [Arena.carveBlock] at hc
    split at hc <;> cases hc
    rfl
  · exact offers_eq rfl (Arena.queued_carveBlock hc)

theorem offers_carveRun (h : Heap) (n : Nat) (shape : Shape) :
    ((carveRun n shape).run h).2.offers = h.offers := by
  rw [carveRun_run]
  rcases hc : h.arena.carveRun n with ⟨_ | i, a'⟩
  · rw [Arena.carveRun] at hc
    split at hc <;> cases hc
    rfl
  · have ha := Arena.queued_carveRun hc
    dsimp only
    split
    · split
      · rw [offers_noteAllocation, offers_publish]
        refine offers_eq rfl ?_
        dsimp only
        rw [Arena.queued_withRun, ha]
      · exact offers_eq rfl ha
    · exact offers_eq rfl ha

theorem offers_park (h : Heap) (id : Nat) (s : Span) (e : FreeEntry) :
    (h.park id s e).offers = h.offers := by
  rw [park, pushFree, offers_modifyWorker]
  refine offers_eq rfl ?_
  dsimp only
  rw [Arena.queued_modifyHeader]

theorem offers_free (h : Heap) (id addr size : Nat) (shape : Option Shape) :
    (h.free id addr size shape).2.offers = h.offers := by
  rw [free]
  split
  · dsimp only
    rw [offers_count, offers_park]
  · rfl

theorem offers_freeTracked (addrs : List Nat) (h : Heap) (id : Nat) :
    (h.freeTracked id addrs).2.offers = h.offers :=
  freeTracked_preserves (R := fun g => g.offers = h.offers) rfl
    (fun g x size shape hg => (offers_free g id x size shape).trans hg) addrs

theorem offers_drainScope (h : Heap) (c : Nat) : (h.drainScope c).2.offers = h.offers := by
  rcases drainScope_cases h c with ⟨-, heq⟩ | ⟨scope, -, heq | ⟨registry, owner, _, _, heq⟩⟩
  · rw [heq]
  · rw [heq]
    rfl
  · rw [heq]
    have hfreed := offers_freeTracked (registry.addresses scope.used) (h.closing c scope)
      scope.worker
    refine offers_eq ?_ ?_
    · exact central_of_offers hfreed
    · exact congrArg Offers.queued hfreed

theorem offers_dropRegistry (h : Heap) (r : Nat) : (h.dropRegistry r).offers = h.offers := by
  rw [dropRegistry]
  split <;> rfl

theorem offers_enterScope (h : Heap) (id r : Nat) :
    ((enterScope id r).run h).2.offers = h.offers := by
  rw [enterScope_run]
  split <;> rfl

theorem offers_recordTracked (h : Heap) (c addr allocatedAt : Nat) :
    ((recordTracked c addr allocatedAt).run h).2.offers = h.offers := by
  rw [recordTracked_run]
  split
  · rfl
  · split
    · rfl
    · split <;> rfl

@[simp] theorem offers_remember (h : Heap) (v : Nat) : (h.remember v).offers = h.offers := by
  rw [remember]
  split <;> rfl

theorem offers_foldl_remember (vs : List Nat) (h : Heap) :
    (vs.foldl remember h).offers = h.offers := by
  induction vs generalizing h with
  | nil => rfl
  | cons v vs ih => exact (ih (h.remember v)).trans (offers_remember h v)

theorem offers_writeWord (h : Heap) (obj i v : Nat) :
    (h.writeWord obj i v).offers = h.offers := by
  rw [writeWord, offers_remember]
  refine offers_eq rfl ?_
  dsimp only
  rw [Arena.write, Arena.queued_withMemory]

theorem offers_copyBytes (h : Heap) (source target bytes : Nat) (shape : Shape) :
    (h.copyBytes source target bytes shape).offers = h.offers := by
  have hcopy : { h with arena := h.arena.copy source target bytes }.offers = h.offers :=
    offers_eq rfl (Arena.queued_copy ..)
  cases shape with
  | scan => exact (offers_foldl_remember _ _).trans hcopy
  | noScan => exact hcopy

theorem offers_attachRecord (h : Heap) (addr : Nat) (kind : RecordKind) :
    (h.attachRecord addr kind).2.offers = h.offers := by
  rw [attachRecord]
  split
  · exact offers_eq rfl (Arena.queued_modifyHeaderAt ..)
  · rfl

@[simp] theorem offers_resurrect (h : Heap) (addr : Nat) :
    (h.resurrect addr).offers = h.offers := by
  rw [resurrect]
  dsimp only
  split
  · rfl
  · exact offers_eq rfl (Arena.queued_modifyHeaderAt ..)

theorem offers_foldl_resurrect (xs : List Nat) (h : Heap) :
    (xs.foldl resurrect h).offers = h.offers := by
  induction xs generalizing h with
  | nil => rfl
  | cons x xs ih => exact (ih (h.resurrect x)).trans (offers_resurrect h x)

theorem offers_marking
    {f : Marker → Marker}
    (hf : ∀ m, (f m).arena.queued = m.arena.queued)
    (h : Heap) :
    (h.marking f).offers = h.offers := by
  rw [marking]
  split
  · rfl
  · exact offers_eq rfl (hf _)

theorem offers_shadeRoots (h : Heap) (roots : List Nat) :
    (h.shadeRoots roots).offers = h.offers :=
  offers_marking (Marker.queued_shadeAll _) h

theorem offers_drainBarrier (h : Heap) : h.drainBarrier.offers = h.offers :=
  offers_marking (Marker.queued_shadeAll _) { h with barrier := #[] }

theorem offers_markStep (h : Heap) (n : Nat) : (h.markStep n).offers = h.offers :=
  (offers_marking (Marker.queued_advance n) _).trans (offers_drainBarrier h)

theorem offers_markAll (h : Heap) : h.markAll.offers = h.offers :=
  (offers_marking (fun m => Marker.queued_advance m.workload m) _).trans (offers_drainBarrier h)

theorem offers_resurrectAll (h : Heap) : h.resurrectAll.2.offers = h.offers := by
  rw [resurrectAll]
  split
  · rfl
  · exact (offers_markAll _).trans
      ((offers_marking (Marker.queued_shadeAll _) _).trans (offers_foldl_resurrect _ h))

theorem offers_invalidateSlots (h : Heap) : h.invalidateSlots.2.offers = h.offers := by
  have hzero : ∀ (rs : List Nat) (g : Heap), (g.zeroSlotsOf rs).2.offers = g.offers := by
    intro rs
    induction rs with
    | nil => exact fun _ => rfl
    | cons r rs ih =>
        intro g
        refine (ih (g.zeroSlots r).2).trans ?_
        rw [zeroSlots]
        split <;> rfl
  exact hzero h.knownRegistries h

theorem offers_closeCycle (h : Heap) : h.closeCycle.2.offers = h.offers := by
  rw [closeCycle]
  split <;> rfl

/-! ### Sweeping of cells -/

theorem offers_isDoomed (h : Heap) (header : Header) (addr : Nat) :
    (h.isDoomed header addr).2.offers = h.offers := by
  simp only [isDoomed, consultRecords_eq]
  split
  · split
    · exact offers_resurrect h addr
    · exact offers_eq rfl (Arena.queued_modifyHeaderAt ..)
  · rfl

theorem offers_sweepCell (h : Heap) (block i size : Nat) :
    (h.sweepCell block i size).2.offers = h.offers := by
  rw [sweepCell]
  split
  · split
    · next header _ _ =>
        dsimp only
        split
        · rw [← offers_isDoomed h header (Arena.blockBase block + i * size)]
          refine offers_eq rfl ?_
          dsimp only
          rw [Arena.queued_modifyHeader]
        · exact offers_isDoomed h _ _
    · rfl
  · rfl

theorem offers_sweepCells (block size : Nat) (n i : Nat) (h : Heap) :
    (h.sweepCells block size i n).2.offers = h.offers := by
  induction n generalizing h i with
  | zero => rfl
  | succ n ih => exact (ih (i + 1) _).trans (offers_sweepCell h block i size)

theorem offers_sweepRun (h : Heap) (block : Nat) (header : Header) (run : Nat) :
    (h.sweepRun block header run).2.offers = h.offers := by
  rw [sweepRun]
  split
  · dsimp only
    split
    · rw [← offers_isDoomed h header (Arena.blockBase block)]
      refine offers_eq rfl ?_
      dsimp only
      rw [Arena.queued_releaseRun, Arena.queued_modifyHeader]
    · exact offers_isDoomed h _ _
  · rfl

/-! ### Offering and taking blocks -/

theorem queued_withQueued
    {block : Block}
    (hb : h.arena.blocks[i]? = some block)
    (hsmall : block.isLarge = false)
    (q : Bool) (j : Nat) :
    (h.arena.modifyBlock i (Block.withQueued q)).queued j = if j = i then q else h.arena.queued j := by
  rw [Arena.queued, Arena.queued, Arena.modifyBlock, Array.getElem?_modify]
  by_cases hj : i = j
  · subst hj
    rw [if_pos rfl, if_pos rfl, hb]
    cases block with
    | small => rfl
    | large => cases hsmall
  · rw [if_neg hj, if_neg fun e => hj e.symm]

/-- A block is offered unless it is offered already. -/
theorem offer_cases
    (hl : h.arena.Layout)
    (hspan : h.arena.HasSpan i s) :
    (h.arena.queued i = true ∧ h.offer i = h) ∨
      h.arena.queued i = false ∧
        (h.offer i).central = h.central.modify s (i :: ·) ∧
        ∀ j, (h.offer i).arena.queued j = if j = i then true else h.arena.queued j := by
  obtain ⟨cells, q, hb, -⟩ := hl.exists_getElem?_of_hasSpan hspan
  have hq : h.arena.queued i = q := by
    rw [Arena.queued, hb]
    rfl
  rw [hq, offer, hb]
  cases q with
  | true => exact Or.inl ⟨rfl, rfl⟩
  | false => exact Or.inr ⟨rfl, rfl, queued_withQueued hb rfl true⟩

theorem consistent_offer
    (hs : h.Sound)
    (ho : h.offers.Consistent)
    (hspan : h.arena.HasSpan i s) :
    (h.offer i).offers.Consistent := by
  rcases offer_cases hs.layout hspan with ⟨-, hsame⟩ | ⟨hq, hcentral, hqueued⟩
  · rw [hsame]
    exact ho
  · have hnew : ∀ t, i ∉ h.central.get t := fun t hi =>
      Bool.false_ne_true (hq.symm.trans ((ho.marked i).2 ⟨t, hi⟩))
    constructor
    · intro b
      change (h.offer i).arena.queued b = true ↔ ∃ t, b ∈ (h.offer i).central.get t
      rw [hqueued, hcentral]
      by_cases hb : b = i
      · rw [if_pos hb]
        refine iff_of_true rfl ⟨s, ?_⟩
        rw [SpanTable.get_modify_self, hb]
        exact List.mem_cons_self ..
      · rw [if_neg hb]
        refine (ho.marked b).trans (exists_congr fun t => ?_)
        change b ∈ h.central.get t ↔ _
        by_cases ht : t = s
        · rw [ht, SpanTable.get_modify_self, List.mem_cons, or_iff_right hb]
        · rw [SpanTable.get_modify_of_ne _ _ ht]
    · intro t
      change ((h.offer i).central.get t).Nodup
      rw [hcentral]
      by_cases ht : t = s
      · rw [ht, SpanTable.get_modify_self]
        exact List.nodup_cons.2 ⟨hnew s, ho.nodup s⟩
      · rw [SpanTable.get_modify_of_ne _ _ ht]
        exact ho.nodup t

/-- An offer adds to the lists. -/
theorem mem_central_offer_of_mem
    (hl : h.arena.Layout)
    (hspan : h.arena.HasSpan i s)
    (hb : b ∈ h.central.get t) :
    b ∈ (h.offer i).central.get t := by
  rcases offer_cases hl hspan with ⟨-, hsame⟩ | ⟨-, hcentral, -⟩
  · rwa [hsame]
  · rw [hcentral]
    by_cases ht : t = s
    · rw [ht, SpanTable.get_modify_self]
      exact List.mem_cons_of_mem _ (ht ▸ hb)
    · rwa [SpanTable.get_modify_of_ne _ _ ht]

/-- A block that was offered is in the list of its span. -/
theorem mem_central_offer
    (hs : h.Sound)
    (ho : h.offers.Consistent)
    (hspan : h.arena.HasSpan i s) :
    i ∈ (h.offer i).central.get s := by
  rcases offer_cases hs.layout hspan with ⟨hq, hsame⟩ | ⟨-, hcentral, -⟩
  · rw [hsame]
    obtain ⟨t, hi⟩ := (ho.marked i).1 hq
    rwa [hspan.unique (hs.stocked.central t i hi)]
  · rw [hcentral, SpanTable.get_modify_self]
    exact List.mem_cons_self ..

/-- Taking the latest offered block of a span. -/
theorem takePartial_cases
    (h : Heap) (s : Span) :
    (h.central.get s = [] ∧ h.takePartial s = (none, h)) ∨
      ∃ i rest, h.central.get s = i :: rest ∧
        h.takePartial s = (some i, { h with
          central := h.central.set s rest
          arena := h.arena.modifyBlock i (Block.withQueued false) }) := by
  rw [takePartial]
  cases h.central.get s with
  | nil => exact Or.inl ⟨rfl, rfl⟩
  | cons i rest => exact Or.inr ⟨i, rest, rfl, rfl⟩

theorem consistent_takePartial
    (hs : h.Sound)
    (ho : h.offers.Consistent)
    (s : Span) :
    (h.takePartial s).2.offers.Consistent := by
  rcases takePartial_cases h s with ⟨-, hsame⟩ | ⟨i, rest, hget, htake⟩
  · rwa [hsame]
  · have hspan := hs.stocked.central s i (hget ▸ List.mem_cons_self ..)
    obtain ⟨cells, q, hb, -⟩ := hs.layout.exists_getElem?_of_hasSpan hspan
    have hnodup : i ∉ rest ∧ rest.Nodup := List.nodup_cons.1 (hget ▸ ho.nodup s)
    have hother : ∀ t, t ≠ s → i ∉ h.central.get t := fun t ht hi =>
      ht ((hs.stocked.central t i hi).unique hspan)
    rw [htake]
    constructor
    · intro b
      change (h.arena.modifyBlock i (Block.withQueued false)).queued b = true ↔
        ∃ t, b ∈ (h.central.set s rest).get t
      rw [queued_withQueued hb rfl]
      by_cases hbi : b = i
      · rw [if_pos hbi, hbi]
        refine iff_of_false Bool.false_ne_true ?_
        rintro ⟨t, hi⟩
        by_cases ht : t = s
        · rw [ht, SpanTable.get_set_self] at hi
          exact hnodup.1 hi
        · rw [SpanTable.get_set_of_ne _ _ ht] at hi
          exact hother t ht hi
      · rw [if_neg hbi]
        refine (ho.marked b).trans (exists_congr fun t => ?_)
        change b ∈ h.central.get t ↔ _
        by_cases ht : t = s
        · rw [ht, SpanTable.get_set_self, hget, List.mem_cons, or_iff_right hbi]
        · rw [SpanTable.get_set_of_ne _ _ ht]
    · intro t
      change ((h.central.set s rest).get t).Nodup
      by_cases ht : t = s
      · rw [ht, SpanTable.get_set_self]
        exact hnodup.2
      · rw [SpanTable.get_set_of_ne _ _ ht]
        exact ho.nodup t

end Heap

end EagerHeap
