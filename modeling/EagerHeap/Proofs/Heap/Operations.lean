import EagerHeap.Proofs.Heap.Steps
import EagerHeap.Proofs.Runs
/-!
# Operations as sequences of elementary changes

The bookkeeping of a heap and the ways of handing out an object, taken apart into elementary changes.

Main results: `reuse_cases`, `claim_cases` and `carveRun_cases` for the three ways of handing out an
object.
-/

namespace EagerHeap.Heap

variable {h h' g : Heap} {x i id : Nat} {c : Cell} {s : Span} {l : Act}

/-! ### Changes of lists and counters -/

theorem Still.of_lists
    (harena : h'.arena = h.arena)
    (hconfig : h'.config = h.config)
    (hphase : h'.phase = h.phase)
    (hrecords : h'.records = h.records)
    (hbarrier : h'.barrier = h.barrier)
    (hcollector : h'.collector = h.collector)
    (hstocked : h.Stocked → h'.Stocked) :
    Still h h' := by
  refine ⟨?_, fun b k => ?_, ?_, hconfig, hphase, hrecords, hbarrier, hcollector, hstocked⟩
  · rw [harena]
    exact Arena.SameOutline.refl _
  · rw [harena]
  · rw [harena]

theorem Still.steps (hst : Still h h') : Steps (· = .still) h h' := Steps.single rfl (.still hst)

theorem Still.trans
    (hst : Still h g)
    (hst' : Still g h') :
    Still h h' where
  outline := hst.outline.trans hst'.outline
  headers := fun b k => (hst'.headers b k).trans (hst.headers b k)
  memory := hst'.memory.trans hst.memory
  config := hst'.config.trans hst.config
  phase := hst'.phase.trans hst.phase
  records := hst'.records.trans hst.records
  barrier := hst'.barrier.trans hst.barrier
  collector := hst'.collector.trans hst.collector
  stocked := fun h => hst'.stocked (hst.stocked h)

theorem still_modifyWorker
    {f : Worker → Worker}
    (hentries : ∀ w ∈ h.workers, ∀ s, ∀ e ∈ (f w).freeLists.get s, e.Fits h.arena s ∨
      e ∈ w.freeLists.get s)
    (hcursors : ∀ w ∈ h.workers, ∀ s c, (f w).cursors.get s = some c →
      h.arena.HasSpan c.block s ∨ w.cursors.get s = some c) :
    Still h (h.modifyWorker id f) := by
  refine .of_lists rfl rfl rfl rfl rfl rfl fun hst => hst.modifyWorker id ?_ ?_
  · intro w hw s e he
    rcases hentries w hw s e he with hfit | hmem
    · exact hfit
    · exact hst.entries w hw s e hmem
  · intro w hw s c hc
    rcases hcursors w hw s c hc with hspan | hold
    · exact hspan
    · exact hst.cursors w hw s c hold

theorem still_count (h : Heap) (id : Nat) (k : Counter) (n : Nat) : Still h (h.count id k n) :=
  still_modifyWorker (fun _ _ _ _ he => Or.inr he) fun _ _ _ _ hc => Or.inr hc

theorem still_noteAllocation (h : Heap) (bytes : Nat) : Still h (h.noteAllocation bytes) :=
  .of_lists rfl rfl rfl rfl rfl rfl fun hst => ⟨hst.entries, hst.cursors, hst.central⟩

theorem still_setCursor
    {k : Cursor}
    (hspan : h.arena.HasSpan k.block s) :
    Still h (h.setCursor id s k) := by
  refine still_modifyWorker (fun _ _ _ _ he => Or.inr he) fun w hw t d hd => ?_
  by_cases hts : t = s
  · subst hts
    rw [SpanTable.get_set_self] at hd
    obtain rfl := Option.some.inj hd
    exact Or.inl hspan
  · rw [SpanTable.get_set_of_ne _ _ hts] at hd
    exact Or.inr hd

theorem still_popFree (h : Heap) (id : Nat) (s : Span) : Still h (h.popFree id s).2 := by
  unfold popFree
  split
  · refine still_modifyWorker (fun w hw t e he => Or.inr ?_) fun _ _ _ _ hc => Or.inr hc
    by_cases hts : t = s
    · subst hts
      rw [SpanTable.get_modify_self] at he
      exact List.mem_of_mem_tail he
    · rwa [SpanTable.get_modify_of_ne _ _ hts] at he
  · exact .of_lists rfl rfl rfl rfl rfl rfl fun hst => hst

theorem still_addWorker (h : Heap) : Still h h.addWorker.2 := by
  unfold addWorker
  refine .of_lists rfl rfl rfl rfl rfl rfl fun hst => ⟨?_, ?_, hst.central⟩
  · intro w hw s e he
    rcases List.mem_append.1 hw with hw | hw
    · exact hst.entries w hw s e he
    · rw [List.mem_singleton.1 hw] at he
      simp at he
  · intro w hw s k hk
    rcases List.mem_append.1 hw with hw | hw
    · exact hst.cursors w hw s k hk
    · rw [List.mem_singleton.1 hw] at hk
      simp at hk

/-- Retiring a worker takes it off the live ones. -/
theorem retireWorker_cases
    (hr : h.retireWorker id = .ok h') :
    h' = h ∨ ∃ retired, h' = { h with workers := h.workers.filter (·.id ≠ id), retired } := by
  rw [retireWorker] at hr
  split at hr
  · cases hr
    exact Or.inl rfl
  · next w hw =>
      cases hp : h.retired.plus w.tally with
      | error e =>
          rw [hp] at hr
          cases hr
      | ok t =>
          rw [hp] at hr
          cases hr
          exact Or.inr ⟨t, rfl⟩

theorem still_retireWorker
    (hr : h.retireWorker id = .ok h') :
    Still h h' := by
  rcases retireWorker_cases hr with rfl | ⟨t, rfl⟩
  · exact .of_lists rfl rfl rfl rfl rfl rfl fun hst => hst
  · refine .of_lists rfl rfl rfl rfl rfl rfl fun hst => ⟨?_, ?_, hst.central⟩
    · exact fun v hv => hst.entries v (List.mem_filter.1 hv).1
    · exact fun v hv => hst.cursors v (List.mem_filter.1 hv).1

/-- Changes of queue marks and of the lists of offered blocks. -/
theorem still_withQueued
    {central : SpanTable (List Nat)} {q : Bool}
    (hcentral : h.Stocked → ∀ s, ∀ i ∈ central.get s, h.arena.HasSpan i s) :
    Still h { h with central, arena := h.arena.modifyBlock i (Block.withQueued q) } := by
  have hout := Arena.sameOutline_withQueued h.arena i q
  refine ⟨hout, fun b k => Arena.header?_withQueued _ _ _ _ _, rfl, rfl, rfl, rfl, rfl, rfl,
    fun hst => ⟨?_, ?_, ?_⟩⟩
  · intro w hw s e he
    obtain ⟨h₁, h₂, h₃⟩ := hst.entries w hw s e he
    exact ⟨hout.hasSpan.2 h₁, h₂, h₃⟩
  · exact fun w hw s k hk => hout.hasSpan.2 (hst.cursors w hw s k hk)
  · exact fun s i hi => hout.hasSpan.2 (hcentral hst s i hi)

theorem still_takePartial (h : Heap) (s : Span) : Still h (h.takePartial s).2 := by
  unfold takePartial
  split
  · next i rest hget =>
      refine still_withQueued fun hst t j hj => ?_
      by_cases hts : t = s
      · subst hts
        rw [SpanTable.get_set_self] at hj
        exact hst.central t j (hget ▸ List.mem_cons_of_mem _ hj)
      · rw [SpanTable.get_set_of_ne _ _ hts] at hj
        exact hst.central t j hj
  · exact .of_lists rfl rfl rfl rfl rfl rfl fun hst => hst

theorem still_offer
    (hl : h.arena.Layout)
    (i : Nat) :
    Still h (h.offer i) := by
  unfold offer
  split
  · next s hb =>
      refine still_withQueued fun hst t j hj => ?_
      by_cases hts : t = s
      · subst hts
        rw [SpanTable.get_modify_self] at hj
        rcases List.mem_cons.1 hj with rfl | hj
        · obtain ⟨b, hb', hb⟩ := Option.map_eq_some_iff.1 hb
          cases b with
          | small r cells q =>
              simp only [Block.span?, Prod.mk.injEq, Option.some.injEq] at hb
              obtain ⟨rfl, -⟩ := hb
              exact hl.hasSpan_of_getElem? hb'
          | large hd n sh => simp [Block.span?] at hb
        · exact hst.central t j hj
      · rw [SpanTable.get_modify_of_ne _ _ hts] at hj
        exact hst.central t j hj
  · exact .of_lists rfl rfl rfl rfl rfl rfl fun hst => hst

/-! ### Handing out objects -/

/-- The second heap results from the first one by handing out an object. -/
def HandsOut (h : Heap) (x : Nat) (h' : Heap) : Prop :=
  ∃ g g', Steps (· = .still) h g ∧ Tick g (.birth x) g' ∧ Steps (· = .still) g' h'

theorem HandsOut.steps
    (ho : HandsOut h x h') :
    Steps (fun l => l = .still ∨ l = .birth x) h h' := by
  obtain ⟨g, g', h₁, ht, h₂⟩ := ho
  exact (h₁.mono fun l hl => Or.inl hl).trans
    ((Steps.single (Or.inr rfl) ht).trans (h₂.mono fun l hl => Or.inl hl))

theorem worker?_mem
    {w : Worker}
    (hw : h.worker? id = some w) :
    w ∈ h.workers :=
  List.mem_of_find?_eq_some hw

theorem arena_modifyWorker (h : Heap) (id : Nat) (f : Worker → Worker) :
    (h.modifyWorker id f).arena = h.arena := by
  unfold modifyWorker
  rfl

theorem popFree_cases
    {e : FreeEntry}
    (hst : h.Stocked)
    (hp : h.popFree id s = (some e, g)) :
    e.Fits g.arena s ∧ Still h g := by
  have hstill := still_popFree h id s
  rw [hp] at hstill
  refine ⟨?_, hstill⟩
  unfold popFree at hp
  split at hp
  · next e' hhead =>
      obtain ⟨w, hw, hhead⟩ := Option.bind_eq_some_iff.1 hhead
      cases hp
      rw [FreeEntry.Fits, arena_modifyWorker]
      exact hst.entries w (worker?_mem hw) s e (List.mem_of_mem_head? hhead)
  · cases hp

theorem reuse_run (h : Heap) (id : Nat) (s : Span) :
    (reuse id s).run h =
      match h.popFree id s with
      | (none, g) => (.ok none, g)
      | (some e, g) =>
        if (g.arena.header? e.block e.cell).any (·.state = .cached) then
          (.ok (some e.addr),
            (g.publish e.block e.cell e.addr s.cellSize).count id .freeListHits 1)
        else (.error (.assertion .cached), g) := by
  unfold reuse
  rcases hp : h.popFree id s with ⟨_ | e, g⟩
  · simp [hp]
  · by_cases hc : (g.arena.header? e.block e.cell).any (·.state = .cached) = true
    · simp [hp, hc]
    · simp [hp, hc]

/-- Reuse hands out a cell of a free list, or changes nothing but lists. -/
theorem reuse_cases
    (hs : h.Sound)
    (id : Nat) (s : Span) :
    (∃ x, ((reuse id s).run h).1 = .ok (some x) ∧ HandsOut h x ((reuse id s).run h).2) ∨
      (∀ x, ((reuse id s).run h).1 ≠ .ok (some x)) ∧
        Steps (· = .still) h ((reuse id s).run h).2 := by
  rw [reuse_run]
  rcases hp : h.popFree id s with ⟨_ | e, g⟩
  · have hstill := still_popFree h id s
    rw [hp] at hstill
    exact Or.inr ⟨by simp, hstill.steps⟩
  · obtain ⟨hfits, hstill⟩ := popFree_cases hs.stocked hp
    have hg : g.Sound := hstill.steps.sound hs
    obtain ⟨hd, hhd, hcell⟩ := hfits.cell? hg.layout
    by_cases hc : (g.arena.header? e.block e.cell).any (·.state = .cached) = true
    · have hne : hd.state ≠ .allocated := by
        intro hst
        simp [hhd, hst] at hc
      simp only [hc, if_true]
      have hcounted := still_count (g.publish e.block e.cell e.addr s.cellSize) id .freeListHits 1
      exact Or.inl ⟨e.addr, rfl, g, _, hstill.steps, .birthCell hcell hne, hcounted.steps⟩
    · simp only [hc]
      exact Or.inr ⟨by simp, hstill.steps⟩

/-- The cell that a worker may claim is a free cell of its span. -/
theorem claimable?_cases
    {b k : Nat}
    (hs : h.Sound)
    (hc : h.claimable? id s = some (b, k)) :
    h.arena.HasSpan b s ∧ k < Block.cellsPer s ∧
      ∃ hd, h.arena.header? b k = some hd ∧ hd.state = .free := by
  unfold claimable? at hc
  obtain ⟨w, hw, hc⟩ := Option.bind_eq_some_iff.1 hc
  obtain ⟨cursor, hcursor, hc⟩ := Option.bind_eq_some_iff.1 hc
  obtain ⟨block, hblock, hc⟩ := Option.bind_eq_some_iff.1 hc
  obtain ⟨cell, hcell, hc⟩ := Option.bind_eq_some_iff.1 hc
  obtain ⟨rfl, rfl⟩ := Prod.mk.injEq _ _ _ _ ▸ Option.some.inj hc
  have hspan := hs.stocked.cursors w (worker?_mem hw) s cursor hcursor
  obtain ⟨cells, q, hb, hsize⟩ := hs.layout.exists_getElem?_of_hasSpan hspan
  rw [hb] at hblock
  obtain rfl := Option.some.inj hblock
  obtain ⟨-, -, hfree⟩ := Block.firstFree_eq_some hcell
  cases hhd : cells[cell]? with
  | none =>
      rw [hhd] at hfree
      cases hfree
  | some hd =>
      rw [hhd] at hfree
      refine ⟨hspan, ?_, hd, ?_, by simpa using hfree⟩
      · rw [← hsize]
        exact (Array.getElem?_eq_some_iff.1 hhd).1
      · rw [Arena.header?, hb]
        exact hhd

/-- A claim hands out a free cell, or changes nothing. -/
theorem claim_cases
    (hs : h.Sound)
    (id : Nat) (s : Span) :
    (∃ x, (h.claim id s).1 = some x ∧ HandsOut h x (h.claim id s).2) ∨
      (h.claim id s).1 = none ∧ (h.claim id s).2 = h := by
  unfold claim
  cases hc : h.claimable? id s with
  | none => exact Or.inr ⟨rfl, rfl⟩
  | some p =>
      obtain ⟨b, k⟩ := p
      obtain ⟨hspan, hk, hd, hhd, hfree⟩ := claimable?_cases hs hc
      refine Or.inl ⟨_, rfl, h.setCursor id s ⟨b, k + 1⟩, _, (still_setCursor hspan).steps, ?_,
        (still_noteAllocation _ _).steps.trans (still_count _ _ _ _).steps⟩
      obtain ⟨hd', hhd', hcell⟩ := hs.layout.cell?_small hspan hk
      rw [hhd] at hhd'
      obtain rfl := Option.some.inj hhd'
      rw [← arena_modifyWorker h id] at hcell
      refine Tick.birthCell (h := h.setCursor id s ⟨b, k + 1⟩) hcell ?_
      simp [hfree]

theorem carveBlock_run (h : Heap) (s : Span) :
    (carveBlock s).run h =
      match h.arena.carveBlock s with
      | (some i, a') =>
        (if a'.blocks[i]?.any (·.span? = some s) then .ok (some i)
         else .error (.assertion .spanOfBlock), { h with arena := a' })
      | (none, a') => (.ok none, { h with arena := a' }) := by
  unfold carveBlock
  rcases hc : h.arena.carveBlock s with ⟨_ | i, a'⟩
  · simp [hc]
  · by_cases hspan : a'.blocks[i]?.any (·.span? = some s) = true
    · simp [hc, hspan]
    · simp [hc, hspan]

theorem carveBlock_steps (h : Heap) (s : Span) :
    Steps (· = .carve) h ((carveBlock s).run h).2 := by
  rw [carveBlock_run]
  rcases hc : h.arena.carveBlock s with ⟨_ | i, a'⟩
  · have hsame : a' = h.arena := by
      unfold Arena.carveBlock at hc
      split at hc <;> cases hc
      rfl
    subst hsame
    exact Steps.refl h
  · exact Steps.single rfl (.carve hc)

theorem carveRun_run (h : Heap) (n : Nat) (sh : Shape) :
    (carveRun n sh).run h =
      match h.arena.carveRun n with
      | (some i, a') =>
        if a'.blocks[i]?.any Block.isLarge then
          if (a'.header? i 0).any (·.state = .free) then
            (.ok (some (Arena.blockBase i)),
              ({ h with arena := a'.modifyBlock i (Block.withRun n sh) }.publish i 0
                (Arena.blockBase i) (n * blockSize)).noteAllocation (n * blockSize))
          else (.error (.assertion .freeRun), { h with arena := a' })
        else (.error (.assertion .headOfRun), { h with arena := a' })
      | (none, a') => (.ok none, { h with arena := a' }) := by
  unfold carveRun
  rcases hc : h.arena.carveRun n with ⟨_ | i, a'⟩
  · simp [hc]
  · by_cases hlarge : a'.blocks[i]?.any Block.isLarge = true
    · by_cases hfree : (a'.header? i 0).any (·.state = .free) = true
      · simp [hc, hlarge, hfree]
      · simp [hc, hlarge, hfree]
    · simp [hc, hlarge]

/-- A run of blocks is handed out as a new object, or nothing changes. -/
theorem carveRun_cases
    {n : Nat}
    (hs : h.Sound)
    (hn : 0 < n)
    (sh : Shape) :
    (∃ x, ((carveRun n sh).run h).1 = .ok (some x) ∧ HandsOut h x ((carveRun n sh).run h).2) ∨
      ((carveRun n sh).run h).1 = .ok none ∧ ((carveRun n sh).run h).2 = h := by
  rw [carveRun_run]
  rcases hc : h.arena.carveRun n with ⟨_ | i, a'⟩
  · have hsame : a' = h.arena := by
      unfold Arena.carveRun at hc
      split at hc <;> cases hc
      rfl
    subst hsame
    exact Or.inr ⟨rfl, rfl⟩
  · obtain ⟨⟨hd, sh', hb, hfree⟩, -⟩ :=
      (hs.layout.runTaken hn hc).taken i (Nat.le_refl i) (Nat.lt_add_of_pos_right hn)
    have hlarge : a'.blocks[i]?.any Block.isLarge = true := by
      rw [hb]
      rfl
    have hhead : (a'.header? i 0).any (·.state = .free) = true := by
      rw [Arena.header?, hb]
      simp [Block.header?, hfree]
    simp only [hlarge, hhead, if_true]
    exact Or.inl ⟨_, rfl, h, _, Steps.refl h, .birthRun sh hn hc, (still_noteAllocation _ _).steps⟩

end EagerHeap.Heap
