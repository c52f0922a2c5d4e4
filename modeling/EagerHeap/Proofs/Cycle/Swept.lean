import EagerHeap.Proofs.Sweeping.Operations
/-!
# The sweeping half of a cycle

If no white object has finalizers, sweeping frees exactly the white objects among those whose cells
it visits, and queues their cleanups. Sweeping in steps of a budget visits the cells of all blocks.

Main results: `Visits.frees` and `sweepSteps_visits`.
-/

namespace EagerHeap

/-- Whether an address is that of an unreached object. -/
def Arena.isUnreached (a : Arena) (x : Nat) : Bool := (a.cell? x).any (·.header.isUnreached)

theorem Arena.isUnreached_iff
    {a : Arena} {x : Nat} :
    a.isUnreached x = true ↔ ∃ c, a.Object x c ∧ c.header.color = .white := by
  unfold isUnreached Object
  cases a.cell? x <;> simp [Header.isUnreached_iff]

namespace Heap

variable {h g h' : Heap} {x b i n : Nat} {xs : List Nat} {c : Cell} {cs ds : List Cell}

/-- The objects of the given cells were freed and their cleanups queued. Nothing else has changed
but lists of blocks. -/
structure Frees (h : Heap) (cs : List Cell) (h' : Heap) : Prop where
  others : ∀ y, y ∉ cs.map Cell.addr → h'.arena.cell? y = h.arena.cell? y
  small : ∀ c ∈ cs, c.isLarge = false →
    ∃ hd, h'.arena.cell? c.addr = some { c with header := hd } ∧ hd.state = .free
  large : ∀ c ∈ cs, c.isLarge = true → h'.arena.cell? c.addr = none ∧
    ∀ j, c.block ≤ j → j < c.block + c.size / blockSize → h'.arena.pages.Free j
  spared : ∀ j, h.arena.pages.Free j → h'.arena.pages.Free j
  attached : ∀ y, h'.records.attached.find? y =
    if y ∈ cs.map Cell.addr then none else h.records.attached.find? y
  pending : h'.records.pending =
    h.records.pending ++ cs.flatMap fun c => (h.records.cleanups c.addr).map (⟨0, ·⟩)
  running : h'.records.running = h.records.running
  memory : h'.arena.memory = h.arena.memory
  workers : h'.workers = h.workers

theorem Frees.of_same
    (hcells : ∀ y, h'.arena.cell? y = h.arena.cell? y)
    (hpages : h'.arena.pages = h.arena.pages)
    (hrecords : h'.records = h.records)
    (hmemory : h'.arena.memory = h.arena.memory)
    (hworkers : h'.workers = h.workers) :
    Frees h [] h' := by
  refine ⟨fun y _ => hcells y, fun c hc => ?_, fun c hc => ?_, fun j hj => ?_, fun y => ?_, ?_, ?_,
    hmemory, hworkers⟩
  · cases hc
  · cases hc
  · rwa [hpages]
  · rw [hrecords]
    rfl
  · rw [hrecords]
    exact (List.append_nil _).symm
  · rw [hrecords]

theorem Frees.refl (h : Heap) : Frees h [] h := .of_same (fun _ => rfl) rfl rfl rfl rfl

theorem Frees.trans
    (hcs : Frees h cs g)
    (hds : Frees g ds h')
    (hdisjoint : ∀ c ∈ cs, ∀ d ∈ ds, c.addr ≠ d.addr) :
    Frees h (cs ++ ds) h' := by
  have hout : ∀ c ∈ cs, c.addr ∉ ds.map Cell.addr := by
    intro c hc hmem
    obtain ⟨d, hd, heq⟩ := List.mem_map.1 hmem
    exact hdisjoint c hc d hd heq.symm
  refine ⟨fun y hy => ?_, fun c hc hl => ?_, fun c hc hl => ?_,
    fun j hj => hds.spared j (hcs.spared j hj), fun y => ?_, ?_, hds.running.trans hcs.running,
    hds.memory.trans hcs.memory, hds.workers.trans hcs.workers⟩
  · rw [List.map_append, List.mem_append, not_or] at hy
    rw [hds.others y hy.2, hcs.others y hy.1]
  · rcases List.mem_append.1 hc with hc | hc
    · rw [hds.others _ (hout c hc)]
      exact hcs.small c hc hl
    · exact hds.small c hc hl
  · rcases List.mem_append.1 hc with hc | hc
    · obtain ⟨hnone, hfree⟩ := hcs.large c hc hl
      refine ⟨?_, fun j hle hlt => hds.spared j (hfree j hle hlt)⟩
      rw [hds.others _ (hout c hc)]
      exact hnone
    · exact hds.large c hc hl
  · rw [hds.attached, hcs.attached]
    by_cases hc : y ∈ cs.map Cell.addr <;> by_cases hd : y ∈ ds.map Cell.addr <;>
      simp only [List.map_append, List.mem_append, hc, hd, or_self, or_true, true_or, if_true,
        if_false]
  · have hcleanups : ds.flatMap (fun d => (g.records.cleanups d.addr).map (PendingRecord.mk 0)) =
        ds.flatMap fun d => (h.records.cleanups d.addr).map (PendingRecord.mk 0) := by
      refine List.flatMap_congr fun d hd => ?_
      have hnot : d.addr ∉ cs.map Cell.addr := by
        intro hmem
        obtain ⟨c, hc, heq⟩ := List.mem_map.1 hmem
        exact hdisjoint c hc d hd heq
      unfold SideRecords.cleanups
      rw [hcs.attached, if_neg hnot]
    rw [hds.pending, hcs.pending, hcleanups, List.flatMap_append, List.append_assoc]

/-- What freeing an object without records does. -/
theorem Tick.frees
    (hs : h.Sound)
    (ho : h.arena.Object x c)
    (hnone : h.records.attached.find? x = none)
    (ht : Tick h (.reclaim x) h') :
    Frees h [c] h' := by
  have haddr := Arena.addr_of_cell? ho.1
  have hattached : ∀ y, h.records.attached.find? y =
      if y ∈ [c].map Cell.addr then none else h.records.attached.find? y := by
    intro y
    simp only [List.map_singleton, List.mem_singleton, haddr]
    split
    · next heq => rw [heq, hnone]
    · rfl
  have hpending : h.records.pending =
      h.records.pending ++ [c].flatMap fun c => (h.records.cleanups c.addr).map (⟨0, ·⟩) := by
    rw [List.flatMap_singleton, haddr, SideRecords.cleanups_of_attached_none hnone]
    exact (List.append_nil _).symm
  generalize hl : Act.reclaim x = l at ht
  cases ht with
  | @reclaimCell y d hy hu hf hsmall =>
      cases hl
      obtain rfl := Option.some.inj (ho.1.symm.trans hy)
      have hcells := Arena.cell?_modifyHeader_of_cell hy (·.withState .free)
      refine ⟨fun y hy => ?_, fun d hd _ => ?_, fun d hd hlarge => ?_, fun j hj => hj, hattached,
        hpending, rfl, rfl, rfl⟩
      · rw [List.map_singleton, List.mem_singleton, haddr] at hy
        exact (hcells y).trans (if_neg hy)
      · obtain rfl := List.mem_singleton.1 hd
        refine ⟨_, (hcells d.addr).trans (if_pos haddr), rfl⟩
      · obtain rfl := List.mem_singleton.1 hd
        rw [hsmall] at hlarge
        cases hlarge
  | @reclaimRun i n hd sh hb hn hu hf =>
      cases hl
      obtain ⟨hself, hother⟩ := Arena.close_blocks hb
      have hclosed := Arena.close_layout hs.layout hb hn
      have hcells := hs.layout.cell?_closeRun hclosed hb rfl hself hother
      have hcell := Arena.cell?_of_live_run hs.layout hb hn
      obtain rfl := Option.some.inj (hcell.symm.trans ho.1)
      refine ⟨fun y hy => ?_, fun d hd hsmall => ?_, fun d hd _ => ?_, fun j hj => ?_, hattached,
        hpending, rfl, rfl, rfl⟩
      · rw [List.map_singleton, List.mem_singleton] at hy
        exact (hcells y).trans (if_neg hy)
      · obtain rfl := List.mem_singleton.1 hd
        cases hsmall
      · obtain rfl := List.mem_singleton.1 hd
        refine ⟨(hcells _).trans (if_pos rfl), fun j hle hlt => ?_⟩
        refine (Pages.free_release _ ⟨i, n⟩ j).2 (Or.inr ⟨hle, ?_⟩)
        rwa [Nat.mul_div_cancel n (by decide)] at hlt
      · exact (Pages.free_release _ ⟨i, n⟩ j).2 (Or.inl hj)
  | _ => cases hl

/-- Freeing an object whose cleanups were queued first. -/
theorem Frees.of_cleanup
    (ho : h.arena.Object x c)
    (hfin : h.records.hasFinalizer x = false)
    (hf : Frees
      { h with
        records := h.records.queueCleanups x
        arena := h.arena.modifyHeaderAt x (·.clearFlag Header.sideRecord) }
      [{ c with header := c.header.clearFlag Header.sideRecord }] h') :
    Frees h [c] h' := by
  have haddr := Arena.addr_of_cell? ho.1
  have hcells := Arena.cell?_modifyHeaderAt h.arena x (·.clearFlag Header.sideRecord)
  have houtline := Arena.sameOutline_modifyHeaderAt h.arena x (·.clearFlag Header.sideRecord)
  have hmemory : (h.arena.modifyHeaderAt x (·.clearFlag Header.sideRecord)).memory =
      h.arena.memory := memory_modifyHeaderAt ..
  refine ⟨fun y hy => ?_, fun d hd hsmall => ?_, fun d hd hlarge => ?_, fun j hj => ?_,
    fun y => ?_, ?_, hf.running, hf.memory.trans hmemory, hf.workers⟩
  · refine (hf.others y hy).trans ((hcells y).trans (if_neg ?_))
    rwa [List.map_singleton, List.mem_singleton, haddr] at hy
  · obtain rfl := List.mem_singleton.1 hd
    exact hf.small { d with header := d.header.clearFlag Header.sideRecord }
      (List.mem_singleton_self _) hsmall
  · obtain rfl := List.mem_singleton.1 hd
    exact hf.large { d with header := d.header.clearFlag Header.sideRecord }
      (List.mem_singleton_self _) hlarge
  · refine hf.spared j ?_
    change (h.arena.modifyHeaderAt x _).pages.Free j
    rwa [houtline.pages]
  · refine (hf.attached y).trans ?_
    simp only [List.map_singleton, List.mem_singleton, haddr]
    split
    · rfl
    · next hne => exact SideRecords.attached_queueCleanups_of_ne _ hne
  · have hpending := hf.pending
    have hnone := SideRecords.cleanups_of_attached_none
      (SideRecords.attached_queueCleanups_self h.records x)
    simp only [List.flatMap_singleton, haddr, hnone] at hpending ⊢
    rw [hpending, List.map_nil, List.append_nil]
    exact SideRecords.pending_queueCleanups hfin

/-- A visit frees an object exactly if it is unreached. -/
theorem Visit.frees
    (hv : Visit h x cs g)
    (hs : h.Sound)
    (hfin : ∀ c, h.arena.Object x c → c.header.color = .white → h.records.hasFinalizer x = false) :
    Frees h cs g ∧ (∀ c ∈ cs, h.arena.cell? c.addr = some c) ∧
      cs.map Cell.addr = [x].filter h.arena.isUnreached := by
  have hone : ∀ c, h.arena.Object x c → c.header.color = .white →
      (∀ d ∈ [c], h.arena.cell? d.addr = some d) ∧
        [c].map Cell.addr = [x].filter h.arena.isUnreached := by
    intro c ho hw
    have haddr := Arena.addr_of_cell? ho.1
    refine ⟨fun d hd => ?_, ?_⟩
    · obtain rfl := List.mem_singleton.1 hd
      rw [haddr]
      exact ho.1
    · rw [List.filter_cons_of_pos (Arena.isUnreached_iff.2 ⟨c, ho, hw⟩), List.map_singleton, haddr]
      rfl
  cases hv with
  | spare hspare =>
      refine ⟨Frees.refl h, fun c hc => (nomatch hc), ?_⟩
      rw [List.filter_cons_of_neg fun hu => ?_]
      · rfl
      · obtain ⟨c, ho, hw⟩ := Arena.isUnreached_iff.1 hu
        exact hspare c ho hw
  | keep ho hw hf =>
      rw [hfin _ ho hw] at hf
      cases hf
  | free ho hw hf ht => exact ⟨ht.frees hs ho (hs.recorded.not_flagged ho.1 hf), hone _ ho hw⟩
  | @cleanup c _ ho hw hf ht =>
      refine ⟨.of_cleanup ho hf (ht.frees ((Tick.cleanup hf).sound hs) ⟨?_, ho.2⟩ ?_), hone _ ho hw⟩
      · exact (Arena.cell?_modifyHeaderAt ..).trans (by rw [if_pos rfl, ho.1]; rfl)
      · exact SideRecords.attached_queueCleanups_self _ _

theorem frees_offer
    (hst : Still h (h.offer b)) :
    Frees h [] (h.offer b) := by
  refine .of_same (fun y => ?_) hst.outline.pages hst.records hst.memory ?_
  · have hmap := hst.outline.cell?_eq_map (fun _ _ hd => hd) (fun b k => by simp [hst.headers b k]) y
    simpa using hmap
  · unfold offer
    split <;> rfl

/-- Visits free exactly the unreached objects, if none of these has a finalizer. -/
theorem Visits.frees
    (hv : Visits h xs cs h')
    (hs : h.Sound)
    (hn : xs.Nodup)
    (hfin : ∀ x c, h.arena.Object x c → c.header.color = .white →
      h.records.hasFinalizer x = false) :
    Frees h cs h' ∧ (∀ c ∈ cs, h.arena.cell? c.addr = some c) ∧
      cs.map Cell.addr = xs.filter h.arena.isUnreached := by
  induction hv with
  | nil h => exact ⟨Frees.refl h, fun c hc => (nomatch hc), rfl⟩
  | @offer h h' xs cs b hst _ ih =>
      have hoffer := frees_offer hst
      have hsame : ∀ y, (h.offer b).arena.cell? y = h.arena.cell? y :=
        fun y => hoffer.others y List.not_mem_nil
      obtain ⟨hfrees, hcells, hlist⟩ := ih (hst.steps.sound hs) hn fun x c ho hw => by
        rw [hst.records]
        exact hfin x c ⟨(hsame x).symm.trans ho.1, ho.2⟩ hw
      refine ⟨hoffer.trans hfrees fun c hc => (nomatch hc), fun c hc => ?_, hlist.trans ?_⟩
      · exact (hsame _).symm.trans (hcells c hc)
      · refine List.filter_congr fun y _ => ?_
        unfold Arena.isUnreached
        rw [hsame]
  | @visit h g h' z xs cs ds hv _ ih =>
      obtain ⟨hz, hn⟩ := List.nodup_cons.1 hn
      obtain ⟨hfirst, hcells, hlist⟩ := hv.frees hs fun c => hfin z c
      have hmem : ∀ y, y ∈ cs.map Cell.addr → y = z := by
        intro y hy
        rw [hlist] at hy
        exact List.mem_singleton.1 (List.mem_filter.1 hy).1
      -- An object that is left was there before, with the same records.
      have hleft : ∀ x c, g.arena.Object x c → x ∉ cs.map Cell.addr := by
        intro x c ho hx
        obtain ⟨d, hd, rfl⟩ := List.mem_map.1 hx
        cases hl : d.isLarge with
        | true =>
            have hnone := (hfirst.large d hd hl).1
            rw [ho.1] at hnone
            cases hnone
        | false =>
            obtain ⟨hdr, hcell, hst⟩ := hfirst.small d hd hl
            obtain rfl := Option.some.inj (hcell.symm.trans ho.1)
            rw [show hdr.state = .allocated from ho.2] at hst
            cases hst
      obtain ⟨hrest, hcells', hlist'⟩ := ih (hv.steps.sound hs) hn fun x c ho hw => by
        have hx := hleft x c ho
        unfold SideRecords.hasFinalizer
        rw [hfirst.attached, if_neg hx]
        exact hfin x c ⟨(hfirst.others x hx).symm.trans ho.1, ho.2⟩ hw
      have hnew : ∀ y ∈ xs, y ∉ cs.map Cell.addr := fun y hy hmemy => hz (hmem y hmemy ▸ hy)
      have hfilter : xs.filter g.arena.isUnreached = xs.filter h.arena.isUnreached := by
        refine List.filter_congr fun y hy => ?_
        unfold Arena.isUnreached
        rw [hfirst.others y (hnew y hy)]
      have hds : ∀ d ∈ ds, d.addr ∉ cs.map Cell.addr := by
        intro d hd
        have hdmem : d.addr ∈ ds.map Cell.addr := List.mem_map_of_mem hd
        rw [hlist'] at hdmem
        exact hnew _ (List.mem_filter.1 hdmem).1
      refine ⟨hfirst.trans hrest fun c hc d hd heq => ?_, fun c hc => ?_, ?_⟩
      · exact hds d hd (heq ▸ List.mem_map_of_mem hc)
      · rcases List.mem_append.1 hc with hc | hc
        · exact hcells c hc
        · rw [← hfirst.others _ (hds c hc)]
          exact hcells' c hc
      · rw [List.map_append, hlist, hlist', hfilter, ← List.filter_append]
        rfl

/-! ### Steps of the sweeper -/

theorem Sound.withCollector
    (hs : h.Sound)
    (k : Option Collector) :
    ({ h with collector := k } : Heap).Sound :=
  ⟨hs.layout, ⟨hs.stocked.entries, hs.stocked.cursors, hs.stocked.central⟩, hs.recorded⟩

/-- Visits do not depend on what the collector notes. -/
theorem Visit.withCollector
    (hv : Visit h x cs g)
    (k : Option Collector) :
    Visit { h with collector := k } x cs { g with collector := k } := by
  have htick : ∀ {h g : Heap}, Tick h (.reclaim x) g →
      Tick { h with collector := k } (.reclaim x) { g with collector := k } := by
    intro h g ht
    generalize hl : Act.reclaim x = l at ht
    cases ht with
    | reclaimCell hx hu hf hsmall =>
        cases hl
        exact .reclaimCell hx hu hf hsmall
    | reclaimRun hb hn hu hf =>
        cases hl
        exact .reclaimRun hb hn hu hf
    | _ => cases hl
  cases hv with
  | spare hx => exact .spare hx
  | keep ho hw hf =>
      have hsame : { h.resurrect x with collector := k } =
          ({ h with collector := k } : Heap).resurrect x := by
        unfold resurrect
        simp only
        split <;> rfl
      rw [hsame]
      exact .keep ho hw hf
  | free ho hw hf ht => exact .free ho hw hf (htick ht)
  | cleanup ho hw hf ht => exact .cleanup ho hw hf (htick ht)

theorem Visits.withCollector
    (hv : Visits h xs cs h')
    (k : Option Collector) :
    Visits { h with collector := k } xs cs { h' with collector := k } := by
  induction hv with
  | nil h => exact .nil _
  | visit hv _ ih => exact .visit (hv.withCollector k) ih
  | @offer h h' xs cs b hst _ ih =>
      have hsame : { h.offer b with collector := k } =
          ({ h with collector := k } : Heap).offer b := by
        unfold Heap.offer
        simp only
        split <;> rfl
      refine .offer b ?_ (hsame ▸ ih)
      rw [← hsame]
      exact ⟨hst.outline, hst.headers, hst.memory, hst.config, hst.phase, hst.records, hst.barrier,
        rfl, fun hs =>
          have hst' := hst.stocked ⟨hs.entries, hs.cursors, hs.central⟩
          ⟨hst'.entries, hst'.cursors, hst'.central⟩⟩

/-- Sweeping in steps of a budget visits the cells of all blocks that are left. -/
theorem sweepSteps_visits
    {budget n : Nat} {k : Collector}
    (hs : h.Sound)
    (hbudget : 0 < budget)
    (hk : h.collector = some k)
    (hn : k.sweepLimit - k.sweepNext < n)
    (hle : k.sweepNext ≤ k.sweepLimit) :
    ∃ cs g, Visits h ((List.range' k.sweepNext (k.sweepLimit - k.sweepNext)).flatMap
        h.arena.cellsOf) cs g ∧
      sweepSteps budget n h = { g with
        collector := some { k with
          sweepNext := k.sweepLimit
          swept := k.swept + cs.length
          bytes := k.bytes + (cs.map Cell.size).sum } } := by
  induction n generalizing h k with
  | zero => exact absurd hn (Nat.not_lt_zero _)
  | succ n ih =>
      rcases sweepStep_cases hs budget with ⟨hnone, -⟩ | ⟨k', cs, g, hk', hv, heq⟩
      · rw [hk] at hnone
        cases hnone
      obtain rfl := Option.some.inj (hk.symm.trans hk')
      unfold sweepSteps
      simp only [heq]
      split
      · next hmore =>
          have hlt : k.sweepNext + min budget (k.sweepLimit - k.sweepNext) < k.sweepLimit := by
            simpa [hasUnswept] using hmore
          have hg : ({ g with
              collector := some { k with
                sweepNext := k.sweepNext + min budget (k.sweepLimit - k.sweepNext)
                swept := k.swept + cs.length
                bytes := k.bytes + (cs.map Cell.size).sum } } : Heap).Sound :=
            (hv.steps.sound hs).withCollector _
          obtain ⟨ds, g', hrest, heq'⟩ := ih hg rfl (by simp only; omega) (Nat.le_of_lt hlt)
          have hcells : ∀ i ∈ List.range' (k.sweepNext + min budget (k.sweepLimit - k.sweepNext))
              (k.sweepLimit - (k.sweepNext + min budget (k.sweepLimit - k.sweepNext))),
              g.arena.cellsOf i = h.arena.cellsOf i := by
            intro i hi
            refine Arena.cellsOf_congr (hv.outline fun x hx heq => ?_)
            obtain ⟨j, hj, hxj⟩ := List.mem_flatMap.1 hx
            rw [Arena.block_of_mem_cellsOf hs.layout hxj] at heq
            have := (List.mem_range'_1.1 hi).1
            have := (List.mem_range'_1.1 hj).2
            omega
          have hrest := hrest.withCollector g.collector
          simp only at hrest
          rw [List.flatMap_def, List.map_congr_left hcells, ← List.flatMap_def] at hrest
          refine ⟨cs ++ ds, { g' with collector := g.collector }, ?_, ?_⟩
          · have hall := hv.append hrest
            rwa [← List.flatMap_append, List.range'_append_1, show
              min budget (k.sweepLimit - k.sweepNext) +
                (k.sweepLimit - (k.sweepNext + min budget (k.sweepLimit - k.sweepNext))) =
              k.sweepLimit - k.sweepNext by omega] at hall
          · rw [heq']
            simp [Nat.add_assoc]
      · next hdone =>
          have hall : k.sweepNext + min budget (k.sweepLimit - k.sweepNext) = k.sweepLimit := by
            have hge : ¬ k.sweepNext + min budget (k.sweepLimit - k.sweepNext) < k.sweepLimit := by
              simpa [hasUnswept] using hdone
            omega
          have hcount : min budget (k.sweepLimit - k.sweepNext) = k.sweepLimit - k.sweepNext := by
            omega
          rw [hcount] at hv
          exact ⟨cs, g, hv, by rw [hall]⟩

end Heap

end EagerHeap
