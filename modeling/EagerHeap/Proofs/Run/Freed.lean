import EagerHeap.Proofs.Cycle.Collected
import EagerHeap.Proofs.Run.Reclaimed
/-!
# The account of a cycle

The cells of the objects that moves reclaim are kept beside the state. While a cycle runs the
collector has counted each of them once, with its size; the sweeper goes on from block to block, so it
comes to no cell twice.

Main results: `Proper.collector_sweepStep` and `Proper.tallied`.
-/

namespace EagerHeap

/-- The cells at addresses have these addresses. -/
theorem Arena.map_addr_filterMap
    {a : Arena} {xs : List Nat}
    (hxs : ∀ x ∈ xs, ∃ c, a.cell? x = some c) :
    (xs.filterMap a.cell?).map Cell.addr = xs := by
  induction xs with
  | nil => rfl
  | cons x xs ih =>
      obtain ⟨c, hc⟩ := hxs x (List.mem_cons_self ..)
      rw [List.filterMap_cons_some hc, List.map_cons, Arena.addr_of_cell? hc,
        ih fun y hy => hxs y (List.mem_cons_of_mem _ hy)]

/-- Cells are found again at their addresses. -/
theorem Arena.filterMap_map_addr
    {a : Arena} {cs : List Cell}
    (hcs : ∀ c ∈ cs, a.cell? c.addr = some c) :
    (cs.map Cell.addr).filterMap a.cell? = cs := by
  induction cs with
  | nil => rfl
  | cons c cs ih =>
      rw [List.map_cons, List.filterMap_cons_some (hcs c (List.mem_cons_self ..)),
        ih fun d hd => hcs d (List.mem_cons_of_mem _ hd)]

namespace Machine

variable {P : Machine → Move → Prop} {m : Machine} {y : Move} {ys zs : List Move} {n x : Nat}
  {c : Cell} {k : Collector} {t : CycleTotals} {freed : List Cell}

open Heap

/-- The cells of the objects that a move reclaims. -/
def reclaimed (m : Machine) (y : Move) : List Cell :=
  (m.heap.arena.cells.filter fun x => m.Reclaims y x).filterMap m.heap.arena.cell?

/-- The cells of the objects that a run reclaims. -/
def reclaimedIn : Machine → List Move → List Cell
  | _, [] => []
  | m, y :: ys => m.reclaimed y ++ reclaimedIn (m.apply y) ys

theorem reclaimedIn_append (m : Machine) (ys zs : List Move) :
    m.reclaimedIn (ys ++ zs) = m.reclaimedIn ys ++ (m.run ys).reclaimedIn zs := by
  induction ys generalizing m with
  | nil => rfl
  | cons y ys ih =>
      rw [List.cons_append, reclaimedIn, reclaimedIn, ih, List.append_assoc, run_cons]

theorem map_addr_reclaimed
    (hl : m.heap.arena.Layout)
    (y : Move) :
    (m.reclaimed y).map Cell.addr = m.heap.arena.cells.filter fun x => m.Reclaims y x :=
  Arena.map_addr_filterMap fun _ hx => (Arena.mem_cells hl).1 (List.mem_filter.1 hx).1

theorem mem_reclaimed
    (hl : m.heap.arena.Layout) :
    c ∈ m.reclaimed y ↔ m.heap.arena.cell? c.addr = some c ∧ m.Reclaims y c.addr := by
  unfold reclaimed
  rw [List.mem_filterMap]
  constructor
  · rintro ⟨x, hx, hc⟩
    rw [Arena.addr_of_cell? hc]
    exact ⟨hc, of_decide_eq_true (List.mem_filter.1 hx).2⟩
  · rintro ⟨hc, hr⟩
    exact ⟨c.addr, List.mem_filter.2 ⟨(Arena.mem_cells hl).2 ⟨c, hc⟩, decide_eq_true hr⟩, hc⟩

/-- Nothing but a step of the sweeper reclaims objects. -/
theorem Proper.reclaimed_eq_nil
    (hm : m.Proper)
    (hy : m.Allows y)
    (hsweep : ∀ n, y ≠ .sweepStep n) :
    m.reclaimed y = [] := by
  refine List.eq_nil_iff_forall_not_mem.2 fun c hc => ?_
  obtain ⟨n, rfl, -⟩ := (hm.reclaims_iff hy).1 ((mem_reclaimed hm.sound.layout).1 hc).2
  exact hsweep n rfl

/-- The collector counts what it reclaims, and the bytes of it. -/
theorem Proper.collector_sweepStep
    (hm : m.Proper)
    (hy : m.Allows (.sweepStep n))
    (hk : m.heap.collector = some k) :
    (m.apply (.sweepStep n)).heap.collector = some { k with
      sweepNext := k.sweepNext + min n (k.sweepLimit - k.sweepNext)
      swept := k.swept + (m.reclaimed (.sweepStep n)).length
      bytes := k.bytes + ((m.reclaimed (.sweepStep n)).map Cell.size).sum } := by
  have hl := hm.sound.layout
  rcases sweepStep_cases hm.sound n with ⟨hnone, -⟩ | ⟨k', cs, g, hk', hv, heq⟩
  · rw [hk] at hnone
    cases hnone
  obtain rfl := Option.some.inj (hk.symm.trans hk')
  have hnodup := Arena.nodup_cellsOf_range hl k.sweepNext (min n (k.sweepLimit - k.sweepNext))
  obtain ⟨hcells, hlist⟩ := hv.freed hm.sound hnodup
  have haddrs : (m.heap.arena.cells.filter fun x => m.Reclaims (.sweepStep n) x).Perm
      (cs.map Cell.addr) := by
    rw [hlist]
    refine (List.perm_ext_iff_of_nodup ((Arena.nodup_cells hl).filter _)
      (hnodup.filter _)).2 fun x => ?_
    rw [List.mem_filter, List.mem_filter, decide_eq_true_iff, hm.reclaims_iff hy]
    constructor
    · rintro ⟨-, n', hn, ⟨k', hk', hb⟩, hx⟩
      cases hn
      obtain rfl := Option.some.inj (hk.symm.trans hk')
      obtain ⟨⟨c, ho, -⟩, -⟩ := isSweepable_iff.1 hx
      exact ⟨(mem_sweepRange hl ho).2 hb, hx⟩
    · rintro ⟨hmem, hx⟩
      obtain ⟨⟨c, ho, -⟩, -⟩ := isSweepable_iff.1 hx
      exact ⟨(Arena.mem_cells hl).2 ⟨c, ho.1⟩, n, rfl, ⟨k, hk, (mem_sweepRange hl ho).1 hmem⟩, hx⟩
  have hperm : (m.reclaimed (.sweepStep n)).Perm cs := by
    have hmap := haddrs.filterMap m.heap.arena.cell?
    rwa [Arena.filterMap_map_addr hcells] at hmap
  have hafter : (m.apply (.sweepStep n)).heap = _ := heq
  rw [hafter, hperm.length_eq, (hperm.map Cell.size).sum_nat]

/-! ### The sweep of a cycle -/

/-- The sweep of a cycle was started. -/
def Sweeping (m : Machine) : Prop := m.heap.phase = .sweep ∧ m.stage ≠ .entering

/-- The heap stays idle until a cycle begins. -/
theorem Proper.phase_idle
    (hm : m.Proper)
    (hy : m.Allows y)
    (hbegin : y ≠ .begin)
    (hidle : m.heap.phase = .idle) :
    (m.apply y).heap.phase = .idle :=
  hm.phase_stays hy (by cases y <;> simp [Move.enters, Phase.next] at hbegin ⊢) hidle

/-- The heap becomes idle only when a cycle ends. -/
theorem Proper.phase_ne_idle
    (hm : m.Proper)
    (hy : m.Allows y)
    (hfinish : y ≠ .finish)
    (hne : m.heap.phase ≠ .idle) :
    (m.apply y).heap.phase ≠ .idle :=
  hm.phase_ne hy (by cases y <;> simp [Move.enters] at hfinish ⊢) hne

/-- Between the start of a sweep and the end of its cycle the heap is sweeping. -/
theorem Proper.sweeping_iff
    (hm : m.Proper)
    (hy : m.Allows y)
    (hstart : y ≠ .startSweep)
    (hfinish : y ≠ .finish) :
    (m.apply y).Sweeping ↔ m.Sweeping := by
  by_cases henter : y = .enterSweep
  · subst henter
    have hphase : m.heap.phase = .termination := hm.fits (s := .resurrected) hy
    exact iff_of_false (fun h => h.2 rfl) fun h => Phase.noConfusion (hphase.symm.trans h.1)
  · have hstage : (m.apply y).stage = .entering ↔ m.stage = .entering := by
      change m.stageAfter y = _ ↔ _
      cases y <;> simp_all [Allows, stageAfter]
    unfold Sweeping
    rw [Ne, hstage]
    refine and_congr_left fun _ => ⟨fun h => ?_, hm.phase_sweep hy hfinish⟩
    by_contra hne
    exact hm.phase_ne_sweep hy henter hne h

/-- While a cycle runs, until it is accounted for, the heap is idle only at the end of the cycle. -/
theorem Proper.closing
    (hm : m.Proper)
    (hy : m.Allows y)
    (hclose : y ≠ .closeCycle)
    (hc : m.heap.phase = .idle → m.stage = .closing)
    (hidle : (m.apply y).heap.phase = .idle) :
    (m.apply y).stage = .closing := by
  by_cases hfinish : y = .finish
  · rw [hfinish]
    rfl
  · have hstage := hc (not_not.1 fun hne => hm.phase_ne_idle hy hfinish hne hidle)
    change m.stageAfter y = .closing
    cases y <;> simp_all [Allows, stageAfter]

/-! ### What was counted -/

/-- While a cycle runs, its collector has counted the cells that were freed, each of them once: they
are those of blocks that it has swept, and there are none before its sweep is started. -/
structure Tallied (m : Machine) (t : CycleTotals) (freed : List Cell) (k : Collector) : Prop where
  collector : m.heap.collector = some k
  swept : k.swept = freed.length
  bytes : k.bytes = (freed.map Cell.size).sum
  totals : k.totals = t
  distinct : (freed.map Cell.addr).Nodup
  behind : m.Sweeping → ∀ c ∈ freed, (c.addr - Arena.start) / blockSize < k.sweepNext
  quiet : m.heap.phase ≠ .idle → ¬ m.Sweeping → freed = []
  closing : m.heap.phase = .idle → m.stage = .closing

/-- A collector is in the middle of a cycle from the begin of the cycle until it is accounted for. -/
theorem Tallied.not_outside
    (ht : m.Tallied t freed k)
    (hy : m.Allows y) :
    y ≠ .attachCollector ∧ y ≠ .detachCollector ∧ y ≠ .begin := by
  refine ⟨?_, ?_, ?_⟩
  · rintro rfl
    cases (show m.heap.collector = none from hy).symm.trans ht.collector
  · rintro rfl
    exact Stage.noConfusion (hy.1.symm.trans (ht.closing hy.2))
  · rintro rfl
    exact Stage.noConfusion (hy.1.symm.trans (ht.closing hy.2.1))

theorem tallied_begin
    (hy : m.Allows .begin) :
    ∃ k, (m.apply .begin).Tallied m.heap.totals [] k := by
  obtain ⟨k, hk⟩ := Option.isSome_iff_exists.1 hy.2.2
  have hphase : (m.apply .begin).heap.phase = .mark := congrArg Phase.next hy.2.1
  refine ⟨{ k with marked := 0, swept := 0, bytes := 0, zeroedBefore := m.heap.slotsZeroed }, ?_,
    rfl, rfl, ?_, List.nodup_nil, fun _ c hc => (nomatch hc), fun _ _ => rfl, fun hidle => ?_⟩
  · change m.heap.collector.map _ = _
    rw [hk]
    rfl
  · unfold totals
    rw [hk]
    rfl
  · rw [hphase] at hidle
    cases hidle

/-- Every move of a cycle keeps the account of what it frees. -/
theorem Proper.tallied
    (hm : m.Proper)
    (hy : m.Allows y)
    (hphase : m.SweepsInPhase y)
    (hclose : y ≠ .closeCycle)
    (ht : m.Tallied t freed k) :
    ∃ k', (m.apply y).Tallied t (freed ++ m.reclaimed y) k' := by
  obtain ⟨hattach, hdetach, hbegin⟩ := ht.not_outside hy
  have hclosing := hm.closing hy hclose ht.closing
  by_cases hsweep : ∃ n, y = .sweepStep n
  · obtain ⟨n, rfl⟩ := hsweep
    have hsweeping : m.Sweeping := ⟨hphase, by rw [show m.stage = .resting from hy]; decide⟩
    have hsweeping' := (hm.sweeping_iff hy (by simp) (by simp)).2 hsweeping
    -- The cells that are freed now are those of further blocks.
    have hahead : ∀ c ∈ m.reclaimed (.sweepStep n),
        k.sweepNext ≤ (c.addr - Arena.start) / blockSize ∧
          (c.addr - Arena.start) / blockSize <
            k.sweepNext + min n (k.sweepLimit - k.sweepNext) := by
      intro c hc
      obtain ⟨n', hn, ⟨k', hk', hb⟩, -⟩ :=
        (hm.reclaims_iff hy).1 ((mem_reclaimed hm.sound.layout).1 hc).2
      cases hn
      obtain rfl := Option.some.inj (ht.collector.symm.trans hk')
      exact hb
    have hdistinct : ((m.reclaimed (.sweepStep n)).map Cell.addr).Nodup := by
      rw [map_addr_reclaimed hm.sound.layout]
      exact (Arena.nodup_cells hm.sound.layout).filter _
    refine ⟨_, hm.collector_sweepStep hy ht.collector, ?_, ?_, ht.totals, ?_, ?_, ?_, hclosing⟩
    · rw [List.length_append, ht.swept]
    · rw [List.map_append, List.sum_append, ht.bytes]
    · rw [List.map_append, List.nodup_append]
      refine ⟨ht.distinct, hdistinct, ?_⟩
      rintro a ha b hb rfl
      obtain ⟨c, hc, rfl⟩ := List.mem_map.1 ha
      obtain ⟨d, hd, heq⟩ := List.mem_map.1 hb
      have hold := ht.behind hsweeping c hc
      have hnew := (hahead d hd).1
      rw [heq] at hnew
      omega
    · intro _ c hc
      rcases List.mem_append.1 hc with hc | hc
      · exact Nat.lt_add_right _ (ht.behind hsweeping c hc)
      · exact (hahead c hc).2
    · exact fun _ hnot => absurd hsweeping' hnot
  rw [hm.reclaimed_eq_nil hy fun n e => hsweep ⟨n, e⟩, List.append_nil]
  by_cases hstart : y = .startSweep
  · subst hstart
    have hsweep : m.heap.phase = .sweep := hm.fits (s := .entering) hy
    have hnone : freed = [] := by
      refine ht.quiet ?_ fun h => h.2 hy
      rw [hsweep]
      exact Phase.noConfusion
    refine ⟨{ k with sweepNext := 0, sweepLimit := m.heap.arena.pages.next }, ?_, ht.swept, ht.bytes,
      ht.totals, ht.distinct, fun _ c hc => ?_, fun _ _ => hnone, hclosing⟩
    · change m.heap.collector.map _ = _
      rw [ht.collector]
      rfl
    · rw [hnone] at hc
      cases hc
  · have hnot : ¬ y.Accounts := by
      cases y <;> simp_all [Move.Accounts]
    have haccount := hm.account hy hnot
    rw [ht.collector] at haccount
    obtain ⟨k', hk', hsame⟩ := Option.map_eq_some_iff.1 haccount
    have hkept : ∀ {α : Type} (f : Collector → α), (∀ l : Collector, f l.unmarked = f l) →
        f k' = f k := fun f hf => (hf k').symm.trans ((congrArg f hsame).trans (hf k))
    have hnext : k'.sweepNext = k.sweepNext := hkept Collector.sweepNext fun _ => rfl
    refine ⟨k', hk', (hkept Collector.swept fun _ => rfl).trans ht.swept,
      (hkept Collector.bytes fun _ => rfl).trans ht.bytes,
      (hkept Collector.totals fun _ => rfl).trans ht.totals, ht.distinct, ?_, ?_, hclosing⟩
    · intro hsweeping c hc
      rw [hnext]
      refine ht.behind ?_ c hc
      refine (hm.sweeping_iff hy hstart ?_).1 hsweeping
      rintro rfl
      cases (congrArg Phase.next hy.2).symm.trans hsweeping.1
    · intro hidle hnot
      have hfinish : y ≠ .finish := by
        rintro rfl
        exact hidle (congrArg Phase.next hy.2)
      exact ht.quiet (fun hidle' => hidle (hm.phase_idle hy hbegin hidle'))
        fun h => hnot ((hm.sweeping_iff hy hstart hfinish).2 h)

end Machine

end EagerHeap
