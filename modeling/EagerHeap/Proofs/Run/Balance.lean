import EagerHeap.Proofs.Heap.Balance
import EagerHeap.Proofs.Run.Cached
import EagerHeap.Proofs.Run.Freed
/-!
# The counters of a run

In every state of a run the counters of all workers and an occupancy report agree: every object that
was handed out is there, was freed eagerly, or was freed by the sweeper. A large allocation is counted
before it gets its run of blocks; in between it is due.

Main results: `Proper.shifts`, `Proper.credited` and `counters_balance`.
-/

namespace EagerHeap

/-- The counters that an operation raises by one in a step of its own. -/
def Counter.Apart : Counter → Prop
  | .slowAllocations | .growCalls | .growFrees | .trackedAllocations => True
  | _ => False

instance decidableApart : (c : Counter) → Decidable c.Apart
  | .slowAllocations | .growCalls | .growFrees | .trackedAllocations => .isTrue trivial
  | .freeListHits | .freesAccepted | .rejected _ | .trackedFrees | .trackedSkipped | .trackOverflow
  | .flushed => .isFalse id

namespace Machine

/-- The number of large allocations that were counted and have no run of blocks, after a move, if
there were `n` before. -/
def dueAfter (m : Machine) (n : Nat) : Move → Nat
  | .count _ c k => if c = .slowAllocations then n + k else n
  | .carveRun j sh => if (m.handsOut (.carveRun j sh)).isSome then n - 1 else n
  | _ => n

/-- The number of large allocations that were counted and have no run of blocks, after a run. -/
def dueIn : Machine → Nat → List Move → Nat
  | _, n, [] => n
  | m, n, y :: ys => dueIn (m.apply y) (m.dueAfter n y) ys

/-- What the counting of allocations keeps to, while `n` large allocations are due: a live worker
counts its own allocation or growth, and a run of blocks is carved for an allocation that was
counted. -/
def Books (m : Machine) (n : Nat) : Move → Prop
  | .count id c k => (∃ w ∈ m.heap.workers, w.id = id) ∧ c.Apart ∧ k = 1
  | .carveRun .. => 0 < n
  | _ => True

instance decidableBooks (m : Machine) (n : Nat) : (y : Move) → Decidable (m.Books n y)
  | .count id c k =>
    inferInstanceAs (Decidable ((∃ w ∈ m.heap.workers, w.id = id) ∧ c.Apart ∧ k = 1))
  | .carveRun .. => inferInstanceAs (Decidable (0 < n))
  | .addWorker | .flushWorker _ | .retireWorker _ | .reuse .. | .claim .. | .takePartial _
  | .carveBlock _ | .setCursor .. | .free .. | .write .. | .copy .. | .attach .. | .startBatch
  | .fire | .endBatch | .breakBatch | .makeRegistry _ | .dropRegistry _ | .enterScope ..
  | .recordTracked .. | .drainScope _ | .leakScope _ | .observe | .attachCollector
  | .detachCollector | .begin | .shadeRoots _ | .markStep _ | .terminate | .finishMarking _
  | .resurrect | .enterSweep | .zeroSlots | .startSweep | .sweepStep _ | .finish | .closeCycle =>
    .isTrue trivial

/-- The counting of allocations keeps to it in every move of the run. -/
def Booked : Machine → Nat → List Move → Prop
  | _, _, [] => True
  | m, n, y :: ys => m.Books n y ∧ Booked (m.apply y) (m.dueAfter n y) ys

instance decidableBooked (m : Machine) (n : Nat) (ys : List Move) : Decidable (m.Booked n ys) :=
  match ys with
  | [] => .isTrue trivial
  | y :: ys =>
    have := decidableBooked (m.apply y) (m.dueAfter n y) ys
    inferInstanceAs (Decidable (m.Books n y ∧ (m.apply y).Booked (m.dueAfter n y) ys))

variable {P : Machine → Move → Prop} {m : Machine} {e : Ends} {y : Move} {ys : List Move}
  {n freed : Nat} {memory : Nat} {c : Config} {h : Heap} {k : Collector} {cs : List Cell} {F : Tally}

open Heap

/-! ### One move -/

/-- The sweeper takes away the objects that it reclaims, and counts nothing for the workers. -/
theorem Proper.shifts_sweepStep
    {j : Nat}
    (hm : m.Proper)
    (hy : m.Allows (.sweepStep j)) :
    Shifts m.heap (m.apply (.sweepStep j)).heap (-(m.reclaimed (.sweepStep j)).length) 0 := by
  have hcounted : ∀ d, (m.apply (.sweepStep j)).heap.counted d = m.heap.counted d := fun d =>
    counted_of_clients (clients_sweepStep m.heap j)
  have hcached : (m.apply (.sweepStep j)).heap.cachedCount = m.heap.cachedCount :=
    (hm.steps hy).cachedCount_eq hm.sound (by simp [Move.Does]) (by simp [Move.Does])
      (by simp [Move.Does])
  refine .of_uncounted ?_ (by rw [hcached, add_zero]) hcounted
  rcases sweepStep_cases hm.sound j with ⟨hnone, hsame⟩ | ⟨k, cs, g, hk, hv, heq⟩
  · have hempty : m.reclaimed (.sweepStep j) = [] := by
      refine List.eq_nil_iff_forall_not_mem.2 fun c hc => ?_
      obtain ⟨i, -, ⟨k, hk, -⟩, -⟩ :=
        (hm.reclaims_iff hy).1 ((mem_reclaimed hm.sound.layout).1 hc).2
      cases hnone.symm.trans hk
    rw [hempty, show (m.apply (.sweepStep j)).heap = m.heap from hsame]
    simp
  · -- The collector has counted both what was visited and what was reclaimed.
    have hcollector := hm.collector_sweepStep hy hk
    rw [show (m.apply (.sweepStep j)).heap = _ from heq] at hcollector ⊢
    have hlength : k.swept + cs.length = k.swept + (m.reclaimed (.sweepStep j)).length :=
      congrArg Collector.swept (Option.some.inj hcollector)
    have hobjects : m.heap.objectCount = g.objectCount + cs.length := hv.objectCount hm.sound
    change (g.objectCount : ℤ) = _
    omega

/-- Objects and counters change together, but for the objects that are reclaimed and for the large
allocations that become due or get their runs. -/
theorem Proper.shifts
    (hm : m.Proper)
    (hf : m.heap.Shelved)
    (hmanned : m.Manned e)
    (hy : m.Allows y)
    (hheeds : m.Heeds e y)
    (hbooks : m.Books n y) :
    Shifts m.heap (m.apply y).heap (n - m.dueAfter n y - (m.reclaimed y).length) 0 := by
  have hs := hm.sound
  have hlive : ∀ {id}, m.Serves e id → id ∈ m.heap.workers.map Worker.id := fun hserves =>
    List.mem_map.2 hserves.1
  -- A move that reclaims nothing and is no part of a large allocation.
  have hplain : (∀ j, y ≠ .sweepStep j) → m.dueAfter n y = n →
      Shifts m.heap (m.apply y).heap 0 0 →
      Shifts m.heap (m.apply y).heap (n - m.dueAfter n y - (m.reclaimed y).length) 0 := by
    intro hsweep hdue hshifts
    rw [hdue, hm.reclaimed_eq_nil hy hsweep]
    simpa using hshifts
  have hquiet : (∀ x, ¬ y.Does (.birth x) ∧ ¬ y.Does (.park x) ∧ ¬ y.Does (.uncache x) ∧
      ¬ y.Does (.reclaim x)) → (∀ d, (m.apply y).heap.counted d = m.heap.counted d) →
      Shifts m.heap (m.apply y).heap 0 0 := fun hnot hcounted =>
    .of_steps (hm.steps hy) hs (fun x => (hnot x).1) (fun x => (hnot x).2.1)
      (fun x => (hnot x).2.2.1) (fun x => (hnot x).2.2.2) hcounted
  cases y with
  | sweepStep j => simpa [dueAfter] using hm.shifts_sweepStep hy
  | carveRun j sh =>
      have hpos : 0 < n := hbooks
      rw [hm.reclaimed_eq_nil hy (by simp), dueAfter]
      rcases carveRun_cases hs hy sh with ⟨x, hx, -⟩ | ⟨hnone, hsame⟩
      · have hout : (m.handsOut (.carveRun j sh)).isSome = true := by
          rw [Machine.handsOut, hx]
          rfl
        rw [if_pos hout, show (n : ℤ) - ((n - 1 : ℕ) : ℤ) - ([] : List Cell).length = 1 by
          simp only [List.length_nil]
          omega]
        exact shifts_carveRun hs hy hx
      · have hout : ¬ (m.handsOut (.carveRun j sh)).isSome = true := by
          rw [Machine.handsOut, hnone]
          exact Bool.false_ne_true
        rw [if_neg hout, show (m.apply (.carveRun j sh)).heap = m.heap from hsame]
        simpa using Shifts.refl m.heap
  | count id d i =>
      obtain ⟨hid, hapart, rfl⟩ := hbooks
      have hcount := shifts_count hs hf.ids (List.mem_map.2 hid) d 1
      rw [hm.reclaimed_eq_nil hy (by simp), dueAfter]
      change Shifts m.heap (m.heap.count id d 1) _ _
      cases d with
      | slowAllocations | growCalls | growFrees | trackedAllocations =>
          simpa [Counter.objectSign, Counter.cacheSign] using hcount
      | _ => cases hapart
  | addWorker => exact hplain (by simp) rfl (shifts_addWorker hs)
  | flushWorker id => exact hplain (by simp) rfl (shifts_flushWorker hs hf.ids id)
  | retireWorker id =>
      exact hplain (by simp) rfl (apply_retireWorker (R := fun g => Shifts m.heap g 0 0)
        (Shifts.refl m.heap) fun g hr => shifts_retireWorker hs hf.ids hr)
  | reuse id s => exact hplain (by simp) rfl (hf.shifts_reuse hs (hlive hheeds) s)
  | claim id s => exact hplain (by simp) rfl (hf.shifts_claim hs (hlive hheeds) s)
  | free id x size shape =>
      exact hplain (by simp) rfl (shifts_free hs hf.ids (hlive hheeds) x size shape)
  | drainScope i =>
      obtain ⟨s, hopen⟩ := hheeds
      exact hplain (by simp) rfl (shifts_drainScope hs hf.ids hopen.1
        (hlive (hmanned.serving i _ hopen.post?_eq rfl)))
  | recordTracked i x t =>
      obtain ⟨s, hopen⟩ := hheeds
      exact hplain (by simp) rfl (shifts_recordTracked hs hf.ids hopen.1
        (hlive (hmanned.serving i _ hopen.post?_eq rfl)) x t)
  | setCursor id s block =>
      exact hplain (by simp) rfl (hquiet (by simp [Move.Does]) (counted_setCursor m.heap id s _))
  | dropRegistry r =>
      exact hplain (by simp) rfl (hquiet (by simp [Move.Does]) (counted_dropRegistry m.heap r))
  | enterScope id r =>
      exact hplain (by simp) rfl (hquiet (by simp [Move.Does]) (counted_enterScope m.heap id r))
  | zeroSlots =>
      exact hplain (by simp) rfl (hquiet (by simp [Move.Does]) (counted_invalidateSlots m.heap))
  | makeRegistry | leakScope | begin | terminate | enterSweep | finish =>
      exact hplain (by simp) rfl (hquiet (by simp [Move.Does]) fun d => counted_of_workers rfl rfl)
  | _ =>
      exact hplain (by simp) rfl (hquiet (by simp [Move.Does]) fun d => counted_of_clients (clients_apply id))

/-! ### The balance of a run -/

/-- The counters agree with the cells, when `n` large allocations are due and `freed` objects were
reclaimed so far; and no cell is found while it is being claimed. -/
structure Balanced (m : Machine) (n freed : Nat) : Prop where
  objects : m.heap.objectGap + n + freed = 0
  cache : m.heap.cacheGap = 0
  settled : ∀ x, ¬ m.heap.arena.HasState .init x

theorem Proper.balanced
    (hm : m.Proper)
    (hf : m.heap.Shelved)
    (hmanned : m.Manned e)
    (hy : m.Allows y)
    (hheeds : m.Heeds e y)
    (hbooks : m.Books n y)
    (hb : m.Balanced n freed) :
    (m.apply y).Balanced (m.dueAfter n y) (freed + (m.reclaimed y).length) := by
  have hshifts := hm.shifts hf hmanned hy hheeds hbooks
  have hobjects := hb.objects
  refine ⟨?_, ?_, (hm.steps hy).not_claimed hm.sound hb.settled⟩
  · rw [hshifts.objects]
    push_cast
    omega
  · rw [hshifts.cache, hb.cache, add_zero]

/-- A run keeps the balance. -/
theorem Legal.balanced
    (hl : Legal P m ys)
    (ha : m.Attended e ys)
    (hbooked : m.Booked n ys)
    (hm : m.Proper)
    (hf : m.heap.Shelved)
    (hmanned : m.Manned e)
    (hb : m.Balanced n freed) :
    (m.run ys).Balanced (m.dueIn n ys) (freed + (m.reclaimedIn ys).length) := by
  induction ys generalizing m e n freed with
  | nil => exact hb
  | cons y ys ih =>
      have hnext := ih hl.2.2 ha.2 hbooked.2 (hm.apply hl.1) (hm.shelved hf hl.1)
        (hmanned.apply ha.1) (hm.balanced hf hmanned hl.1 ha.1 hbooked.1 hb)
      rw [reclaimedIn, List.length_append, ← Nat.add_assoc]
      exact hnext

theorem balanced_start
    (hc : Heap.create memory c = .ok h) :
    (start h).Balanced 0 0 := by
  obtain ⟨-, rfl⟩ := create_eq_ok hc
  have hcells : ∀ st, (Heap.empty c).arena.inState st = 0 := fun _ => rfl
  have hcounted : ∀ d, (Heap.empty c).counted d = 0 := by
    intro d
    rw [counted, show (Heap.empty c).workers = [] from rfl,
      show (Heap.empty c).retired = {} from rfl, Tally.get_empty]
    rfl
  refine ⟨?_, ?_, ?_⟩
  · rw [show (start (Heap.empty c)).heap = Heap.empty c from rfl, objectGap, objectCount, hcells,
      hcounted, hcounted, hcounted]
    rfl
  · rw [show (start (Heap.empty c)).heap = Heap.empty c from rfl, cacheGap, cachedCount, hcells,
      hcounted, hcounted, hcounted]
    rfl
  · rintro x ⟨k, hk, -⟩
    rw [show (start (Heap.empty c)).heap.arena.cell? x = none from Arena.cell?_empty _ _] at hk
    cases hk

/-! ### The totals of a collector -/

/-- The collector has added what it freed to its totals: between cycles all of it, and in a cycle what
earlier cycles have freed. -/
def Credited (m : Machine) (cs : List Cell) : Prop :=
  ∀ k, m.heap.collector = some k →
    (m.heap.phase = .idle ∧ m.stage ≠ .closing ∧ k.totals.objectsSwept = cs.length ∧
      k.totals.bytesSwept = (cs.map Cell.size).sum) ∨
    ∃ done now t, cs = done ++ now ∧ m.Tallied t now k ∧ t.objectsSwept = done.length ∧
      t.bytesSwept = (done.map Cell.size).sum

/-- Between cycles a collector keeps its totals. -/
theorem Proper.totals_idle
    (hm : m.Proper)
    (hy : m.Allows y)
    (hphase : m.SweepsInPhase y)
    (hattach : y ≠ .attachCollector)
    (hbegin : y ≠ .begin)
    (hidle : m.heap.phase = .idle)
    (hstage : m.stage ≠ .closing)
    (hk : (m.apply y).heap.collector = some k) :
    (m.apply y).stage ≠ .closing ∧ ∃ l, m.heap.collector = some l ∧ l.totals = k.totals := by
  constructor
  · change m.stageAfter y ≠ .closing
    cases y <;> simp_all [Allows, stageAfter]
  · by_cases haccounts : y.Accounts
    · cases y with
      | attachCollector => exact absurd rfl hattach
      | begin => exact absurd rfl hbegin
      | detachCollector => cases hk
      | startSweep => cases hidle.symm.trans (hm.fits (s := .entering) hy)
      | sweepStep j => cases hidle.symm.trans hphase
      | closeCycle => exact absurd hy hstage
      | _ => cases haccounts
    · have hsame := hm.account hy haccounts
      rw [hk] at hsame
      obtain ⟨l, hl, hlk⟩ := Option.map_eq_some_iff.1 hsame.symm
      exact ⟨l, hl, show l.unmarked.totals = k.unmarked.totals from congrArg _ hlk⟩

/-- The end of a cycle adds what the cycle freed to the totals. -/
theorem Tallied.collector_closeCycle
    {t : CycleTotals}
    (ht : m.Tallied t cs k) :
    ∃ l, (m.apply .closeCycle).heap.collector = some l ∧
      l.totals.objectsSwept = t.objectsSwept + cs.length ∧
      l.totals.bytesSwept = t.bytesSwept + (cs.map Cell.size).sum := by
  have hclosed : ∃ l, m.heap.closeCycle.2.collector = some l ∧
      l.totals.objectsSwept = k.totals.objectsSwept + k.swept ∧
      l.totals.bytesSwept = k.totals.bytesSwept + k.bytes := by
    rw [closeCycle, ht.collector]
    exact ⟨_, rfl, rfl, rfl⟩
  rwa [ht.totals, ht.swept, ht.bytes] at hclosed

/-- Every move of a run keeps the account of a collector that stays attached. -/
theorem Proper.credited
    (hm : m.Proper)
    (hy : m.Allows y)
    (hphase : m.SweepsInPhase y)
    (hattach : y ≠ .attachCollector)
    (hcr : m.Credited cs) :
    (m.apply y).Credited (cs ++ m.reclaimed y) := by
  intro k hk
  by_cases hbegin : y = .begin
  · subst hbegin
    obtain ⟨l, hl⟩ := Option.isSome_iff_exists.1 hy.2.2
    rw [hm.reclaimed_eq_nil hy (by simp), List.append_nil]
    rcases hcr l hl with ⟨-, -, hobjects, hbytes⟩ | ⟨_, _, _, -, ht, -⟩
    · obtain ⟨k', ht⟩ := tallied_begin hy
      obtain rfl := Option.some.inj (ht.collector.symm.trans hk)
      have htotals : m.heap.totals = l.totals := by rw [Heap.totals, hl]; rfl
      exact Or.inr ⟨cs, [], _, (List.append_nil cs).symm, ht, htotals ▸ hobjects, htotals ▸ hbytes⟩
    · exact absurd rfl (ht.not_outside hy).2.2
  by_cases houtside : m.heap.phase = .idle ∧ m.stage ≠ .closing
  · obtain ⟨hidle, hstage⟩ := houtside
    obtain ⟨hstage', l, hl, htotals⟩ :=
      hm.totals_idle hy hphase hattach hbegin hidle hstage hk
    have hnone : m.reclaimed y = [] := hm.reclaimed_eq_nil hy fun j hj => by
      subst hj
      cases hidle.symm.trans hphase
    rw [hnone, List.append_nil, ← htotals]
    rcases hcr l hl with ⟨-, -, hcounts⟩ | ⟨_, _, _, -, ht, -⟩
    · exact Or.inl ⟨hm.phase_idle hy hbegin hidle, hstage', hcounts⟩
    · exact absurd (ht.closing hidle) hstage
  · -- The collector is in a cycle.
    have hattached : m.heap.collector.isSome = true := by
      refine hm.isSome_collector ?_
      by_cases hidle : m.heap.phase = .idle
      · refine Or.inl fun hrest => houtside ⟨hidle, ?_⟩
        rw [hrest]
        exact Stage.noConfusion
      · exact Or.inr hidle
    obtain ⟨l, hl⟩ := Option.isSome_iff_exists.1 hattached
    rcases hcr l hl with ⟨hidle, hstage, -⟩ | ⟨done, now, t, rfl, ht, hobjects, hbytes⟩
    · exact absurd ⟨hidle, hstage⟩ houtside
    · by_cases hclose : y = .closeCycle
      · subst hclose
        obtain ⟨k', hk', hobjects', hbytes'⟩ := ht.collector_closeCycle
        obtain rfl := Option.some.inj (hk'.symm.trans hk)
        rw [hm.reclaimed_eq_nil hy (by simp), List.append_nil]
        refine Or.inl ⟨hm.phase_idle hy hbegin (hm.fits (s := .closing) hy), Stage.noConfusion,
          ?_, ?_⟩
        · rw [hobjects', hobjects, List.length_append]
        · rw [hbytes', hbytes, List.map_append, List.sum_append]
      · obtain ⟨k', ht'⟩ := hm.tallied hy hphase hclose ht
        obtain rfl := Option.some.inj (ht'.collector.symm.trans hk)
        exact Or.inr ⟨done, now ++ m.reclaimed y, t, List.append_assoc .., ht', hobjects, hbytes⟩

theorem Legal.credited
    (hl : Legal SweepsInPhase m ys)
    (hm : m.Proper)
    (hattach : .attachCollector ∉ ys)
    (hcr : m.Credited cs) :
    (m.run ys).Credited (cs ++ m.reclaimedIn ys) := by
  induction ys generalizing m cs with
  | nil =>
      rw [reclaimedIn, List.append_nil]
      exact hcr
  | cons y ys ih =>
      rw [List.mem_cons, not_or] at hattach
      rw [reclaimedIn, ← List.append_assoc]
      exact ih hl.2.2 (hm.apply hl.1) hattach.2
        (hm.credited hl.1 hl.2.1 (fun heq => hattach.1 heq.symm) hcr)

/-! ### The counters and the heap -/

/-- What the counters `F` of all workers say about a heap, when `n` large allocations are due and
`freed` objects were reclaimed by the sweeper. -/
structure Accounted (m : Machine) (n freed : Nat) (F : Tally) : Prop where
  /-- Every allocation is there, was undone by an eager free, was swept, or is due. -/
  objects : m.heap.census.cells.allocated + m.heap.census.largeObjects + n +
      F.get .freesAccepted + freed =
    F.get .freeListHits + F.get .slowAllocations
  /-- Every accepted free left a cached cell, which was reused, or given back by its worker. -/
  cached : m.heap.census.cells.cached + F.get .freeListHits + F.get .flushed =
    F.get .freesAccepted
  /-- The small cells fill their blocks. -/
  capacity : m.heap.census.cells.allocated + m.heap.census.cells.cached +
      m.heap.census.cells.free =
    ((m.heap.arena.blocks.toList.filterMap Block.span?).map fun s => blockSize / s.cellSize).sum
  /-- The end of a worker changes no sum apart from that of the cells that it gives back. -/
  dropped : ∀ y id G, y = .flushWorker id ∨ y = .retireWorker id →
    (m.apply y).heap.stats = .ok G → ∀ d, d ≠ .flushed → G.get d = F.get d

theorem Balanced.accounted
    (hb : m.Balanced n freed)
    (hm : m.Proper)
    (hf : m.heap.Shelved)
    (hF : m.heap.stats = .ok F) :
    m.Accounted n freed F where
  objects := by
    have hobjects := hb.objects
    rw [objectGap, objectCount_eq_census hm.sound hb.settled] at hobjects
    rw [get_of_stats hF, get_of_stats hF, get_of_stats hF]
    omega
  cached := by
    have hcache := hb.cache
    rw [cacheGap, cachedCount_eq_census hm.sound] at hcache
    rw [get_of_stats hF, get_of_stats hF, get_of_stats hF]
    omega
  capacity := m.heap.census_total hm.sound.layout
  dropped := by
    rintro y id G (rfl | rfl) hG d hd
    · rw [get_of_stats hG, get_of_stats hF]
      refine (counted_flushWorker hf.ids id d).trans ?_
      rw [if_neg hd, Nat.add_zero]
    · rw [get_of_stats hG, get_of_stats hF]
      exact apply_retireWorker (R := fun g => g.counted d = m.heap.counted d) rfl
        fun g hr => counted_retireWorker hf.ids hr d

/-- The counters balance against the heap. In every state of a run in which the owners of workers and
registries keep to what they guarantee, the summary of all workers exists unless a sum is no word, and
it says how many objects and cached cells there are. An attached collector between two cycles has
counted exactly what was freed since it was attached. -/
theorem counters_balance
    (hc : Heap.create memory c = .ok h)
    (hl : Legal SweepsInPhase (start h) ys)
    (ha : (start h).Attended {} ys)
    (hbooked : (start h).Booked 0 ys) :
    ((∀ d, ((start h).run ys).heap.counted d < Word.bound) →
      ∃ F, ((start h).run ys).heap.stats = .ok F) ∧
    (∀ F, ((start h).run ys).heap.stats = .ok F →
      ((start h).run ys).Accounted ((start h).dueIn 0 ys) ((start h).reclaimedIn ys).length F) ∧
    ∀ before after k, ys = before ++ .attachCollector :: after → .attachCollector ∉ after →
      ((start h).run ys).heap.collector = some k → ((start h).run ys).heap.phase = .idle →
      ((start h).run ys).stage = .resting →
        k.totals.objectsSwept =
          (((start h).run (before ++ [.attachCollector])).reclaimedIn after).length ∧
        k.totals.bytesSwept = ((((start h).run
          (before ++ [.attachCollector])).reclaimedIn after).map Cell.size).sum := by
  have hm := proper_start hc
  refine ⟨exists_stats, fun F hF => ?_, ?_⟩
  · have hb := hl.balanced ha hbooked hm (shelved_start hc) (manned_start hc) (balanced_start hc)
    rw [Nat.zero_add] at hb
    exact hb.accounted (hl.proper hm) (hl.shelved hm (shelved_start hc)) hF
  · rintro before after k rfl hattach hk hidle hrest
    obtain ⟨hbefore, hy, -, hafter⟩ := legal_append.1 hl
    have hmid := hbefore.proper hm
    rw [run_append, run_cons] at hk hidle hrest
    rw [run_append, run_cons, run_nil]
    generalize (start h).run before = m at hy hafter hmid hk hidle hrest
    have hcr : (m.apply .attachCollector).Credited [] := by
      intro l hl
      obtain rfl : {} = l := Option.some.inj hl
      obtain ⟨hstage, hphase⟩ := hmid.attached hy
      refine Or.inl ⟨hphase, ?_, rfl, rfl⟩
      rw [show (m.apply .attachCollector).stage = .resting from hstage]
      decide
    rcases hafter.credited (hmid.apply hy) hattach hcr k hk with
      ⟨-, -, hcounts⟩ | ⟨_, _, _, -, ht, -⟩
    · exact hcounts
    · exact absurd (hrest.symm.trans (ht.closing hidle)) Stage.noConfusion

/-- A cell is freed and reused by another worker and freed again; a small and a large object are swept;
and the worker with the cached cell ends. -/
theorem counters_balance_swept :
    let ys : List Move :=
      [.addWorker, .addWorker, .carveBlock quarterBlock, .setCursor 0 quarterBlock 0,
        .claim 0 quarterBlock, .claim 0 quarterBlock, .claim 0 quarterBlock,
        .free 1 Arena.start 4096 none, .reuse 1 quarterBlock, .free 1 Arena.start 4096 none,
        .count 0 .slowAllocations 1, .carveRun 1 .noScan, .attachCollector, .begin,
        .shadeRoots [Arena.start + 4096], .terminate, .finishMarking [Arena.start + 4096],
        .resurrect, .enterSweep, .zeroSlots, .startSweep, .sweepStep 2, .finish, .closeCycle,
        .flushWorker 1, .retireWorker 1]
    let m := (start (.empty fourBlocks)).run ys
    ∃ F k, m.heap.stats = .ok F ∧ m.Accounted 0 2 F ∧ m.heap.collector = some k ∧
      k.totals.objectsSwept = 2 ∧ k.totals.bytesSwept = 20480 := by
  intro ys m
  have hlegal : Legal SweepsInPhase (start (.empty fourBlocks)) ys := by
    decide +kernel
  have hattended : (start (.empty fourBlocks)).Attended {} ys := by
    decide +kernel
  have hbooked : (start (.empty fourBlocks)).Booked 0 ys := by
    decide +kernel
  have hdue : (start (.empty fourBlocks)).dueIn 0 ys = 0 := by
    decide +kernel
  have hfreed : ((start (.empty fourBlocks)).reclaimedIn ys).length = 2 := by
    decide +kernel
  have hstats : m.heap.stats.isOk = true := by
    decide +kernel
  have hcollector : m.heap.collector.isSome = true ∧ m.heap.phase = .idle ∧
      m.stage = .resting := by
    decide +kernel
  have hattached : ys = ys.take 12 ++ .attachCollector :: ys.drop 13 ∧
      .attachCollector ∉ ys.drop 13 := by
    decide +kernel
  have hswept : (((start (.empty fourBlocks)).run (ys.take 12 ++ [.attachCollector])).reclaimedIn
      (ys.drop 13)).map Cell.size = [4096, 16384] := by
    decide +kernel
  obtain ⟨-, haccounted, htotals⟩ := counters_balance create_fourBlocks hlegal hattended hbooked
  rw [hdue, hfreed] at haccounted
  obtain ⟨F, hF⟩ : ∃ F, m.heap.stats = .ok F := by
    cases hm : m.heap.stats with
    | error o =>
        rw [hm] at hstats
        cases hstats
    | ok F => exact ⟨F, rfl⟩
  obtain ⟨k, hk⟩ := Option.isSome_iff_exists.1 hcollector.1
  obtain ⟨hobjects, hbytes⟩ := htotals _ _ k hattached.1 hattached.2 hk hcollector.2.1
    hcollector.2.2
  rw [hswept] at hbytes
  have hlength := congrArg List.length hswept
  rw [List.length_map] at hlength
  exact ⟨F, k, hF, haccounted F hF, hk, hobjects.trans hlength, hbytes⟩

end Machine

end EagerHeap
