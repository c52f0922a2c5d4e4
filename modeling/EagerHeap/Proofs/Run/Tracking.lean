import EagerHeap.Proofs.Run.Clients
import EagerHeap.Proofs.Run.Finalizers
import EagerHeap.Proofs.Run.Ledger
/-!
# Tracked objects in a run

A scope tracks weakly: the collector frees tracked objects, and their addresses are handed out again.
Nevertheless every address that an open scope tracks belongs to an object: slots are zeroed before
their objects are freed, and what is recorded later was handed out while it counted as reached.

Main results: `Permits.tracks` and `Tracking.apply`.
-/

namespace EagerHeap

/-- The move changes scopes, registries, what the workers know of them, or the clock of the
transitions. -/
def Move.OfScopes : Move → Prop
  | .addWorker | .retireWorker _ | .makeRegistry _ | .dropRegistry _ | .enterScope ..
  | .recordTracked .. | .drainScope _ | .leakScope _ | .begin | .terminate | .enterSweep | .zeroSlots
  | .finish => True
  | _ => False

namespace Machine

variable {m : Machine} {l : Ledger} {y : Move} {ys : List Move} {memory : Nat} {c : Config} {h : Heap}
  {k i j x e : Nat}

open Heap

/-! ### What a move does to scopes -/

theorem holdings_apply
    (hy : ¬ y.OfScopes) :
    (m.apply y).heap.holdings = m.heap.holdings := by
  by_cases hclients : y.OfClients
  · cases y with
    | flushWorker id => exact holdings_flushWorker m.heap id
    | count id k n => exact holdings_count m.heap id k n
    | reuse id s => exact holdings_reuse m.heap id s
    | claim id s => exact holdings_claim m.heap id s
    | setCursor id s block => exact holdings_setCursor m.heap id s ⟨block, 0⟩
    | free id addr size shape => exact holdings_free m.heap id addr size shape
    | addWorker | retireWorker | makeRegistry | dropRegistry | enterScope | recordTracked
    | drainScope | leakScope | begin | terminate | enterSweep | zeroSlots | finish =>
        exact absurd trivial hy
    | _ => cases hclients
  · exact holdings_of_clients (clients_apply hclients)

/-- Scopes, registries and workers stay together if scopes end before their workers and registries do,
and are entered with a registry that was not dropped. -/
theorem scopes_apply
    {gone gone' : Nat → Prop}
    (hf : m.heap.Scoped gone)
    (hgone : ∀ r, gone r ∨ y = .dropRegistry r → gone' r)
    (hretire : ∀ id, y = .retireWorker id → ∀ k s, m.heap.Open k s → s.worker ≠ id)
    (hdrop : ∀ r, y = .dropRegistry r → ∀ k s, m.heap.Open k s → s.registry ≠ r)
    (henter : ∀ id r, y = .enterScope id r →
      (∃ w ∈ m.heap.workers, w.id = id) ∧ r < m.heap.registries.size ∧ ¬ gone r)
    (hopen : ∀ k, (∃ x e, y = .recordTracked k x e) ∨ y = .drainScope k → ∃ s, m.heap.Open k s) :
    (m.apply y).heap.Scoped gone' := by
  suffices hscoped : (m.apply y).heap.Scoped fun r => gone r ∨ y = .dropRegistry r from
    hscoped.mono hgone
  have hkept : (m.apply y).heap.Scoped gone → (m.apply y).heap.Scoped fun r =>
      gone r ∨ y = .dropRegistry r := fun hf => hf.mono fun r hr => Or.inl hr
  cases y with
  | addWorker => exact hkept hf.addWorker
  | retireWorker id =>
      exact hkept (apply_retireWorker (R := fun g => g.Scoped gone) hf
        fun g hr => hf.retireWorker hr (hretire id rfl))
  | makeRegistry n => exact hkept (hf.makeRegistry n)
  | dropRegistry r =>
      refine (hf.dropRegistry (hdrop r rfl)).mono fun q hq => ?_
      rcases hq with hq | rfl
      · exact Or.inl hq
      · exact Or.inr rfl
  | enterScope id r =>
      obtain ⟨hid, hr, hnot⟩ := henter id r rfl
      exact hkept (hf.enterScope hid hr hnot)
  | recordTracked k x e =>
      obtain ⟨s, hs⟩ := hopen k (Or.inl ⟨x, e, rfl⟩)
      refine hkept (hf.recordTracked (fun t ht => ?_) x e)
      rw [Option.some.inj (ht.symm.trans hs.1)]
      exact hs.2
  | drainScope k =>
      obtain ⟨s, hs⟩ := hopen k (Or.inr rfl)
      exact hkept (hf.drainScope hs)
  | leakScope k => exact hkept (hf.leakScope k)
  | begin | terminate | enterSweep | finish =>
      exact hkept (hf.shrink (fun _ _ hs => hs) (fun _ => rfl) (fun _ _ h0 => h0) fun _ _ _ hk => hk)
  | zeroSlots => exact hkept hf.invalidateSlots
  | _ => exact hkept (hf.of_holdings (holdings_apply id))

/-- A move that is permitted keeps scopes, registries and workers together. -/
theorem Permits.scopes
    (hp : m.Permits l y)
    (hf : m.heap.Scoped (· ∈ l.gone)) :
    (m.apply y).heap.Scoped (· ∈ (l.after m y).gone) := by
  refine scopes_apply hf ?_ ?_ ?_ ?_ ?_
  · rintro r (hr | rfl)
    · cases y with
      | dropRegistry => exact List.mem_cons_of_mem _ hr
      | _ => exact hr
    · exact List.mem_cons_self ..
  · rintro id rfl k s hs
    exact hp s hs.mem_openScopes
  · rintro r rfl k s hs
    exact hp s hs.mem_openScopes
  · rintro id r rfl
    exact hp
  · rintro k (⟨x, e, rfl⟩ | rfl)
    · exact hp.1
    · exact hp

/-- What is tracked after a move was tracked before, or the move has recorded it in a slot that was
not used. -/
theorem Permits.tracks
    (hp : m.Permits l y)
    (hf : m.heap.Scoped (· ∈ l.gone))
    (ht : (m.apply y).heap.Tracks k i x) :
    m.heap.Tracks k i x ∨
      ∃ s e, y = .recordTracked k x e ∧ m.heap.lastSweep ≤ e ∧ m.heap.Open k s ∧ i = s.used := by
  cases y with
  | addWorker => exact Or.inl (ht.shrink (fun _ _ hs => hs) fun _ _ => Or.inr rfl)
  | retireWorker id =>
      have hbefore : (m.apply (.retireWorker id)).heap.Tracks k i x → m.heap.Tracks k i x :=
        apply_retireWorker (R := fun g => g.Tracks k i x → m.heap.Tracks k i x) (fun ht => ht)
          fun g hr => Tracks.of_retireWorker hr
      exact Or.inl (hbefore ht)
  | makeRegistry n =>
      exact Or.inl (ht.shrink (fun _ _ hs => hs) fun r i => Or.inr (addrAt_makeRegistry m.heap n r i))
  | dropRegistry r => exact Or.inl ht.of_dropRegistry
  | enterScope id r => exact Or.inl (ht.of_enterScope hf hp.1 hp.2.1 hp.2.2)
  | recordTracked d a e =>
      obtain ⟨⟨s, hs⟩, -⟩ := hp
      rcases ht.of_recordTracked hf hs with ht | ⟨rfl, rfl, rfl, he⟩
      · exact Or.inl ht
      · exact Or.inr ⟨s, e, rfl, he, hs, rfl⟩
  | drainScope d =>
      obtain ⟨s, hs⟩ := hp
      exact Or.inl (ht.of_drained hf hs (drained_drainScope hs (hf.owned d s hs))).1
  | leakScope d =>
      exact Or.inl (ht.shrink
        (fun _ _ hs => (open_ended (fun _ => ScopeStatus.noConfusion) hs).1) fun _ _ => Or.inr rfl)
  | begin | terminate | enterSweep | finish =>
      exact Or.inl (ht.shrink (fun _ _ hs => hs) fun _ _ => Or.inr rfl)
  | zeroSlots => exact Or.inl (tracks_invalidateSlots hf ht).1
  | _ => exact Or.inl ((tracks_of_holdings (holdings_apply id)).1 ht)

/-! ### The clock of the transitions -/

theorem clock_of_holdings
    {h h' : Heap}
    (hsame : h'.holdings = h.holdings) :
    h'.epoch = h.epoch ∧ h'.lastSweep = h.lastSweep :=
  ⟨congrArg Holdings.epoch hsame, congrArg Holdings.lastSweep hsame⟩

theorem clock_drainScope (h : Heap) (k : Nat) :
    (h.drainScope k).2.epoch = h.epoch ∧ (h.drainScope k).2.lastSweep = h.lastSweep := by
  rcases drainScope_cases h k with ⟨-, heq⟩ | ⟨scope, -, heq | ⟨registry, owner, _, _, heq⟩⟩
  · rw [heq]
    exact ⟨rfl, rfl⟩
  · rw [heq]
    exact ⟨rfl, rfl⟩
  · rw [heq]
    have hfreed := clock_of_holdings
      (holdings_freeTracked (registry.addresses scope.used) (h.closing k scope) scope.worker)
    exact hfreed

/-- A move that is no transition leaves the clock as it is. -/
theorem clock_eq
    (hbegin : ¬ y.Does .begin)
    (hturn : ¬ y.Does .turn) :
    (m.apply y).heap.epoch = m.heap.epoch ∧ (m.apply y).heap.lastSweep = m.heap.lastSweep := by
  cases y with
  | addWorker | makeRegistry | leakScope => exact ⟨rfl, rfl⟩
  | retireWorker id =>
      refine apply_retireWorker
        (R := fun g => g.epoch = m.heap.epoch ∧ g.lastSweep = m.heap.lastSweep) ⟨rfl, rfl⟩
        fun g hr => ?_
      rcases retireWorker_cases hr with rfl | ⟨retired, rfl⟩ <;> exact ⟨rfl, rfl⟩
  | dropRegistry r =>
      change (m.heap.dropRegistry r).epoch = _ ∧ (m.heap.dropRegistry r).lastSweep = _
      rw [Heap.dropRegistry]
      split <;> exact ⟨rfl, rfl⟩
  | enterScope id r =>
      change ((Heap.enterScope id r).run m.heap).2.epoch = _ ∧
        ((Heap.enterScope id r).run m.heap).2.lastSweep = _
      rw [enterScope_run]
      split <;> exact ⟨rfl, rfl⟩
  | recordTracked d a e =>
      change ((Heap.recordTracked d a e).run m.heap).2.epoch = _ ∧
        ((Heap.recordTracked d a e).run m.heap).2.lastSweep = _
      rw [recordTracked_run]
      split
      · exact ⟨rfl, rfl⟩
      · split
        · exact ⟨rfl, rfl⟩
        · split <;> exact ⟨rfl, rfl⟩
  | drainScope d => exact clock_drainScope m.heap d
  | zeroSlots =>
      have hz := zeroes_invalidateSlots m.heap
      exact ⟨hz.epoch, hz.lastSweep⟩
  | begin => exact absurd rfl hbegin
  | terminate | enterSweep | finish => exact absurd rfl hturn
  | _ => exact clock_of_holdings (holdings_apply id)

/-- The latest sweep is the one that began last, and it began after all epochs before it. -/
theorem Proper.clock
    (hm : m.Proper)
    (hy : m.Allows y) :
    m.heap.epoch ≤ (m.apply y).heap.epoch ∧
      ((m.apply y).heap.lastSweep = m.heap.lastSweep ∧ y ≠ .enterSweep ∨
        m.heap.epoch < (m.apply y).heap.lastSweep) := by
  have hturned : ∀ g : Heap, g.phase.next ≠ .sweep → g.nextPhase.2.lastSweep = g.lastSweep :=
    fun g hg => if_neg hg
  have hsame (hbegin : ¬ y.Does .begin) (hturn : ¬ y.Does .turn) :
      m.heap.epoch ≤ (m.apply y).heap.epoch ∧ (m.apply y).heap.lastSweep = m.heap.lastSweep :=
    ⟨(clock_eq hbegin hturn).1.ge, (clock_eq hbegin hturn).2⟩
  cases y with
  | begin =>
      refine ⟨Nat.le_succ _, Or.inl ⟨hturned m.heap.resetCycle ?_, Move.noConfusion⟩⟩
      rw [show m.heap.resetCycle.phase = .idle from hy.2.1]
      exact Phase.noConfusion
  | terminate =>
      refine ⟨Nat.le_succ _, Or.inl ⟨hturned m.heap ?_, Move.noConfusion⟩⟩
      rw [hy.2]
      exact Phase.noConfusion
  | finish =>
      refine ⟨Nat.le_succ _, Or.inl ⟨hturned m.heap ?_, Move.noConfusion⟩⟩
      rw [hy.2]
      exact Phase.noConfusion
  | enterSweep =>
      have hphase : m.heap.phase = .termination := hm.fits (s := .resurrected) hy
      have hnext : m.heap.phase.next = .sweep := congrArg Phase.next hphase
      have hlast : (m.apply .enterSweep).heap.lastSweep = m.heap.epoch + 1 := if_pos hnext
      rw [hlast]
      exact ⟨Nat.le_succ _, Or.inr (Nat.lt_succ_self _)⟩
  | _ =>
      obtain ⟨hepoch, hlast⟩ := hsame (by simp [Move.Does]) (by simp [Move.Does])
      exact ⟨hepoch, Or.inl ⟨hlast, Move.noConfusion⟩⟩

/-- The sweeping phase is entered by one move, and no other move leads out of the stage in which it
was entered but the one that starts to sweep. -/
theorem Proper.sweep_before
    (hm : m.Proper)
    (hy : m.Allows y)
    (hsweep : (m.apply y).heap.phase = .sweep)
    (hne : y ≠ .enterSweep) :
    m.heap.phase = .sweep ∧ y ≠ .begin ∧
      ((m.apply y).stage = m.stage ∨ y = .startSweep) := by
  have hfits := hm.stage
  have hphase : (¬ y.Does .begin) → (¬ y.Does .turn) → m.heap.phase = .sweep := fun hb ht =>
    ((hm.steps hy).phase hb ht).symm.trans hsweep
  cases y with
  | begin =>
      have hnext : (m.apply .begin).heap.phase = .mark := congrArg Phase.next hy.2.1
      rw [hnext] at hsweep
      cases hsweep
  | terminate =>
      have hnext : (m.apply .terminate).heap.phase = .termination := congrArg Phase.next hy.2
      rw [hnext] at hsweep
      cases hsweep
  | finish =>
      have hnext : (m.apply .finish).heap.phase = .idle := congrArg Phase.next hy.2
      rw [hnext] at hsweep
      cases hsweep
  | enterSweep => exact absurd rfl hne
  | shadeRoots roots =>
      have hin := hphase (by simp [Move.Does]) (by simp [Move.Does])
      rw [show m.stage = .beginning from hy, hin] at hfits
      cases hfits
  | finishMarking roots =>
      have hin := hphase (by simp [Move.Does]) (by simp [Move.Does])
      rw [show m.stage = .finishing from hy, hin] at hfits
      cases hfits
  | resurrect =>
      have hin := hphase (by simp [Move.Does]) (by simp [Move.Does])
      rw [hy.2] at hin
      cases hin
  | closeCycle =>
      have hin := hphase (by simp [Move.Does]) (by simp [Move.Does])
      rw [show m.stage = .closing from hy, hin] at hfits
      cases hfits
  | startSweep =>
      exact ⟨hphase (by simp [Move.Does]) (by simp [Move.Does]), Move.noConfusion, Or.inr rfl⟩
  | _ => exact ⟨hphase (by simp [Move.Does]) (by simp [Move.Does]), Move.noConfusion, Or.inl rfl⟩

/-! ### The invariant -/

/-- An object that was handed out and waits to be recorded: it is there, no scope tracks it, and the
sweeper will not free it. -/
structure Waiting (m : Machine) (x : Nat) : Prop where
  alive : m.heap.arena.isAllocated x = true
  untracked : ∀ k i, ¬ m.heap.Tracks k i x
  reached : m.heap.phase = .sweep → m.heap.arena.isReached x = true

/-- The invariant of tracking. Tracked objects are there, each of them is tracked once, and while
blocks are swept all of them are reached. Objects that were handed out since the latest sweep began
wait to be recorded. -/
structure Tracking (m : Machine) (l : Ledger) : Prop where
  proper : m.Proper
  scopes : m.heap.Scoped (· ∈ l.gone)
  alive : ∀ k i x, m.heap.Tracks k i x → m.heap.arena.isAllocated x = true
  apart : ∀ k i j n x, m.heap.Tracks k i x → m.heap.Tracks j n x → k = j ∧ i = n
  reached : m.heap.phase = .sweep → (m.stage = .entering → l.zeroed = true) →
    ∀ k i x, m.heap.Tracks k i x → m.heap.arena.isReached x = true
  noted : ∀ p ∈ l.fresh, p.2 ≤ m.heap.epoch
  waiting : ∀ p ∈ l.fresh, m.heap.lastSweep ≤ p.2 → m.Waiting p.1

/-- An object stays unless it is freed, its scope is drained, or it is swept. -/
theorem Tracking.stays
    (ht : m.Tracking l)
    (hy : m.Allows y)
    (hp : m.Permits l y)
    (hx : m.heap.arena.isAllocated x = true)
    (hfree : ∀ id size shape, y ≠ .free id x size shape)
    (hdrain : ∀ d i, y = .drainScope d → ¬ m.heap.Tracks d i x)
    (hsweep : ∀ n, y = .sweepStep n → m.heap.arena.isReached x = true) :
    (m.apply y).heap.arena.isAllocated x = true ∧ ¬ m.Parks y x := by
  have hm := ht.proper
  have hs := hm.sound
  obtain ⟨c, hcell, hst⟩ := Arena.isAllocated_iff.1 hx
  have hal : ∃ hd, (m.apply y).heap.arena.cell? x = some { c with header := hd } ∧
      hd.state = .allocated := by
    cases y with
    | free id a size shape =>
        refine (hm.steps hy).stays hs hcell hst ?_ (by simp [Move.Does])
        rintro (hstill | hpark)
        · cases hstill
        · exact hfree id size shape (Act.park.inj hpark ▸ rfl)
    | drainScope d =>
        obtain ⟨s, hopen⟩ := hp
        refine (drainScope_steps_of_open hs hopen (ht.scopes.owned d s hopen)).stays hs hcell hst
          ?_ (by simp)
        rintro (hstill | ⟨i, z, htracks, hpark⟩)
        · cases hstill
        · exact hdrain d i rfl (Act.park.inj hpark ▸ htracks)
    | sweepStep n =>
        obtain ⟨d, hd, hcol⟩ := Arena.isReached_iff.1 (hsweep n rfl)
        rw [hcell] at hd
        cases hd
        rcases hm.stays_reached hy Move.noConfusion ⟨hcell, hst⟩ hcol.2 with
          ⟨hd, hobj, -⟩ | ⟨hfrees, -⟩
        · exact ⟨hd, hobj⟩
        · cases hfrees
    | _ =>
        exact (hm.steps hy).stays hs hcell hst (not_does_park id x) (by simp [Move.Does])
  obtain ⟨hd, hcell', hst'⟩ := hal
  have hal : (m.apply y).heap.arena.isAllocated x = true :=
    Arena.isAllocated_iff.2 ⟨_, hcell', hst'⟩
  refine ⟨hal, fun hparks => ?_⟩
  rw [hparks.freed] at hal
  cases hal

/-- A tracked object stays while it is tracked. -/
theorem Tracking.tracked_stays
    (ht : m.Tracking l)
    (hy : m.Allows y)
    (hsweeps : m.SweepsInPhase y)
    (hp : m.Permits l y)
    (hx : m.heap.Tracks k i x)
    (hx' : (m.apply y).heap.Tracks k i x) :
    (m.apply y).heap.arena.isAllocated x = true ∧ ¬ m.Parks y x := by
  refine ht.stays hy hp (ht.alive k i x hx) ?_ ?_ ?_
  · rintro id size shape rfl
    exact hp hx.mem_tracked
  · rintro d j rfl hother
    obtain ⟨s, hs⟩ := hp
    have hne := (hx'.of_drained ht.scopes hs (drained_drainScope hs (ht.scopes.owned d s hs))).2
    exact hne (ht.apart k i d j x hx hother).1
  · rintro n rfl
    have hresting : m.stage = .resting := hy
    refine ht.reached hsweeps (fun hentering => ?_) k i x hx
    rw [hresting] at hentering
    cases hentering

/-- What is recorded with an epoch that is not older than the latest sweep has waited for it. -/
theorem Tracking.waiting_of_record
    (ht : m.Tracking l)
    (hp : m.Permits l (.recordTracked k x e))
    (he : m.heap.lastSweep ≤ e) :
    m.Waiting x := by
  obtain ⟨p, hmem, rfl, hle⟩ := hp.2 he
  exact ht.waiting p hmem (Nat.le_trans he hle)

/-- An object that is handed out waits to be recorded. -/
theorem Tracking.waiting_of_handsOut
    (ht : m.Tracking l)
    (hy : m.Allows y)
    (hp : m.Permits l y)
    (hx : m.handsOut y = some x) :
    (m.apply y).Waiting x := by
  obtain ⟨hnone, c, hc, hfresh, -⟩ := (ht.proper.handsOut hy hx).fresh ht.proper.sound
  refine ⟨hc.isAllocated, fun k i hnew => ?_, fun hsweep => ?_⟩
  · rcases hp.tracks ht.scopes hnew with hold | ⟨s, e, rfl, -⟩
    · rw [ht.alive k i x hold] at hnone
      cases hnone
    · cases hx
  · have hne : y ≠ .enterSweep := by
      rintro rfl
      cases hx
    obtain ⟨hphase, -⟩ := ht.proper.sweep_before hy hsweep hne
    refine Arena.isReached_iff.2 ⟨c, hc.1, hc.2, ?_⟩
    rw [hfresh, hphase]
    exact Color.noConfusion

/-- An object that waits goes on to wait until it is recorded or freed, or a sweep begins. -/
theorem Tracking.waiting_stays
    (ht : m.Tracking l)
    (hy : m.Allows y)
    (hsweeps : m.SweepsInPhase y)
    (hp : m.Permits l y)
    (hx : m.Waiting x)
    (hunsettled : m.settles x y = false)
    (hne : y ≠ .enterSweep) :
    (m.apply y).Waiting x := by
  obtain ⟨hal, hparks⟩ : (m.apply y).heap.arena.isAllocated x = true ∧ ¬ m.Parks y x := by
    refine ht.stays hy hp hx.alive ?_ ?_ ?_
    · rintro id size shape rfl
      simp [settles] at hunsettled
    · rintro d i rfl
      exact hx.untracked d i
    · rintro n rfl
      exact hx.reached hsweeps
  refine ⟨hal, fun k i hnew => ?_, fun hsweep => ?_⟩
  · rcases hp.tracks ht.scopes hnew with hold | ⟨s, e, rfl, he, -⟩
    · exact hx.untracked k i hold
    · simp [settles, he] at hunsettled
  · obtain ⟨hphase, hbegin, -⟩ := ht.proper.sweep_before hy hsweep hne
    exact ht.proper.reached hy hbegin hparks (hx.reached hphase)

theorem zeroed_after
    (hzero : y ≠ .zeroSlots)
    (henter : y ≠ .enterSweep) :
    (l.after m y).zeroed = l.zeroed := by
  cases y with
  | zeroSlots => exact absurd rfl hzero
  | enterSweep => exact absurd rfl henter
  | _ => rfl

/-- While blocks are swept, the objects that are tracked after a move are reached. -/
theorem Tracking.tracked_reached
    (ht : m.Tracking l)
    (hy : m.Allows y)
    (hsweeps : m.SweepsInPhase y)
    (hp : m.Permits l y)
    (hsweep : (m.apply y).heap.phase = .sweep)
    (hzeroed : (m.apply y).stage = .entering → (l.after m y).zeroed = true)
    (hx : (m.apply y).heap.Tracks k i x) :
    (m.apply y).heap.arena.isReached x = true := by
  by_cases henter : y = .enterSweep
  · obtain rfl := henter
    cases hzeroed rfl
  obtain ⟨hphase, hbegin, hstage⟩ := ht.proper.sweep_before hy hsweep henter
  by_cases hzero : y = .zeroSlots
  · obtain rfl := hzero
    change m.heap.invalidateSlots.2.arena.isReached x = true
    rw [(zeroes_invalidateSlots m.heap).arena]
    exact (tracks_invalidateSlots ht.scopes hx).2
  -- The slots were zeroed already, so what was tracked before the move was reached.
  have hready : m.stage = .entering → l.zeroed = true := by
    intro hentering
    rcases hstage with hsame | rfl
    · rw [← zeroed_after hzero henter]
      exact hzeroed (hsame.trans hentering)
    · exact hp
  rcases hp.tracks ht.scopes hx with hold | ⟨s, e, rfl, he, -⟩
  · exact ht.proper.reached hy hbegin (ht.tracked_stays hy hsweeps hp hold hx).2
      (ht.reached hphase hready k i x hold)
  · exact ht.proper.reached hy hbegin (fun hparks => hparks.1)
      ((ht.waiting_of_record hp he).reached hphase)

/-- What is tracked after a move is tracked once. -/
theorem Tracking.tracked_once
    {n : Nat}
    (ht : m.Tracking l)
    (hp : m.Permits l y)
    (hx : (m.apply y).heap.Tracks k i x)
    (hx' : (m.apply y).heap.Tracks j n x) :
    k = j ∧ i = n := by
  rcases hp.tracks ht.scopes hx with hold | ⟨s, e, rfl, he, hs, rfl⟩
  · rcases hp.tracks ht.scopes hx' with hold' | ⟨s', e', rfl, he', -⟩
    · exact ht.apart k i j n x hold hold'
    · exact absurd hold ((ht.waiting_of_record hp he').untracked k i)
  · rcases hp.tracks ht.scopes hx' with hold' | ⟨s', e', heq, -, hs', rfl⟩
    · exact absurd hold' ((ht.waiting_of_record hp he).untracked j n)
    · obtain ⟨rfl, -, -⟩ := Move.recordTracked.inj heq
      exact ⟨rfl, congrArg Scope.used (hs.unique hs')⟩

/-- A move that is permitted keeps the invariant of tracking. -/
theorem Tracking.apply
    (ht : m.Tracking l)
    (hy : m.Allows y)
    (hsweeps : m.SweepsInPhase y)
    (hp : m.Permits l y) :
    (m.apply y).Tracking (l.after m y) := by
  obtain ⟨hepoch, hlast⟩ := ht.proper.clock hy
  refine ⟨ht.proper.apply hy, hp.scopes ht.scopes, fun k i x hx => ?_,
    fun k i j n x hx hx' => ht.tracked_once hp hx hx',
    fun hsweep hzeroed k i x hx => ht.tracked_reached hy hsweeps hp hsweep hzeroed hx,
    fun p hmem => ?_, fun p hmem hle => ?_⟩
  · rcases hp.tracks ht.scopes hx with hold | ⟨s, e, rfl, he, -⟩
    · exact (ht.tracked_stays hy hsweeps hp hold hx).1
    · have hal := (ht.waiting_of_record hp he).alive
      exact (ht.stays hy hp hal (fun _ _ _ => Move.noConfusion) (fun _ _ => Move.noConfusion)
        fun _ => Move.noConfusion).1
  · rcases List.mem_append.1 hmem with hnew | hold
    · obtain ⟨x, -, rfl⟩ := List.mem_map.1 hnew
      exact hepoch
    · exact Nat.le_trans (ht.noted p (List.mem_filter.1 hold).1) hepoch
  · rcases List.mem_append.1 hmem with hnew | hold
    · obtain ⟨x, hx, rfl⟩ := List.mem_map.1 hnew
      exact ht.waiting_of_handsOut hy hp (Option.mem_toList.1 hx)
    · obtain ⟨hold, hunsettled⟩ := List.mem_filter.1 hold
      rw [Bool.not_eq_true'] at hunsettled
      rcases hlast with ⟨hsame, hne⟩ | hlater
      · rw [hsame] at hle
        exact ht.waiting_stays hy hsweeps hp (ht.waiting p hold hle) hunsettled hne
      · have := ht.noted p hold
        omega

theorem Tracking.run
    (ht : m.Tracking l)
    (hl : Legal SweepsInPhase m ys)
    (ho : m.Orderly l ys) :
    (m.run ys).Tracking (m.ledger l ys) := by
  induction ys generalizing m l with
  | nil => exact ht
  | cons y ys ih => exact ih (ht.apply hl.1 hl.2.1 ho.1) hl.2.2 ho.2

theorem not_open_start
    (hc : Heap.create memory c = .ok h)
    (k : Nat) (s : Scope) :
    ¬ (start h).heap.Open k s := by
  obtain ⟨-, rfl⟩ := Heap.create_eq_ok hc
  rintro ⟨hs, -⟩
  cases hs

theorem not_tracks_start
    (hc : Heap.create memory c = .ok h)
    (k i x : Nat) :
    ¬ (start h).heap.Tracks k i x := by
  rintro ⟨-, s, hs, -⟩
  exact not_open_start hc k s hs

theorem tracking_start
    (hc : Heap.create memory c = .ok h) :
    (start h).Tracking {} := by
  have hopen := not_open_start hc
  have htracks := not_tracks_start hc
  have hblank : ∀ r i, h.addrAt r i = 0 := by
    obtain ⟨-, rfl⟩ := Heap.create_eq_ok hc
    exact fun _ _ => rfl
  refine ⟨proper_start hc, ⟨fun k s hs => absurd hs (hopen k s),
    fun k _ s _ hs => absurd hs (hopen k s), fun k s hs => absurd hs (hopen k s),
    fun k s hs => absurd hs (hopen k s), fun r _ _ i => hblank r i⟩,
    fun k i x hx => absurd hx (htracks k i x), fun k i _ _ x hx => absurd hx (htracks k i x),
    fun _ _ k i x hx => absurd hx (htracks k i x), fun p hp => ?_, fun p hp => ?_⟩
  · cases hp
  · cases hp

end Machine

end EagerHeap
