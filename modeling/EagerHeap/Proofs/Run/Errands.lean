import EagerHeap.Proofs.Cycle.Collected
import EagerHeap.Proofs.Heap.Claiming
import EagerHeap.Proofs.Run.Attendance
/-!
# Runs with whole allocations

In a run of errands an allocation of a small object takes place as a whole, while nothing else acts on
the heap. Such a run is a run of moves, in which the pieces of an allocation follow each other; and it
keeps all free cells found.

Main results: `Staffed.reaches`, `Proper.settles` and `Kept.performAll`.
-/

namespace EagerHeap

/-- The move is a piece of an allocation of a small object. -/
def Move.OfAllocation : Move → Prop
  | .reuse .. | .claim .. | .takePartial _ | .carveBlock _ | .setCursor .. => True
  | _ => False

instance decidableOfAllocation : (y : Move) → Decidable y.OfAllocation
  | .reuse .. | .claim .. | .takePartial _ | .carveBlock _ | .setCursor .. => .isTrue trivial
  | .addWorker | .flushWorker _ | .retireWorker _ | .count .. | .carveRun .. | .free .. | .write ..
  | .copy .. | .attach .. | .startBatch | .fire | .endBatch | .breakBatch | .makeRegistry _
  | .dropRegistry _ | .enterScope .. | .recordTracked .. | .drainScope _ | .leakScope _ | .observe
  | .attachCollector | .detachCollector | .begin | .shadeRoots _ | .markStep _ | .terminate
  | .finishMarking _ | .resurrect | .enterSweep | .zeroSlots | .startSweep | .sweepStep _ | .finish
  | .closeCycle => .isFalse id

/-- A move that changes which blocks are offered to all workers. -/
def Move.OfOffers : Move → Prop
  | .takePartial _ | .flushWorker _ | .sweepStep _ => True
  | _ => False

/-- A move, or an allocation of a small object as a whole. -/
inductive Errand where
  | move (y : Move)
  | allocate (id : Nat) (s : Span)
deriving DecidableEq, Repr

namespace Machine

variable {m : Machine} {e : Ends} {y : Move} {xs : List Errand} {id : Nat}
  {s : Span} {h g : Heap} {r : Except Failure Nat}

open Heap

/-- The state after an errand. -/
def perform (m : Machine) : Errand → Machine
  | .move y => m.apply y
  | .allocate id s =>
    { m with heap := (ExceptT.run (Action.allocate idleClient id s) ⟨m.heap, ()⟩).2.heap }

/-- The state after several errands. -/
def performAll (m : Machine) (xs : List Errand) : Machine := xs.foldl perform m

/-- The run can take place with whole allocations, and the owners keep to what they guarantee. -/
def Whole : Machine → Ends → List Errand → Prop
  | _, _, [] => True
  | m, e, .move y :: xs =>
    ¬ y.OfAllocation ∧ m.Allows y ∧ m.Heeds e y ∧ (m.apply y).Whole (e.after y) xs
  | m, e, .allocate id s :: xs => m.Serves e id ∧ (m.perform (.allocate id s)).Whole e xs

instance decidableWhole (m : Machine) (e : Ends) : (xs : List Errand) → Decidable (m.Whole e xs)
  | [] => .isTrue trivial
  | .move y :: xs =>
    have := decidableWhole (m.apply y) (e.after y) xs
    inferInstanceAs (Decidable
      (¬ y.OfAllocation ∧ m.Allows y ∧ m.Heeds e y ∧ (m.apply y).Whole (e.after y) xs))
  | .allocate id s :: xs =>
    have := decidableWhole (m.perform (.allocate id s)) e xs
    inferInstanceAs (Decidable
      (m.Serves e id ∧ (m.perform (.allocate id s)).Whole e xs))

/-- Nothing interrupts an allocation of an idle client. -/
theorem heap_perform_allocate (m : Machine) (id : Nat) (s : Span) :
    (m.perform (.allocate id s)).heap = (ExceptT.run (allocateAlone id s) m.heap).2 := by
  obtain ⟨w, hrun, hheap⟩ := Action.follows_allocate silent_idleClient id s ⟨m.heap, ()⟩
  rw [perform, hrun]
  exact hheap

/-! ### Allocations as runs of moves -/

/-- The machine reaches the heap by pieces of an allocation, with which the owners keep to what they
guarantee. -/
def Reaches (m : Machine) (e : Ends) (g : Heap) : Prop :=
  ∃ zs, m.run zs = { m with heap := g } ∧ Legal (fun _ y => y.OfAllocation) m zs ∧
    m.Attended e zs ∧ e.afterAll zs = e

theorem Reaches.refl (m : Machine) (e : Ends) : m.Reaches e m.heap :=
  ⟨[], rfl, trivial, trivial, rfl⟩

/-- One more move of an allocation at the beginning. -/
theorem Reaches.cons
    (hrest : (m.apply y).Reaches e g)
    (hy : y.OfAllocation)
    (hal : m.Allows y)
    (hheeds : m.Heeds e y) :
    m.Reaches e g := by
  obtain ⟨zs, hrun, hl, ha, he⟩ := hrest
  have hsame : m.apply y = { m with heap := (m.apply y).heap } := by
    cases y with
    | reuse | claim | takePartial | carveBlock | setCursor => rfl
    | _ => cases hy
  have hends : e.after y = e := by
    cases y with
    | reuse | claim | takePartial | carveBlock | setCursor => rfl
    | _ => cases hy
  refine ⟨y :: zs, ?_, ⟨hal, hy, hl⟩, ⟨hheeds, ?_⟩, ?_⟩
  · rw [run_cons, hrun, hsame]
  · rw [hends]
    exact ha
  · rw [Ends.afterAll, List.foldl_cons, hends]
    exact he

/-- A search for a free cell consists of moves. -/
theorem Claiming.reaches
    (hc : Claiming id s h r g)
    (hm : m.heap = h)
    (hr : h.Staffed id)
    (hs : m.Serves e id) :
    m.Reaches e g := by
  have hclaims : ∀ {m : Machine}, m.Serves e id →
      (m.apply (.claim id s)).Serves e id := fun {m} hserves =>
    Heeds.serves (m := m) (y := .claim id s) hserves hserves Move.noConfusion
  induction hc generalizing m with
  | @claimed h g x hc =>
      refine Reaches.cons (y := .claim id s) ?_ trivial trivial hs
      have hheap : (m.apply (.claim id s)).heap = g := by
        change (m.heap.claim id s).2 = g
        rw [hm, hc]
      exact hheap ▸ Reaches.refl _ e
  | @moved h g h' b r hnone hb hrest ih =>
      have htake : (m.apply (.takePartial s)).heap = g := by
        change (m.heap.takePartial s).2 = g
        rw [hm, hb]
      have htaken : (m.apply (.takePartial s)).Serves e id :=
        Heeds.serves (m := m) (y := .takePartial s) trivial hs Move.noConfusion
      refine Reaches.cons (y := .takePartial s) ?_ trivial trivial trivial
      refine Reaches.cons (y := .setCursor id s b) ?_ trivial ?_ htaken
      · refine ih ?_ (hr.moved hb) ?_
        · change (m.apply (.takePartial s)).heap.setCursor id s ⟨b, 0⟩ = _
          rw [htake]
        · exact Heeds.serves (m := m.apply (.takePartial s)) (y := .setCursor id s b) htaken htaken
            Move.noConfusion
      · change (m.apply (.takePartial s)).heap.arena.HasSpan b s
        rw [htake]
        exact hasSpan_takePartial hr.sound hb
  | @carved h g b x a' hnone hempty hb hc =>
      have hcarve : (m.apply (.carveBlock s)).heap = { h with arena := a' } := by
        change ((Heap.carveBlock s).run m.heap).2 = _
        rw [hm, carveBlock_run, hb]
      obtain ⟨hl', -, -, -, hself, -⟩ := hr.sound.layout.carveBlock hb
      have hcarved : (m.apply (.carveBlock s)).Serves e id :=
        Heeds.serves (m := m) (y := .carveBlock s) trivial hs Move.noConfusion
      have hmoved := Heeds.serves (m := m.apply (.carveBlock s)) (y := .setCursor id s b) hcarved
        hcarved Move.noConfusion
      refine Reaches.cons (y := .carveBlock s) ?_ trivial trivial trivial
      refine Reaches.cons (y := .setCursor id s b) ?_ trivial ?_ hcarved
      · refine Reaches.cons (y := .claim id s) ?_ trivial trivial hmoved
        have hheap : (((m.apply (.carveBlock s)).apply (.setCursor id s b)).apply
            (.claim id s)).heap = g := by
          change (((m.apply (.carveBlock s)).heap.setCursor id s ⟨b, 0⟩).claim id s).2 = g
          rw [hcarve, hc]
        exact hheap ▸ Reaches.refl _ e
      · change (m.apply (.carveBlock s)).heap.arena.HasSpan b s
        rw [hcarve]
        exact hl'.hasSpan_of_getElem? hself
  | exhausted => exact hm ▸ Reaches.refl m e

/-- A whole allocation consists of moves. -/
theorem Staffed.reaches
    (hr : m.heap.Staffed id)
    (hs : m.Serves e id)
    (s : Span) :
    m.Reaches e (m.perform (.allocate id s)).heap := by
  rw [heap_perform_allocate]
  rcases hr.allocate_cases s with ⟨x, hrun, -⟩ | ⟨-, hc⟩
  · refine Reaches.cons (y := .reuse id s) ?_ trivial trivial hs
    have hheap : (m.apply (.reuse id s)).heap = (ExceptT.run (allocateAlone id s) m.heap).2 :=
      congrArg Prod.snd hrun
    exact hheap ▸ Reaches.refl _ e
  · exact Claiming.reaches hc rfl hr hs

/-! ### Moves keep free cells found -/

theorem offers_apply
    (hy : ¬ y.OfOffers) :
    (m.apply y).heap.offers = m.heap.offers := by
  cases y with
  | retireWorker id =>
      refine apply_retireWorker (R := fun g => g.offers = m.heap.offers) rfl fun g hr => ?_
      rcases retireWorker_cases hr with rfl | ⟨retired, rfl⟩ <;> rfl
  | reuse id s => exact offers_reuse m.heap id s
  | claim id s => exact offers_claim m.heap id s
  | carveBlock s => exact offers_carveBlock m.heap s
  | carveRun n shape => exact offers_carveRun m.heap n shape
  | free id addr size shape => exact offers_free m.heap id addr size shape
  | write obj i v => exact offers_writeWord m.heap obj i v
  | copy source target bytes shape => exact offers_copyBytes m.heap source target bytes shape
  | attach addr kind => exact offers_attachRecord m.heap addr kind
  | endBatch =>
      simp only [Machine.apply, Machine.heapAfter]
      split <;> rfl
  | dropRegistry r => exact offers_dropRegistry m.heap r
  | enterScope id r => exact offers_enterScope m.heap id r
  | recordTracked c x t => exact offers_recordTracked m.heap c x t
  | drainScope c => exact offers_drainScope m.heap c
  | begin => exact offers_eq rfl (Arena.queued_resetColors m.heap.arena)
  | shadeRoots roots => exact offers_shadeRoots m.heap roots
  | markStep n => exact offers_markStep m.heap n
  | finishMarking roots => exact (offers_markAll _).trans (offers_shadeRoots m.heap roots)
  | resurrect => exact (offers_resurrectAll _).trans (offers_markAll m.heap)
  | zeroSlots => exact offers_invalidateSlots m.heap
  | closeCycle => exact offers_closeCycle m.heap
  | addWorker | count | setCursor | startBatch | fire | breakBatch | makeRegistry | leakScope | observe
  | attachCollector | detachCollector | terminate | enterSweep | startSweep | finish => rfl
  | takePartial | flushWorker | sweepStep => exact absurd trivial hy

/-- No move makes a block offered twice. -/
theorem Proper.consistent
    (hm : m.Proper)
    (hf : m.heap.Shelved)
    (ho : m.heap.offers.Consistent) :
    (m.apply y).heap.offers.Consistent := by
  by_cases hy : y.OfOffers
  · cases y with
    | takePartial s => exact consistent_takePartial hm.sound ho s
    | flushWorker id => exact (tidies_flushWorker hm.sound hf ho id).consistent
    | sweepStep n => exact (tidies_sweepStep hm.sound ho n).consistent
    | _ => cases hy
  · rw [offers_apply hy]
    exact ho

/-- Free cells settle in a move that is no part of an allocation. -/
theorem Proper.settles
    (hm : m.Proper)
    (hf : m.heap.Shelved)
    (ho : m.heap.offers.Consistent)
    (hmanned : m.Manned e)
    (hy : ¬ y.OfAllocation)
    (hal : m.Allows y)
    (hheeds : m.Heeds e y) :
    m.heap.Settles (m.apply y).heap := by
  have hs := hm.sound
  have hsteps := hm.steps hal
  -- A move that neither offers a block nor moves a cursor.
  have hquiet : ¬ y.OfOffers → ¬ y.Does .carve →
      (∀ x, ¬ y.Does (.uncache x) ∧ ¬ y.Does (.reclaim x)) →
      (∀ id s k, m.heap.Claims id s k → (m.apply y).heap.Claims id s k) →
      m.heap.Settles (m.apply y).heap := fun hoffers hcarve hfree hclaims =>
    settles_of_steps hs hsteps hcarve hfree (offers_apply hoffers) hclaims
  by_cases hstock : y.OfStock
  · cases y with
    | addWorker => exact settles_addWorker hs
    | flushWorker id => exact (tidies_flushWorker hs hf ho id).settles
    | retireWorker id =>
        refine apply_retireWorker (R := fun g => m.heap.Settles g) (Settles.refl _) fun g hr => ?_
        exact settles_retireWorker hs hr fun u hu hid s =>
          (hmanned.emptied u hu (hid ▸ hheeds) s).2
    | free other addr size shape =>
        refine hquiet id (by simp [Move.Does]) (by simp [Move.Does]) fun id s k hclaims => ?_
        exact (claims_of_cursors (cursors_free m.heap other addr size shape)).2 hclaims
    | drainScope c =>
        refine hquiet id (by simp [Move.Does]) (by simp [Move.Does]) fun id s k hclaims => ?_
        exact (claims_of_cursors (cursors_drainScope m.heap c)).2 hclaims
    | reuse | claim | setCursor => exact absurd trivial hy
    | _ => cases hstock
  · by_cases hoffers : y.OfOffers
    · cases y with
      | sweepStep n => exact (tidies_sweepStep hs ho n).settles
      | takePartial => exact absurd trivial hy
      | flushWorker => exact absurd trivial hstock
      | _ => cases hoffers
    · have hdoes : ¬ y.Does .carve ∧ ∀ x, ¬ y.Does (.uncache x) ∧ ¬ y.Does (.reclaim x) := by
        cases y with
        | carveBlock => exact absurd trivial hy
        | flushWorker | sweepStep => exact absurd trivial hoffers
        | _ => simp [Move.Does]
      exact hquiet hoffers hdoes.1 hdoes.2 fun id s k hclaims =>
        (claims_of_stock (stock_apply hstock)).2 hclaims

/-- The invariant of runs with whole allocations. -/
structure Kept (m : Machine) (e : Ends) : Prop where
  proper : m.Proper
  shelved : m.heap.Shelved
  manned : m.Manned e
  supplied : m.heap.Supplied

/-- A move that is no part of an allocation keeps all free cells found. -/
theorem Kept.supplied_apply
    (hk : m.Kept e)
    (hy : ¬ y.OfAllocation)
    (hal : m.Allows y)
    (hheeds : m.Heeds e y) :
    (m.apply y).heap.Supplied :=
  hk.supplied.settles (hk.proper.settles hk.shelved hk.supplied.offers hk.manned hy hal hheeds)
    (hk.proper.consistent hk.shelved hk.supplied.offers)

theorem Kept.apply
    (hk : m.Kept e)
    (hy : ¬ y.OfAllocation)
    (hal : m.Allows y)
    (hheeds : m.Heeds e y) :
    (m.apply y).Kept (e.after y) :=
  ⟨hk.proper.apply hal, hk.proper.shelved hk.shelved hal, hk.manned.apply hheeds,
    hk.supplied_apply hy hal hheeds⟩

theorem Kept.tended
    (hk : m.Kept e)
    (hid : ∃ w ∈ m.heap.workers, w.id = id) :
    m.heap.Tended id :=
  ⟨hk.proper.sound, hk.shelved, hk.supplied, hid⟩

theorem settles_reuse
    (hs : h.Sound)
    (id : Nat) (s : Span) :
    h.Settles ((Heap.reuse id s).run h).2 := by
  have hclaims : ∀ other t k, h.Claims other t k →
      ((Heap.reuse id s).run h).2.Claims other t k := fun other t k hk =>
    (claims_of_cursors (cursors_reuse h id s)).2 hk
  rcases reuse_cases hs id s with ⟨x, -, ho⟩ | ⟨-, hsteps⟩
  · exact settles_of_steps hs ho.steps (by simp) (by simp) (offers_reuse h id s) hclaims
  · exact settles_of_steps hs hsteps (by simp) (by simp) (offers_reuse h id s) hclaims

/-- A whole allocation keeps the invariant. -/
theorem Kept.allocate
    (hk : m.Kept e)
    (hs : m.Serves e id)
    (s : Span) :
    (m.perform (.allocate id s)).Kept e := by
  have ht := hk.tended hs.1
  obtain ⟨zs, hrun, hl, ha, he⟩ := Staffed.reaches ht.staffed hs s
  have hrun : m.run zs = m.perform (.allocate id s) := hrun
  obtain ⟨hm, hf, hmanned⟩ := ha.preserves
    (R := fun m e => m.Proper ∧ m.heap.Shelved ∧ m.Manned e) hl
    ⟨hk.proper, hk.shelved, hk.manned⟩
    fun m e y ⟨hm, hf, hmanned⟩ hal hy => ⟨hm.apply hal, hm.shelved hf hal, hmanned.apply hy⟩
  rw [hrun] at hm hf hmanned
  rw [he] at hmanned
  refine ⟨hm, hf, hmanned, ?_⟩
  rw [heap_perform_allocate]
  rcases ht.staffed.allocate_cases s with ⟨x, hreuse, -⟩ | ⟨-, hc⟩
  · have hafter := ht.supplied.settles (settles_reuse ht.sound id s)
      (offers_reuse m.heap id s ▸ ht.supplied.offers)
    rwa [show (Heap.reuse id s).run m.heap = _ from hreuse] at hafter
  · exact (hc.tended ht).supplied

theorem kept_start
    {memory : Nat} {c : Config}
    (hc : Heap.create memory c = .ok h) :
    (start h).Kept {} := by
  refine ⟨proper_start hc, shelved_start hc, manned_start hc, ?_⟩
  obtain ⟨-, rfl⟩ := create_eq_ok hc
  refine ⟨⟨fun b => ?_, fun s => ?_⟩, ?_⟩
  · refine iff_of_false Bool.false_ne_true ?_
    rintro ⟨s, hb⟩
    rw [show (start (Heap.empty c)).heap.offers.central.get s = [] from SpanTable.get_fill _ s] at hb
    cases hb
  · rw [show (start (Heap.empty c)).heap.offers.central.get s = [] from SpanTable.get_fill _ s]
    exact List.nodup_nil
  · rintro s b i ⟨hspan, -⟩
    cases hspan

/-- A run with whole allocations keeps the invariant. -/
theorem Kept.performAll
    (hk : m.Kept e)
    (hw : m.Whole e xs) :
    ∃ e', (m.performAll xs).Kept e' := by
  induction xs generalizing m e with
  | nil => exact ⟨e, hk⟩
  | cons x xs ih =>
      cases x with
      | move y =>
          obtain ⟨hy, hal, hheeds, hrest⟩ := hw
          exact ih (hk.apply hy hal hheeds) hrest
      | allocate id s =>
          obtain ⟨hserves, hrest⟩ := hw
          exact ih (hk.allocate hserves s) hrest

end Machine

end EagerHeap
