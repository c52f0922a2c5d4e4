import EagerHeap.Proofs.Marking.Operations
import EagerHeap.Proofs.Run.Moves
import EagerHeap.Proofs.Sweeping.Operations
/-!
# Moves as sequences of elementary changes

Every move that is allowed consists of elementary changes of a few kinds, and it leaves a heap that
is sound and a collector whose stage goes with the phase.

Main results: `Proper.steps` and `Proper.run`.
-/

namespace EagerHeap

/-- The phases in which the collector can be inside of an operation. -/
def Stage.Fits : Stage → Phase → Prop
  | resting, _ => True
  | beginning, p => p = .mark
  | finishing, p => p = .termination
  | resurrected, p => p = .termination
  | entering, p => p = .sweep
  | closing, p => p = .idle

/-- The kinds of elementary changes of which a move may consist. -/
def Move.Does : Move → Act → Prop
  | .carveBlock _, l => l = .carve
  | .reuse _ _, l | .claim _ _, l | .carveRun _ _, l => l = .still ∨ ∃ x, l = .birth x
  | .flushWorker _, l => l = .still ∨ ∃ x, l = .uncache x
  | .free _ x _ _, l => l = .still ∨ l = .park x
  | .drainScope _, l => l = .still ∨ ∃ x, l = .park x
  | .write x i v, l => l = .store x i v
  | .copy source target bytes shape, l => l = .copy source target bytes shape
  | .attach x kind, l => l = .attach x kind
  | .startBatch, l | .endBatch, l => l = .batch
  | .attachCollector, l | .detachCollector, l | .startSweep, l => l = .account
  | .begin, l => l = .begin
  | .shadeRoots _, l | .markStep _, l | .finishMarking _, l => l = .paint
  | .resurrect, l => l = .paint ∨ ∃ x, l = .finalize x
  | .terminate, l | .enterSweep, l | .finish, l => l = .turn
  | .sweepStep _, l =>
    l = .account ∨ l = .still ∨ ∃ x, l = .finalize x ∨ l = .cleanup x ∨ l = .reclaim x
  | .closeCycle, l => l = .still ∨ l = .account
  | _, l => l = .still

/-- The phase that a move enters, if it changes the phase. -/
def Move.enters : Move → Option Phase
  | .begin => some .mark
  | .terminate => some .termination
  | .enterSweep => some .sweep
  | .finish => some .idle
  | _ => none

namespace Machine

/-- The invariant of the states of a run. -/
structure Proper (m : Machine) : Prop where
  sound : m.heap.Sound
  stage : m.stage.Fits m.heap.phase
  attached : m.heap.collector = none → m.stage = .resting ∧ m.heap.phase = .idle

variable {P : Machine → Move → Prop} {m : Machine} {y : Move} {ys : List Move}

open Heap

/-- The phase of a collector that is inside of an operation. -/
theorem Proper.fits
    {s : Stage}
    (hm : m.Proper)
    (hs : m.stage = s) :
    s.Fits m.heap.phase :=
  hs ▸ hm.stage

theorem Proper.isSome_collector
    (hm : m.Proper)
    (h : m.stage ≠ .resting ∨ m.heap.phase ≠ .idle) :
    m.heap.collector.isSome = true := by
  cases hc : m.heap.collector with
  | some k => rfl
  | none =>
      obtain ⟨hstage, hphase⟩ := hm.attached hc
      rcases h with h | h
      · exact absurd hstage h
      · exact absurd hphase h

theorem HandsOut.does
    {h h' : Heap} {x : Nat}
    (ho : HandsOut h x h') :
    Steps (fun l => l = .still ∨ ∃ x, l = .birth x) h h' :=
  ho.steps.mono fun _ hl => hl.imp_right fun e => ⟨x, e⟩

theorem zeroSlots_steps (h : Heap) (r : Nat) : Steps (· = .still) h (h.zeroSlots r).2 := by
  have hwritten : ∀ registries, Still h { h with registries } := fun _ =>
    .of_lists rfl rfl rfl rfl rfl rfl fun hst => ⟨hst.entries, hst.cursors, hst.central⟩
  unfold zeroSlots
  split
  · exact (hwritten _).steps
  · exact Steps.refl h

theorem zeroSlotsOf_steps (rs : List Nat) (h : Heap) :
    Steps (· = .still) h (h.zeroSlotsOf rs).2 := by
  induction rs generalizing h with
  | nil => exact Steps.refl h
  | cons r rs ih => exact (zeroSlots_steps h r).trans (ih (h.zeroSlots r).2)

theorem invalidateSlots_steps (h : Heap) : Steps (· = .still) h h.invalidateSlots.2 := by
  have hcounted : ∀ (g : Heap) (n : Nat), Still g { g with slotsZeroed := n } := fun _ _ =>
    .of_lists rfl rfl rfl rfl rfl rfl fun hst => ⟨hst.entries, hst.cursors, hst.central⟩
  exact (zeroSlotsOf_steps h.knownRegistries h).trans (hcounted _ _).steps

theorem sweepStep_steps
    {h : Heap}
    (hs : h.Sound)
    (n : Nat) :
    Steps (Move.sweepStep n).Does h (h.sweepStep n) := by
  rcases sweepStep_cases hs n with ⟨-, heq⟩ | ⟨k, cs, g, hk, hv, heq⟩
  · rw [heq]
    exact Steps.refl h
  · rw [heq]
    have hg := (hv.steps.sameCycle fun l hl => hl.not_ofCycle).collector.trans hk
    refine (hv.steps.mono fun l hl => ?_).trans (Steps.single (Or.inl rfl) (.account fun _ => ?_))
    · rcases hl with rfl | ⟨x, -, hl⟩
      · exact Or.inr (Or.inl rfl)
      · exact Or.inr (Or.inr ⟨x, hl⟩)
    · rw [hg]
      rfl

/-- A move consists of elementary changes. -/
theorem Proper.steps
    (hm : m.Proper)
    (hy : m.Allows y) :
    Steps y.Does m.heap (m.apply y).heap := by
  have hs := hm.sound
  cases y with
  | addWorker => exact (still_addWorker _).steps
  | flushWorker id => exact flushWorker_steps hs id
  | retireWorker id =>
      exact apply_retireWorker (R := Steps (· = .still) m.heap) (Steps.refl _)
        fun g hr => (still_retireWorker hr).steps
  | count id k n => exact (still_count _ id k n).steps
  | reuse id s =>
      rcases reuse_cases hs id s with ⟨x, -, ho⟩ | ⟨-, hst⟩
      · exact HandsOut.does ho
      · exact hst.mono fun l hl => Or.inl hl
  | claim id s =>
      rcases claim_cases hs id s with ⟨x, -, ho⟩ | ⟨-, heq⟩
      · exact HandsOut.does ho
      · change Steps _ m.heap (m.heap.claim id s).2
        rw [heq]
        exact Steps.refl _
  | takePartial s => exact (still_takePartial _ s).steps
  | carveBlock s => exact carveBlock_steps _ s
  | setCursor id s block => exact (still_setCursor (k := ⟨block, 0⟩) hy).steps
  | carveRun n shape =>
      rcases carveRun_cases hs hy shape with ⟨x, -, ho⟩ | ⟨-, heq⟩
      · exact HandsOut.does ho
      · change Steps _ m.heap ((carveRun n shape).run m.heap).2
        rw [heq]
        exact Steps.refl _
  | free id x size shape => exact free_steps hs id x size shape
  | write x i v =>
      obtain ⟨c, hx, hst, hi⟩ := hy
      exact Steps.single rfl (.store v hx hst hi)
  | copy source target bytes shape =>
      obtain ⟨c, hx, hst, rfl, hb⟩ := hy
      exact Steps.single rfl (.copy source hx hst hb)
  | attach x kind =>
      change Steps _ m.heap (m.heap.attachRecord x kind).2
      by_cases hx : m.heap.arena.isAllocated x = true
      · exact Steps.single rfl (.attach kind hx)
      · rw [attachRecord, if_neg hx]
        exact Steps.refl _
  | startBatch => exact Steps.single rfl (.batch rfl)
  | fire => exact Steps.refl _
  | endBatch =>
      obtain ⟨b, rest, hb, -⟩ := hy
      change Steps _ m.heap (m.heapAfter .endBatch)
      unfold heapAfter
      rw [hb]
      exact Steps.single rfl (.batch rfl)
  | breakBatch => exact Steps.refl _
  | makeRegistry n => exact (still_makeRegistry _ n).steps
  | dropRegistry r => exact dropRegistry_steps _ r
  | enterScope id r => exact enterScope_steps _ id r
  | recordTracked k addr allocatedAt => exact recordTracked_steps _ k addr allocatedAt
  | drainScope k => exact drainScope_steps hs k
  | leakScope k => exact (still_modifyScope _ k _).steps
  | observe =>
      have hstill : Still m.heap { m.heap with observers := m.heap.observers + 1 } :=
        .of_lists rfl rfl rfl rfl rfl rfl fun hst => ⟨hst.entries, hst.cursors, hst.central⟩
      exact hstill.steps
  | attachCollector =>
      refine Steps.single rfl (.account fun hmark => ?_)
      rw [(hm.attached hy).2] at hmark
      cases hmark
  | detachCollector =>
      refine Steps.single rfl (.account fun hmark => ?_)
      rw [hy.2] at hmark
      cases hmark
  | begin => exact Steps.single rfl (.begin _)
  | shadeRoots roots => exact shadeRoots_steps _ roots
  | markStep n => exact markStep_steps _ n
  | terminate =>
      refine Steps.single rfl (.turn ?_)
      rw [hy.2]
      exact Phase.noConfusion
  | finishMarking roots => exact (shadeRoots_steps _ roots).trans (markAll_steps _)
  | resurrect =>
      refine ((markAll_steps m.heap).mono fun l hl => Or.inl hl).trans
        ((resurrectAll_steps _).mono fun l hl => ?_)
      rcases hl with hl | ⟨x, -, hl⟩
      · exact Or.inl hl
      · exact Or.inr ⟨x, hl⟩
  | enterSweep =>
      refine Steps.single rfl (.turn ?_)
      have hphase := hm.stage
      rw [show m.stage = .resurrected from hy] at hphase
      rw [show m.heap.phase = .termination from hphase]
      exact Phase.noConfusion
  | zeroSlots => exact invalidateSlots_steps _
  | startSweep =>
      refine Steps.single rfl (.account fun _ => ?_)
      cases m.heap.collector <;> rfl
  | sweepStep n => exact sweepStep_steps hs n
  | finish =>
      refine Steps.single rfl (.turn ?_)
      rw [hy.2]
      exact Phase.noConfusion
  | closeCycle =>
      change Steps _ m.heap m.heap.closeCycle.2
      unfold closeCycle
      split
      · exact Steps.refl _
      · next k hk =>
          have hstill : Still m.heap { m.heap with bytesSinceCycle := 0 } :=
            .of_lists rfl rfl rfl rfl rfl rfl fun hst => ⟨hst.entries, hst.cursors, hst.central⟩
          refine (hstill.steps.mono fun l hl => Or.inl hl).trans
            (Steps.single (Or.inr rfl) (.account fun _ => ?_))
          rw [hk]
          rfl

/-! ### The invariant -/

/-- A move that is no part of a cycle leaves the collector where it is. -/
theorem Proper.keeps
    (hm : m.Proper)
    (hy : m.Allows y)
    (hdoes : ∀ l, y.Does l → ¬ l.OfCycle)
    (hstage : m.stageAfter y = m.stage) :
    (m.apply y).Proper := by
  have hsteps := hm.steps hy
  have hcycle := hsteps.sameCycle hdoes
  have hstage' : (m.apply y).stage = m.stage := hstage
  refine ⟨hsteps.sound hm.sound, ?_, ?_⟩
  · rw [hstage', hcycle.phase]
    exact hm.stage
  · rw [hstage', hcycle.phase, hcycle.collector]
    exact hm.attached

/-- A move of a collector that stays attached. -/
theorem Proper.moves
    (hm : m.Proper)
    (hy : m.Allows y)
    (hfits : (m.stageAfter y).Fits (m.apply y).heap.phase)
    (hc : (m.apply y).heap.collector.isSome = true) :
    (m.apply y).Proper := by
  refine ⟨(hm.steps hy).sound hm.sound, hfits, fun hnone => ?_⟩
  rw [hnone] at hc
  cases hc

theorem isSome_collector_sweepStep
    {h : Heap}
    (hs : h.Sound)
    (hc : h.collector.isSome = true)
    (n : Nat) :
    (h.sweepStep n).collector.isSome = true := by
  rcases sweepStep_cases hs n with ⟨hnone, -⟩ | ⟨k, cs, g, hk, hv, heq⟩
  · rw [hnone] at hc
    cases hc
  · rw [heq]
    rfl

theorem isSome_collector_closeCycle (h : Heap) :
    h.closeCycle.2.collector.isSome = h.collector.isSome := by
  unfold closeCycle
  split
  · rfl
  · next k hk =>
      rw [hk]
      rfl

/-- The collector stays attached until it is detached. -/
theorem Proper.isSome_collector_apply
    (hm : m.Proper)
    (hy : m.Allows y)
    (hne : y ≠ .detachCollector)
    (hc : m.heap.collector.isSome = true) :
    (m.apply y).heap.collector.isSome = true := by
  cases y with
  | attachCollector => rfl
  | detachCollector => exact absurd rfl hne
  | begin | startSweep => exact Option.isSome_map.trans hc
  | shadeRoots roots => exact (isSome_collector_marking _ _).trans hc
  | markStep n => exact ((isSome_collector_marking _ _).trans (isSome_collector_drainBarrier _)).trans hc
  | terminate | enterSweep | finish => exact hc
  | finishMarking roots => exact ((isSome_collector_markAll _).trans (isSome_collector_marking _ _)).trans hc
  | resurrect => exact ((isSome_collector_resurrectAll _).trans (isSome_collector_markAll _)).trans hc
  | sweepStep n => exact isSome_collector_sweepStep hm.sound hc n
  | closeCycle => exact (isSome_collector_closeCycle _).trans hc
  | _ =>
      refine (congrArg Option.isSome ((hm.steps hy).sameCycle fun l hl => ?_).collector).trans hc
      simp only [Move.Does] at hl
      rcases hl with rfl | ⟨x, rfl⟩ <;> exact id

/-- Every move keeps the invariant. -/
theorem Proper.apply
    (hm : m.Proper)
    (hy : m.Allows y) :
    (m.apply y).Proper := by
  have hphase : (¬ y.Does .begin) → (¬ y.Does .turn) →
      (m.apply y).heap.phase = m.heap.phase := (hm.steps hy).phase
  have hstays := hm.isSome_collector_apply hy
  cases y with
  | attachCollector => exact ⟨(hm.steps hy).sound hm.sound, hm.stage, nofun⟩
  | detachCollector => exact ⟨(hm.steps hy).sound hm.sound, hm.stage, fun _ => hy⟩
  | begin =>
      refine hm.moves hy ?_ (hstays nofun hy.2.2)
      change m.heap.phase.next = .mark
      rw [hy.2.1]
      rfl
  | markStep n | sweepStep n =>
      refine ⟨(hm.steps hy).sound hm.sound, ?_, fun hnone => ?_⟩
      · rw [hphase (by simp [Move.Does]) (by simp [Move.Does])]
        exact hm.stage
      · rw [hphase (by simp [Move.Does]) (by simp [Move.Does])]
        refine hm.attached (Option.not_isSome_iff_eq_none.1 fun hsome => ?_)
        have hsome' := hstays nofun hsome
        rw [hnone] at hsome'
        cases hsome'
  | terminate =>
      refine hm.moves hy ?_ (hm.isSome_collector (Or.inr (by rw [hy.2]; exact Phase.noConfusion)))
      change m.heap.phase.next = .termination
      rw [hy.2]
      rfl
  | shadeRoots roots | finishMarking roots | startSweep | closeCycle =>
      have hc := hm.isSome_collector (Or.inl (by rw [hy]; exact Stage.noConfusion))
      exact hm.moves hy trivial (hstays nofun hc)
  | resurrect =>
      have hc := hm.isSome_collector (Or.inr (by rw [hy.2]; exact Phase.noConfusion))
      refine hm.moves hy ?_ (hstays nofun hc)
      rw [hphase (by simp [Move.Does]) (by simp [Move.Does])]
      exact hy.2
  | enterSweep =>
      have hc := hm.isSome_collector (Or.inl (by rw [hy]; exact Stage.noConfusion))
      refine hm.moves hy ?_ hc
      have hphase : m.heap.phase = .termination := hm.fits (s := .resurrected) hy
      change m.heap.phase.next = .sweep
      rw [hphase]
      rfl
  | finish =>
      refine hm.moves hy ?_ (hm.isSome_collector (Or.inr (by rw [hy.2]; exact Phase.noConfusion)))
      change m.heap.phase.next = .idle
      rw [hy.2]
      rfl
  | _ =>
      refine hm.keeps hy ?_ rfl
      rintro l hl
      simp only [Move.Does] at hl
      rcases hl with rfl | ⟨x, rfl⟩ <;> exact id

/-! ### The phases of a cycle -/

variable {p : Phase}

/-- A move leaves the phase as it is, or enters the next one. -/
theorem Proper.phase_apply
    (hm : m.Proper)
    (hy : m.Allows y) :
    (m.apply y).heap.phase = y.enters.getD m.heap.phase ∧
      ∀ q, y.enters = some q → m.heap.phase.next = q := by
  have hentered : y.enters = some m.heap.phase.next →
      (m.apply y).heap.phase = m.heap.phase.next →
      (m.apply y).heap.phase = y.enters.getD m.heap.phase ∧
        ∀ q, y.enters = some q → m.heap.phase.next = q := by
    intro henters hphase
    rw [henters]
    exact ⟨hphase, fun q => Option.some.inj⟩
  cases y with
  | begin => exact hentered (by rw [hy.2.1]; rfl) rfl
  | terminate => exact hentered (by rw [hy.2]; rfl) rfl
  | enterSweep =>
      have hphase : m.heap.phase = .termination := hm.fits (s := .resurrected) hy
      exact hentered (by rw [hphase]; rfl) rfl
  | finish => exact hentered (by rw [hy.2]; rfl) rfl
  | _ =>
      exact ⟨(hm.steps hy).phase (by simp [Move.Does]) (by simp [Move.Does]), nofun⟩

/-- A phase goes on until the next one is entered. -/
theorem Proper.phase_stays
    (hm : m.Proper)
    (hy : m.Allows y)
    (hnot : y.enters ≠ some p.next)
    (hp : m.heap.phase = p) :
    (m.apply y).heap.phase = p := by
  obtain ⟨hphase, hnext⟩ := hm.phase_apply hy
  cases he : y.enters with
  | none =>
      rw [hphase, he]
      exact hp
  | some q =>
      rw [← hp, hnext q he] at hnot
      exact absurd he hnot

/-- No other move leads to a phase than the one that enters it. -/
theorem Proper.phase_ne
    (hm : m.Proper)
    (hy : m.Allows y)
    (hnot : y.enters ≠ some p)
    (hp : m.heap.phase ≠ p) :
    (m.apply y).heap.phase ≠ p := by
  obtain ⟨hphase, -⟩ := hm.phase_apply hy
  cases he : y.enters with
  | none =>
      rw [hphase, he]
      exact hp
  | some q =>
      rw [hphase, he]
      exact fun hq => hnot (he.trans (congrArg some hq))

/-- The collector marks only after it has begun a cycle. -/
theorem Proper.isMarking_of_apply
    (hm : m.Proper)
    (hy : m.Allows y)
    (hbegin : y ≠ .begin)
    (hmark : (m.apply y).heap.phase.isMarking = true) :
    m.heap.phase.isMarking = true := by
  rw [(hm.phase_apply hy).1] at hmark
  cases y with
  | begin => exact absurd rfl hbegin
  | terminate =>
      rw [hy.2]
      rfl
  | enterSweep | finish => cases hmark
  | _ => exact hmark

end Machine

end EagerHeap
