import EagerHeap.Proofs.Cycle.Fates
import EagerHeap.Proofs.Cycle.Resurrected
import EagerHeap.Proofs.Run.Consulted
/-!
# When objects are reclaimed

The sweeper reclaims an object exactly if it comes to its block and finds the object unreached and
without a finalizer. It goes on wherever it has stopped, whatever the phase is; so objects are
reclaimed in the sweeping phase only if every cycle that ends has swept all its blocks.

Main results: `Proper.reclaims_iff` and `reclaimed_in_sweep`.
-/

namespace EagerHeap

/-- The moves that change what the collector has noted, apart from the gray objects. -/
def Move.Accounts : Move → Prop
  | .attachCollector | .detachCollector | .begin | .startSweep | .sweepStep _ | .closeCycle => True
  | _ => False

namespace Heap

variable {h h' : Heap} {n x : Nat} {c : Cell}

/-- The next `n` blocks that the collector shall sweep contain the block of an address. -/
def ComesTo (h : Heap) (n x : Nat) : Prop :=
  ∃ k, h.collector = some k ∧ k.sweepNext ≤ (x - Arena.start) / blockSize ∧
    (x - Arena.start) / blockSize < k.sweepNext + min n (k.sweepLimit - k.sweepNext)

theorem ComesTo.hasUnswept
    (hcomes : h.ComesTo n x) :
    h.hasUnswept = true := by
  obtain ⟨k, hk, hle, hlt⟩ := hcomes
  unfold Heap.hasUnswept
  rw [hk]
  simp only [Option.any_some, decide_eq_true_eq]
  omega

/-- Marking does not change which blocks are swept next. -/
theorem ComesTo.of_account
    (hsame : h'.collector.map Collector.unmarked = h.collector.map Collector.unmarked)
    (hcomes : h.ComesTo n x) :
    h'.ComesTo n x := by
  obtain ⟨k, hk, hrange⟩ := hcomes
  rw [hk] at hsame
  obtain ⟨k', hk', heq⟩ := Option.map_eq_some_iff.1 hsame
  have hnext : k'.unmarked.sweepNext = k.unmarked.sweepNext := congrArg _ heq
  have hlimit : k'.unmarked.sweepLimit = k.unmarked.sweepLimit := congrArg _ heq
  exact ⟨k', hk', by rwa [show k'.sweepNext = k.sweepNext from hnext,
    show k'.sweepLimit = k.sweepLimit from hlimit]⟩

theorem hasUnswept_eq (h : Heap) :
    h.hasUnswept = (h.collector.map Collector.unmarked).any fun k => k.sweepNext < k.sweepLimit := by
  unfold hasUnswept
  cases h.collector <;> rfl

theorem mem_sweepRange
    {b k : Nat}
    (hl : h.arena.Layout)
    (ho : h.arena.Object x c) :
    x ∈ (List.range' b k).flatMap h.arena.cellsOf ↔
      b ≤ (x - Arena.start) / blockSize ∧ (x - Arena.start) / blockSize < b + k := by
  rw [List.mem_flatMap]
  constructor
  · rintro ⟨i, hi, hx⟩
    rw [Arena.block_of_mem_cellsOf hl hx]
    exact List.mem_range'_1.1 hi
  · intro hb
    exact ⟨_, List.mem_range'_1.2 hb, (Arena.mem_cellsOf hl).2 ⟨c, ho.1, Arena.block_of_cell? ho.1⟩⟩

/-- A step of the sweeper leaves a free cell or none exactly of the sweepable objects in the blocks
that it comes to. -/
theorem isVacant_sweepStep
    (hs : h.Sound)
    (ho : h.arena.Object x c) :
    (h.sweepStep n).arena.isVacant x = true ↔ h.ComesTo n x ∧ h.isSweepable x = true := by
  rcases sweepStep_cases hs n with ⟨hnone, heq⟩ | ⟨k, cs, g, hk, hv, heq⟩
  · rw [heq, ho.not_isVacant]
    refine iff_of_false Bool.false_ne_true ?_
    rintro ⟨⟨k, hk, -⟩, -⟩
    rw [hnone] at hk
    cases hk
  · rw [heq]
    refine (hv.isVacant_iff hs (Arena.nodup_cellsOf_range hs.layout _ _) ho).trans ?_
    rw [mem_sweepRange hs.layout ho]
    refine and_congr_left fun _ => ⟨fun hb => ⟨k, hk, hb⟩, ?_⟩
    rintro ⟨k', hk', hb⟩
    obtain rfl := Option.some.inj (hk.symm.trans hk')
    exact hb

/-- The sweeper does not find more to do when it goes on. -/
theorem hasUnswept_sweepStep
    (hs : h.Sound)
    (hdone : h.hasUnswept = false) :
    (h.sweepStep n).hasUnswept = false := by
  rcases sweepStep_cases hs n with ⟨-, heq⟩ | ⟨k, cs, g, hk, -, heq⟩
  · rw [heq]
    exact hdone
  · rw [heq]
    unfold hasUnswept at hdone ⊢
    rw [hk] at hdone
    simp only [Option.any_some, decide_eq_false_iff_not] at hdone ⊢
    omega

end Heap

namespace Machine

variable {P : Machine → Move → Prop} {m : Machine} {y : Move} {ys : List Move} {x : Nat} {c : Cell}
  {memory : Nat} {cfg : Config} {h : Heap}

open Heap

/-- The move reclaims the object at an address: it was there, and now its cell is free or gone. -/
def Reclaims (m : Machine) (y : Move) (x : Nat) : Prop :=
  m.heap.arena.isAllocated x = true ∧ (m.apply y).heap.arena.isVacant x = true

instance decidableReclaims (m : Machine) (y : Move) (x : Nat) : Decidable (m.Reclaims y x) :=
  inferInstanceAs (Decidable (_ ∧ _))

/-- A cycle ends only after all its blocks were swept. -/
def FinishesSwept (m : Machine) (y : Move) : Prop := y = .finish → m.heap.hasUnswept = false

instance decidableFinishesSwept (m : Machine) (y : Move) : Decidable (m.FinishesSwept y) :=
  inferInstanceAs (Decidable (y = .finish → m.heap.hasUnswept = false))

/-- Outside of the sweeping phase no block is left to sweep. -/
def SweptOut (m : Machine) : Prop := m.heap.phase ≠ .sweep → m.heap.hasUnswept = false

/-- Nothing but a step of the sweeper reclaims objects, and it reclaims the sweepable ones in the
blocks that it comes to. -/
theorem Proper.reclaims_iff
    (hm : m.Proper)
    (hy : m.Allows y) :
    m.Reclaims y x ↔ ∃ n, y = .sweepStep n ∧ m.heap.ComesTo n x ∧ m.heap.isSweepable x = true := by
  constructor
  · rintro ⟨hal, hvacant⟩
    obtain ⟨c, ho⟩ := Arena.exists_object hal
    by_cases hsweep : ∃ n, y = .sweepStep n
    · obtain ⟨n, rfl⟩ := hsweep
      exact ⟨n, rfl, (isVacant_sweepStep hm.sound ho).1 hvacant⟩
    · -- Other moves leave an object where it is or put its cell into a free list.
      have hnot := (not_does_cleanup (fun n e => hsweep ⟨n, e⟩) x).2
      rcases hm.stays hy ho hnot with ⟨hd, hobj⟩ | ⟨-, -, d, hd, hcached⟩
      · rw [hobj.not_isVacant] at hvacant
        cases hvacant
      · have hfree := Arena.isVacant_iff.1 hvacant d hd
        rw [hcached] at hfree
        cases hfree
  · rintro ⟨n, rfl, hcomes, hx⟩
    obtain ⟨⟨c, ho, -⟩, -⟩ := isSweepable_iff.1 hx
    exact ⟨ho.isAllocated, (isVacant_sweepStep hm.sound ho).2 ⟨hcomes, hx⟩⟩

/-! ### The account of the collector -/

/-- Marking and the moves of others leave what the collector has noted about the sweep. -/
theorem Proper.account
    (hm : m.Proper)
    (hy : m.Allows y)
    (hnot : ¬ y.Accounts) :
    (m.apply y).heap.collector.map Collector.unmarked =
      m.heap.collector.map Collector.unmarked := by
  cases y with
  | shadeRoots roots => exact (painted_shadeRoots m.heap roots).account
  | markStep n => exact (painted_markStep m.heap n).account
  | finishMarking roots =>
      exact ((painted_shadeRoots m.heap roots).trans (painted_markAll _)).account
  | resurrect =>
      have hmarked := (markAll_steps m.heap).sound hm.sound
      exact (resurrects_resurrectAll hmarked).account.trans (painted_markAll m.heap).account
  | terminate => rfl
  | enterSweep => rfl
  | finish => rfl
  | attachCollector => exact absurd trivial hnot
  | detachCollector => exact absurd trivial hnot
  | begin => exact absurd trivial hnot
  | startSweep => exact absurd trivial hnot
  | sweepStep n => exact absurd trivial hnot
  | closeCycle => exact absurd trivial hnot
  | _ =>
      refine congrArg _ ((hm.steps hy).sameCycle fun l hl => ?_).collector
      simp only [Move.Does] at hl
      rcases hl with rfl | ⟨x, rfl⟩ <;> exact id

theorem sweptOut_start
    (hc : Heap.create memory cfg = .ok h) :
    (start h).SweptOut := by
  obtain ⟨-, rfl⟩ := Heap.create_eq_ok hc
  exact fun _ => rfl

/-- The sweeping phase goes on until the cycle ends. -/
theorem Proper.phase_sweep
    (hm : m.Proper)
    (hy : m.Allows y)
    (hfinish : y ≠ .finish)
    (hsweep : m.heap.phase = .sweep) :
    (m.apply y).heap.phase = .sweep :=
  hm.phase_stays hy (by cases y <;> simp [Move.enters, Phase.next] at hfinish ⊢) hsweep

/-- The sweeping phase is entered by one move. -/
theorem Proper.phase_ne_sweep
    (hm : m.Proper)
    (hy : m.Allows y)
    (henter : y ≠ .enterSweep)
    (hne : m.heap.phase ≠ .sweep) :
    (m.apply y).heap.phase ≠ .sweep :=
  hm.phase_ne hy (by cases y <;> simp [Move.enters] at henter ⊢) hne

/-- Only the end of a cycle can leave blocks to sweep outside of the sweeping phase. -/
theorem Proper.sweptOut
    (hm : m.Proper)
    (hy : m.Allows y)
    (hf : m.FinishesSwept y)
    (hs : m.SweptOut) :
    (m.apply y).SweptOut := by
  intro hne
  have hkept : ¬ y.Accounts → m.heap.hasUnswept = false →
      (m.apply y).heap.hasUnswept = false := by
    intro hnot hdone
    rw [hasUnswept_eq] at hdone ⊢
    rwa [hm.account hy hnot]
  by_cases hfinish : y = .finish
  · subst hfinish
    exact hkept id (hf rfl)
  have hbefore : m.heap.phase ≠ .sweep := fun hsweep => hne (hm.phase_sweep hy hfinish hsweep)
  have hdone := hs hbefore
  cases y with
  | attachCollector => rfl
  | detachCollector => rfl
  | begin =>
      change (m.heap.resetCycle).hasUnswept = false
      unfold resetCycle modifyCollector hasUnswept at *
      cases hk : m.heap.collector with
      | none => rfl
      | some k =>
          rw [hk] at hdone
          exact hdone
  | startSweep => exact absurd (hm.fits (s := .entering) hy) hbefore
  | sweepStep n => exact hasUnswept_sweepStep hm.sound hdone
  | closeCycle =>
      change m.heap.closeCycle.2.hasUnswept = false
      unfold closeCycle hasUnswept at *
      split
      · next hk =>
          rw [hk]
          rfl
      · next k hk =>
          rw [hk] at hdone
          exact hdone
  | _ => exact hkept id hdone

/-! ### Runs -/

/-- An object that is not reclaimed stays, unless it is freed eagerly. -/
theorem Proper.stays_unreclaimed
    (hm : m.Proper)
    (hy : m.Allows y)
    (hx : m.heap.arena.Object x c)
    (hnot : ¬ m.Reclaims y x) :
    (∃ hd, (m.apply y).heap.arena.Object x { c with header := hd }) ∨ m.Parks y x := by
  by_cases hsweep : ∃ n, y = .sweepStep n
  · obtain ⟨n, rfl⟩ := hsweep
    left
    rcases sweepStep_cases hm.sound n with ⟨-, heq⟩ | ⟨k, cs, g, -, hv, heq⟩
    · have hsame : (m.apply (.sweepStep n)).heap = m.heap := heq
      rw [hsame]
      exact ⟨c.header, hx⟩
    · have hfate := hv.fate hm.sound (Arena.nodup_cellsOf_range hm.sound.layout _ _) hx
      have hafter : (m.apply (.sweepStep n)).heap = _ := heq
      rw [Reclaims, hafter] at hnot
      rw [hafter]
      exact (hfate.stays_or_vacant hx).resolve_right fun hv => hnot ⟨hx.isAllocated, hv⟩
  · exact hm.stays hy hx (not_does_cleanup (fun n e => hsweep ⟨n, e⟩) x).2

/-- Nothing is reclaimed outside of the sweeping phase. -/
theorem Proper.not_reclaims
    (hm : m.Proper)
    (hy : m.Allows y)
    (hs : m.SweptOut)
    (hne : m.heap.phase ≠ .sweep) :
    ¬ m.Reclaims y x := by
  intro hx
  obtain ⟨n, -, hcomes, -⟩ := (hm.reclaims_iff hy).1 hx
  have hleft := hcomes.hasUnswept
  rw [hs hne] at hleft
  cases hleft

/-- An object stays until the sweeping phase is entered, unless it is freed eagerly. -/
theorem Legal.stays_unswept
    (hl : Legal FinishesSwept m ys)
    (hm : m.Proper)
    (hs : m.SweptOut)
    (hne : m.heap.phase ≠ .sweep)
    (henter : .enterSweep ∉ ys)
    (hx : m.heap.arena.Object x c) :
    (∃ hd, (m.run ys).heap.arena.Object x { c with header := hd }) ∨ m.ParksIn ys x := by
  induction ys generalizing m c with
  | nil => exact Or.inl ⟨c.header, hx⟩
  | cons y ys ih =>
      have hfirst : y ≠ .enterSweep := fun e => henter (e ▸ List.mem_cons_self ..)
      have hrest : Move.enterSweep ∉ ys := fun h => henter (List.mem_cons_of_mem _ h)
      rcases hm.stays_unreclaimed hl.1 hx (hm.not_reclaims hl.1 hs hne) with ⟨hd, hobj⟩ | hparks
      · have hlater := ih (c := { c with header := hd }) hl.2.2 (hm.apply hl.1)
          (hm.sweptOut hl.1 hl.2.1 hs) (hm.phase_ne_sweep hl.1 hfirst hne) hrest hobj
        exact hlater.imp_right ParksIn.cons
      · exact Or.inr ⟨[], y, ys, rfl, hparks⟩

/-- Objects are reclaimed in the sweeping phase only. In every state of a run in which each cycle
that ends has swept all its blocks, a move reclaims an object exactly if it is a step of the sweeper
in the sweeping phase that comes to the block of the object, and the object is unreached and has no
finalizer. And an object that is there outside of the sweeping phase stays until the sweeping phase
is entered the next time, unless it is freed eagerly. -/
theorem reclaimed_in_sweep
    (hc : Heap.create memory cfg = .ok h)
    (hl : Legal FinishesSwept (start h) ys) :
    let m := (start h).run ys
    (∀ y x, m.Allows y →
      (m.Reclaims y x ↔ ∃ n, y = .sweepStep n ∧ m.heap.phase = .sweep ∧ m.heap.ComesTo n x ∧
        m.heap.isSweepable x = true)) ∧
      ∀ zs x c, Legal FinishesSwept m zs → m.heap.phase ≠ .sweep → .enterSweep ∉ zs →
        m.heap.arena.Object x c →
          (∃ hd, (m.run zs).heap.arena.Object x { c with header := hd }) ∨ m.ParksIn zs x := by
  have hinv : ((start h).run ys).Proper ∧ ((start h).run ys).SweptOut := by
    refine hl.preserves (R := fun m => m.Proper ∧ m.SweptOut)
      ⟨proper_start hc, sweptOut_start hc⟩ ?_
    rintro m y ⟨hm, hs⟩ hy hf
    exact ⟨hm.apply hy, hm.sweptOut hy hf hs⟩
  obtain ⟨hm, hs⟩ := hinv
  refine ⟨fun y x hy => ⟨fun hx => ?_, ?_⟩, fun zs x c hzs hne henter hx =>
    hzs.stays_unswept hm hs hne henter hx⟩
  · obtain ⟨n, rfl, hcomes, hsweepable⟩ := (hm.reclaims_iff hy).1 hx
    refine ⟨n, rfl, ?_, hcomes, hsweepable⟩
    by_contra hne
    exact hm.not_reclaims hy hs hne hx
  · rintro ⟨n, rfl, -, hx⟩
    exact (hm.reclaims_iff hy).2 ⟨n, rfl, hx⟩

/-- One object is reclaimed by a whole cycle, and then another one is handed out. -/
theorem reclaimed_in_sweep_new :
    let ys : List Move :=
      [.addWorker, .carveBlock quarterBlock, .setCursor 0 quarterBlock 0, .claim 0 quarterBlock,
        .attachCollector] ++ emptyCycle ++ [.setCursor 0 quarterBlock 0, .claim 0 quarterBlock]
    let m := (start (.empty fourBlocks)).run ys
    (m.Reclaims (.sweepStep 4) Arena.start ↔
      ∃ n, Move.sweepStep 4 = .sweepStep n ∧ m.heap.phase = .sweep ∧
        m.heap.ComesTo n Arena.start ∧ m.heap.isSweepable Arena.start = true) ∧
      ((∃ hd, (m.run [.sweepStep 4, .begin, .shadeRoots []]).heap.arena.Object Arena.start
          ⟨0, 0, Arena.start, 4096, .scan, false, hd⟩) ∨
        m.ParksIn [.sweepStep 4, .begin, .shadeRoots []] Arena.start) := by
  intro ys m
  have hlegal : Legal FinishesSwept (start (.empty fourBlocks)) ys := by
    decide +kernel
  obtain ⟨hreclaims, hstays⟩ := reclaimed_in_sweep create_fourBlocks hlegal
  refine ⟨hreclaims (.sweepStep 4) Arena.start (by decide +kernel), ?_⟩
  refine hstays [.sweepStep 4, .begin, .shadeRoots []] Arena.start
    ⟨0, 0, Arena.start, 4096, .scan, false, Header.fresh .white⟩ ?_ ?_ ?_ ⟨?_, rfl⟩
  all_goals decide +kernel

/-- A cycle ends before it has swept its only block. The next step of the sweeper comes to that block
although no cycle goes on, and reclaims an object that was handed out since. -/
theorem reclaims_in_idle_phase :
    let before : List Move :=
      [.addWorker, .carveBlock quarterBlock, .setCursor 0 quarterBlock 0, .claim 0 quarterBlock,
        .attachCollector, .begin, .shadeRoots [], .terminate, .finishMarking [], .resurrect,
        .enterSweep, .zeroSlots, .startSweep, .finish, .closeCycle]
    let m := (start (.empty fourBlocks)).run (before ++ [.claim 0 quarterBlock])
    Legal (fun _ _ => True) (start (.empty fourBlocks))
        (before ++ [.claim 0 quarterBlock, .sweepStep 100]) ∧
      ((start (.empty fourBlocks)).run before).handsOut (.claim 0 quarterBlock) =
        some (Arena.start + 4096) ∧
      m.heap.phase = .idle ∧ m.Reclaims (.sweepStep 100) (Arena.start + 4096) := by
  decide +kernel

end Machine

end EagerHeap
