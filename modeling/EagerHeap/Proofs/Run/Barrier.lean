import EagerHeap.Action.Cycle
import EagerHeap.Proofs.Run.Finalizers
import EagerHeap.Proofs.Run.Store
/-!
# The barrier buffer in a run

An address that is stored while the collector marks is remembered until the marker looks next. The
marker looks for the last time before the finalizers of unreached objects are queued. What is stored
after that and before the sweeping phase begins stays in the buffer, and nothing shades it.

Main results: `stored_object_shaded` and `late_store_swept`.
-/

namespace EagerHeap

/-- The marker looks at the barrier buffer in this move. -/
def Move.Looks : Move → Prop
  | .markStep _ | .finishMarking _ | .resurrect => True
  | _ => False

namespace Heap

variable {h h' : Heap} {l : Act} {x : Nat} {c : Cell} {P : Act → Prop}

/-! ### What is remembered -/

theorem toList_remember (h : Heap) (v : Nat) :
    (h.remember v).barrier.toList =
      h.barrier.toList ++ [v].filter fun v => h.arena.contains v && h.phase.isMarking := by
  unfold remember
  split
  · next hv => simp [hv]
  · next hv => simp [hv]

theorem toList_foldl_remember
    (vs : List Nat)
    (h : Heap) :
    (vs.foldl remember h).barrier.toList =
      h.barrier.toList ++ vs.filter fun v => h.arena.contains v && h.phase.isMarking := by
  induction vs generalizing h with
  | nil => simp
  | cons v vs ih =>
      have hsame : (h.remember v).phase = h.phase := (sameCycle_remember h v).phase
      rw [List.foldl_cons, ih, toList_remember, arena_remember, hsame, List.append_assoc,
        ← List.filter_append, List.singleton_append]

/-- The barrier buffer changes when words are written and when the marker looks, and at no other
time. -/
theorem Tick.barrier_eq
    (ht : Tick h l h')
    (hpaint : l ≠ .paint)
    (hwrites : ¬ l.Writes) :
    h'.barrier = h.barrier := by
  cases ht with
  | still hst => exact hst.barrier
  | store => exact absurd trivial hwrites
  | copy => exact absurd trivial hwrites
  | paint => exact absurd rfl hpaint
  | birthCell => exact barrier_publish _ _ _ _ _
  | birthRun => exact barrier_publish _ _ _ _ _
  | park => exact barrier_park _ _ _ _
  | attach =>
      rw [attachRecord]
      split <;> rfl
  | finalize y =>
      rw [resurrect]
      dsimp only
      split <;> rfl
  | _ => rfl

theorem Steps.barrier_eq
    (hsteps : Steps P h h')
    (hpaint : ¬ P .paint)
    (hwrites : ∀ l, P l → ¬ l.Writes) :
    h'.barrier = h.barrier := by
  induction hsteps with
  | refl => rfl
  | tail _ hlast ih =>
      obtain ⟨l, hl, ht⟩ := hlast
      exact (ht.barrier_eq (fun e => hpaint (e ▸ hl)) (hwrites l hl)).trans ih

/-! ### What the marker looks at -/

theorem barrier_drainBarrier (h : Heap) : h.drainBarrier.barrier = #[] :=
  barrier_marking _ _

theorem barrier_markStep (h : Heap) (n : Nat) : (h.markStep n).barrier = #[] :=
  (barrier_marking _ _).trans (barrier_drainBarrier h)

theorem barrier_markAll (h : Heap) : h.markAll.barrier = #[] :=
  (barrier_marking _ _).trans (barrier_drainBarrier h)

theorem barrier_resurrectAll
    (hb : h.barrier = #[]) :
    h.resurrectAll.2.barrier = #[] := by
  rw [resurrectAll]
  split
  · exact hb
  · exact barrier_markAll _

/-- Every remembered object is reached once the marker has looked. -/
theorem isReached_drainBarrier
    (hc : h.collector.isSome = true)
    (hx : h.arena.isAllocated x = true)
    (hb : x ∈ h.barrier) :
    h.drainBarrier.arena.isReached x = true := by
  have hc' : ({ h with barrier := #[] } : Heap).collector.isSome = true := hc
  rw [drainBarrier, arena_marking hc']
  exact isReached_shadeAll hx (Array.mem_toList_iff.2 hb)

theorem isReached_markStep
    (hs : h.Sound)
    (hc : h.collector.isSome = true)
    (hx : h.arena.isAllocated x = true)
    (hb : x ∈ h.barrier)
    (n : Nat) :
    (h.markStep n).arena.isReached x = true :=
  (marking_steps (Marker.recolored_advance n) _).isReached ((drainBarrier_steps h).sound hs)
    (isReached_drainBarrier hc hx hb) (by simp) (by simp)

theorem isReached_markAll
    (hs : h.Sound)
    (hc : h.collector.isSome = true)
    (hx : h.arena.isAllocated x = true)
    (hb : x ∈ h.barrier) :
    h.markAll.arena.isReached x = true :=
  (marking_steps Marker.recolored_complete _).isReached ((drainBarrier_steps h).sound hs)
    (isReached_drainBarrier hc hx hb) (by simp) (by simp)

/-- The color of an object changes when the marker works and when a cycle begins, and at no other
time. -/
theorem Steps.keepsColor
    (hsteps : Steps P h h')
    (hs : h.Sound)
    (hx : h.arena.Object x c)
    (hpark : ¬ P (.park x))
    (hreclaim : ¬ P (.reclaim x))
    (hpaint : ¬ P .paint)
    (hbegin : ¬ P .begin) :
    ∃ hd, h'.arena.Object x { c with header := hd } ∧ hd.color = c.header.color := by
  refine (hsteps.induct (R := fun g => ∃ hd, g.arena.Object x { c with header := hd } ∧
    hd.color = c.header.color) hs ⟨c.header, hx, rfl⟩ ?_).2
  rintro g l g' hg ⟨hd, ⟨hcell, hal⟩, hcol⟩ hl ht
  have hchange := ht.cellChange hg x
  rw [hcell] at hchange
  obtain ⟨hd', hcell', hal', hhc⟩ := hchange.stays hal (fun e => hpark (e ▸ hl))
    (fun e => absurd (e ▸ hl) hreclaim)
  refine ⟨hd', ⟨hcell', hal'⟩, Eq.trans ?_ hcol⟩
  cases hhc with
  | birth hne => exact absurd hal hne
  | paint => exact absurd hl hpaint
  | begin => exact absurd hl hbegin
  | _ => rfl

end Heap

namespace Machine

variable {P : Machine → Move → Prop} {m : Machine} {y : Move} {ys : List Move} {x : Nat}
  {late : List Nat} {k : Cell} {memory : Nat} {c : Config} {h : Heap}

open Heap

/-- The values that a move stores into objects that may hold addresses. -/
def stored (m : Machine) : Move → List Nat
  | .write _ _ v => [v]
  | .copy source _ bytes .scan => m.heap.arena.words source (bytes / Word.bytes)
  | _ => []

/-- The late stores after a move: those of addresses that the marker did not look at since it last
queued finalizers, if they came before the sweeping phase. -/
def lateAfter (m : Machine) (late : List Nat) : Move → List Nat
  | .markStep _ | .finishMarking _ | .resurrect => []
  | y => if m.stage = .resurrected then late ++ (m.stored y).filter m.heap.arena.contains else late

/-- The late stores after a run. -/
def lateStores : Machine → List Move → List Nat → List Nat
  | _, [], late => late
  | m, y :: ys, late => lateStores (m.apply y) ys (m.lateAfter late y)

/-! ### The buffer -/

/-- A move in which the marker looks empties the buffer. -/
theorem barrier_apply_of_looks
    (hy : y.Looks) :
    (m.apply y).heap.barrier = #[] := by
  cases y with
  | markStep n => exact barrier_markStep _ n
  | finishMarking roots => exact barrier_markAll _
  | resurrect => exact barrier_resurrectAll (barrier_markAll _)
  | _ => cases hy

/-- Any other move adds the addresses that it stores while the collector marks. -/
theorem Proper.toList_barrier_apply
    (hm : m.Proper)
    (hy : m.Allows y)
    (hlooks : ¬ y.Looks) :
    (m.apply y).heap.barrier.toList = m.heap.barrier.toList ++
      (m.stored y).filter fun v => m.heap.arena.contains v && m.heap.phase.isMarking := by
  have hquiet : m.stored y = [] → (¬ y.Does .paint) → (∀ l, y.Does l → ¬ l.Writes) →
      (m.apply y).heap.barrier.toList = m.heap.barrier.toList ++
        (m.stored y).filter fun v => m.heap.arena.contains v && m.heap.phase.isMarking := by
    intro hnone hpaint hwrites
    rw [hnone, (hm.steps hy).barrier_eq hpaint hwrites, List.filter_nil, List.append_nil]
  cases y with
  | write obj i v =>
      have hin := (Arena.sameOutline_write m.heap.arena (obj + i * Word.bytes) v).contains
      have hstored := toList_remember
        { m.heap with arena := m.heap.arena.write (obj + i * Word.bytes) v } v
      simp only [hin] at hstored
      exact hstored
  | copy source target bytes shape =>
      cases shape with
      | noScan => exact (List.append_nil _).symm
      | scan =>
          have hin := (Arena.sameOutline_copy m.heap.arena source target bytes).contains
          have hstored := toList_foldl_remember (m.heap.arena.words source (bytes / Word.bytes))
            { m.heap with arena := m.heap.arena.copy source target bytes }
          simp only [hin] at hstored
          exact hstored
  | shadeRoots roots =>
      change (m.heap.shadeRoots roots).barrier.toList = _
      rw [shadeRoots, barrier_marking]
      exact (List.append_nil _).symm
  | markStep n => exact absurd trivial hlooks
  | finishMarking roots => exact absurd trivial hlooks
  | resurrect => exact absurd trivial hlooks
  | _ =>
      refine hquiet rfl (by simp [Move.Does]) fun l hl hw => ?_
      cases l with
      | store => simp [Move.Does] at hl
      | copy => simp [Move.Does] at hl
      | _ => exact hw

/-- Outside of the marking phases, and between the queueing of finalizers and the sweeping phase,
the buffer holds the late stores. -/
def HoldsLate (m : Machine) (late : List Nat) : Prop :=
  m.heap.phase.isMarking = false ∨ m.stage = .resurrected → m.heap.barrier.toList = late

theorem lateAfter_of_not_looks
    (hlooks : ¬ y.Looks)
    (late : List Nat) :
    m.lateAfter late y =
      if m.stage = .resurrected then late ++ (m.stored y).filter m.heap.arena.contains
      else late := by
  cases y <;> first | rfl | exact absurd trivial hlooks

/-- A move that leaves the marking phases, or goes on with a resurrection, finds the heap outside of
the marking phases or in a resurrection. -/
theorem Proper.marks_before
    (hm : m.Proper)
    (hy : m.Allows y)
    (hlooks : ¬ y.Looks)
    (hafter : (m.apply y).heap.phase.isMarking = false ∨ (m.apply y).stage = .resurrected) :
    m.heap.phase.isMarking = false ∨ m.stage = .resurrected := by
  have hfits := hm.stage
  have hphase : (¬ y.Does .begin) → (¬ y.Does .turn) →
      (m.apply y).heap.phase = m.heap.phase := (hm.steps hy).phase
  cases y with
  | begin =>
      left
      rw [hy.2.1]
      rfl
  | terminate =>
      have hnext : (m.apply .terminate).heap.phase = .termination := by
        change m.heap.phase.next = _
        rw [hy.2]
        rfl
      rw [hnext] at hafter
      rcases hafter with h | h <;> cases h
  | enterSweep => exact Or.inr hy
  | finish =>
      left
      rw [hy.2]
      rfl
  | resurrect => exact absurd trivial hlooks
  | _ =>
      have hsame := hphase (by simp [Move.Does]) (by simp [Move.Does])
      rw [hsame] at hafter
      refine hafter.imp_right fun hstage => ?_
      first
        | exact hstage
        | cases hstage

theorem Proper.holdsLate
    (hm : m.Proper)
    (hy : m.Allows y)
    (hb : m.HoldsLate late) :
    (m.apply y).HoldsLate (m.lateAfter late y) := by
  intro hafter
  by_cases hlooks : y.Looks
  · rw [barrier_apply_of_looks hlooks]
    cases y <;> first | rfl | cases hlooks
  · have hbefore := hm.marks_before hy hlooks hafter
    rw [hm.toList_barrier_apply hy hlooks, hb hbefore, lateAfter_of_not_looks hlooks]
    rcases hbefore with hphase | hstage
    · have hstage : m.stage ≠ .resurrected := by
        intro hr
        have hfits := hm.stage
        rw [hr] at hfits
        rw [show m.heap.phase = .termination from hfits] at hphase
        cases hphase
      simp [hphase, hstage]
    · have hfits := hm.stage
      rw [hstage] at hfits
      have hphase : m.heap.phase.isMarking = true := by
        rw [show m.heap.phase = .termination from hfits]
        rfl
      simp [hphase, hstage]

theorem Legal.holdsLate
    (hl : Legal P m ys)
    (hm : m.Proper)
    (hb : m.HoldsLate late) :
    (m.run ys).HoldsLate (lateStores m ys late) := by
  induction ys generalizing m late with
  | nil => exact hb
  | cons y ys ih => exact ih hl.2.2 (hm.apply hl.1) (hm.holdsLate hl.1 hb)

/-! ### Stored objects -/

/-- The object at an address will be reached when the sweeping phase begins: it is reached already,
or it is remembered and the marker will look. -/
def Shading (m : Machine) (x : Nat) (k : Cell) : Prop :=
  m.heap.phase.isMarking = true ∧ ∃ hd, m.heap.arena.Object x { k with header := hd } ∧
    (hd.color ≠ .white ∨ x ∈ m.heap.barrier ∧ m.stage ≠ .resurrected)

/-- A move of the marking phases but for the last one goes on with them. -/
theorem Proper.isMarking_apply
    (hm : m.Proper)
    (hy : m.Allows y)
    (henter : y ≠ .enterSweep)
    (hmark : m.heap.phase.isMarking = true) :
    (m.apply y).heap.phase.isMarking = true := by
  rw [(hm.phase_apply hy).1]
  cases y with
  | begin | terminate => rfl
  | enterSweep => exact absurd rfl henter
  | finish =>
      rw [hy.2] at hmark
      cases hmark
  | _ => exact hmark

/-- While the collector marks, no sweeping step is legal that sweeps in phase only. -/
theorem not_does_reclaim
    (hsweep : m.SweepsInPhase y)
    (hmark : m.heap.phase.isMarking = true) :
    ¬ y.Does (.reclaim x) := by
  cases y with
  | sweepStep n =>
      rw [show m.heap.phase = .sweep from hsweep] at hmark
      cases hmark
  | _ => simp [Move.Does]

/-- A remembered object is reached after the marker has looked. -/
theorem Proper.isReached_of_looks
    (hm : m.Proper)
    (hlooks : y.Looks)
    (hmark : m.heap.phase.isMarking = true)
    (hx : m.heap.arena.isAllocated x = true)
    (hb : x ∈ m.heap.barrier) :
    (m.apply y).heap.arena.isReached x = true := by
  have hs := hm.sound
  have hc : m.heap.collector.isSome = true := by
    refine hm.isSome_collector (Or.inr fun hidle => ?_)
    rw [hidle] at hmark
    cases hmark
  cases y with
  | markStep n => exact isReached_markStep hs hc hx hb n
  | finishMarking roots =>
      have hshaded := shadeRoots_steps m.heap roots
      have hx' := (hshaded.recolored.isAllocated x).trans hx
      refine isReached_markAll (hshaded.sound hs) ((isSome_collector_marking _ _).trans hc) hx' ?_
      rw [shadeRoots, barrier_marking]
      exact hb
  | resurrect =>
      have hreached := isReached_markAll hs hc hx hb
      exact (resurrectAll_steps _).isReached ((markAll_steps _).sound hs) hreached (by simp)
        (by simp)
  | _ => cases hlooks

theorem Proper.shading
    (hm : m.Proper)
    (hy : m.Allows y)
    (hsweep : m.SweepsInPhase y)
    (henter : y ≠ .enterSweep)
    (hx : m.Shading x k) :
    (m.apply y).Shading x k ∨ m.Parks y x := by
  obtain ⟨hmark, hd, hobj, hcol⟩ := hx
  have hmark' := hm.isMarking_apply hy henter hmark
  rcases hcol with hcol | ⟨hb, hstage⟩
  · have hbegin : y ≠ .begin := by
      rintro rfl
      rw [hy.2.1] at hmark
      cases hmark
    rcases hm.stays_reached hy hbegin hobj hcol with ⟨hd', hobj', hcol'⟩ | hparks
    · exact Or.inl ⟨hmark', hd', hobj', Or.inl hcol'⟩
    · exact Or.inr hparks
  · rcases hm.stays hy hobj (not_does_reclaim hsweep hmark) with ⟨hd', hobj'⟩ | hparks
    · refine Or.inl ⟨hmark', hd', hobj', ?_⟩
      by_cases hlooks : y.Looks
      · obtain ⟨d, hd, -, hcol⟩ :=
          Arena.isReached_iff.1 (hm.isReached_of_looks hlooks hmark hobj.isAllocated hb)
        rw [hobj'.1] at hd
        obtain rfl := Option.some.inj hd
        exact Or.inl hcol
      · have hkept : x ∈ (m.apply y).heap.barrier := by
          rw [← Array.mem_toList_iff, hm.toList_barrier_apply hy hlooks]
          exact List.mem_append_left _ (Array.mem_toList_iff.2 hb)
        refine Or.inr ⟨hkept, ?_⟩
        -- Only the queueing of finalizers leads to the stage in which nobody looks.
        change m.stageAfter y ≠ .resurrected
        cases y <;> first | exact hstage | exact Stage.noConfusion | exact absurd trivial hlooks
    · exact Or.inr hparks

theorem Proper.shading_of_stored
    (hm : m.Proper)
    (hy : m.Allows y)
    (hmark : m.heap.phase.isMarking = true)
    (hstage : m.stage ≠ .resurrected)
    (hx : m.heap.arena.Object x k)
    (hst : x ∈ m.stored y) :
    (m.apply y).Shading x k := by
  have hin : m.heap.arena.contains x = true := Arena.contains_of_cell? hx.1
  have hwrites : ¬ y.FreesEagerly ∧ ¬ y.Looks ∧ y ≠ .enterSweep ∧ ¬ y.Does (.reclaim x) ∧
      m.stageAfter y = m.stage := by
    cases y <;>
      simp [stored, Move.FreesEagerly, Move.Looks, Move.Does, stageAfter] at hst ⊢
  obtain ⟨hfrees, hlooks, henter, hreclaim, hsame⟩ := hwrites
  rcases hm.stays hy hx hreclaim with ⟨hd, hobj⟩ | hparks
  · refine ⟨hm.isMarking_apply hy henter hmark, hd, hobj, Or.inr ⟨?_, ?_⟩⟩
    · rw [← Array.mem_toList_iff, hm.toList_barrier_apply hy hlooks]
      refine List.mem_append_right _ (List.mem_filter.2 ⟨hst, ?_⟩)
      rw [hin, hmark]
      rfl
    · change m.stageAfter y ≠ .resurrected
      rw [hsame]
      exact hstage
  · exact absurd hparks.1 hfrees

theorem Legal.shading
    (hl : Legal P m ys)
    (hP : ∀ m y, P m y → m.SweepsInPhase y)
    (hm : m.Proper)
    (henter : .enterSweep ∉ ys)
    (hx : m.Shading x k) :
    (m.run ys).Shading x k ∨ m.ParksIn ys x := by
  induction ys generalizing m with
  | nil => exact Or.inl hx
  | cons y ys ih =>
      have hne : y ≠ .enterSweep := fun e => henter (e ▸ List.mem_cons_self ..)
      have hrest : Move.enterSweep ∉ ys := fun h => henter (List.mem_cons_of_mem _ h)
      rcases hm.shading hl.1 (hP m y hl.2.1) hne hx with hx | hparks
      · exact (ih hl.2.2 (hm.apply hl.1) hrest hx).imp_right ParksIn.cons
      · exact Or.inr ⟨[], y, ys, rfl, hparks⟩

/-- From the queueing of finalizers to the sweeping phase an object keeps its color. -/
theorem Proper.keepsColor
    (hm : m.Proper)
    (hy : m.Allows y)
    (henter : y ≠ .enterSweep)
    (hstage : m.stage = .resurrected)
    (hx : m.heap.arena.Object x k) :
    (m.apply y).stage = .resurrected ∧
      ((∃ hd, (m.apply y).heap.arena.Object x { k with header := hd } ∧
        hd.color = k.header.color) ∨ m.Parks y x) := by
  have hquiet : m.stageAfter y = .resurrected ∧ ¬ y.Does (.reclaim x) ∧ ¬ y.Does .paint ∧
      ¬ y.Does .begin := by
    cases y <;> simp [Machine.Allows, stageAfter, Move.Does, hstage] at hy henter ⊢
  obtain ⟨hsame, hreclaim, hpaint, hbegin⟩ := hquiet
  refine ⟨hsame, ?_⟩
  by_cases hfrees : y.FreesEagerly
  · exact (hm.stays_or_parks hfrees hx).imp_left fun hcell => ⟨k.header, ⟨hcell, hx.2⟩, rfl⟩
  · exact Or.inl ((hm.steps hy).keepsColor hm.sound hx (not_does_park hfrees x) hreclaim hpaint
      hbegin)

theorem Legal.keepsColor
    (hl : Legal P m ys)
    (hm : m.Proper)
    (henter : .enterSweep ∉ ys)
    (hstage : m.stage = .resurrected)
    (hx : m.heap.arena.Object x k) :
    (∃ hd, (m.run ys).heap.arena.Object x { k with header := hd } ∧
      hd.color = k.header.color) ∨ m.ParksIn ys x := by
  induction ys generalizing m k with
  | nil => exact Or.inl ⟨k.header, hx, rfl⟩
  | cons y ys ih =>
      have hne : y ≠ .enterSweep := fun e => henter (e ▸ List.mem_cons_self ..)
      have hrest : Move.enterSweep ∉ ys := fun h => henter (List.mem_cons_of_mem _ h)
      obtain ⟨hstage', ⟨hd, hobj, hcol⟩ | hparks⟩ := hm.keepsColor hl.1 hne hstage hx
      · rcases ih hl.2.2 (hm.apply hl.1) hrest hstage' hobj with ⟨hd', hobj', hcol'⟩ | hparks
        · exact Or.inl ⟨hd', hobj', hcol'.trans hcol⟩
        · exact Or.inr hparks.cons
      · exact Or.inr ⟨[], y, ys, rfl, hparks⟩

/-- The sweeping phase is entered from the stage in which finalizers were queued. -/
theorem Legal.color_at_sweep
    {mid after : List Move}
    (hl : Legal P m (y :: (mid ++ .enterSweep :: after)))
    (hP : ∀ m y, P m y → m.SweepsInPhase y)
    (hm : m.Proper)
    (henter : .enterSweep ∉ mid)
    (hmark : m.heap.phase.isMarking = true)
    (hx : m.heap.arena.Object x k)
    (hst : x ∈ m.stored y) :
    m.ParksIn (y :: mid) x ∨
      ∃ hd, (m.run (y :: (mid ++ [.enterSweep]))).heap.arena.Object x { k with header := hd } ∧
        if m.stage = .resurrected then hd.color = k.header.color else hd.color ≠ .white := by
  have hmid := (legal_append.1 (show Legal P m ((y :: mid) ++ .enterSweep :: after) from hl)).1
  have hlast := (legal_append.1 (show Legal P m ((y :: mid) ++ .enterSweep :: after) from hl)).2.1
  rw [show y :: (mid ++ [Move.enterSweep]) = (y :: mid) ++ [.enterSweep] from rfl, run_append]
  -- The change of the phase changes no cell.
  change _ ∨ ∃ hd, (m.run (y :: mid)).heap.arena.Object x { k with header := hd } ∧ _
  split
  · next hstage =>
      have hne : y ≠ .enterSweep := by
        rintro rfl
        cases hst
      have hall : Move.enterSweep ∉ y :: mid := fun h =>
        (List.mem_cons.1 h).elim (fun e => hne e.symm) henter
      exact (hmid.keepsColor hm hall hstage hx).symm
  · next hstage =>
      have hshading := hm.shading_of_stored hl.1 hmark hstage hx hst
      rcases hmid.2.2.shading hP (hm.apply hl.1) henter hshading with
        ⟨-, hd, hobj, hcol⟩ | hparks
      · exact Or.inr ⟨hd, hobj, hcol.resolve_right fun h => h.2 hlast⟩
      · exact Or.inl hparks.cons

/-- What becomes of the object at an address that a move stores, if the sweeping phase begins after
the moves `mid` and the moves `after` follow. If finalizers were not queued yet, the object is
reached when the phase begins, and it stays until the next cycle; otherwise the store does not change
its color. Objects that are freed eagerly are excepted. -/
def StoreShades (m : Machine) (y : Move) (mid after : List Move) (x : Nat) (k : Cell) : Prop :=
  m.ParksIn (y :: mid) x ∨
    ∃ hd, (m.run (y :: (mid ++ [.enterSweep]))).heap.arena.Object x { k with header := hd } ∧
      (if m.stage = .resurrected then hd.color = k.header.color else hd.color ≠ .white) ∧
      (hd.color ≠ .white → .begin ∉ after →
        (∃ hd, (m.run (y :: (mid ++ .enterSweep :: after))).heap.arena.Object x
          { k with header := hd }) ∨
        (m.run (y :: (mid ++ [.enterSweep]))).ParksIn after x)

/-- The write barrier across the boundary of marking and sweeping. Outside of the marking phases the
buffer holds exactly the late stores, and every store in a marking phase but a late one shades its
object. -/
theorem stored_object_shaded
    (hc : Heap.create memory c = .ok h)
    (hl : Legal P (start h) ys)
    (hP : ∀ m y, P m y → m.SweepsInPhase y) :
    (((start h).run ys).heap.phase.isMarking = false →
      ((start h).run ys).heap.barrier.toList = lateStores (start h) ys []) ∧
    ∀ before y mid after x k, ys = before ++ y :: (mid ++ .enterSweep :: after) →
      .enterSweep ∉ mid →
      ((start h).run before).heap.phase.isMarking = true →
      ((start h).run before).heap.arena.Object x k →
      x ∈ ((start h).run before).stored y →
      ((start h).run before).StoreShades y mid after x k := by
  have hm := proper_start hc
  refine ⟨fun hphase => ?_, ?_⟩
  · have hempty : (start h).HoldsLate [] := fun _ => by
      rw [(create_eq_ok hc).2]
      rfl
    exact hl.holdsLate hm hempty (Or.inl hphase)
  · rintro before y mid after x k rfl henter hmark hx hst
    obtain ⟨hbefore, hrest⟩ := legal_append.1 hl
    have hm' := hbefore.proper hm
    rcases hrest.color_at_sweep hP hm' henter hmark hx hst with hparks | ⟨hd, hobj, hcol⟩
    · exact Or.inl hparks
    · refine Or.inr ⟨hd, hobj, hcol, fun hw hbegin => ?_⟩
      have hsplit : y :: (mid ++ .enterSweep :: after) =
          (y :: (mid ++ [.enterSweep])) ++ after := by simp
      rw [hsplit] at hrest ⊢
      obtain ⟨hsweep, hafter⟩ := legal_append.1 hrest
      rw [run_append]
      exact (hafter.stays_reached (hsweep.proper hm') hbegin hobj hw).imp_left
        fun ⟨hd', hobj', _⟩ => ⟨hd', hobj'⟩

/-- Four objects, of which the last one has a finalizer. A cycle is begun with the first one. -/
def finalizedBuffers : List Move :=
  [.attachCollector, .carveRun 1 .scan, .carveRun 1 .noScan, .carveRun 1 .noScan,
    .carveRun 1 .noScan, .attach (Arena.blockBase 3) .finalizer, .begin,
    .shadeRoots [Arena.blockBase 0], .markStep 1]

/-- Marking is finished, and then the address of the third object is stored. -/
def finishedLate : List Move :=
  [.terminate, .finishMarking [Arena.blockBase 0], .resurrect,
    .write (Arena.blockBase 0) 1 (Arena.blockBase 2)]

/-- All blocks are swept. -/
def sweptWhole : List Move := [.zeroSlots, .startSweep, .sweepStep 4]

/-- The address of the second object is stored before marking is finished, and that of the third one
afterwards. -/
theorem stored_object_shaded_late :
    ((start (.empty fourBlocks)).run (finalizedBuffers ++
        .write (Arena.blockBase 0) 0 (Arena.blockBase 1) ::
          (finishedLate ++ .enterSweep :: sweptWhole))).heap.barrier.toList =
      lateStores (start (.empty fourBlocks)) (finalizedBuffers ++
        .write (Arena.blockBase 0) 0 (Arena.blockBase 1) ::
          (finishedLate ++ .enterSweep :: sweptWhole)) [] ∧
    ((start (.empty fourBlocks)).run finalizedBuffers).StoreShades
      (.write (Arena.blockBase 0) 0 (Arena.blockBase 1)) finishedLate sweptWhole
      (Arena.blockBase 1)
      ⟨1, 0, Arena.blockBase 1, blockSize, .noScan, true, Header.fresh .white⟩ := by
  have hlegal : Legal SweepsInPhase (start (.empty fourBlocks)) (finalizedBuffers ++
      .write (Arena.blockBase 0) 0 (Arena.blockBase 1) ::
        (finishedLate ++ .enterSweep :: sweptWhole)) := by
    decide +kernel
  obtain ⟨hbuffer, hshades⟩ := stored_object_shaded create_fourBlocks hlegal fun _ _ h => h
  refine ⟨hbuffer ?_, hshades _ _ _ _ _ _ rfl ?_ ?_ ⟨?_, rfl⟩ (List.mem_singleton_self _)⟩
  all_goals decide +kernel

/-- A client that stores the address of the third object when it hears that finalizers were
queued. -/
def lateClient : Hooks Unit where
  onEvent e w :=
    match e with
    | .resurrected _ =>
      { w with heap := w.heap.writeWord (Arena.blockBase 0) 1 (Arena.blockBase 2) }
    | _ => w
  onTransition _ _ w := w
  onRecord _ _ := pure ()

/-- The store comes while the collector marks, and it is still remembered when the sweeping phase
has begun. So the sweeper frees an object whose address a live object holds. -/
theorem late_store_swept :
    let m := (start (.empty fourBlocks)).run
      (finalizedBuffers ++ [.terminate, .finishMarking [Arena.blockBase 0]])
    let w := (ExceptT.run (Action.beginSweep lateClient) ⟨m.heap, ()⟩).2
    let swept := (ExceptT.run (Action.sweepStep 4) w).2
    m.heap.phase = .termination ∧ w.heap.phase = .sweep ∧
      w.heap.barrier = #[Arena.blockBase 2] ∧
      w.heap.arena.isAllocated (Arena.blockBase 2) = true ∧
      w.heap.arena.isReached (Arena.blockBase 2) = false ∧
      swept.heap.arena.isReached (Arena.blockBase 0) = true ∧
      swept.heap.readWord (Arena.blockBase 0) 1 = Arena.blockBase 2 ∧
      swept.heap.arena.isAllocated (Arena.blockBase 2) = false := by
  decide +kernel

end Machine

end EagerHeap
