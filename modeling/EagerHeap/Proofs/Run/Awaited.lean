import EagerHeap.Proofs.Run.Dropped
import EagerHeap.Proofs.Run.Reclaimed
/-!
# What finalizers will see

A queued finalizer, and one in a batch that is being run, makes its object a root. The roots are
shaded when marking is finished, and the objects whose finalizers are queued after that are marked
with everything that they reach. So when the sweeping phase is entered nothing is unmarked that such
an object leads to, unless a sweeper that still had blocks to sweep has queued finalizers in between.

Main results: `Proper.rootsMarked`, `Proper.settled` and `awaited_survives`.
-/

namespace EagerHeap

/-- Whether the move is a piece of an operation of the collector. -/
def Move.ofCollector : Move → Bool
  | .begin | .shadeRoots _ | .markStep _ | .terminate | .finishMarking _ | .resurrect | .enterSweep
  | .zeroSlots | .startSweep | .sweepStep _ | .finish | .closeCycle => true
  | _ => false

/-- Whether the move is a step of the sweeper. -/
def Move.sweeps : Move → Bool
  | .sweepStep _ => true
  | _ => false

namespace Heap

variable {h h' : Heap} {l : Act} {x n : Nat} {P : Act → Prop}

/-! ### Roots -/

theorem Tick.roots
    (ht : Tick h l h')
    (hbatch : l ≠ .batch)
    (hfinalize : ∀ x, l ≠ .finalize x)
    (hcleanup : ∀ x, l ≠ .cleanup x) :
    h'.records.roots = h.records.roots := by
  by_cases hrec : l.OfRecords
  · cases ht with
    | attach kind hx =>
        rw [(attachRecord_eq kind hx).2]
        rfl
    | finalize x => exact absurd rfl (hfinalize x)
    | @cleanup x => exact absurd rfl (hcleanup x)
    | batch => exact absurd rfl hbatch
    | _ => cases hrec
  · rw [ht.records hrec]

theorem Steps.roots
    (hsteps : Steps P h h')
    (hbatch : ¬ P .batch)
    (hfinalize : ∀ x, ¬ P (.finalize x))
    (hcleanup : ∀ x, ¬ P (.cleanup x)) :
    h'.records.roots = h.records.roots := by
  induction hsteps with
  | refl => rfl
  | tail _ hlast ih =>
      obtain ⟨l, hl, ht⟩ := hlast
      exact (ht.roots (fun e => hbatch (e ▸ hl)) (fun x e => hfinalize x (e ▸ hl))
        fun x e => hcleanup x (e ▸ hl)).trans ih

/-- Resurrection adds objects with finalizers to the roots. -/
theorem mem_roots_resurrectAll
    (hs : h.Sound)
    (hx : x ∈ h.resurrectAll.2.records.roots) :
    x ∈ h.records.roots ∨ h.records.hasFinalizer x = true := by
  obtain ⟨hpending, hrunning, -, -⟩ :=
    SideRecords.foldl_queueFinalizers (nodup_resurrectable h) h.records
  rw [← (resurrects_resurrectAll hs).records] at hpending hrunning
  unfold SideRecords.roots SideRecords.targets at hx ⊢
  rw [hpending, hrunning, List.map_append, List.filter_append] at hx
  simp only [List.mem_append] at hx ⊢
  rcases hx with (hx | hx) | hx
  · exact Or.inl (Or.inl hx)
  · obtain ⟨p, hp, rfl⟩ := List.mem_map.1 (List.mem_filter.1 hx).1
    obtain ⟨z, hz, hp⟩ := List.mem_flatMap.1 hp
    obtain ⟨r, -, rfl⟩ := List.mem_map.1 hp
    exact Or.inr (mem_resurrectable.1 hz).1
  · exact Or.inl (Or.inr hx)

/-- A sweeper that has no blocks to sweep does nothing to the records. -/
theorem records_sweepStep
    (hdone : h.hasUnswept = false) :
    (h.sweepStep n).records = h.records := by
  unfold sweepStep
  split
  · rfl
  · next k hk =>
      unfold hasUnswept at hdone
      rw [hk] at hdone
      have hle : k.sweepLimit - k.sweepNext = 0 := by
        simpa [Nat.sub_eq_zero_iff_le] using hdone
      rw [hle, Nat.min_zero]
      rfl

end Heap

namespace Machine

variable {m : Machine} {y : Move} {ys : List Move} {x : Nat} {memory : Nat} {c : Config} {h : Heap}

open Heap

/-- A finalizer of the object at an address is queued, or belongs to a batch that is being run or has
failed. -/
def Awaited (m : Machine) (x : Nat) : Prop :=
  ∃ r : SideRecord, r.isFinalizer = true ∧
    (⟨x, r⟩ ∈ m.heap.records.pending ∨ ∃ b ∈ m.batches ++ m.broken, ⟨x, r⟩ ∈ b.records)

/-- Nobody else acts inside of an operation of the collector. -/
def BetweenCalls (m : Machine) (y : Move) : Prop := y.ofCollector = true ∨ m.stage = .resting

instance decidableBetweenCalls (m : Machine) (y : Move) : Decidable (m.BetweenCalls y) :=
  inferInstanceAs (Decidable (_ ∨ _))

/-- No block is swept between the end of marking and the sweeping phase. -/
def SweepsLater (m : Machine) (y : Move) : Prop :=
  y.sweeps = true → m.heap.phase = .termination → m.heap.hasUnswept = false

instance decidableSweepsLater (m : Machine) (y : Move) : Decidable (m.SweepsLater y) :=
  inferInstanceAs (Decidable (_ → _ → _))

/-- The roots are marked from the end of marking on until the sweeping phase is entered. -/
def RootsMarked (m : Machine) : Prop :=
  m.heap.phase = .termination → m.stage ≠ .finishing →
    ∀ x ∈ m.heap.records.roots, ∀ c, m.heap.arena.Object x c → c.header.color ≠ .white

/-- After the resurrection everything is marked that marked objects lead to. -/
def Settled (m : Machine) : Prop :=
  m.stage = .resurrected → m.heap.arena.Tricolor [] fun _ => False

/-- The object of an awaited finalizer is a root. -/
theorem Batched.mem_roots_of_awaited
    (hb : m.Batched)
    (hne : x ≠ 0)
    (hx : m.Awaited x) :
    x ∈ m.heap.records.roots := by
  obtain ⟨r, -, hp | ⟨b, hmem, hr⟩⟩ := hx
  · exact List.mem_append_left _ (SideRecords.mem_targets hne hp)
  · refine List.mem_append_right _ (hb.running.mem_iff.2 ?_)
    exact List.mem_flatMap.2 ⟨b, hmem, SideRecords.mem_targets hne hr⟩

/-- Resurrection and the sweeper apart, no move makes an object a root. -/
theorem Proper.mem_roots_of
    (hm : m.Proper)
    (hb : m.Batched)
    (hy : m.Allows y)
    (hresurrect : y ≠ .resurrect)
    (hsweep : ∀ n, y ≠ .sweepStep n)
    (hx : x ∈ (m.apply y).heap.records.roots) :
    x ∈ m.heap.records.roots := by
  have hrest : ¬ y.Does .batch → x ∈ m.heap.records.roots := by
    intro hbatch
    rwa [(hm.steps hy).roots hbatch (not_does_finalize hresurrect hsweep)
      fun x => (not_does_cleanup hsweep x).1] at hx
  cases y with
  | startBatch =>
      have hroots : (m.apply .startBatch).heap.records.roots =
          m.heap.records.running ++ SideRecords.targets m.heap.records.pending := rfl
      rw [hroots] at hx
      exact List.mem_append.2 (List.mem_append.1 hx).symm
  | endBatch =>
      have hrunning := (hm.batched hy hb).running
      obtain ⟨b, rest, hbs, -⟩ := hy
      rw [apply_endBatch hbs] at hrunning hx
      rcases List.mem_append.1 hx with hx | hx
      · exact List.mem_append_left _ hx
      · refine List.mem_append_right _ (hb.running.mem_iff.2 ?_)
        have hmem := hrunning.mem_iff.1 hx
        rw [hbs, List.cons_append, List.flatMap_cons]
        exact List.mem_append_right _ hmem
  | _ => exact hrest (not_does_batch (by simp) (by simp))

/-! ### The roots stay marked -/

theorem rootsMarked_start (hc : Heap.create memory c = .ok h) : (start h).RootsMarked := by
  obtain ⟨-, rfl⟩ := Heap.create_eq_ok hc
  intro hphase
  cases hphase

theorem settled_start (h : Heap) : (start h).Settled := by
  intro hstage
  cases hstage

/-- The roots are marked after the resurrection, too. -/
theorem Proper.rootsMarked_resurrect
    (hm : m.Proper)
    (hy : m.Allows .resurrect)
    (hr : m.RootsMarked) :
    (m.apply .resurrect).RootsMarked := by
  intro _ _ x hx d hd
  have hc := hm.isSome_collector (Or.inr (by rw [hy.2]; exact Phase.noConfusion))
  have hmarked := (markAll_steps m.heap).sound hm.sound
  have hrecords := records_markAll m.heap
  rcases mem_roots_resurrectAll hmarked hx with hroot | hf
  · rw [hrecords] at hroot
    refine (hm.steps hy).not_white hm.sound ?_ (by simp [Move.Does]) (by simp [Move.Does])
      (hr hy.2 ?_ x hroot) d hd
    · rw [hy.2]
      rfl
    · rw [hy.1]
      exact Stage.noConfusion
  · obtain ⟨r, hattached, hfin⟩ := List.any_eq_true.1 hf
    have hreached := reached_resurrectAll hmarked ((isSome_collector_markAll _).trans hc) hfin
      (hmarked.isAllocated_of_hasFinalizer hf) hattached
    obtain ⟨e, he, hst, hne⟩ := Arena.isReached_iff.1 hreached
    exact hd.unique ⟨he, hst⟩ ▸ hne

/-- Every move keeps the roots marked until the sweeping phase is entered. -/
theorem Proper.rootsMarked
    (hm : m.Proper)
    (hb : m.Batched)
    (hy : m.Allows y)
    (hs : m.SweepsLater y)
    (hr : m.RootsMarked) :
    (m.apply y).RootsMarked := by
  have hphase : (¬ y.Does .begin) → (¬ y.Does .turn) →
      (m.apply y).heap.phase = m.heap.phase := (hm.steps hy).phase
  have hkept : (¬ y.Does .begin) → (¬ y.Does .turn) →
      ((m.apply y).stage ≠ .finishing → m.stage ≠ .finishing) →
      (m.heap.phase = .termination → ∀ x ∈ (m.apply y).heap.records.roots,
        x ∈ m.heap.records.roots) → (m.apply y).RootsMarked := by
    intro hbegin hturn hstage hroots ht hne x hx
    rw [hphase hbegin hturn] at ht
    refine (hm.steps hy).not_white hm.sound ?_ hbegin hturn (hr ht (hstage hne) x (hroots ht x hx))
    rw [ht]
    rfl
  have hsame : y ≠ .resurrect → (∀ n, y ≠ .sweepStep n) →
      m.heap.phase = .termination → ∀ x ∈ (m.apply y).heap.records.roots,
        x ∈ m.heap.records.roots := fun hresurrect hsweep _ x =>
    hm.mem_roots_of hb hy hresurrect hsweep
  cases y with
  | begin =>
      intro ht
      rw [show (m.apply .begin).heap.phase = .mark from congrArg Phase.next hy.2.1] at ht
      cases ht
  | terminate => exact fun _ hne => absurd rfl hne
  | enterSweep =>
      have hphase : m.heap.phase = .termination := hm.fits (s := .resurrected) hy
      intro ht
      cases (congrArg Phase.next hphase).symm.trans ht
  | finish =>
      intro ht
      rw [show (m.apply .finish).heap.phase = .idle from congrArg Phase.next hy.2] at ht
      cases ht
  | shadeRoots roots =>
      refine hkept (by simp [Move.Does]) (by simp [Move.Does]) (fun _ => ?_)
        (hsame (by simp) (by simp))
      rw [show m.stage = .beginning from hy]
      exact Stage.noConfusion
  | finishMarking roots =>
      intro _ _ x hx d hd
      have hroot := hm.mem_roots_of hb hy (by simp) (by simp) hx
      have hpainted := (painted_shadeRoots m.heap roots).trans (painted_markAll _)
      have hal := (hpainted.recolored.isAllocated x).symm.trans hd.isAllocated
      obtain ⟨e, he⟩ := Arena.exists_object hal
      obtain ⟨d', hd', hst, hne⟩ := Arena.isReached_iff.1 (hm.reached_finishMarking hy he hroot)
      exact hd.unique ⟨hd', hst⟩ ▸ hne
  | resurrect => exact hm.rootsMarked_resurrect hy hr
  | startSweep =>
      refine hkept (by simp [Move.Does]) (by simp [Move.Does]) (fun _ => ?_)
        (hsame (by simp) (by simp))
      rw [show m.stage = .entering from hy]
      exact Stage.noConfusion
  | sweepStep n =>
      refine hkept (by simp [Move.Does]) (by simp [Move.Does]) id fun ht x hx => ?_
      have hrecords : (m.apply (.sweepStep n)).heap.records = m.heap.records :=
        records_sweepStep (hs rfl ht)
      rwa [hrecords] at hx
  | closeCycle =>
      refine hkept (by simp [Move.Does]) (by simp [Move.Does]) (fun _ => ?_)
        (hsame (by simp) (by simp))
      rw [show m.stage = .closing from hy]
      exact Stage.noConfusion
  | _ =>
      exact hkept (by simp [Move.Does]) (by simp [Move.Does]) id (hsame (by simp) (by simp))

/-- Nothing happens between the resurrection and the sweeping phase. -/
theorem Proper.settled
    (hm : m.Proper)
    (hy : m.Allows y)
    (hbetween : m.BetweenCalls y)
    (ht : m.Marks) :
    (m.apply y).Settled := by
  intro hstage
  by_cases hresurrect : y = .resurrect
  · subst hresurrect
    have hmark : m.heap.phase.isMarking = true := by
      rw [hy.2]
      rfl
    have hc := hm.isSome_collector (Or.inr (by rw [hy.2]; exact Phase.noConfusion))
    exact resurrected_tricolor hm.sound hc hmark (ht hmark)
  · have hresurrected : m.stageAfter y = .resurrected := hstage
    rcases hbetween with hcol | hrest
    · cases y <;> simp_all [stageAfter, Move.ofCollector, Allows]
    · cases y <;> simp_all [stageAfter]

/-! ### Runs -/

/-- What the client guarantees: nobody acts inside of an operation of the collector, whole words are
copied, and no block is swept between the end of marking and the sweeping phase. -/
def Ordered (m : Machine) (y : Move) : Prop :=
  m.BetweenCalls y ∧ m.WholeWords y ∧ m.SweepsLater y

instance decidableOrdered (m : Machine) (y : Move) : Decidable (m.Ordered y) :=
  inferInstanceAs (Decidable (_ ∧ _ ∧ _))

theorem Legal.ordered
    (hc : Heap.create memory c = .ok h)
    (hl : Legal Ordered (start h) ys) :
    ((start h).run ys).Proper ∧ ((start h).run ys).Batched ∧ ((start h).run ys).Marks ∧
      ((start h).run ys).RootsMarked ∧ ((start h).run ys).Settled := by
  refine hl.preserves
    (R := fun m => m.Proper ∧ m.Batched ∧ m.Marks ∧ m.RootsMarked ∧ m.Settled)
    ⟨proper_start hc, batched_start hc, marks_start hc, rootsMarked_start hc, settled_start h⟩ ?_
  rintro m y ⟨hm, hb, ht, hr, -⟩ hy ⟨hbetween, hwords, hlater⟩
  exact ⟨hm.apply hy, hm.batched hy hb, hm.marks hy hwords ht, hm.rootsMarked hb hy hlater hr,
    hm.settled hy hbetween ht⟩

/-- Whatever the object of an awaited finalizer leads to is marked when the sweeping phase is
entered. -/
theorem reached_enterSweep
    (hm : m.Proper)
    (hb : m.Batched)
    (hr : m.RootsMarked)
    (hsettled : m.Settled)
    (hy : m.Allows .enterSweep)
    (hx : (m.apply .enterSweep).heap.arena.Reachable (m.apply .enterSweep).Awaited x) :
    ∃ c, (m.apply .enterSweep).heap.arena.Object x c ∧ c.header.color ≠ .white := by
  have hstage : m.stage = .resurrected := hy
  have hphase : m.heap.phase = .termination := hm.fits hstage
  have hroots : ∀ z, m.Awaited z → ∀ c, m.heap.arena.Object z c → c.header.color ≠ .white := by
    intro z hz d hd
    have hne := Arena.ne_zero_of_contains (Arena.contains_of_cell? hd.1)
    refine hr hphase ?_ z (hb.mem_roots_of_awaited hne hz) d hd
    rw [hstage]
    exact Stage.noConfusion
  -- The change of phase does not concern objects, records and batches.
  have hreach : m.heap.arena.Reachable m.Awaited x := hx
  obtain ⟨d, hd⟩ := Arena.exists_object hreach.isAllocated
  exact ⟨d, hd, (hsettled hstage).reached hroots hreach d hd⟩

/-- A finalizer does not see a referent that was reclaimed. Whenever the sweeping phase is entered in
an orderly run, every object is marked that the object of a queued or running finalizer leads to; and
until the next cycle begins it stays, unless it is freed eagerly. -/
theorem awaited_survives
    {before after : List Move}
    (hc : Heap.create memory c = .ok h)
    (hl : Legal Ordered (start h) (before ++ y :: after))
    (hne : ((start h).run before).heap.phase ≠ .sweep)
    (hsweep : ((start h).run (before ++ [y])).heap.phase = .sweep)
    (hx : ((start h).run (before ++ [y])).heap.arena.Reachable
      ((start h).run (before ++ [y])).Awaited x) :
    ∃ k, ((start h).run (before ++ [y])).heap.arena.Object x k ∧ k.header.color ≠ .white ∧
      ∀ zs, zs <+: after → .begin ∉ zs →
        (∃ hd, ((start h).run (before ++ y :: zs)).heap.arena.Object x { k with header := hd }) ∨
          ((start h).run (before ++ [y])).ParksIn zs x := by
  obtain ⟨hbefore, hy, -, hafter⟩ := legal_append.1 hl
  obtain ⟨hm, hb, -, hr, hsettled⟩ := hbefore.ordered hc
  simp only [run_append, run_cons, run_nil] at hsweep hx ⊢
  generalize (start h).run before = m at *
  have henter : y = .enterSweep := by
    by_contra hother
    exact hm.phase_ne_sweep hy hother hne hsweep
  subst henter
  obtain ⟨k, hk, hcol⟩ := reached_enterSweep hm hb hr hsettled hy hx
  refine ⟨k, hk, hcol, fun zs hzs hbegin => ?_⟩
  obtain ⟨rest, rfl⟩ := hzs
  have hlegal := (legal_append.1 hafter).1
  rcases hlegal.stays_reached (hm.apply hy) hbegin hk hcol with ⟨hd, hobj, -⟩ | hparks
  · exact Or.inl ⟨hd, hobj⟩
  · exact Or.inr hparks

/-- An object with a finalizer holds the address of another one, and nothing else does. A cycle queues
the finalizer and another one begins while its batch is being run. -/
def runningFinalizer : List Move :=
  [.addWorker, .carveBlock quarterBlock, .setCursor 0 quarterBlock 0, .claim 0 quarterBlock,
    .claim 0 quarterBlock, .write Arena.start 3 (Arena.start + 4096),
    .attach Arena.start .finalizer, .attachCollector] ++ emptyCycle ++
      [.startBatch, .begin, .shadeRoots [], .terminate, .finishMarking [], .resurrect]

theorem awaited_survives_running :
    let after : List Move := [.zeroSlots, .startSweep, .sweepStep 1, .fire, .finish, .closeCycle]
    let m := (start (.empty fourBlocks)).run (runningFinalizer ++ [.enterSweep])
    ∃ k, m.heap.arena.Object (Arena.start + 4096) k ∧ k.header.color ≠ .white ∧
      ∀ zs, zs <+: after → .begin ∉ zs →
        (∃ hd, ((start (.empty fourBlocks)).run
            (runningFinalizer ++ .enterSweep :: zs)).heap.arena.Object (Arena.start + 4096)
              { k with header := hd }) ∨
          m.ParksIn zs (Arena.start + 4096) := by
  intro after m
  have hlegal : Legal Ordered (start (.empty fourBlocks))
      (runningFinalizer ++ .enterSweep :: after) := by
    decide +kernel
  have hstate : ((start (.empty fourBlocks)).run runningFinalizer).heap.phase ≠ .sweep ∧
      m.heap.phase = .sweep ∧
      (∃ b ∈ m.batches ++ m.broken, ⟨Arena.start, ⟨0, .finalizer⟩⟩ ∈ b.records) ∧
      m.heap.arena.isAllocated (Arena.start + 4096) = true ∧
      ∃ c, m.heap.arena.cell? Arena.start = some c ∧ c.header.state = .allocated ∧
        c.shape = .scan ∧ 3 < c.size / Word.bytes ∧
        m.heap.arena.read (Arena.start + 3 * Word.bytes) = Arena.start + 4096 := by
    decide +kernel
  obtain ⟨hne, hsweep, hbatch, hal, c, hc, hst, hscan, hi, hword⟩ := hstate
  have ho : m.heap.arena.Object Arena.start c := ⟨hc, hst⟩
  refine awaited_survives create_fourBlocks hlegal hne hsweep (.word (.root ho.isAllocated ?_) ?_ hal)
  · exact ⟨⟨0, .finalizer⟩, rfl, Or.inr hbatch⟩
  · exact ⟨c, ho, hscan, 3, hi, hword⟩

/-- A cycle ends before it has swept its only block. In the next one the sweeper comes to that block
after marking was finished and queues a finalizer, whose object is not marked any more: it is freed,
and the finalizer is about to run with its address. -/
theorem awaited_object_swept :
    let before : List Move :=
      [.addWorker, .carveBlock quarterBlock, .setCursor 0 quarterBlock 0, .claim 0 quarterBlock,
        .attachCollector, .begin, .shadeRoots [], .terminate, .finishMarking [], .resurrect,
        .enterSweep, .zeroSlots, .startSweep, .finish, .closeCycle, .attach Arena.start .finalizer,
        .begin, .shadeRoots [], .terminate, .finishMarking [], .sweepStep 100, .resurrect]
    let m := (start (.empty fourBlocks)).run (before ++ [.enterSweep])
    let m' := m.run [.zeroSlots, .startSweep, .sweepStep 100]
    Legal (fun m y => m.BetweenCalls y ∧ m.WholeWords y) (start (.empty fourBlocks))
        (before ++ [.enterSweep, .zeroSlots, .startSweep, .sweepStep 100, .startBatch]) ∧
      ((start (.empty fourBlocks)).run before).heap.phase ≠ .sweep ∧ m.heap.phase = .sweep ∧
      ⟨Arena.start, ⟨0, .finalizer⟩⟩ ∈ m.heap.records.pending ∧
      m.heap.arena.isAllocated Arena.start = true ∧ m.heap.arena.isReached Arena.start = false ∧
      m'.heap.arena.isVacant Arena.start = true ∧
      (m'.apply .startBatch).firing = some ⟨Arena.start, ⟨0, .finalizer⟩⟩ := by
  decide +kernel

end Machine

end EagerHeap
