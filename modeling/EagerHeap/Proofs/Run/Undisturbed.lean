import EagerHeap.Proofs.Cycle.Collected
import EagerHeap.Proofs.Heap.Blanks
import EagerHeap.Proofs.Heap.Disposable
import EagerHeap.Proofs.Run.Consulted
import EagerHeap.Proofs.Run.Outstanding
/-!
# Scopes that are left alone

If nothing but its scope and the collector frees a tracked object, and no side record is attached to
it, then its slot is zeroed before the object is gone, and as long as the slot is not zeroed the
object can be freed. So a scope frees as many objects as it has recorded and the collector has not
come upon.

Main results: `Undisturbed.apply`, `Undisturbed.drain` and `Undisturbed.declinedIn_eq_nil`.
-/

namespace EagerHeap

namespace Machine

/-- No side record is attached to an object when it is recorded or while it is tracked. What is
recorded is small, as is everything that is allocated in a scope. -/
def KeepsBare (m : Machine) : Move → Prop
  | .attach x _ => x ∉ m.heap.tracked
  | .recordTracked _ x t =>
    m.heap.lastSweep ≤ t → m.heap.records.attached.find? x = none ∧
      ∃ c, m.heap.arena.cell? x = some c ∧ c.isLarge = false
  | _ => True

instance decidableKeepsBare (m : Machine) : (y : Move) → Decidable (m.KeepsBare y)
  | .attach x _ => inferInstanceAs (Decidable (x ∉ m.heap.tracked))
  | .recordTracked _ x t =>
    inferInstanceAs (Decidable (m.heap.lastSweep ≤ t → m.heap.records.attached.find? x = none ∧
      ∃ c, m.heap.arena.cell? x = some c ∧ c.isLarge = false))
  | .addWorker | .flushWorker _ | .retireWorker _ | .count .. | .reuse .. | .claim .. | .takePartial _
  | .carveBlock _ | .setCursor .. | .carveRun .. | .free .. | .write .. | .copy .. | .startBatch | .fire
  | .endBatch | .breakBatch | .makeRegistry _ | .dropRegistry _ | .enterScope .. | .drainScope _
  | .leakScope _ | .observe | .attachCollector | .detachCollector | .begin | .shadeRoots _
  | .markStep _ | .terminate | .finishMarking _ | .resurrect | .enterSweep | .zeroSlots | .startSweep
  | .sweepStep _ | .finish | .closeCycle => .isTrue trivial

/-- What the users of scopes keep to, and that tracked objects have no side records. -/
def Reserves (m : Machine) (l : Ledger) (y : Move) : Prop := m.Permits l y ∧ m.KeepsBare y

instance decidableReserves (m : Machine) (l : Ledger) (y : Move) : Decidable (m.Reserves l y) :=
  inferInstanceAs (Decidable (m.Permits l y ∧ m.KeepsBare y))

/-- Tracked objects are left to their scopes and to the collector in every move of the run. -/
def Reserved (m : Machine) (ys : List Move) : Prop := Along Reserves Ledger.after m {} ys

instance decidableReserved (m : Machine) (ys : List Move) : Decidable (m.Reserved ys) :=
  decidableAlong Reserves Ledger.after m {} ys

/-- The number of slots of a scope that a move of the collector zeroes. -/
def zeroedAt (m : Machine) (k : Nat) : Move → Nat
  | .zeroSlots => m.heap.doomedSlots k
  | _ => 0

/-- The number of slots of a scope that the collector zeroes in a run. -/
def zeroedIn : Machine → Nat → List Move → Nat
  | _, _, [] => 0
  | m, k, y :: ys => m.zeroedAt k y + zeroedIn (m.apply y) k ys

variable {m : Machine} {l : Ledger} {y : Move} {ys : List Move} {n : Nat → Nat} {k i x : Nat}
  {s : Scope} {memory : Nat} {c : Config} {h : Heap}

open Heap

/-- The invariant of scopes that are left alone. Every tracked object can be freed, and the slots
that an open scope uses are blank as often as the collector has zeroed one. -/
structure Undisturbed (m : Machine) (l : Ledger) (n : Nat → Nat) : Prop where
  tracking : m.Tracking l
  roomy : m.heap.Roomy
  disposable : ∀ k i x, m.heap.Tracks k i x → m.heap.Disposable x
  blank : m.heap.Blank n
  young : ∀ k, m.heap.post? k = none → n k = 0

/-! ### One move -/

/-- What is tracked after a move can be freed. -/
theorem Undisturbed.disposable_apply
    (hm : m.Undisturbed l n)
    (hy : m.Allows y)
    (hr : m.Reserves l y)
    (halive : (m.apply y).heap.arena.isAllocated x = true)
    (hx : (m.apply y).heap.Tracks k i x) :
    (m.apply y).heap.Disposable x := by
  have hproper := hm.tracking.proper
  have hsteps := hproper.steps hy
  rcases hr.1.tracks hm.tracking.scopes hx with hold | ⟨s, t, rfl, ht, -⟩
  · refine (hm.disposable k i x hold).of_steps hproper.sound hsteps (fun kind hdoes => ?_) halive
    cases y with
    | attach z _ =>
        obtain ⟨rfl, -⟩ := Act.attach.inj hdoes
        exact hr.2 hold.mem_tracked
    | _ => simp [Move.Does] at hdoes
  · obtain ⟨hbare, d, hd, hsmall⟩ := hr.2 ht
    have hwaiting := hm.tracking.waiting_of_record hr.1 ht
    have hbefore : m.heap.Disposable x :=
      ⟨hwaiting.alive, exists_span hproper.sound.layout hd hsmall, hbare⟩
    exact hbefore.of_steps hproper.sound hsteps (by simp [Move.Does]) halive

/-- Only the collector empties slots that an open scope uses. -/
theorem Undisturbed.blank_apply
    (hm : m.Undisturbed l n)
    (hp : m.Permits l y) :
    (m.apply y).heap.Blank fun k => n k + m.zeroedAt k y := by
  have hb := hm.blank
  have hscopes := hm.tracking.scopes
  by_cases hof : y.OfScopes
  · cases y with
    | retireWorker id =>
        refine apply_retireWorker (R := fun g => g.Blank n) hb fun g hr => ?_
        rcases retireWorker_cases hr with rfl | ⟨retired, rfl⟩ <;> exact hb
    | makeRegistry r =>
        exact hb.shrink (fun _ _ hs => hs) fun _ s i _ => addrAt_makeRegistry m.heap r s.registry i
    | dropRegistry r => exact hb.dropRegistry r
    | enterScope id r =>
        obtain ⟨hid, hr, -⟩ := hp
        refine hb.enterScope hid hr (hm.young _ ?_)
        rw [post?, Array.getElem?_eq_none (Nat.le_refl _)]
        rfl
    | recordTracked k x t =>
        obtain ⟨s, hs⟩ := hp.1
        refine hb.recordTracked hscopes hs fun ht => ?_
        obtain ⟨d, hd, -⟩ := Arena.isAllocated_iff.1 (hm.tracking.waiting_of_record hp ht).alive
        have hstart := Arena.start_le_of_contains (Arena.cell?_eq_some_iff.1 hd).1
        exact Nat.ne_of_gt (Nat.lt_of_lt_of_le (by decide) hstart)
    | drainScope k =>
        obtain ⟨s, hs⟩ := hp
        exact hb.drainScope hscopes hs
    | leakScope k =>
        exact hb.shrink (fun _ _ hs => (open_ended (fun _ => ScopeStatus.noConfusion) hs).1)
          fun _ _ _ _ => rfl
    | zeroSlots => exact hb.invalidateSlots
    | addWorker | begin | terminate | enterSweep | finish => exact hb
    | _ => cases hof
  · have hzero : ∀ k, m.zeroedAt k y = 0 := by
      intro k
      cases y with
      | zeroSlots => exact absurd trivial hof
      | _ => rfl
    simp only [hzero, Nat.add_zero]
    exact hb.of_holdings (holdings_apply hof)

/-- The collector has zeroed no slot of a scope that is to come. -/
theorem Undisturbed.young_apply
    (hm : m.Undisturbed l n)
    (hk : (m.apply y).heap.post? k = none) :
    n k + m.zeroedAt k y = 0 := by
  have hbefore : m.heap.post? k = none := by
    rw [post?_apply] at hk
    cases y with
    | enterScope =>
        rw [postAfter] at hk
        split at hk
        · cases hk
        · exact hk
    | drainScope | leakScope =>
        rw [postAfter] at hk
        split at hk
        · exact Option.map_eq_none_iff.1 hk
        · exact hk
    | _ => exact hk
  rw [hm.young k hbefore]
  cases y with
  | zeroSlots =>
      rw [zeroedAt, doomedSlots, Option.map_eq_none_iff.1 hbefore]
      rfl
  | _ => rfl

theorem Undisturbed.apply
    (hm : m.Undisturbed l n)
    (hy : m.Allows y)
    (hsweeps : m.SweepsInPhase y)
    (hr : m.Reserves l y) :
    (m.apply y).Undisturbed (l.after m y) fun k => n k + m.zeroedAt k y := by
  have ht := hm.tracking.apply hy hsweeps hr.1
  refine ⟨ht, roomy_apply hm.roomy ?_, fun k i x hx => ?_, hm.blank_apply hr.1,
    fun k hk => hm.young_apply hk⟩
  · rintro k x t rfl
    exact hr.1.1
  · exact hm.disposable_apply hy hr (ht.alive k i x hx) hx

/-- A drain that is repeated is left out of the ledger. -/
theorem Ledger.after_of_repeats
    (hr : m.Repeats y) :
    l.after m y = l := by
  cases y with
  | drainScope k => simp [Ledger.after, handsOut, settles]
  | _ => cases hr

/-- When a scope that was left alone is drained, all its objects are freed but those that the
collector has come upon. -/
theorem Undisturbed.drain
    (hm : m.Undisturbed l n)
    (hc : m.heap.config.FreesSmall)
    (hs : m.heap.Open k s) :
    (∀ id, m.declinedAt id (.drainScope k) = []) ∧ (m.heap.drainScope k).1 + n k = s.used := by
  have hclosing := closing_steps m.heap k s
  have hslots := hm.roomy.addressesIn_eq hs.1
  have hdeclined : ∀ id, (m.heap.closing k s).declined id (m.heap.addressesIn s) = [] := by
    intro id
    refine declined_eq_nil (hclosing.sound hm.tracking.proper.sound) hc ?_ fun x hx h0 => ?_
    · rw [hslots, List.pairwise_map]
      refine List.nodup_range.imp fun {i j} hne h0 heq => hne ?_
      exact (hm.tracking.apart k i k j _ ⟨h0, s, hs, rfl⟩ ⟨h0, s, hs, heq.symm⟩).2
    · rw [hslots] at hx
      obtain ⟨i, -, hi⟩ := List.mem_map.1 hx
      obtain ⟨halive, hsmall, hbare⟩ := hm.disposable k i x ⟨h0, s, hs, hi⟩
      exact ⟨halive, hsmall, hbare⟩
  refine ⟨fun id => ?_, ?_⟩
  · rw [declinedAt_of_open hs, hdeclined, ite_self]
  · obtain ⟨owner, howner⟩ := Option.isSome_iff_exists.1 (hm.tracking.scopes.owned k s hs)
    obtain ⟨-, hcounts⟩ := freeTracked_counts (m.heap.addressesIn s) (m.heap.closing k s) s.worker
    rw [hdeclined, hm.roomy.length_addressesIn hs.1, hm.roomy.count_addressesIn hs.1,
      hm.blank k s hs] at hcounts
    rw [drainScope_of_owned hs.1 howner]
    exact hcounts

/-- A drain that is repeated keeps the invariant, as does every other move. -/
theorem Undisturbed.along
    (hm : m.Undisturbed l n)
    (hy : m.Allows y)
    (hsweeps : m.SweepsInPhase y)
    (hr : m.Repeats y ∨ m.Reserves l y) :
    (m.apply y).Undisturbed (l.after m y) fun k => n k + m.zeroedAt k y := by
  rcases hr with hr | hr
  · have hzero : ∀ k, m.zeroedAt k y = 0 := by
      cases y with
      | drainScope => exact fun _ => rfl
      | _ => cases hr
    simp only [hzero, Nat.add_zero, hr.apply_eq hm.roomy, Ledger.after_of_repeats hr]
    exact hm
  · exact hm.apply hy hsweeps hr

/-! ### A run -/

theorem Undisturbed.run
    (hm : m.Undisturbed l n)
    (hl : Legal SweepsInPhase m ys)
    (ha : Along Reserves Ledger.after m l ys) :
    (m.run ys).Undisturbed (notes Ledger.after m l ys) fun k => n k + m.zeroedIn k ys := by
  induction ys generalizing m l n with
  | nil => exact hm
  | cons y ys ih =>
      simp only [zeroedIn, ← Nat.add_assoc]
      exact ih (hm.along hl.1 hl.2.1 ha.1) hl.2.2 ha.2

/-- No free is declined when scopes that were left alone are drained. -/
theorem Undisturbed.declinedIn_eq_nil
    (hm : m.Undisturbed l n)
    (hc : m.heap.config.FreesSmall)
    (hl : Legal SweepsInPhase m ys)
    (ha : Along Reserves Ledger.after m l ys)
    (id : Nat) :
    m.declinedIn id ys = [] := by
  induction ys generalizing m l n with
  | nil => rfl
  | cons y ys ih =>
      have hrest := ih (hm.along hl.1 hl.2.1 ha.1)
        ((hm.tracking.proper.steps hl.1).config ▸ hc) hl.2.2 ha.2
      rw [declinedIn, hrest, List.append_nil]
      rcases ha.1 with hr | hr
      · exact (hr.nothing hm.roomy).1 id
      · cases y with
        | drainScope k =>
            obtain ⟨s, hs⟩ := hr.1
            exact (hm.drain hc hs).1 id
        | _ => rfl

theorem undisturbed_start
    (hc : Heap.create memory c = .ok h) :
    (start h).Undisturbed {} fun _ => 0 where
  tracking := tracking_start hc
  roomy := (reconciled_start hc).roomy
  disposable := fun k i x hx => absurd hx (not_tracks_start hc k i x)
  blank := fun k s hs => absurd hs (not_open_start hc k s)
  young := fun _ _ => rfl

end Machine

end EagerHeap
