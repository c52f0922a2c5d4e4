import EagerHeap.Proofs.Cycle.Hidden
import EagerHeap.Proofs.Run.Awaited
import EagerHeap.Proofs.Run.Freed
/-!
# Garbage is reclaimed within one cycle

The objects to which neither the roots nor finalizers lead when a cycle begins are white then. As long
as nobody does anything with their addresses they stay hidden from the marker, so the sweeper of the
cycle finds them white, frees them, and counts each of them once.

Main results: `Proper.conceals`, `Proper.dooms` and `garbage_reclaimed`.
-/

namespace EagerHeap

namespace Machine

variable {P : Machine → Move → Prop} {G : Nat → Prop} {m : Machine} {y : Move} {ys : List Move}
  {n x memory : Nat} {c : Cell} {k : Collector} {t : CycleTotals} {freed : List Cell} {cfg : Config}
  {h : Heap}

open Heap

/-! ### Addresses that nobody uses -/

/-- A copy into an object that may hold addresses stores no address of a set: its whole words come
from such an object outside of the set, or none of them is such an address, and the bytes behind them
make up no such address. -/
def CopiesNone (G : Nat → Prop) (m : Machine) (source target bytes : Nat) : Prop :=
  ((∃ c, m.heap.arena.cell? source = some c ∧ c.header.state = .allocated ∧ c.shape = .scan ∧
        bytes ≤ c.size ∧ ¬ G source) ∨
      ∀ v ∈ m.heap.arena.words source (bytes / Word.bytes), ¬ G v) ∧
    (bytes % Word.bytes ≠ 0 →
      ¬ G ((m.heap.copyBytes source target bytes .scan).readWord target (bytes / Word.bytes)))

instance decidableCopiesNone (G : Nat → Prop) [DecidablePred G] (m : Machine)
    (source target bytes : Nat) : Decidable (m.CopiesNone G source target bytes) :=
  inferInstanceAs (Decidable (
    ((∃ c, m.heap.arena.cell? source = some c ∧ c.header.state = .allocated ∧ c.shape = .scan ∧
          bytes ≤ c.size ∧ ¬ G source) ∨
        ∀ v ∈ m.heap.arena.words source (bytes / Word.bytes), ¬ G v) ∧
      (bytes % Word.bytes ≠ 0 →
        ¬ G ((m.heap.copyBytes source target bytes .scan).readWord target (bytes / Word.bytes)))))

/-- A move stores no address of a set, attaches no record there, and has no address there as a
root. -/
def Ignores (G : Nat → Prop) (m : Machine) : Move → Prop
  | .write _ _ v => ¬ G v
  | .copy source target bytes .scan => m.CopiesNone G source target bytes
  | .attach x _ => ¬ G x
  | .shadeRoots roots | .finishMarking roots => ∀ x ∈ roots, ¬ G x
  | _ => True

instance decidableIgnores (G : Nat → Prop) [DecidablePred G] (m : Machine) :
    (y : Move) → Decidable (m.Ignores G y)
  | .write _ _ v => inferInstanceAs (Decidable (¬ G v))
  | .copy source target bytes .scan =>
    inferInstanceAs (Decidable (m.CopiesNone G source target bytes))
  | .attach x _ => inferInstanceAs (Decidable (¬ G x))
  | .shadeRoots roots | .finishMarking roots => inferInstanceAs (Decidable (∀ x ∈ roots, ¬ G x))
  | .addWorker | .flushWorker _ | .retireWorker _ | .count .. | .reuse .. | .claim .. | .takePartial _
  | .carveBlock _ | .setCursor .. | .carveRun .. | .free .. | .copy _ _ _ .noScan | .startBatch | .fire
  | .endBatch | .breakBatch | .makeRegistry _ | .dropRegistry _ | .enterScope .. | .recordTracked ..
  | .drainScope _ | .leakScope _ | .observe | .attachCollector | .detachCollector | .begin
  | .markStep _ | .terminate | .resurrect | .enterSweep | .zeroSlots | .startSweep | .sweepStep _
  | .finish | .closeCycle => .isTrue trivial

/-- A move uses no address of a set: it ignores them, and it frees no object there eagerly. -/
def Shuns (G : Nat → Prop) (m : Machine) (y : Move) : Prop :=
  m.Ignores G y ∧ ∀ x, G x → ¬ m.Parks y x

/-- The white objects of a set are concealed from the marker: nothing leads to them that it comes
to. -/
structure Conceals (m : Machine) (G : Nat → Prop) : Prop where
  secluded : m.heap.Secluded G
  barrier : ∀ x ∈ m.heap.barrier, ¬ m.heap.Hidden G x
  roots : m.heap.phase.isMarking = true → ∀ x ∈ m.heap.records.roots, ¬ m.heap.Hidden G x

/-- The words of an object that is not hidden are no addresses of hidden objects. -/
theorem Conceals.not_hidden_word
    {i : Nat}
    (hc : m.Conceals G)
    (hl : m.heap.arena.Layout)
    (hx : m.heap.arena.Object x c)
    (hscan : c.shape = .scan)
    (hG : ¬ G x)
    (hi : i < c.size / Word.bytes) :
    ¬ m.heap.Hidden G (m.heap.arena.memory.read (Arena.wordIndex x + i)) := by
  intro hhidden
  refine hG (hc.secluded.alone x _ ⟨c, hx, hscan, i, hi, ?_⟩ hhidden).1
  rw [Arena.read, hl.wordIndex_word hx.1]

/-- The whole words that are copied are no addresses of hidden objects. -/
theorem Conceals.not_hidden_copied
    {source target bytes i : Nat}
    (hc : m.Conceals G)
    (hl : m.heap.arena.Layout)
    (hs : m.CopiesNone G source target bytes)
    (hi : i < bytes / Word.bytes) :
    ¬ m.heap.Hidden G (m.heap.arena.memory.read (Arena.wordIndex source + i)) := by
  rcases hs.1 with ⟨c, hx, hst, hscan, hle, hG⟩ | hnone
  · refine hc.not_hidden_word hl ⟨hx, hst⟩ hscan hG ?_
    exact Nat.lt_of_lt_of_le hi (Nat.div_le_div_right hle)
  · exact fun hhidden => hnone _ (List.mem_map.2 ⟨_, List.mem_range'_1.2 (by omega), rfl⟩) hhidden.1

/-- What is stored into objects that may hold addresses is no address of a hidden object. -/
theorem Conceals.not_hidden_stored
    {v : Nat}
    (hc : m.Conceals G)
    (hl : m.heap.arena.Layout)
    (hs : m.Shuns G y)
    (hv : v ∈ m.stored y) :
    ¬ m.heap.Hidden G v := by
  cases y with
  | write obj i w =>
      rw [List.mem_singleton.1 hv]
      exact fun hhidden => hs.1 hhidden.1
  | copy source target bytes shape =>
      cases shape with
      | noScan => cases hv
      | scan =>
          obtain ⟨j, hj, rfl⟩ := List.mem_map.1 hv
          have hrange := List.mem_range'_1.1 hj
          have hword := hc.not_hidden_copied hl hs.1 (i := j - Arena.wordIndex source) (by omega)
          rwa [show Arena.wordIndex source + (j - Arena.wordIndex source) = j by omega] at hword
  | _ => cases hv

/-- A copy writes no address of a hidden object into an object that may hold addresses. -/
theorem Conceals.copied
    {source target bytes i : Nat}
    (hc : m.Conceals G)
    (hl : m.heap.arena.Layout)
    (hs : m.CopiesNone G source target bytes)
    (hx : m.heap.arena.Object target c)
    (hhidden : m.heap.Hidden G (m.heap.arena.copied source target bytes i
      (m.heap.arena.memory.read (Arena.wordIndex target + i)))) :
    m.heap.arena.copied source target bytes i
        (m.heap.arena.memory.read (Arena.wordIndex target + i)) =
      m.heap.arena.memory.read (Arena.wordIndex target + i) := by
  have hread : (m.heap.copyBytes source target bytes .scan).readWord target i =
      m.heap.arena.copied source target bytes i
        (m.heap.arena.memory.read (Arena.wordIndex target + i)) := by
    rw [readWord, arena_copyBytes, Arena.read, hl.wordIndex_word hx.1, Arena.read_copy]
  by_cases hi : i < bytes / Word.bytes
  · rw [Arena.copied, if_pos hi] at hhidden
    exact absurd hhidden (hc.not_hidden_copied hl hs hi)
  · by_cases htail : i = bytes / Word.bytes ∧ bytes % Word.bytes ≠ 0
    · rw [← hread, htail.1] at hhidden
      exact absurd hhidden.1 (hs.2 htail.2)
    · rw [Arena.copied, if_neg hi, if_neg htail]

/-! ### One move -/

/-- Marking reaches no hidden object, and changes nothing else. -/
theorem Proper.bounded_of_paint
    (hm : m.Proper)
    (hy : m.Allows y)
    (hs : m.Shuns G y)
    (hpaint : y.Does .paint)
    (hidle : m.heap.phase ≠ .idle)
    (hc : m.Conceals G) :
    (m.apply y).heap.Bounded (fun x => ¬ m.heap.Hidden G x) ∧
      Arena.Alike m.heap.arena (m.apply y).heap.arena := by
  have hcol := hm.isSome_collector (Or.inr hidle)
  have hbounded := hc.secluded.bounded
  have hstored : ∀ x ∈ m.heap.barrier, m.heap.arena.isAllocated x = true → ¬ m.heap.Hidden G x :=
    fun x hx _ => hc.barrier x hx
  have hshaded : ∀ roots, (∀ x ∈ roots, ¬ G x) → m.heap.phase.isMarking = true →
      (m.heap.shadeRoots roots).Bounded fun x => ¬ m.heap.Hidden G x := by
    intro roots hroots hmark
    refine hbounded.shadeAll hcol fun x hx _ hhidden => ?_
    rcases List.mem_append.1 hx with hx | hx
    · exact hroots x hx hhidden.1
    · exact hc.roots hmark x hx hhidden
  cases y with
  | shadeRoots roots =>
      have hphase : m.heap.phase = .mark := hm.fits (s := .beginning) hy
      refine ⟨hshaded roots hs.1 ?_, (painted_shadeRoots m.heap roots).recolored.alike⟩
      rw [hphase]
      rfl
  | markStep n =>
      exact ⟨hbounded.markStep hm.sound hcol hstored n,
        (painted_markStep m.heap n).recolored.alike⟩
  | finishMarking roots =>
      have hphase : m.heap.phase = .termination := hm.fits (s := .finishing) hy
      have hmark : m.heap.phase.isMarking = true := by
        rw [hphase]
        rfl
      have hpainted := (painted_shadeRoots m.heap roots).trans (painted_markAll _)
      refine ⟨(hshaded roots hs.1 hmark).markAll ((shadeRoots_steps _ roots).sound hm.sound)
        ((isSome_collector_marking _ _).trans hcol) fun x hx _ => ?_, hpainted.recolored.alike⟩
      rw [shadeRoots, barrier_marking] at hx
      exact hc.barrier x hx
  | resurrect =>
      have hmarked := (markAll_steps m.heap).sound hm.sound
      have hcol' := (isSome_collector_markAll m.heap).trans hcol
      refine ⟨(hbounded.markAll hm.sound hcol hstored).resurrectAll hmarked hcol'
        (barrier_markAll _) fun x hf hhidden => ?_,
        (painted_markAll m.heap).recolored.alike.trans (resurrects_resurrectAll hmarked).alike⟩
      rw [records_markAll, hc.secluded.bare x hhidden] at hf
      cases hf
  | _ => simp [Move.Does] at hpaint

/-- Marking leaves the same objects hidden. -/
theorem Proper.secluded_of_paint
    (hm : m.Proper)
    (hy : m.Allows y)
    (hs : m.Shuns G y)
    (hpaint : y.Does .paint)
    (hidle : m.heap.phase ≠ .idle)
    (hc : m.Conceals G) :
    (m.apply y).heap.Secluded G ∧ ∀ x, (m.apply y).heap.Hidden G x ↔ m.heap.Hidden G x := by
  obtain ⟨hb, ha⟩ := hm.bounded_of_paint hy hs hpaint hidle hc
  have hnot : (∀ x, ¬ y.Does (.park x)) ∧ ¬ y.Does .begin ∧ ∀ x kind, ¬ y.Does (.attach x kind) := by
    cases y <;> simp [Move.Does] at hpaint ⊢
  exact hc.secluded.of_bounded hb ha (hm.steps hy) hm.sound hnot.1 hnot.2.1 hnot.2.2

/-- A write stores no address of a hidden object. -/
theorem Proper.secluded_of_write
    {l : Act}
    (hm : m.Proper)
    (hy : m.Allows y)
    (hs : m.Shuns G y)
    (hl : y.Does l)
    (hwrites : l.Writes)
    (hidle : m.heap.phase ≠ .idle)
    (hc : m.Conceals G) :
    (m.apply y).heap.Secluded G ∧ ∀ x, (m.apply y).heap.Hidden G x → m.heap.Hidden G x := by
  cases y with
  | write obj i v =>
      obtain ⟨d, hd, hst, hi⟩ := hy
      have ht : Tick m.heap (.store obj i v) (m.apply (.write obj i v)).heap := .store v hd hst hi
      refine ⟨ht.secluded hm.sound (by simp) (by simp) hidle (by simp) ?_ hc.secluded,
        fun x => ht.hidden_of hm.sound (by simp) (by simp) hidle⟩
      intro x e j _ _ _ hhidden
      rw [Act.overwrite] at hhidden ⊢
      split
      · next heq =>
          rw [if_pos heq] at hhidden
          exact absurd hhidden.1 hs.1
      · rfl
  | copy source target bytes shape =>
      obtain ⟨d, hd, hst, rfl, hb⟩ := hy
      have ht : Tick m.heap (.copy source target bytes d.shape)
          (m.apply (.copy source target bytes d.shape)).heap := .copy source hd hst hb
      refine ⟨ht.secluded hm.sound (by simp) (by simp) hidle (by simp) ?_ hc.secluded,
        fun x => ht.hidden_of hm.sound (by simp) (by simp) hidle⟩
      intro x e j he hscan _ hhidden
      rw [Act.overwrite] at hhidden ⊢
      split
      · next heq =>
          subst heq
          rw [if_pos rfl] at hhidden
          obtain rfl := he.unique ⟨hd, hst⟩
          have hnone : m.CopiesNone G source target bytes := by
            have hcopies := hs.1
            rwa [hscan] at hcopies
          exact hc.copied hm.sound.layout hnone he hhidden
      · rfl
  | _ =>
      cases l with
      | store => simp [Move.Does] at hl
      | copy => simp [Move.Does] at hl
      | _ => cases hwrites

/-- Every move of a cycle that uses none of their addresses leaves the hidden objects secluded. -/
theorem Proper.secluded
    (hm : m.Proper)
    (hy : m.Allows y)
    (hs : m.Shuns G y)
    (hbegin : y ≠ .begin)
    (hidle : m.heap.phase ≠ .idle)
    (hc : m.Conceals G) :
    (m.apply y).heap.Secluded G ∧ ∀ x, (m.apply y).heap.Hidden G x → m.heap.Hidden G x := by
  by_cases hpaint : y.Does .paint
  · obtain ⟨hsec, hidden⟩ := hm.secluded_of_paint hy hs hpaint hidle hc
    exact ⟨hsec, fun x => (hidden x).1⟩
  by_cases hwrites : ∃ l, y.Does l ∧ l.Writes
  · obtain ⟨l, hl, hw⟩ := hwrites
    exact hm.secluded_of_write hy hs hl hw hidle hc
  by_cases hturn : y.Does .turn
  · -- A change of the phase concerns neither objects nor records.
    have hsame : (m.apply y).heap.arena = m.heap.arena ∧
        (m.apply y).heap.records = m.heap.records := by
      cases y with
      | terminate => exact ⟨rfl, rfl⟩
      | enterSweep => exact ⟨rfl, rfl⟩
      | finish => exact ⟨rfl, rfl⟩
      | _ => simp [Move.Does] at hturn
    have hidden : ∀ x, (m.apply y).heap.Hidden G x ↔ m.heap.Hidden G x := by
      intro x
      rw [Hidden, hsame.1]
      rfl
    refine ⟨⟨fun x z hp hz => ?_, fun x hx => ?_⟩, fun x => (hidden x).1⟩
    · rw [hsame.1] at hp
      exact (hidden x).2 (hc.secluded.alone x z hp ((hidden z).1 hz))
    · rw [hsame.2]
      exact hc.secluded.bare x ((hidden x).1 hx)
  · refine (hm.steps hy).secluded hm.sound hpaint ?_ hturn hidle ?_
      (fun l hl hw => hwrites ⟨l, hl, hw⟩) hc.secluded
    · cases y <;> simp [Move.Does] at hbegin ⊢
    · intro x kind hl
      cases y with
      | attach z kind' =>
          cases hl
          exact hs.1
      | _ => simp [Move.Does] at hl

/-- Every move of a cycle that uses none of their addresses leaves the objects concealed. -/
theorem Proper.conceals
    (hm : m.Proper)
    (hb : m.Batched)
    (hy : m.Allows y)
    (hs : m.Shuns G y)
    (hphase : m.SweepsInPhase y)
    (hbegin : y ≠ .begin)
    (hidle : m.heap.phase ≠ .idle)
    (hc : m.Conceals G) :
    (m.apply y).Conceals G := by
  obtain ⟨hsec, hidden⟩ := hm.secluded hy hs hbegin hidle hc
  refine ⟨hsec, fun x hx hhidden => ?_, fun hmark x hx hhidden => ?_⟩
  · by_cases hlooks : y.Looks
    · rw [barrier_apply_of_looks hlooks] at hx
      exact Array.not_mem_empty x hx
    · rw [← Array.mem_toList_iff, hm.toList_barrier_apply hy hlooks] at hx
      rcases List.mem_append.1 hx with hx | hx
      · exact hc.barrier x (Array.mem_toList_iff.1 hx) (hidden x hhidden)
      · exact hc.not_hidden_stored hm.sound.layout hs (List.mem_filter.1 hx).1 (hidden x hhidden)
  · have hmark' := hm.isMarking_of_apply hy hbegin hmark
    by_cases hresurrect : y = .resurrect
    · subst hresurrect
      rcases mem_roots_resurrectAll ((markAll_steps m.heap).sound hm.sound) hx with hroot | hf
      · rw [records_markAll] at hroot
        exact hc.roots hmark' x hroot (hidden x hhidden)
      · rw [records_markAll, hc.secluded.bare x (hidden x hhidden)] at hf
        cases hf
    · refine hc.roots hmark' x (hm.mem_roots_of hb hy hresurrect ?_ hx) (hidden x hhidden)
      rintro n rfl
      rw [show m.heap.phase = .sweep from hphase] at hmark'
      cases hmark'

/-- A hidden object that is not reclaimed stays hidden. -/
theorem Proper.stays_hidden
    (hm : m.Proper)
    (hy : m.Allows y)
    (hs : m.Shuns G y)
    (hbegin : y ≠ .begin)
    (hidle : m.heap.phase ≠ .idle)
    (hc : m.Conceals G)
    (hx : m.heap.arena.Object x c)
    (hG : G x)
    (hw : c.header.color = .white)
    (hnot : ¬ m.Reclaims y x) :
    ∃ hd, (m.apply y).heap.arena.Object x { c with header := hd } ∧ hd.color = .white := by
  rcases hm.stays_unreclaimed hy hx hnot with ⟨hd, hobj⟩ | hparks
  swap
  · exact absurd hparks (hs.2 x hG)
  refine ⟨hd, hobj, ?_⟩
  by_cases hpaint : y.Does .paint
  · have hhidden := ((hm.secluded_of_paint hy hs hpaint hidle hc).2 x).2
      (hidden_iff.2 ⟨hG, c, hx, hw⟩)
    obtain ⟨-, d, hd', hcol⟩ := hidden_iff.1 hhidden
    obtain rfl := hobj.unique hd'
    exact hcol
  have hnobegin : ¬ y.Does .begin := by
    cases y <;> simp [Move.Does] at hbegin ⊢
  by_cases hbirth : y.Does (.birth x)
  · -- A move that hands out objects frees none, so the object was there all the time.
    have hfrees : ¬ y.Does (.park x) ∧ ¬ y.Does (.reclaim x) := by
      cases y <;> simp [Move.Does] at hbirth ⊢
    obtain ⟨hd', hobj', hcol⟩ :=
      (hm.steps hy).keepsColor hm.sound hx hfrees.1 hfrees.2 hpaint hnobegin
    cases hobj.unique hobj'
    exact hcol.trans hw
  · exact (hm.steps hy).white hm.sound hbirth hpaint hnobegin (fun d hd => hx.unique hd ▸ hw)
      _ hobj

/-! ### The sweep -/

/-- The sweeper comes to every block that was carved when it starts. -/
theorem comesTo_startSweep
    (hl : h.arena.Layout)
    (hcol : h.collector.isSome = true)
    (hx : h.arena.Object x c) :
    ∃ n, h.startSweep.ComesTo n x := by
  obtain ⟨k, hk⟩ := Option.isSome_iff_exists.1 hcol
  have hcells : x ∈ h.arena.cells := (Arena.mem_cells hl).2 ⟨c, hx.1⟩
  obtain ⟨-, hlt⟩ := (mem_sweepRange hl hx).1 hcells
  refine ⟨h.arena.pages.next, { k with sweepNext := 0, sweepLimit := h.arena.pages.next }, ?_,
    Nat.zero_le _, ?_⟩
  · rw [startSweep, modifyCollector, hk]
    rfl
  · rwa [Nat.sub_zero, Nat.min_self]

/-- The sweeper will come to a block that it has not come to yet. -/
theorem Proper.comesTo_sweepStep
    {i : Nat}
    (hm : m.Proper)
    (hy : m.Allows (.sweepStep n))
    (hcomes : m.heap.ComesTo i x)
    (hnot : ¬ m.heap.ComesTo n x) :
    ∃ j, (m.apply (.sweepStep n)).heap.ComesTo j x := by
  obtain ⟨k, hk, hle, hlt⟩ := hcomes
  have hbehind : ¬ (x - Arena.start) / blockSize < k.sweepNext + min n (k.sweepLimit - k.sweepNext) :=
    fun hnext => hnot ⟨k, hk, hle, hnext⟩
  refine ⟨k.sweepLimit, _, hm.collector_sweepStep hy hk, ?_, ?_⟩ <;>
    · simp only
      omega

/-- The objects of a set that were there in a heap are doomed: each of them was freed, or it is still
there and hidden, and the sweeper will come to it. -/
structure Dooms (h : Heap) (G : Nat → Prop) (freed : List Cell) (m : Machine) : Prop where
  conceals : m.heap.phase ≠ .idle → m.Conceals G
  fate : ∀ x c, h.arena.Object x c → G x →
    (∃ hd, { c with header := hd } ∈ freed) ∨ m.heap.phase ≠ .idle ∧
      ∃ hd, m.heap.arena.Object x { c with header := hd } ∧ hd.color = .white
  ahead : m.Sweeping → ∀ x, m.heap.Hidden G x → ∃ n, m.heap.ComesTo n x

/-- While blocks are swept, the sweeper will come to every hidden object. -/
theorem Proper.ahead
    (hm : m.Proper)
    (hy : m.Allows y)
    (hs : m.Shuns G y)
    (hbegin : y ≠ .begin)
    (hidle : m.heap.phase ≠ .idle)
    (hc : m.Conceals G)
    (ha : m.Sweeping → ∀ x, m.heap.Hidden G x → ∃ n, m.heap.ComesTo n x) :
    (m.apply y).Sweeping → ∀ x, (m.apply y).heap.Hidden G x →
      ∃ n, (m.apply y).heap.ComesTo n x := by
  intro hsweeping x hx
  have hbefore := (hm.secluded hy hs hbegin hidle hc).2 x hx
  obtain ⟨hG, c, ho, hw⟩ := hidden_iff.1 hbefore
  by_cases hstart : y = .startSweep
  · subst hstart
    exact comesTo_startSweep hm.sound.layout (hm.isSome_collector (Or.inr hidle)) ho
  have hfinish : y ≠ .finish := by
    rintro rfl
    cases (congrArg Phase.next hy.2).symm.trans hsweeping.1
  obtain ⟨i, hcomes⟩ := ha ((hm.sweeping_iff hy hstart hfinish).1 hsweeping) x hbefore
  by_cases hsweep : ∃ n, y = .sweepStep n
  · obtain ⟨n, rfl⟩ := hsweep
    refine hm.comesTo_sweepStep hy hcomes fun hnow => ?_
    -- The sweeper would have freed the object.
    have hsweepable := isSweepable_iff.2 ⟨⟨c, ho, hw⟩, hc.secluded.bare x hbefore⟩
    obtain ⟨-, d, hd, -⟩ := hidden_iff.1 hx
    have hvacant := ((hm.reclaims_iff hy).2 ⟨n, rfl, hnow, hsweepable⟩).2
    rw [hd.not_isVacant] at hvacant
    cases hvacant
  · refine ⟨i, hcomes.of_account (hm.account hy ?_)⟩
    have hcol := hm.isSome_collector (Or.inr hidle)
    intro hacc
    cases y with
    | attachCollector =>
        rw [show m.heap.collector = none from hy] at hcol
        cases hcol
    | detachCollector => exact hidle hy.2
    | begin => exact hbegin rfl
    | startSweep => exact hstart rfl
    | sweepStep n => exact hsweep ⟨n, rfl⟩
    | closeCycle => exact hidle (hm.fits (s := .closing) hy)
    | _ => cases hacc

/-- What the mutators and the client of the collector guarantee for the objects of a set: no address
of theirs is used, blocks are swept in the sweeping phase, and the cycle ends after all of them. -/
def Forsakes (G : Nat → Prop) (m : Machine) (y : Move) : Prop :=
  m.Shuns G y ∧ m.SweepsInPhase y ∧ m.FinishesSwept y

instance decidableForsakes (xs : List Nat) (m : Machine) (y : Move) :
    Decidable (m.Forsakes (· ∈ xs) y) :=
  inferInstanceAs (Decidable ((m.Ignores (· ∈ xs) y ∧ ∀ x ∈ xs, ¬ m.Parks y x) ∧
    m.SweepsInPhase y ∧ m.FinishesSwept y))

/-- A move that forsakes the objects of a set forsakes those of every smaller one. -/
theorem Forsakes.mono
    {G' : Nat → Prop}
    (hf : m.Forsakes G' y)
    (hG : ∀ x, G x → G' x) :
    m.Forsakes G y := by
  obtain ⟨⟨hignores, hparks⟩, hrest⟩ := hf
  refine ⟨⟨?_, fun x hx => hparks x (hG x hx)⟩, hrest⟩
  cases y with
  | write obj i v => exact fun hv => hignores (hG v hv)
  | copy source target bytes shape =>
      cases shape with
      | noScan => trivial
      | scan =>
          obtain ⟨hwords, htail⟩ := hignores
          refine ⟨hwords.imp ?_ fun hnone v hv hx => hnone v hv (hG v hx),
            fun h hx => htail h (hG _ hx)⟩
          rintro ⟨c, hc, hst, hscan, hle, hsource⟩
          exact ⟨c, hc, hst, hscan, hle, fun hx => hsource (hG _ hx)⟩
  | attach x kind => exact fun hx => hignores (hG x hx)
  | shadeRoots roots => exact fun x hx hroot => hignores x hx (hG x hroot)
  | finishMarking roots => exact fun x hx hroot => hignores x hx (hG x hroot)
  | _ => trivial

/-- Every move of a cycle that forsakes the doomed objects leaves them doomed. -/
theorem Proper.dooms
    (hm : m.Proper)
    (hb : m.Batched)
    (hy : m.Allows y)
    (hf : m.Forsakes G y)
    (hbegin : y ≠ .begin)
    (hd : m.Dooms h G freed) :
    (m.apply y).Dooms h G (freed ++ m.reclaimed y) := by
  obtain ⟨hs, hphase, hswept⟩ := hf
  by_cases hidle : m.heap.phase = .idle
  · have hidle' := hm.phase_idle hy hbegin hidle
    refine ⟨fun hne => absurd hidle' hne, fun x c ho hG => Or.inl ?_, fun hsweeping => ?_⟩
    · obtain ⟨hd, hmem⟩ := (hd.fate x c ho hG).resolve_right fun hnot => hnot.1 hidle
      exact ⟨hd, List.mem_append_left _ hmem⟩
    · cases hidle'.symm.trans hsweeping.1
  have hc := hd.conceals hidle
  refine ⟨fun _ => hm.conceals hb hy hs hphase hbegin hidle hc, fun x c ho hG => ?_,
    hm.ahead hy hs hbegin hidle hc hd.ahead⟩
  rcases hd.fate x c ho hG with ⟨hd, hmem⟩ | ⟨-, hd', hobj, hw⟩
  · exact Or.inl ⟨hd, List.mem_append_left _ hmem⟩
  by_cases hreclaims : m.Reclaims y x
  · obtain rfl := Arena.addr_of_cell? ho.1
    have hcell := (mem_reclaimed (c := { c with header := hd' }) hm.sound.layout).2
      ⟨hobj.1, hreclaims⟩
    exact Or.inl ⟨hd', List.mem_append_right _ hcell⟩
  · obtain ⟨hd'', hobj', hw'⟩ := hm.stays_hidden hy hs hbegin hidle hc hobj hG hw hreclaims
    refine Or.inr ⟨hm.phase_ne_idle hy ?_ hidle, hd'', hobj', hw'⟩
    -- The cycle does not end before the sweeper has come to the object.
    rintro rfl
    have hsweeping : m.Sweeping := ⟨hy.2, by rw [hy.1]; exact Stage.noConfusion⟩
    obtain ⟨i, hcomes⟩ := hd.ahead hsweeping x (hidden_iff.2 ⟨hG, _, hobj, hw⟩)
    have hleft := hcomes.hasUnswept
    rw [hswept rfl] at hleft
    cases hleft

/-! ### Cycles -/

/-- The garbage is doomed when a cycle begins and nothing is remembered. -/
theorem Proper.dooms_begin
    {roots : List Nat}
    (hm : m.Proper)
    (hy : m.Allows .begin)
    (hbarrier : m.heap.barrier = #[]) :
    (m.apply .begin).Dooms m.heap (m.heap.Garbage roots) [] := by
  have hphase : (m.apply .begin).heap.phase = .mark := congrArg Phase.next hy.2.1
  obtain ⟨hsec, hidden⟩ := secluded_begin m.heap roots
  refine ⟨fun _ => ⟨hsec, fun x hx => ?_, fun _ x hx hhidden => ?_⟩, fun x c ho _ => Or.inr ?_,
    fun hsweeping => ?_⟩
  · have hnone : (m.apply .begin).heap.barrier = #[] := hbarrier
    rw [hnone] at hx
    cases Array.not_mem_empty x hx
  · have hgarbage := (hidden x).1 hhidden
    exact hgarbage.2 (.root hgarbage.1 (Or.inl (Or.inr hx)))
  · rcases hm.stays hy ho (by simp [Move.Does]) with ⟨hd, hobj⟩ | hparks
    · refine ⟨?_, hd, hobj, Arena.color_resetColors hobj⟩
      rw [hphase]
      exact Phase.noConfusion
    · cases hparks.1
  · cases hphase.symm.trans hsweeping.1

/-- The roots with which a cycle begins are no garbage, whatever happens before they are shaded. -/
theorem forsakes_shadeRoots (h : Heap) (m : Machine) (roots : List Nat) :
    m.Forsakes (h.Garbage roots) (.shadeRoots roots) := by
  refine ⟨⟨fun x hx hgarbage => ?_, fun x _ hparks => ?_⟩, trivial, nofun⟩
  · exact hgarbage.2 (.root hgarbage.1 (Or.inl (Or.inl hx)))
  · cases hparks.1

/-- What is doomed stays so until the cycle is accounted for, and what is freed is counted. -/
theorem Legal.dooms
    (hl : Legal (Forsakes G) m ys)
    (hm : m.Proper)
    (hb : m.Batched)
    (hclose : .closeCycle ∉ ys)
    (ht : m.Tallied t freed k)
    (hd : m.Dooms h G freed) :
    ∃ k', (m.run ys).Tallied t (freed ++ m.reclaimedIn ys) k' ∧
      (m.run ys).Dooms h G (freed ++ m.reclaimedIn ys) := by
  induction ys generalizing m freed k with
  | nil =>
      rw [reclaimedIn, List.append_nil]
      exact ⟨k, ht, hd⟩
  | cons y ys ih =>
      obtain ⟨hy, hf, hrest⟩ := hl
      obtain ⟨-, -, hbegin⟩ := ht.not_outside hy
      have hfirst : y ≠ .closeCycle := fun e => hclose (e ▸ List.mem_cons_self ..)
      obtain ⟨k', ht'⟩ := hm.tallied hy hf.2.1 hfirst ht
      rw [reclaimedIn, ← List.append_assoc, run_cons]
      exact ih hrest (hm.apply hy) (hm.batched hy hb) (fun h => hclose (List.mem_cons_of_mem _ h))
        ht' (hm.dooms hb hy hf hbegin hd)

/-- When a cycle is accounted for, all that was doomed is freed and counted. -/
theorem Tallied.closed
    (hm : m.Proper)
    (hy : m.Allows .closeCycle)
    (ht : m.Tallied t freed k)
    (hd : m.Dooms h G freed) :
    (∀ x c, h.arena.Object x c → G x → ∃ hd, { c with header := hd } ∈ freed) ∧
      (m.apply .closeCycle).heap.totals.objectsSwept = t.objectsSwept + freed.length ∧
      (m.apply .closeCycle).heap.totals.bytesSwept =
        t.bytesSwept + (freed.map Cell.size).sum ∧
      (m.apply .closeCycle).heap.totals.lastReclaimed = (freed.map Cell.size).sum := by
  have hidle : m.heap.phase = .idle := hm.fits (s := .closing) hy
  have htotals : (m.apply .closeCycle).heap.totals = m.heap.closeCycle.2.totals := rfl
  unfold Heap.totals Heap.closeCycle at htotals
  rw [ht.collector] at htotals
  rw [Heap.totals, htotals, ← ht.swept, ← ht.bytes, ← ht.totals]
  exact ⟨fun x c ho hG => (hd.fate x c ho hG).resolve_right fun h => h.1 hidle, rfl, rfl, rfl⟩

/-- A whole cycle frees and counts the garbage that it forsakes. -/
theorem Proper.reclaims_garbage
    {roots : List Nat}
    (hm : m.Proper)
    (hb : m.Batched)
    (hbegin : m.Allows .begin)
    (hbarrier : m.heap.barrier = #[])
    (hl : Legal (Forsakes (m.heap.Garbage roots)) (m.apply .begin) ys)
    (hclose : .closeCycle ∉ ys)
    (hend : ((m.apply .begin).run ys).Allows .closeCycle) :
    let freed := m.reclaimedIn (.begin :: ys ++ [.closeCycle])
    let m' := m.run (.begin :: ys ++ [.closeCycle])
    (∀ x c, m.heap.arena.Object x c → m.heap.Garbage roots x →
        ∃ hd, { c with header := hd } ∈ freed) ∧
      (freed.map Cell.addr).Nodup ∧
      m'.heap.totals.objectsSwept = m.heap.totals.objectsSwept + freed.length ∧
      m'.heap.totals.bytesSwept = m.heap.totals.bytesSwept + (freed.map Cell.size).sum ∧
      m'.heap.totals.lastReclaimed = (freed.map Cell.size).sum := by
  intro freed m'
  obtain ⟨k, ht⟩ := tallied_begin hbegin
  obtain ⟨k', ht', hd⟩ := hl.dooms (hm.apply hbegin) (hm.batched hbegin hb) hclose ht
    (hm.dooms_begin hbegin hbarrier)
  have hproper := hl.proper (hm.apply hbegin)
  have hfreed : freed = (m.apply .begin).reclaimedIn ys := by
    have hfirst : m.reclaimed .begin = [] := hm.reclaimed_eq_nil hbegin nofun
    have hlast := hproper.reclaimed_eq_nil hend nofun
    calc freed = m.reclaimed .begin ++ (m.apply .begin).reclaimedIn (ys ++ [.closeCycle]) := rfl
      _ = (m.apply .begin).reclaimedIn ys ++
          (((m.apply .begin).run ys).reclaimed .closeCycle ++ []) := by
        rw [hfirst, reclaimedIn_append]
        rfl
      _ = (m.apply .begin).reclaimedIn ys := by
        rw [hlast, List.append_nil, List.append_nil]
  have hrun : m' = ((m.apply .begin).run ys).apply .closeCycle :=
    run_append (m.apply .begin) ys [.closeCycle]
  obtain ⟨hall, hcounted⟩ := ht'.closed hproper hend hd
  rw [hrun, hfreed]
  exact ⟨hall, ht'.distinct, hcounted⟩

/-- Garbage is reclaimed within one cycle. Let a cycle begin in any state of a run in which nothing
is remembered, and let it end after all blocks were swept, whatever else happens before its roots are
shaded and afterwards. If nobody uses the address of an object that can be reached neither from the roots
nor from objects with attached, queued or running finalizers, the sweeper frees all these objects. It
frees no object twice, and each freed object is counted once, with its size. -/
theorem garbage_reclaimed
    {before window cycle : List Move} {roots : List Nat}
    (hc : Heap.create memory cfg = .ok h)
    (hl : Legal P (start h) before)
    (hbegin : ((start h).run before).Allows .begin)
    (hbarrier : ((start h).run before).heap.barrier = #[])
    (hwindow : Legal (Forsakes (((start h).run before).heap.Garbage roots))
      ((start h).run (before ++ [.begin])) window)
    (hshade : ((start h).run (before ++ .begin :: window)).Allows (.shadeRoots roots))
    (hcycle : Legal (Forsakes (((start h).run before).heap.Garbage roots))
      ((start h).run (before ++ .begin :: window ++ [.shadeRoots roots])) (cycle ++ [.closeCycle]))
    (hclose : .closeCycle ∉ window ++ cycle) :
    let m := (start h).run before
    let ys := .begin :: (window ++ .shadeRoots roots :: cycle) ++ [.closeCycle]
    let freed := m.reclaimedIn ys
    (∀ x c, m.heap.arena.Object x c → m.heap.Garbage roots x →
        ∃ hd, { c with header := hd } ∈ freed) ∧
      (freed.map Cell.addr).Nodup ∧
      (m.run ys).heap.totals.objectsSwept = m.heap.totals.objectsSwept + freed.length ∧
      (m.run ys).heap.totals.bytesSwept =
        m.heap.totals.bytesSwept + (freed.map Cell.size).sum ∧
      (m.run ys).heap.totals.lastReclaimed = (freed.map Cell.size).sum := by
  intro m ys freed
  have hm : m.Proper := hl.proper (proper_start hc)
  rw [run_append] at hwindow hshade
  rw [List.append_assoc, run_append] at hcycle
  obtain ⟨hcycle, hend, -⟩ := legal_append.1 hcycle
  have hlegal : Legal (Forsakes (m.heap.Garbage roots)) (m.apply .begin)
      (window ++ .shadeRoots roots :: cycle) := by
    refine legal_append.2 ⟨hwindow, hshade, forsakes_shadeRoots m.heap _ roots, ?_⟩
    rwa [List.cons_append, run_cons, run_append] at hcycle
  refine hm.reclaims_garbage (hl.batched hc) hbegin hbarrier hlegal (fun h => hclose ?_) ?_
  · rcases List.mem_append.1 h with hin | hin
    · exact List.mem_append_left _ hin
    · exact List.mem_append_right _ ((List.mem_cons.1 hin).resolve_left nofun)
  · rw [List.cons_append, run_cons, run_append] at hend
    rw [run_append]
    exact hend

/-- Two objects hold the addresses of each other, and nothing leads to them. -/
def cyclicBuffers : List Move :=
  [.attachCollector, .carveRun 1 .scan, .carveRun 1 .scan, .carveRun 1 .scan,
    .write (Arena.blockBase 1) 0 (Arena.blockBase 2), .write (Arena.blockBase 2) 7 (Arena.blockBase 1)]

/-- Before the roots of a cycle are shaded, an object is handed out, and the address of the root is stored
in it. -/
def busyWindow : List Move :=
  [.carveRun 1 .scan, .write (Arena.blockBase 3) 5 (Arena.blockBase 0)]

/-- The rest of a cycle. Meanwhile the object is written to and gets a cleanup, and a block that the
sweeper has released is carved again. -/
def busyCycle : List Move :=
  [.markStep 1, .write (Arena.blockBase 0) 5 (Arena.blockBase 3),
    .copy (Arena.blockBase 0) (Arena.blockBase 3) 44 .scan, .attach (Arena.blockBase 3) .cleanup,
    .terminate, .finishMarking [Arena.blockBase 0], .resurrect, .enterSweep, .zeroSlots, .startSweep,
    .sweepStep 2, .carveRun 1 .noScan, .sweepStep 2, .finish]

theorem garbage_reclaimed_cyclic :
    let m := (start (.empty fourBlocks)).run cyclicBuffers
    let ys := .begin :: (busyWindow ++ .shadeRoots [Arena.blockBase 0] :: busyCycle) ++ [.closeCycle]
    let freed := m.reclaimedIn ys
    freed.map Cell.addr = [Arena.blockBase 1, Arena.blockBase 2] ∧
      (∀ x c, m.heap.arena.Object x c → m.heap.Garbage [Arena.blockBase 0] x →
        ∃ hd, { c with header := hd } ∈ freed) ∧
      (freed.map Cell.addr).Nodup ∧
      (m.run ys).heap.totals.objectsSwept = m.heap.totals.objectsSwept + freed.length ∧
      (m.run ys).heap.totals.bytesSwept =
        m.heap.totals.bytesSwept + (freed.map Cell.size).sum ∧
      (m.run ys).heap.totals.lastReclaimed = (freed.map Cell.size).sum := by
  intro m ys freed
  have hbefore : Legal FinishesSwept (start (.empty fourBlocks)) cyclicBuffers := by
    decide +kernel
  have hwindow : Legal (Forsakes (· ∈ [Arena.blockBase 1, Arena.blockBase 2]))
        ((start (.empty fourBlocks)).run (cyclicBuffers ++ [.begin])) busyWindow ∧
      ((start (.empty fourBlocks)).run (cyclicBuffers ++ .begin :: busyWindow)).Allows
        (.shadeRoots [Arena.blockBase 0]) := by
    decide +kernel
  have hcycle : Legal (Forsakes (· ∈ [Arena.blockBase 1, Arena.blockBase 2]))
      ((start (.empty fourBlocks)).run
        (cyclicBuffers ++ .begin :: busyWindow ++ [.shadeRoots [Arena.blockBase 0]]))
      (busyCycle ++ [.closeCycle]) := by
    decide +kernel
  have hstate : m.Allows .begin ∧ m.heap.barrier = #[] ∧
      m.heap.arena.cells = [Arena.blockBase 0, Arena.blockBase 1, Arena.blockBase 2] ∧
      freed.map Cell.addr = [Arena.blockBase 1, Arena.blockBase 2] := by
    decide +kernel
  obtain ⟨hbegin, hbarrier, hcells, hfreed⟩ := hstate
  -- The first object is a root, so only the other two can be garbage.
  have hgarbage : ∀ x, m.heap.Garbage [Arena.blockBase 0] x →
      x ∈ [Arena.blockBase 1, Arena.blockBase 2] := by
    rintro x ⟨hal, hnot⟩
    obtain ⟨c, ho⟩ := Arena.exists_object hal
    have hlayout := (hbefore.proper (proper_start create_fourBlocks)).sound.layout
    have hmem := (Arena.mem_cells hlayout).2 ⟨c, ho.1⟩
    rw [hcells] at hmem
    rcases List.mem_cons.1 hmem with hroot | hmem
    · exact absurd (.root hal (Or.inl (Or.inl (List.mem_singleton.2 hroot)))) hnot
    · exact hmem
  exact ⟨hfreed, garbage_reclaimed create_fourBlocks hbefore hbegin hbarrier
    (hwindow.1.mono fun _ _ hf => hf.mono hgarbage) hwindow.2
    (hcycle.mono fun _ _ hf => hf.mono hgarbage) (by decide)⟩

end Machine

end EagerHeap
